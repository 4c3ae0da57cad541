import Ferrosa.Cluster.QuorumRead

/-!
# Partition reads through the write path

A node serves a partition read from its own store, or in cluster mode through the coordinator,
which returns rows only.  From those the partition is put together again.
-/

namespace Ferrosa.Cluster

open Storage

def unassignedDatacenter : DataCenter := "datacenter1"

namespace Coordinator

variable (coordinator : Coordinator) (crc : Bytes → UInt32) (token : Bytes → Int64)
  (stores : HostId → StoreView) (key : DecoratedKey) (slice : PartitionReadSlice)
  (network : Network) (level : ConsistencyLevel)

def coordinateReadWithFilter (rf : ℕ) : Option (Except ReadError (Option (List Row))) :=
  coordinator.coordinateReadFromReplicas crc token stores key slice network level
    (coordinator.ring.replicas key.token rf) ⟨level.blockFor rf, none⟩

/-- The coordinator's own datacenter: the one its node reports, or the smallest one of the ring. -/
def resolveLocalDc : DataCenter :=
  let ring := coordinator.ring
  let ownDc := ((ring.getNode coordinator.localNodeId).map fun _ =>
    ring.dataCenter coordinator.localNodeId).filter (fun dc => dc ≠ "")
  let datacenters := ((ring.nodeIds.map ring.dataCenter).filter (· ≠ "")).mergeSort (· ≤ ·)
  (ownDc.orElse fun _ => datacenters.head?).getD unassignedDatacenter

def nodeIsInDc (nodeDc localDc : DataCenter) : Bool :=
  nodeDc = localDc || (nodeDc = "" && localDc = unassignedDatacenter)

def ntsScope (strategy : ReplicationStrategy) : ReadQuorumScope :=
  ⟨strategy, coordinator.resolveLocalDc⟩

def ntsRequirement (strategy : ReplicationStrategy) : List NodeId × ℕ :=
  let allReplicas := coordinator.ring.replicasForStrategy key.token strategy
  let localDc := coordinator.resolveLocalDc
  match level with
  | .localQuorum | .localOne =>
    (allReplicas.filter fun id =>
        (coordinator.ring.getNode id).isSome && nodeIsInDc (coordinator.ring.dataCenter id) localDc,
      level.blockForDc ((strategy.dcReplicationFactors.lookup localDc).getD 1))
  | .dcQuorum | .eachQuorum =>
    (allReplicas, ((coordinator.ntsScope strategy).progress coordinator.ring level []).required)
  | _ => (allReplicas, level.blockFor strategy.replicationFactor)

def coordinateReadNtsFiltered (strategy : ReplicationStrategy) :
    Option (Except ReadError (Option (List Row))) :=
  let required := coordinator.ntsRequirement key level strategy
  if required.1.length < required.2 then
    some (.error (.unavailable required.2 required.1.length))
  else
    coordinator.coordinateReadFromReplicas crc token stores key slice network level required.1
      ⟨required.2, some (coordinator.ntsScope strategy)⟩

end Coordinator

inductive WritePath where
  | direct (engine : StoreView)
  | pair (localStorage : StoreView)
  | degradedPair (localStorage : StoreView)
  | cluster (coordinator : Coordinator) (stores : HostId → StoreView)
  | unavailable

inductive PathError where
  | cluster (error : ReadError)
  | primaryUnavailable
deriving DecidableEq, Repr

def partitionOfRows (key : DecoratedKey) (rows : Option (List Row)) : Option Partition :=
  (rows.filter fun rows => !rows.isEmpty).map fun rows => ⟨key, .live, none, rows⟩

namespace WritePath

variable (crc : Bytes → UInt32) (token : Bytes → Int64) (key : DecoratedKey)
  (network : Network) (level : ConsistencyLevel) (strategy : ReplicationStrategy)

def clusterRead (coordinator : Coordinator) (stores : HostId → StoreView)
    (slice : PartitionReadSlice) : Option (Except ReadError (Option (List Row))) :=
  match strategy with
  | .simple replicationFactor =>
    coordinator.coordinateReadWithFilter crc token stores key slice network level replicationFactor
  | .networkTopology _ =>
    coordinator.coordinateReadNtsFiltered crc token stores key slice network level strategy

def pkReadSlice (path : WritePath) (slice : PartitionReadSlice) :
    Option (Except PathError (Option Partition)) :=
  match path with
  | direct engine => some (.ok (readLocalPartition token key engine slice))
  | pair localStorage | degradedPair localStorage =>
    some (.ok (readLocalPartition token key localStorage slice))
  | cluster coordinator stores =>
    (clusterRead crc token key network level strategy coordinator stores slice).map
      fun result => (result.map (partitionOfRows key)).mapError PathError.cluster
  | unavailable => some (.error .primaryUnavailable)

def pkReadLimitedRows (path : WritePath) (rowLimit : ℕ) :
    Option (Except PathError (Option Partition)) :=
  path.pkReadSlice crc token key network level strategy (.prefixRows rowLimit)

def pkRead (path : WritePath) : Option (Except PathError (Option Partition)) :=
  path.pkReadLimitedRows crc token key network level strategy 0

end WritePath

end Ferrosa.Cluster
