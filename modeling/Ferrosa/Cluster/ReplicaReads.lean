import Ferrosa.Cluster.PartitionDigest
import Ferrosa.Cluster.StrategyReplicas
import Ferrosa.Storage.ReadView

/-!
# What one replica answers to a read

A coordinator asks a replica for a partition or for its digest, from its own store if the
replica is the local node and by a `ReadRequest` otherwise.  The answering side reads its
store, cuts a page and sends it with the newest timestamp and the digest of the page.
-/

namespace Ferrosa.Cluster

open Storage

/-- One row, the first rows, or the first rows strictly after a clustering; zero is no limit. -/
structure PartitionReadSlice where
  rowLimit : ℕ
  clustering : Option Bytes
  startClustering : Option Bytes
deriving DecidableEq, Repr

namespace PartitionReadSlice

def prefixRows (rowLimit : ℕ) : PartitionReadSlice := ⟨rowLimit, none, none⟩

end PartitionReadSlice

def u32Max : ℕ := 4294967295

/-- A `ReadRequest`, or a `PartitionSuffixReadRequest` if there is a start. -/
structure ReadRequest where
  digestOnly : Bool
  pageSize : ℕ
  pageState : Option ℕ
  clustering : Bytes
  startClustering : Option Bytes
deriving DecidableEq, Repr

structure ReadResponse where
  found : Bool
  partition : Option Partition
  timestamp : Int64
  digest : Option UInt32
  nextPageState : Option ℕ
deriving DecidableEq, Repr

def partitionReadRequest (slice : PartitionReadSlice) (digestOnly : Bool) : ReadRequest where
  digestOnly := digestOnly
  pageSize := min slice.rowLimit u32Max
  pageState := none
  clustering := slice.clustering.getD []
  startClustering := slice.startClustering

def rowWriteTimestamp (row : Row) : Int64 :=
  (row.cells.map (·.2.timestamp) ++
    [row.primaryKeyLiveness.timestamp, row.deletion.markedForDeleteAt]).foldl max Int64.minValue

def partitionWriteTimestamp (partition : Partition) : Int64 :=
  ((partition.rows ++ partition.staticRow.toList).map rowWriteTimestamp ++
    [partition.deletion.markedForDeleteAt]).foldl max Int64.minValue

section Replica

variable (crc : Bytes → UInt32) (token : Bytes → Int64) (key : DecoratedKey)

def readLocalPartition (view : StoreView) (slice : PartitionReadSlice) : Option Partition :=
  match slice.clustering, slice.startClustering with
  | some clustering, _ => view.readClusteringRow token key clustering
  | none, some start => view.readLimitedRowsFrom token key start slice.rowLimit
  | none, none => view.readLimitedRows token key slice.rowLimit

namespace ReadRequest

variable (request : ReadRequest)

def pageOffset : ℕ := request.pageState.getD 0

/-- A suffix request needs a start and takes neither a clustering nor a page state. -/
def malformed : Bool :=
  request.startClustering.any fun start =>
    start.isEmpty || !request.clustering.isEmpty || request.pageState.isSome

/-- The first page of a partition is read with one row more than fits, to see whether there
is another page. -/
def storageRead (view : StoreView) : Option Partition :=
  if !request.clustering.isEmpty then view.readClusteringRow token key request.clustering
  else
    match request.startClustering with
    | some start => view.readLimitedRowsFrom token key start request.pageSize
    | none =>
      if request.pageSize > 0 ∧ request.pageOffset = 0 then
        view.readLimitedRows token key (request.pageSize + 1)
      else view.read token key

/-- The page of the partition that is sent, and where the next one starts; a digest is always
made of all that was read. -/
def page (partition : Partition) : Partition × Option ℕ :=
  if request.pageSize > 0 ∧ !request.digestOnly ∧
      partition.rows.length > request.pageOffset + request.pageSize then
    let stop := min (request.pageOffset + request.pageSize) partition.rows.length
    ({ partition with rows := (partition.rows.take stop).drop request.pageOffset }, some stop)
  else if request.pageSize > 0 ∧ !request.digestOnly ∧ request.pageOffset > 0 then
    ({ partition with rows := partition.rows.drop request.pageOffset }, none)
  else (partition, none)

end ReadRequest

def ReadResponse.notFound : ReadResponse := ⟨false, none, Int64.minValue, none, none⟩

/-- `ReadRequestHandler`; `none` is a refused request. -/
def handleReadRequest (view : StoreView) (request : ReadRequest) : Option ReadResponse :=
  if request.malformed then none
  else
    match request.storageRead token key view with
    | none => some .notFound
    | some partition =>
      some
        { found := true
          partition := if request.digestOnly then none else some (request.page partition).1
          timestamp := partitionWriteTimestamp (request.page partition).1
          digest := some (computePartitionDigest crc (request.page partition).1)
          nextPageState := (request.page partition).2 }

end Replica

structure Coordinator where
  localNodeId : NodeId
  localHostId : HostId
  ring : PlacedRing

inductive ReplicaRead where
  | full (partition : Option Partition) (hostId : Option HostId)
  | digest (digest : Option UInt32) (timestamp : Int64) (hostId : Option HostId)
  | failed (full : Bool)
deriving DecidableEq, Repr

def ReplicaRead.isFailed : ReplicaRead → Bool
  | failed _ => true
  | _ => false

namespace Coordinator

variable (coordinator : Coordinator) (crc : Bytes → UInt32) (token : Bytes → Int64)
  (stores : HostId → StoreView) (key : DecoratedKey) (slice : PartitionReadSlice)

def hostOf (replica : NodeId) : Option HostId := (coordinator.ring.getNode replica).map (·.hostId)

def isLocal (replica : NodeId) : Bool :=
  replica == coordinator.localNodeId ||
    (coordinator.hostOf replica).any (· == coordinator.localHostId)

def localRead : Option Partition :=
  readLocalPartition token key (stores coordinator.localHostId) slice

def remotePartitionRead (replica : NodeId) (request : ReadRequest) :
    Option (ReadResponse × HostId) :=
  match coordinator.hostOf replica with
  | none => none
  | some host => (handleReadRequest crc token key (stores host) request).map (·, host)

def fullReadAttempt (replica : NodeId) : ReplicaRead :=
  if coordinator.isLocal replica then
    .full (coordinator.localRead token stores key slice) (coordinator.hostOf replica)
  else
    match coordinator.remotePartitionRead crc token stores key replica
        (partitionReadRequest slice false) with
    | none => .failed true
    | some (response, host) =>
      .full (if response.found then response.partition else none) (some host)

def digestReadAttempt (replica : NodeId) : ReplicaRead :=
  if coordinator.isLocal replica then
    match coordinator.localRead token stores key slice with
    | some partition =>
      .digest (some (computePartitionDigest crc partition))
        ((partition.rows.flatMap fun row => row.cells.map (·.2.timestamp)).foldl max Int64.minValue)
        none
    | none => .digest none Int64.minValue none
  else
    match coordinator.remotePartitionRead crc token stores key replica
        (partitionReadRequest slice true) with
    | none => .failed false
    | some (response, host) => .digest response.digest response.timestamp (some host)

end Coordinator

end Ferrosa.Cluster
