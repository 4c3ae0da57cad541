import Ferrosa.Cluster.ReplicaReads

/-!
# Coordinated reads

Above `ONE` a read asks one replica for the data and as many others for a digest as its level
needs.  A replica that fails is replaced by a spare one, which is asked for the data if no
other replica is.  If a digest differs, the partitions behind the differing digests are
fetched and merged with the data.  `ONE` asks the local replica, or the others one by one.

The reads in flight may complete in any order and any of them may fail: both are part of the
input, as is the fate of the later requests.
-/

namespace Ferrosa.Cluster

open Storage

structure CLReplicaPolicy where
  includeVoters : Bool
  includeLearners : Bool
  leaderOnly : Bool
deriving DecidableEq, Repr

namespace CLReplicaPolicy

def votersOnly : CLReplicaPolicy := ⟨true, false, false⟩

def anyReplica : CLReplicaPolicy := ⟨true, true, false⟩

def allReplicas : CLReplicaPolicy := ⟨true, true, false⟩

def leader : CLReplicaPolicy := ⟨true, false, true⟩

def admits (policy : CLReplicaPolicy) : NodeState → Bool
  | .normal => policy.includeVoters
  | .learner true => policy.includeLearners && !policy.leaderOnly
  | _ => false

end CLReplicaPolicy

def replicaPolicyForCl : ConsistencyLevel → CLReplicaPolicy
  | .one | .localOne => .anyReplica
  | .two | .three | .quorum | .localQuorum | .eachQuorum | .dcQuorum => .votersOnly
  | .all => .allReplicas
  | .serial | .localSerial => .leader

def aliasesConflict (ring : PlacedRing) : (prior : List NodeId) → List NodeId → Bool
  | _, [] => false
  | prior, id :: rest =>
    ((ring.getNode id).any fun info =>
      prior.any fun earlier =>
        (ring.getNode earlier).any fun other =>
          other.hostId == info.hostId && ring.dataCenter earlier != ring.dataCenter id) ||
    aliasesConflict ring (prior ++ [id]) rest

def retainEligibleReplicasForCl (level : ConsistencyLevel) (ring : PlacedRing)
    (replicas : List NodeId) : List NodeId :=
  if aliasesConflict ring [] replicas then []
  else
    replicas.foldl (fun retained id =>
        match ring.getNode id with
        | none => retained
        | some info =>
          if (replicaPolicyForCl level).admits info.state && !retained.any (fun kept =>
                (ring.getNode kept).any (fun other => other.hostId == info.hostId)) then
            retained ++ [id]
          else retained)
      []

structure ReadQuorumScope where
  strategy : ReplicationStrategy
  origin : DataCenter

structure ReadQuorumRequirement where
  initial : ℕ
  scope : Option ReadQuorumScope

namespace ReadQuorumScope

variable (scope : ReadQuorumScope) (ring : PlacedRing) (level : ConsistencyLevel)

def inDc (dc : DataCenter) (id : NodeId) : Bool :=
  (ring.getNode id).isSome && ring.dataCenter id == dc

def progress (responders : List NodeId) : Progress :=
  readQuorumProgress level scope.strategy scope.origin responders.length
    fun dc => responders.countP (inDc ring dc)

/-- The remote data centers that can still give their quorum, the cheapest first. -/
def remoteQuorums (candidates : List NodeId) : List (DataCenter × ℕ) :=
  (((scope.strategy.configured.filter (fun entry => entry.1 ≠ scope.origin)).map
      (fun entry => (entry.1, entry.2 / 2 + 1))).filter
    (fun dc => dc.2 ≤ candidates.countP (inDc ring dc.1))).mergeSort
      (fun left right => left.2 < right.2 || (left.2 == right.2 && left.1 ≤ right.1))

def certificateQuorums (candidates : List NodeId) : Option (List (DataCenter × ℕ)) :=
  match scope.strategy, level with
  | .simple _, _ => none
  | .networkTopology _, .dcQuorum =>
    (scope.strategy.configuredFactor scope.origin).map fun originRf =>
      (scope.origin, originRf / 2 + 1) ::
        (scope.remoteQuorums ring candidates).take (scope.strategy.configured.length / 2)
  | .networkTopology dcRf, .localQuorum =>
    (dcRf.lookup scope.origin).map fun rf => [(scope.origin, rf / 2 + 1)]
  | .networkTopology _, .eachQuorum =>
    some (scope.strategy.configured.map fun entry => (entry.1, entry.2 / 2 + 1))
  | .networkTopology _, _ => none

/-- Move a smallest certificate to the front, and say how many replicas it has. -/
def planInitialCertificate (candidates : List NodeId) : Option (ℕ × List NodeId) :=
  (scope.certificateQuorums ring level candidates).map fun quorums =>
    let selected := (quorums.flatMap fun quorum =>
      (candidates.filter (inDc ring quorum.1)).take quorum.2).dedup
    (selected.length, candidates.filter (· ∈ selected) ++ candidates.filter (· ∉ selected))

end ReadQuorumScope

namespace ReadQuorumRequirement

variable (requirement : ReadQuorumRequirement) (ring : PlacedRing) (level : ConsistencyLevel)

def plan (candidates : List NodeId) : ℕ × List NodeId :=
  (requirement.scope.bind fun scope =>
    scope.planInitialCertificate ring level candidates).getD (requirement.initial, candidates)

def progress (required : ℕ) (responders : List NodeId) : Progress :=
  match requirement.scope with
  | none => { required, received := responders.length }
  | some scope => scope.progress ring level responders

def available (replicas : List NodeId) : Progress :=
  requirement.progress ring level requirement.initial replicas

def isAvailable (replicas : List NodeId) : Bool :=
  match requirement.scope with
  | none => requirement.initial ≤ replicas.length
  | some scope => (scope.progress ring level replicas).satisfied

end ReadQuorumRequirement

structure Completion where
  position : ℕ
  answered : Bool
deriving DecidableEq, Repr

inductive RefetchError where
  | unreachable
  | malformed
deriving DecidableEq, Repr

inductive LocalFailure where
  | corruptSstable
  | other
deriving DecidableEq, Repr

/-- The fate of the reads in flight and of the later requests, and at `ONE` of the local read and
the pages. -/
structure Network where
  completions : List Completion
  refetch : HostId → Option RefetchError
  localFailure : Option LocalFailure
  pages : NodeId → List Bool

inductive ReadError where
  | unavailable (required alive : ℕ)
  | readTimeout (received required : ℕ) (dataPresent : Bool)
  | noReplica
  | noReplicaIdentity
  | malformedReply
  | corruptSstable
  | indexOutOfBounds
deriving DecidableEq, Repr

structure FullRead where
  replica : NodeId
  partition : Option Partition
  digest : Option UInt32
  hostId : Option HostId
deriving DecidableEq, Repr

structure DigestRead where
  replica : NodeId
  digest : Option UInt32
  timestamp : Int64
  hostId : Option HostId
deriving DecidableEq, Repr

structure QuorumReads where
  full : FullRead
  digests : List DigestRead
  received : ℕ
deriving DecidableEq, Repr

def QuorumReads.counted (reads : QuorumReads) : List NodeId :=
  reads.full.replica :: reads.digests.map (·.replica)

/-- The loop state: a read in flight is a replica and whether it was asked for the data. -/
structure Gathering where
  candidates : List NodeId
  fanOut : List (NodeId × Bool)
  fullInFlight : Bool
  full : Option FullRead
  digests : List DigestRead
  responders : List NodeId

namespace Gathering

variable (crc : Bytes → UInt32)

def launch (required : ℕ) (first : NodeId) (rest : List NodeId) : Gathering where
  candidates := rest.drop (required - 1)
  fanOut := (first, true) :: (rest.take (required - 1)).map (·, false)
  fullInFlight := true
  full := none
  digests := []
  responders := []

def record (gathering : Gathering) (replica : NodeId) : ReplicaRead → Gathering
  | .full partition hostId =>
    { gathering with
      full := some ⟨replica, partition, partition.map (computePartitionDigest crc), hostId⟩
      fullInFlight := false
      responders := gathering.responders.insert replica }
  | .digest digest timestamp hostId =>
    { gathering with
      digests := gathering.digests ++ [⟨replica, digest, timestamp, hostId⟩]
      responders := gathering.responders.insert replica }
  | .failed full => { gathering with fullInFlight := gathering.fullInFlight && !full }

def launchSpare (gathering : Gathering) : Gathering :=
  match gathering.candidates with
  | [] => gathering
  | candidate :: candidates =>
    let needsFull := gathering.full.isNone && !gathering.fullInFlight
    { gathering with
      candidates
      fanOut := gathering.fanOut ++ [(candidate, needsFull)]
      fullInFlight := gathering.fullInFlight || needsFull }

variable (satisfied : List NodeId → Bool) (attempt : NodeId → Bool → Bool → ReplicaRead)

def isDone (gathering : Gathering) : Bool :=
  gathering.full.isSome && satisfied gathering.responders

/-- One completed read: its result is recorded, and unless that is enough a failed read or an
empty fan-out brings in a spare. -/
def complete (gathering : Gathering) (completion : Completion) : Option Gathering :=
  (gathering.fanOut[completion.position]?).map fun launched =>
    let result := attempt launched.1 launched.2 completion.answered
    let recorded :=
      { gathering with fanOut := gathering.fanOut.eraseIdx completion.position }.record crc
        launched.1 result
    if !recorded.isDone satisfied && (result.isFailed || recorded.fanOut.isEmpty) then
      recorded.launchSpare
    else recorded

/-- The loop; `none` if the completions end before it does. -/
def run : List Completion → Gathering → Option Gathering
  | [], gathering =>
    if gathering.fanOut.isEmpty || gathering.isDone satisfied then some gathering else none
  | completion :: completions, gathering =>
    if gathering.fanOut.isEmpty || gathering.isDone satisfied then some gathering
    else (gathering.complete crc satisfied attempt completion).bind (run completions)

end Gathering

namespace Coordinator

variable (coordinator : Coordinator) (crc : Bytes → UInt32) (token : Bytes → Int64)
  (stores : HostId → StoreView) (key : DecoratedKey) (slice : PartitionReadSlice)
  (network : Network)

def replicaReadAttempt (replica : NodeId) (full answered : Bool) : ReplicaRead :=
  if !answered then .failed full
  else if full then coordinator.fullReadAttempt crc token stores key slice replica
  else coordinator.digestReadAttempt crc token stores key slice replica

def gatherQuorumReads (level : ConsistencyLevel) (requirement : ReadQuorumRequirement)
    (candidates : List NodeId) : Option (Except ReadError QuorumReads) :=
  let planned := requirement.plan coordinator.ring level candidates
  let progress := requirement.progress coordinator.ring level planned.1
  match planned.2 with
  | [] => some (.error .noReplica)
  | first :: rest =>
    (Gathering.run crc (fun responders => (progress responders).satisfied)
      (coordinator.replicaReadAttempt crc token stores key slice) network.completions
      (Gathering.launch planned.1 first rest)).map fun gathered =>
        let certificate := progress gathered.responders
        match gathered.full with
        | some full =>
          if certificate.satisfied then
            .ok ⟨full, gathered.digests, gathered.responders.length⟩
          else .error (.readTimeout certificate.received certificate.required true)
        | none => .error (.readTimeout certificate.received certificate.required false)

def fullRefetch (host : HostId) : Except RefetchError (Option Partition) :=
  match network.refetch host with
  | some error => .error error
  | none =>
    match handleReadRequest crc token key (stores host) (partitionReadRequest slice false) with
    | none => .error .unreachable
    | some response => .ok (if response.found then response.partition else none)

def fetchDiffering (required received : ℕ) (fullDigest : Option UInt32) :
    List DigestRead → List Partition → Except ReadError (List Partition)
  | [], partitions => .ok partitions
  | read :: reads, partitions =>
    if read.digest = fullDigest then
      fetchDiffering required received fullDigest reads partitions
    else
      match read.hostId with
      | none => .error .noReplicaIdentity
      | some host =>
        match fullRefetch crc token stores key slice network host with
        | .ok (some partition) =>
          fetchDiffering required received fullDigest reads (partitions ++ [partition])
        | .ok none =>
          if read.timestamp = Int64.minValue then
            fetchDiffering required received fullDigest reads partitions
          else .error (.readTimeout received required !partitions.isEmpty)
        | .error .malformed => .error .malformedReply
        | .error .unreachable => .error (.readTimeout received required !partitions.isEmpty)

def truncateRows (rowLimit : ℕ) (rows : List Row) : List Row :=
  if rowLimit > 0 then rows.take rowLimit else rows

def reconcile (required : ℕ) (reads : QuorumReads) : Except ReadError (Option (List Row)) :=
  if reads.digests.all (fun read => read.digest = reads.full.digest) then
    .ok (reads.full.partition.map (·.rows))
  else
    (fetchDiffering crc token stores key slice network required reads.received reads.full.digest
      reads.digests reads.full.partition.toList).map fun partitions =>
        (mergePartitions partitions).map fun merged => truncateRows slice.rowLimit merged.rows

structure PagedRead where
  rows : List Row
  found : Bool
  answered : Bool

/-- Ask a replica for one page after the other, or for a single one if there is a row limit. -/
def readPages (host : HostId) : List Bool → Option ℕ → PagedRead → PagedRead
  | true :: pages, pageState, read =>
    let request :=
      { partitionReadRequest slice false with
        pageSize := if slice.rowLimit > 0 then min slice.rowLimit u32Max else 5000
        pageState }
    match handleReadRequest crc token key (stores host) request with
    | none => read
    | some response =>
      if response.found then
        let extended : PagedRead :=
          ⟨read.rows ++ (response.partition.map (·.rows)).getD [], true, true⟩
        if response.nextPageState.isSome ∧ slice.rowLimit = 0 then
          readPages host pages response.nextPageState extended
        else extended
      else { read with answered := true }
  | _, _, read => read

def readRemoteReplicas : List NodeId → Bool → Except ReadError (Option (List Row))
  | [], answered => if answered then .ok none else .error (.readTimeout 0 1 false)
  | replica :: replicas, answered =>
    match coordinator.hostOf replica with
    | none => readRemoteReplicas replicas answered
    | some host =>
      let read := readPages crc token stores key slice host (network.pages replica) none
        ⟨[], false, false⟩
      if read.found ∧ !read.rows.isEmpty then .ok (some read.rows)
      else readRemoteReplicas replicas (answered || read.answered)

/-- A local answer ends the read; if the store fails the others are asked, and corruption is
reported unless one of them has rows. -/
def readOneReplicaLimitedRows (replicas : List NodeId) : Except ReadError (Option (List Row)) :=
  match replicas.find? coordinator.isLocal, network.localFailure with
  | some _, none =>
    .ok (((coordinator.localRead token stores key slice).map (·.rows)).filter
      (fun rows => !rows.isEmpty))
  | some localReplica, some failure =>
    match coordinator.readRemoteReplicas crc token stores key slice network
        (replicas.filter (· ≠ localReplica)) false, failure with
    | .ok (some rows), _ => .ok (some rows)
    | _, .corruptSstable => .error .corruptSstable
    | result, .other => result
  | none, _ => coordinator.readRemoteReplicas crc token stores key slice network replicas false

def readCandidates (replicas : List NodeId) : Option (List NodeId) :=
  (if coordinator.localNodeId ∈ replicas then some coordinator.localNodeId
    else replicas.head?).map fun full => full :: replicas.filter (· ≠ full)

def eligibleReplicas (level : ConsistencyLevel) (rawReplicas : List NodeId) : List NodeId :=
  retainEligibleReplicasForCl level coordinator.ring rawReplicas

def quorumReads (level : ConsistencyLevel) (rawReplicas : List NodeId)
    (requirement : ReadQuorumRequirement) : Option (Except ReadError QuorumReads) :=
  match coordinator.readCandidates (coordinator.eligibleReplicas level rawReplicas) with
  | none => some (.error .indexOutOfBounds)
  | some candidates =>
    coordinator.gatherQuorumReads crc token stores key slice network level requirement candidates

def coordinateReadFromReplicas (level : ConsistencyLevel) (rawReplicas : List NodeId)
    (requirement : ReadQuorumRequirement) : Option (Except ReadError (Option (List Row))) :=
  let replicas := coordinator.eligibleReplicas level rawReplicas
  if !requirement.isAvailable coordinator.ring level replicas then
    let available := requirement.available coordinator.ring level replicas
    some (.error (.unavailable available.required available.received))
  else if level = .one ∨ level = .localOne then
    some (coordinator.readOneReplicaLimitedRows crc token stores key slice network replicas)
  else
    (coordinator.quorumReads crc token stores key slice network level rawReplicas
      requirement).map fun gathered =>
        gathered.bind (reconcile crc token stores key slice network requirement.initial)

end Coordinator

end Ferrosa.Cluster
