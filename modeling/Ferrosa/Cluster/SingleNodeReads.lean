import Ferrosa.Cluster.ReadPath
import Ferrosa.Storage.StaticReads

/-!
# Reads of a cluster of one node

On a ring with one replica, the local node, a coordinated read returns the rows of the local
read at every level.  The partition built from them has the static row of the local read only
if that has none.
-/

namespace Ferrosa.Cluster

open Storage FirstDistinct List ReadQuorumScope ReplicationStrategy DcQuorum ConsistencyLevel
open TokenRing ReadQuorumRequirement

/-- The node is in the normal state, owns a token, and no other node is eligible. -/
structure PlacedRing.SoleReplica (ring : PlacedRing) (node : NodeId) : Prop where
  normal : (ring.getNode node).map (·.state) = some .normal
  only : ∀ id, ring.isEligible id → id = node
  owns : ∃ token, (token, node) ∈ ring.ring.entries

namespace PlacedRing.SoleReplica

variable {ring : PlacedRing} {node : NodeId} (sole : ring.SoleReplica node)

include sole

theorem exists_getNode : ∃ info, ring.getNode node = some info ∧ info.state = .normal :=
  Option.map_eq_some_iff.mp sole.normal

theorem isEligible_iff (id : NodeId) : ring.isEligible id ↔ id = node := by
  refine ⟨sole.only id, ?_⟩
  rintro rfl
  rcases sole.exists_getNode with ⟨info, found, normal⟩
  simp [isEligible, found, normal, NodeState.isReplicaEligible]

omit sole in
theorem mem_map_of_mem_entries {entries : List (Token × NodeId)} {own : Token}
    (owned : (own, node) ∈ entries) (token : Token) :
    node ∈ (entries.filter (fun entry => token ≤ entry.1) ++
      entries.filter (fun entry => entry.1 < token)).map (·.2) := by
  apply mem_map.mpr ⟨(own, node), _, rfl⟩
  rcases le_or_gt token own with above | below
  · exact mem_append_left _ (mem_filter.mpr ⟨owned, by simpa using above⟩)
  · exact mem_append_right _ (mem_filter.mpr ⟨owned, by simpa using below⟩)

theorem replicas_one (token : Token) : ring.replicas token 1 = [node] := by
  have allNode : ∀ id ∈ ring.clockwiseFrom token, id = node := by
    intro id present
    rcases mem_map.mp present with ⟨entry, visited, rfl⟩
    apply sole.only
    rcases mem_append.mp visited with above | below
    · simpa using (mem_filter.mp (mem_of_mem_filter above)).2
    · simpa using (mem_filter.mp (mem_of_mem_filter below)).2
  have nonempty : ring.clockwiseFrom token ≠ [] := by
    rcases sole.owns with ⟨own, owned⟩
    have eligible : (own, node) ∈ ring.eligibleEntries :=
      mem_filter.mpr ⟨owned, by simpa using (sole.isEligible_iff node).mpr rfl⟩
    exact ne_nil_of_mem (mem_map_of_mem_entries eligible token)
  rw [replicas_eq ring.toTokenRing token le_rfl]
  rcases exists_cons_of_ne_nil nonempty with ⟨first, rest, shape⟩
  rw [shape, firstDistinct_cons, allNode first (shape ▸ mem_cons_self)]
  simp [firstDistinct]

end PlacedRing.SoleReplica

structure OneReplicaIn (dc : DataCenter) (dcRf : FiniteMap DataCenter ℕ) : Prop where
  here : dcRf.lookup dc = some 1
  total : (ReplicationStrategy.networkTopology dcRf).replicationFactor = 1

namespace OneReplicaIn

variable {dc : DataCenter} {dcRf : FiniteMap DataCenter ℕ} (one : OneReplicaIn dc dcRf)

include one

theorem exists_split : ∃ front back, dcRf.entries = front ++ ⟨dc, 1⟩ :: back ∧
    ∀ entry ∈ front ++ back, entry.2 = 0 := by
  have present : (⟨dc, 1⟩ : Sigma fun _ : DataCenter => ℕ) ∈ dcRf.entries :=
    AList.mem_lookup_iff.mp one.here
  rcases append_of_mem present with ⟨front, back, shape⟩
  have total := one.total
  rw [replicationFactor, shape] at total
  have others : ((front ++ back).map (·.2)).sum = 0 := by
    simp only [map_append, sum_append, map_cons, sum_cons] at total ⊢
    omega
  exact ⟨front, back, shape, fun entry member =>
    sum_eq_zero_iff.mp others _ (mem_map_of_mem member)⟩

theorem configured_eq : (ReplicationStrategy.networkTopology dcRf).configured = [⟨dc, 1⟩] := by
  rcases one.exists_split with ⟨front, back, shape, isZero⟩
  have none : (front ++ back).filter (fun entry => decide (0 < entry.2)) = [] := by
    rw [filter_eq_nil_iff]
    intro entry present
    simp [isZero entry present]
  rw [filter_append, append_eq_nil_iff] at none
  rw [configured, dcReplicationFactors, shape,
    filter_append, none.1, filter_cons_of_pos (by simp), none.2]
  rfl

theorem configuredFactor_eq :
    (ReplicationStrategy.networkTopology dcRf).configuredFactor dc = some 1 := by
  rw [configuredFactor, dcReplicationFactors, one.here]
  rfl

theorem eq_zero_of_ne {entry : Sigma fun _ : DataCenter => ℕ} (present : entry ∈ dcRf.entries)
    (elsewhere : entry.1 ≠ dc) : entry.2 = 0 := by
  rcases one.exists_split with ⟨front, back, shape, isZero⟩
  rw [shape, mem_append, mem_cons] at present
  rcases present with inFront | rfl | inBack
  · exact isZero entry (mem_append_left _ inFront)
  · exact absurd rfl elsewhere
  · exact isZero entry (mem_append_right _ inBack)

end OneReplicaIn

namespace TopologyWalk

variable {ring : PlacedRing} {node : NodeId} {dcRf : FiniteMap DataCenter ℕ}

/-- Only nodes that are not eligible have been met. -/
structure Fresh (dcRf : FiniteMap DataCenter ℕ) (node : NodeId) (walk : TopologyWalk) :
    Prop where
  result : walk.result = []
  needed : walk.needed = (start dcRf).needed
  seenRacks : ∀ dc, walk.seenRacks dc = []
  skipped : ∀ dc, walk.skipped dc = []
  unseen : node ∉ walk.seen

structure Filled (dcRf : FiniteMap DataCenter ℕ) (node : NodeId) (walk : TopologyWalk) :
    Prop where
  result : walk.result = [node]
  skipped : ∀ dc, walk.skipped dc = []
  filled : walk.allFilled dcRf

theorem fresh_start : (start dcRf).Fresh dcRf node where
  result := rfl
  needed := rfl
  seenRacks := fun _ => rfl
  skipped := fun _ => rfl
  unseen := by simp [start]

variable {walk : TopologyWalk}

theorem Filled.drain (filled : walk.Filled dcRf node) (dc : DataCenter) :
    (walk.drain dc).Filled dcRf node := by
  have sameNeeded : (walk.drain dc).needed = walk.needed := by
    simp [TopologyWalk.drain, filled.skipped]
  constructor
  · simp [TopologyWalk.drain, filled.skipped, filled.result]
  · intro other
    by_cases same : other = dc
    · subst same
      simp [TopologyWalk.drain, filled.skipped]
    · simp [TopologyWalk.drain, filled.skipped, same]
  · rw [allFilled, sameNeeded]
    exact filled.filled

theorem Filled.step (filled : walk.Filled dcRf node) (id : NodeId) :
    (walk.step ring dcRf id).Filled dcRf node := by
  rw [TopologyWalk.step, filled.filled]
  exact filled

variable (sole : ring.SoleReplica node) (one : OneReplicaIn (ring.dataCenter node) dcRf)

include sole

theorem rackCount_pos : 0 < rackCount ring (ring.dataCenter node) := by
  rcases sole.exists_getNode with ⟨info, found, _⟩
  have present : node ∈ ring.nodeIds := SortedMap.mem_keys_of_get? found
  apply length_pos_of_mem (a := ring.rack node)
  rw [mem_dedup]
  exact mem_map_of_mem (mem_filter.mpr ⟨present, by simp⟩)

include one

omit sole in
theorem Fresh.not_allFilled (fresh : walk.Fresh dcRf node) : walk.allFilled dcRf = false := by
  have present : (⟨ring.dataCenter node, 1⟩ : Sigma fun _ : DataCenter => ℕ) ∈ dcRf.entries :=
    AList.mem_lookup_iff.mp one.here
  rw [allFilled, all_eq_false]
  refine ⟨_, present, ?_⟩
  simp [fresh.needed, start, one.here]

theorem Fresh.step_of_ne (fresh : walk.Fresh dcRf node) {id : NodeId}
    (other : id ≠ node) : (walk.step ring dcRf id).Fresh dcRf node := by
  have ineligible : ring.isEligible id = false := by
    by_contra eligible
    exact other (sole.only id (by simpa using eligible))
  rw [TopologyWalk.step, fresh.not_allFilled one]
  split_ifs with seen
  · exact fresh
  · rw [visit, ineligible]
    refine ⟨fresh.result, fresh.needed, fresh.seenRacks, fresh.skipped, ?_⟩
    simp [fresh.unseen, Ne.symm other]

omit sole in
theorem filled_accept (result : walk.result = [])
    (needed : walk.needed = (start dcRf).needed) (skipped : ∀ dc, walk.skipped dc = []) :
    (walk.accept ring node).Filled dcRf node := by
  have taken : Filled dcRf node { walk with
        result := walk.result ++ [node]
        needed := Function.update walk.needed (ring.dataCenter node)
          (walk.needed (ring.dataCenter node) - 1) } := by
    refine ⟨by simp [result], skipped, ?_⟩
    rw [allFilled, all_eq_true]
    intro entry present
    by_cases same : entry.1 = ring.dataCenter node
    · simp [same, needed, start, one.here]
    · have isZero := one.eq_zero_of_ne present same
      have found : dcRf.lookup entry.1 = some entry.2 := AList.mem_lookup_iff.mpr present
      simp [same, needed, start, found, isZero]
  unfold TopologyWalk.accept
  simp only
  split_ifs
  · exact taken.drain _
  · exact taken

theorem Fresh.step_self (fresh : walk.Fresh dcRf node) :
    (walk.step ring dcRf node).Filled dcRf node := by
  have eligible : ring.isEligible node = true := (sole.isEligible_iff node).mpr rfl
  have open_ : walk.needed (ring.dataCenter node) = 1 := by
    simp [fresh.needed, start, one.here]
  have firstRack : ([] : List Rack).length < rackCount ring (ring.dataCenter node) :=
    rackCount_pos sole
  rw [TopologyWalk.step, fresh.not_allFilled one]
  simp only [Bool.false_or, decide_eq_true_eq, fresh.unseen, if_false]
  unfold visit
  simp only [eligible, open_, fresh.seenRacks]
  rw [if_neg (by decide), if_pos firstRack, if_neg not_mem_nil]
  exact filled_accept one fresh.result fresh.needed fresh.skipped

theorem Fresh.foldl_step (fresh : walk.Fresh dcRf node) {ids : List NodeId} (visited : node ∈ ids) :
    (ids.foldl (TopologyWalk.step ring dcRf) walk).Filled dcRf node := by
  induction ids generalizing walk with
  | nil => cases visited
  | cons id rest ih =>
    by_cases same : id = node
    · rw [same]
      exact List.foldlRecOn rest _ (fresh.step_self sole one) fun _ filled id _ => filled.step id
    · exact ih (fresh.step_of_ne sole one same) (by simpa [Ne.symm same] using visited)

end TopologyWalk

theorem PlacedRing.SoleReplica.ntsReplicas_eq {ring : PlacedRing} {node : NodeId}
    (sole : ring.SoleReplica node) {dcRf : FiniteMap DataCenter ℕ}
    (one : OneReplicaIn (ring.dataCenter node) dcRf) (token : Token) :
    ring.ntsReplicas token dcRf = [node] := by
  rcases sole.owns with ⟨own, owned⟩
  have filled := TopologyWalk.fresh_start.foldl_step sole one (mem_map_of_mem_entries owned token)
  exact (List.foldlRecOn dcRf.entries _ filled fun _ filled entry _ => filled.drain entry.1).result

structure Network.LocalAnswers (network : Network) : Prop where
  completions : network.completions.head? = some ⟨0, true⟩
  localFailure : network.localFailure = none

namespace Gathering

variable {crc : Bytes → UInt32} {satisfied : List NodeId → Bool}
  {attempt : NodeId → Bool → Bool → ReplicaRead}

theorem run_of_isDone {gathering : Gathering} (done : gathering.isDone satisfied)
    (completions : List Completion) :
    run crc satisfied attempt completions gathering = some gathering := by
  cases completions <;> simp [run, done]

variable (satisfied) in
theorem exists_run_launch_nil (required : ℕ) {first : NodeId} {partition : Option Partition}
    {hostId : Option HostId} (answered : attempt first true true = .full partition hostId)
    (meets : satisfied [first]) (completions : List Completion) :
    ∃ last, run crc satisfied attempt (⟨0, true⟩ :: completions) (launch required first []) =
        some last ∧
      last.full = some ⟨first, partition, partition.map (computePartitionDigest crc), hostId⟩ ∧
      last.digests = [] ∧ last.responders = [first] := by
  have started : ((launch required first []).fanOut.isEmpty ||
      (launch required first []).isDone satisfied) = false := rfl
  have onlyRead : (launch required first []).fanOut[0]? = some (first, true) := rfl
  rw [run, started, complete, onlyRead]
  simp only [Bool.false_eq_true, if_false, Option.map_some, Option.bind_some, answered]
  refine ⟨_, run_of_isDone ?_ completions, ?_⟩
  · simp [record, launch, isDone, meets]
  · simp [record, launch, isDone, meets]

end Gathering

namespace Coordinator

variable {coordinator : Coordinator} {crc : Bytes → UInt32} {token : Bytes → Int64}
  {stores : HostId → StoreView} {key : DecoratedKey} {slice : PartitionReadSlice}
  {network : Network} {level : ConsistencyLevel}

theorem isLocal_localNodeId : coordinator.isLocal coordinator.localNodeId = true := by
  simp [isLocal]

theorem eligibleReplicas_localNodeId (sole : coordinator.ring.SoleReplica coordinator.localNodeId) :
    coordinator.eligibleReplicas level [coordinator.localNodeId] = [coordinator.localNodeId] := by
  rcases sole.exists_getNode with ⟨info, found, normal⟩
  have admitted : (replicaPolicyForCl level).admits info.state = true := by
    rw [normal]
    cases level <;> rfl
  simp [eligibleReplicas, retainEligibleReplicasForCl, aliasesConflict, found, admitted]

variable {requirement : ReadQuorumRequirement}
  (sole : coordinator.ring.SoleReplica coordinator.localNodeId)
  (answers : network.LocalAnswers)

section

variable (planned : (requirement.plan coordinator.ring level [coordinator.localNodeId]).2 =
    [coordinator.localNodeId])
  (meets : (requirement.progress coordinator.ring level
    (requirement.plan coordinator.ring level [coordinator.localNodeId]).1
    [coordinator.localNodeId]).satisfied)

include answers planned meets

theorem gatherQuorumReads_localNodeId :
    ∃ reads, coordinator.gatherQuorumReads crc token stores key slice network level requirement
        [coordinator.localNodeId] = some (.ok reads) ∧
      reads.full.partition = coordinator.localRead token stores key slice ∧
      reads.digests = [] := by
  rcases head?_eq_some_iff.mp answers.completions with ⟨completions, shape⟩
  have answered : coordinator.replicaReadAttempt crc token stores key slice
      coordinator.localNodeId true true = .full (coordinator.localRead token stores key slice)
          (coordinator.hostOf coordinator.localNodeId) :=
    if_pos isLocal_localNodeId
  rcases Gathering.exists_run_launch_nil (fun responders =>
      (requirement.progress coordinator.ring level
        (requirement.plan coordinator.ring level [coordinator.localNodeId]).1
        responders).satisfied) _ answered meets completions with
    ⟨last, ran, full, digests, responders⟩
  unfold gatherQuorumReads
  simp only [planned, shape]
  rw [ran]
  simp only [Option.map_some, full, responders, digests, meets, if_true]
  exact ⟨_, rfl, rfl, rfl⟩

variable (coordinator token stores key slice) in
def ReturnsLocal (read : Option (Except ReadError (Option (List Row)))) : Prop :=
  ∃ rows, read = some (.ok rows) ∧ partitionOfRows key rows =
    partitionOfRows key ((coordinator.localRead token stores key slice).map (·.rows))

include sole in
theorem coordinateReadFromReplicas_localNodeId
    (available : requirement.isAvailable coordinator.ring level [coordinator.localNodeId]) :
    coordinator.ReturnsLocal token stores key slice
      (coordinator.coordinateReadFromReplicas crc token stores key slice network level
        [coordinator.localNodeId] requirement) := by
  unfold coordinateReadFromReplicas
  simp only [eligibleReplicas_localNodeId sole, available, Bool.not_true, Bool.false_eq_true,
    if_false]
  split_ifs with isOne
  · have found : [coordinator.localNodeId].find? coordinator.isLocal =
        some coordinator.localNodeId := by
      simp [isLocal_localNodeId]
    rw [readOneReplicaLimitedRows, found, answers.localFailure]
    refine ⟨_, rfl, ?_⟩
    simp [partitionOfRows]
  · rcases @gatherQuorumReads_localNodeId coordinator crc token stores key slice network level
        requirement answers planned meets with
      ⟨reads, gathered, isFull, noDigests⟩
    have candidates : coordinator.readCandidates [coordinator.localNodeId] =
        some [coordinator.localNodeId] := by
      simp [readCandidates]
    rw [quorumReads, eligibleReplicas_localNodeId sole, candidates]
    simp only [gathered]
    refine ⟨reads.full.partition.map (·.rows), ?_, by rw [isFull]⟩
    simp [Except.bind, reconcile, noDigests]

end

include sole answers in
theorem coordinateReadWithFilter_localNodeId : coordinator.ReturnsLocal token stores key slice
      (coordinator.coordinateReadWithFilter crc token stores key slice network level 1) := by
  have oneRequired : level.blockFor 1 = 1 := by cases level <;> rfl
  rw [coordinateReadWithFilter, sole.replicas_one, oneRequired]
  exact coordinateReadFromReplicas_localNodeId sole answers rfl rfl rfl

section Topology

variable {dcRf : FiniteMap DataCenter ℕ}
  (one : OneReplicaIn (coordinator.ring.dataCenter coordinator.localNodeId) dcRf)
  (assigned : coordinator.ring.dataCenter coordinator.localNodeId ≠ "")

include sole assigned in
theorem resolveLocalDc_eq :
    coordinator.resolveLocalDc = coordinator.ring.dataCenter coordinator.localNodeId := by
  rcases sole.exists_getNode with ⟨info, found, _⟩
  simp [resolveLocalDc, found, Option.filter_some, assigned]

include sole in
theorem inDc_localNodeId : ReadQuorumScope.inDc coordinator.ring
    (coordinator.ring.dataCenter coordinator.localNodeId) coordinator.localNodeId = true := by
  rcases sole.exists_getNode with ⟨info, found, _⟩
  simp [inDc, found]

include sole one in
theorem progress_localNodeId (notMore : level ≠ .two ∧ level ≠ .three) : (ReadQuorumScope.progress
      ⟨.networkTopology dcRf, coordinator.ring.dataCenter coordinator.localNodeId⟩
      coordinator.ring level [coordinator.localNodeId]).satisfied := by
  have here := inDc_localNodeId sole
  cases level with
  | two => exact absurd rfl notMore.1
  | three => exact absurd rfl notMore.2
  | dcQuorum =>
    simp [ReadQuorumScope.progress, readQuorumProgress, localProgress,
      one.configuredFactor_eq, here, Progress.satisfied]
  | localOne | localQuorum | localSerial =>
    simp [ReadQuorumScope.progress, readQuorumProgress, DcQuorum.progress,
      localLevelProgress, one.configuredFactor_eq, here, Progress.satisfied,
      blockForDc, blockFor]
  | eachQuorum =>
    simp [ReadQuorumScope.progress, readQuorumProgress, DcQuorum.progress,
      eachQuorumProgress, one.configured_eq, here, Progress.satisfied]
  | one | quorum | all | serial =>
    simp [ReadQuorumScope.progress, readQuorumProgress, DcQuorum.progress,
      totalProgress, one.total, Progress.satisfied, blockFor]

include sole one assigned in
theorem ntsRequirement_eq : coordinator.ntsRequirement key level (.networkTopology dcRf) =
      ([coordinator.localNodeId], 1) := by
  rcases sole.exists_getNode with ⟨info, found, _⟩
  have located := resolveLocalDc_eq sole assigned
  have replicas : coordinator.ring.replicasForStrategy key.token (.networkTopology dcRf) =
      [coordinator.localNodeId] := sole.ntsReplicas_eq one key.token
  have quota : ((ReplicationStrategy.networkTopology dcRf).dcReplicationFactors.lookup
      coordinator.resolveLocalDc).getD 1 = 1 := by
    rw [located, dcReplicationFactors, one.here]
    rfl
  have required : ((coordinator.ntsScope (.networkTopology dcRf)).progress coordinator.ring
      .dcQuorum []).required = 1 ∧ ((coordinator.ntsScope (.networkTopology dcRf)).progress
      coordinator.ring .eachQuorum []).required = 1 := by
    simp [ntsScope, located, ReadQuorumScope.progress, readQuorumProgress, localProgress,
      DcQuorum.progress, eachQuorumProgress, one.configuredFactor_eq, one.configured_eq]
  cases level with
  | localQuorum | localOne =>
    rw [ntsRequirement, replicas, quota, located]
    simp [found, nodeIsInDc, blockForDc, blockFor]
  | dcQuorum => rw [ntsRequirement, replicas, required.1]
  | eachQuorum => rw [ntsRequirement, replicas, required.2]
  | _ =>
    simp only [ntsRequirement, replicas, one.total]
    rfl

include sole one in
theorem plan_localNodeId (initial : ℕ) : (plan ⟨initial, some ⟨.networkTopology dcRf,
        coordinator.ring.dataCenter coordinator.localNodeId⟩⟩ coordinator.ring level
        [coordinator.localNodeId]).2 = [coordinator.localNodeId] := by
  have here := inDc_localNodeId sole
  cases level with
  | dcQuorum | localQuorum | eachQuorum =>
    simp [plan, planInitialCertificate, certificateQuorums, remoteQuorums,
      one.configuredFactor_eq, one.configured_eq, one.here, here]
  | _ => rfl

include sole one assigned answers in
theorem coordinateReadNtsFiltered_localNodeId (notMore : level ≠ .two ∧ level ≠ .three) :
    coordinator.ReturnsLocal token stores key slice
      (coordinator.coordinateReadNtsFiltered crc token stores key slice network level
        (.networkTopology dcRf)) := by
  have meets := progress_localNodeId sole one notMore
  rw [coordinateReadNtsFiltered, ntsRequirement_eq sole one assigned, ntsScope,
    resolveLocalDc_eq sole assigned]
  exact coordinateReadFromReplicas_localNodeId sole answers (plan_localNodeId sole one 1) meets
    meets

include sole one assigned in
theorem coordinateReadNtsFiltered_unavailable (more : level = .two ∨ level = .three) :
    ∃ error, coordinator.coordinateReadNtsFiltered crc token stores key slice network level
      (.networkTopology dcRf) = some (.error error) := by
  rw [coordinateReadNtsFiltered, ntsRequirement_eq sole one assigned]
  simp only [length_singleton, lt_irrefl, if_false]
  unfold coordinateReadFromReplicas
  simp only [eligibleReplicas_localNodeId sole]
  rw [if_pos]
  · exact ⟨_, rfl⟩
  · rcases more with rfl | rfl <;>
      simp [isAvailable, ntsScope, ReadQuorumScope.progress,
        readQuorumProgress, DcQuorum.progress, totalProgress, one.total,
        Progress.satisfied]

end Topology

end Coordinator

/-- The cluster's read has the static row and rows of the direct read, and is absent if that has
none. -/
structure SameRead (direct cluster : Option Partition) : Prop where
  absent : cluster = none ↔ ∀ partition ∈ direct, partition.rows = [] ∧ partition.staticRow = none
  present : ∀ partition ∈ cluster, ∃ other ∈ direct,
    partition.staticRow = other.staticRow ∧ partition.rows = other.rows

variable {key : DecoratedKey}

theorem sameRead_partitionOfRows_iff {direct : Option Partition} :
    SameRead direct (partitionOfRows key (direct.map (·.rows))) ↔
      direct.bind Partition.staticRow = none := by
  cases direct with
  | none => exact ⟨fun _ => rfl, fun _ => ⟨by simp [partitionOfRows], by simp [partitionOfRows]⟩⟩
  | some partition =>
    by_cases empty : partition.rows = []
    · have absent : partitionOfRows key ((some partition).map (·.rows)) = none := by
        simp [partitionOfRows, empty]
      rw [absent]
      refine ⟨fun same => (same.absent.mp rfl partition rfl).2, fun noStatic => ⟨?_, by simp⟩⟩
      simp only [Option.bind_some] at noStatic
      simp [empty, noStatic]
    · have built : partitionOfRows key ((some partition).map (·.rows)) =
          some ⟨key, .live, none, partition.rows⟩ := by
        simp [partitionOfRows, Option.filter_some, empty]
      rw [built]
      constructor
      · intro same
        rcases same.present _ rfl with ⟨other, isOther, noStatic, _⟩
        rw [← Option.some.inj isOther] at noStatic
        exact noStatic.symm
      · intro noStatic
        refine ⟨by simp [empty], ?_⟩
        rintro _ ⟨⟩
        exact ⟨partition, rfl, noStatic.symm, rfl⟩

def SliceStaticHidden (token : Bytes → Int64) (key : DecoratedKey) (view : StoreView)
    (slice : PartitionReadSlice) : Prop :=
  match slice.clustering with
  | none =>
    StaticHidden (view.tableDeletion token)
      (view.readSources key slice.rowLimit slice.startClustering)
  | some clustering =>
    visibleRow (view.tableDeletion token) (view.pointSources key clustering) clustering = none ∨
      StaticHidden (view.tableDeletion token) (view.pointSources key clustering)

theorem readLocalPartition_staticRow_eq_none_iff {token : Bytes → Int64} {view : StoreView}
    {slice : PartitionReadSlice} :
    (readLocalPartition token key view slice).bind Partition.staticRow = none ↔
      SliceStaticHidden token key view slice := by
  rcases slice with ⟨rowLimit, clustering, start⟩
  cases clustering with
  | some clustering => exact view.staticRow_readClusteringRow_eq_none_iff token key clustering
  | none => cases start <;> exact view.staticRow_eq_none_iff token key rowLimit _

inductive PlacedLocally (coordinator : Coordinator) : ReplicationStrategy → Prop
  | simple : PlacedLocally coordinator (.simple 1)
  | networkTopology {dcRf : FiniteMap DataCenter ℕ}
      (assigned : coordinator.ring.dataCenter coordinator.localNodeId ≠ "")
      (one : OneReplicaIn (coordinator.ring.dataCenter coordinator.localNodeId) dcRf) :
      PlacedLocally coordinator (.networkTopology dcRf)

def MetByOne (level : ConsistencyLevel) : ReplicationStrategy → Prop
  | .simple _ => True
  | .networkTopology _ => level ≠ .two ∧ level ≠ .three

section Comparison

variable {coordinator : Coordinator} {crc : Bytes → UInt32} {token : Bytes → Int64}
  {stores : HostId → StoreView} {key : DecoratedKey} {slice : PartitionReadSlice}
  {network : Network} {level : ConsistencyLevel} {strategy : ReplicationStrategy}
  (sole : coordinator.ring.SoleReplica coordinator.localNodeId) (answers : network.LocalAnswers)

include sole answers in
/-- A cluster read succeeds exactly at the levels one replica meets, and returns the local rows
without the static row. -/
theorem WritePath.pkReadSlice_cluster_eq_iff (placed : PlacedLocally coordinator strategy)
    {result : Option Partition} :
    (cluster coordinator stores).pkReadSlice crc token key network level strategy slice =
        some (.ok result) ↔
      MetByOne level strategy ∧ result = partitionOfRows key
        ((readLocalPartition token key (stores coordinator.localHostId) slice).map (·.rows)) := by
  have ofRead : ∀ {read : Option (Except ReadError (Option (List Row)))},
      coordinator.ReturnsLocal token stores key slice read →
      (read.map (fun result => (result.map (partitionOfRows key)).mapError PathError.cluster) =
          some (.ok result) ↔
        result = partitionOfRows key
          ((coordinator.localRead token stores key slice).map (·.rows))) := by
    rintro _ ⟨rows, rfl, same⟩
    rw [← same]
    simp [Except.map, Except.mapError, eq_comm]
  cases placed with
  | simple =>
    rw [MetByOne, true_and]
    exact ofRead (Coordinator.coordinateReadWithFilter_localNodeId sole answers)
  | networkTopology assigned one =>
    by_cases met : level ≠ .two ∧ level ≠ .three
    · rw [MetByOne, and_iff_right met]
      exact ofRead (Coordinator.coordinateReadNtsFiltered_localNodeId sole answers one assigned met)
    · have more : level = .two ∨ level = .three := by tauto
      rcases @Coordinator.coordinateReadNtsFiltered_unavailable coordinator crc token stores key
        slice network level sole _ one assigned more with ⟨error, failed⟩
      simp [pkReadSlice, clusterRead, failed, MetByOne, met, Except.map, Except.mapError]

include sole answers in
/-- Both reads agree exactly at the levels one replica meets and if no static row is to be shown. -/
theorem WritePath.sameRead_iff (placed : PlacedLocally coordinator strategy) : (∃ read clusterRead,
      (direct (stores coordinator.localHostId)).pkReadSlice crc token key network level strategy
          slice = some (.ok read) ∧
        (cluster coordinator stores).pkReadSlice crc token key network level strategy slice =
          some (.ok clusterRead) ∧
        SameRead read clusterRead) ↔
      MetByOne level strategy ∧
        SliceStaticHidden token key (stores coordinator.localHostId) slice := by
  rw [← readLocalPartition_staticRow_eq_none_iff, ← @sameRead_partitionOfRows_iff key]
  constructor
  · rintro ⟨read, clusterRead, isDirect, isCluster, same⟩
    obtain rfl : readLocalPartition token key (stores coordinator.localHostId) slice = read := by
      simpa [pkReadSlice] using isDirect
    rcases (pkReadSlice_cluster_eq_iff sole answers placed).mp isCluster with ⟨met, rfl⟩
    exact ⟨met, same⟩
  · rintro ⟨met, same⟩
    exact ⟨_, _, rfl, (pkReadSlice_cluster_eq_iff sole answers placed).mpr ⟨met, rfl⟩, same⟩

end Comparison

def oneRowView (staticRow : Option Row) : StoreView where
  schema := ⟨[], [], []⟩
  active :=
    ⟨[⟨⟨0, [1]⟩, .live, staticRow, [⟨[1], [], .live, .withTimestamp 1⟩]⟩],
      List.pairwise_singleton _ _, by simp [KeyedFold.StrictlySorted]⟩
  flushing := []
  sstables := []

def oneNodeCoordinator : Coordinator where
  localNodeId := 1
  localHostId := 1
  ring :=
    { ring := .ofList [(0, 1)]
      nodes := .ofList [(1, ⟨1, .normal⟩)]
      dataCenter := fun _ => "datacenter1"
      rack := fun _ => "rack1" }

theorem soleReplica_oneNode :
    oneNodeCoordinator.ring.SoleReplica oneNodeCoordinator.localNodeId where
  normal := by decide
  only := by
    intro id eligible
    by_contra other
    have absent : oneNodeCoordinator.ring.getNode id = none := by
      exact (SortedMap.get?_ofList_concat [] (1, (⟨1, .normal⟩ : NodeInfo)) id).trans (if_neg other)
    simp [isEligible, absent] at eligible
  owns := ⟨0, by decide⟩

def answeringNetwork : Network where
  completions := [⟨0, true⟩]
  refetch := fun _ => none
  localFailure := none
  pages := fun _ => []

def readOneNode (staticRow : Option Row) (path : StoreView → WritePath) :
    Option (Except PathError (Option Partition)) :=
  (path (oneRowView staticRow)).pkRead (fun _ => 0) (fun _ => 0) ⟨0, [1]⟩ answeringNetwork .quorum
    (.simple 1)

set_option maxRecDepth 8000 in
/-- The static row is there in a direct read and not in a read through the cluster. -/
theorem readOneNode_drops_staticRow :
    oneNodeCoordinator.ring.SoleReplica oneNodeCoordinator.localNodeId ∧
      answeringNetwork.LocalAnswers ∧ PlacedLocally oneNodeCoordinator (.simple 1) ∧
      ∃ read clusterRead,
        readOneNode (some ⟨[], [(0, .live [7] 1)], .live, .withTimestamp 1⟩) .direct =
            some (.ok read) ∧
          readOneNode (some ⟨[], [(0, .live [7] 1)], .live, .withTimestamp 1⟩)
              (fun view => .cluster oneNodeCoordinator fun _ => view) = some (.ok clusterRead) ∧
          ¬ SameRead read clusterRead := by
  refine ⟨soleReplica_oneNode, ⟨rfl, rfl⟩, .simple,
    some ⟨⟨0, [1]⟩, .live, some ⟨[], [(0, .live [7] 1)], .live, .withTimestamp 1⟩,
      [⟨[1], [], .live, .withTimestamp 1⟩]⟩,
    some ⟨⟨0, [1]⟩, .live, none, [⟨[1], [], .live, .withTimestamp 1⟩]⟩, by decide, by decide, ?_⟩
  intro same
  rcases same.present _ rfl with ⟨_, ⟨⟩, noStatic, _⟩
  cases noStatic

theorem readOneNode_sameRead : ∃ read clusterRead, readOneNode none .direct = some (.ok read) ∧
      readOneNode none (fun view => .cluster oneNodeCoordinator fun _ => view) =
        some (.ok clusterRead) ∧
      SameRead read clusterRead :=
  (@WritePath.sameRead_iff oneNodeCoordinator (fun _ => 0) (fun _ => 0) (fun _ => oneRowView none)
    ⟨0, [1]⟩ (.prefixRows 0) answeringNetwork .quorum (.simple 1) soleReplica_oneNode
    ⟨rfl, rfl⟩ .simple).mpr ⟨trivial, Or.inl (by decide)⟩

end Ferrosa.Cluster
