import Ferrosa.Cluster.RepairRanges

/-!
# Repair runs between the replicas of a range

Placement walks from the first ring token at or above a partition's token, so
inside a range the walk starts at the *next* token, while repair asks for the
replicas of the range's own token.  Both agree exactly when the owner of the
range's token is still met in time from the next one.
-/

namespace Ferrosa.Cluster

open FirstDistinct List TokenRing

def HasInterior (ring : TokenRing) (token : Token) : Prop :=
  token < Int64.maxValue ∧ token + 1 < Int64.maxValue ∧ token + 1 ∉ allTokens ring
  deriving Decidable

/-- Fewer than `rf` other eligible nodes are met clockwise between two tokens of one owner. -/
def OwnersMetInTime (ring : TokenRing) (rf : Nat) : Prop :=
  ∀ entry ∈ ring.ring.entries, ring.isEligible entry.2 → HasInterior ring entry.1 →
    (metBefore entry.2 (ring.clockwiseAfter entry.1)).length < rf

instance (ring : TokenRing) (rf : Nat) : Decidable (OwnersMetInTime ring rf) :=
  List.decidableBAll (fun entry : Token × NodeId =>
    ring.isEligible entry.2 → HasInterior ring entry.1 →
      (metBefore entry.2 (ring.clockwiseAfter entry.1)).length < rf) ring.ring.entries

section Replicas

variable {ring : TokenRing} {rf : Nat} {range : Token × Token} {token : Token}

theorem start_of_mem_vnodeRanges (present : range ∈ vnodeRanges ring) :
    range.1 ∈ allTokens ring ∨ range.1 = Int64.minValue := by
  have sorted := sorted_allTokens ring
  unfold vnodeRanges at present
  cases tokens : allTokens ring with
  | nil => simp [tokens] at present
  | cons first rest =>
    rw [tokens] at sorted present
    rcases mem_append.mp present with body | wrap
    · exact Or.inl (range_spec sorted body).1
    · obtain ⟨-, rfl⟩ := by simpa using wrap
      exact Or.inr rfl

theorem known_past_range (present : range ∈ vnodeRanges ring) (known : token ∈ allTokens ring)
    (past : range.1 < token) : range.2 ≤ token := by
  have sorted := sorted_allTokens ring
  unfold vnodeRanges at present
  cases tokens : allTokens ring with
  | nil => simp [tokens] at known
  | cons first rest =>
    rw [tokens] at known sorted present
    rcases mem_append.mp present with body | wrap
    · exact (range_spec sorted body).2 token known past
    · obtain ⟨-, rfl⟩ := by simpa using wrap
      rcases mem_cons.mp known with same | later
      · exact same.ge
      · exact ((pairwise_cons.mp sorted).1 token later).le

theorem hasInterior_of_inside (present : range ∈ vnodeRanges ring) (low : range.1 < token)
    (high : token < range.2) : HasInterior ring range.1 := by
  have next := add_one_le_of_lt low
  have below : range.1 < Int64.maxValue := low.trans_le (le_maxValue token)
  refine ⟨below, next.trans_lt (high.trans_le (le_maxValue range.2)), ?_⟩
  intro known
  have outside := known_past_range present known (lt_add_one_of_lt below)
  exact absurd (high.trans_le outside) (not_lt.mpr next)

theorem exists_range_of_hasInterior (known : token ∈ allTokens ring)
    (interior : HasInterior ring token) :
    ∃ stop, (token, stop) ∈ vnodeRanges ring ∧ token + 1 < stop := by
  obtain ⟨below, small, unknown⟩ := interior
  have next := lt_add_one_of_lt below
  obtain ⟨range, present, low, high⟩ := exists_vnodeRange small known
  have atMost : token ≤ range.1 := by
    by_contra before
    have outside := known_past_range present known (not_le.mp before)
    exact absurd (next.trans (high.trans_le outside)) (lt_irrefl _)
  have notNext : range.1 ≠ token + 1 := by
    intro same
    rcases start_of_mem_vnodeRanges present with knownStart | lowest
    · exact unknown (same ▸ knownStart)
    · rw [same] at lowest
      exact absurd (lowest ▸ next) (not_lt.mpr (minValue_le token))
  have start : range.1 = token := by
    by_contra different
    have after := add_one_le_of_lt (lt_of_le_of_ne atMost (Ne.symm different))
    exact notNext (le_antisymm low after)
  refine ⟨range.2, ?_, high⟩
  rw [← start]
  exact present

theorem mem_replicas_range_iff (positive : 1 ≤ rf) (inTime : OwnersMetInTime ring rf)
    (present : range ∈ vnodeRanges ring) (low : range.1 ≤ token) (high : token < range.2)
    (nodeId : NodeId) :
    nodeId ∈ ring.replicas range.1 rf ↔ nodeId ∈ ring.replicas token rf := by
  rcases low.eq_or_lt with rfl | past
  · rfl
  rw [ring.replicas_eq range.1 positive, ring.replicas_eq token positive]
  by_cases owned : ∃ entry ∈ ring.eligibleEntries, entry.1 = range.1
  · obtain ⟨entry, eligible, start⟩ := owned
    have interior := start ▸ hasInterior_of_inside present past high
    obtain ⟨member, isEligible⟩ := mem_filter.mp eligible
    have small := inTime entry member isEligible interior
    have later : ∀ other ∈ ring.eligibleEntries, entry.1 < other.1 → token ≤ other.1 := by
      intro other otherEligible after
      rw [start] at after
      exact high.le.trans (known_past_range present (mem_allTokens_of_eligible otherEligible) after)
    rw [← start, clockwiseFrom_entry eligible, clockwiseFrom_past eligible (start ▸ past) later]
    exact mem_firstDistinct_rotate_iff entry.2 (ring.clockwiseAfter entry.1) small nodeId
  · rw [clockwiseFrom_eq_of_free low]
    intro entry eligible atOrAbove
    have after : range.1 < entry.1 :=
      lt_of_le_of_ne atOrAbove (fun same => owned ⟨entry, eligible, same.symm⟩)
    exact high.le.trans (known_past_range present (mem_allTokens_of_eligible eligible) after)

end Replicas

/-- The sessions of a range are with the other nodes that hold all its tokens, one for each. -/
def SessionsMatchReplicas (ring : TokenRing) (localNodeId : NodeId) (rf : Nat)
    (tasks : List SessionTask) : Prop :=
  ∀ task ∈ tasks, ∀ token, task.start ≤ token → token < task.stop → ∀ peer,
    { task with peer } ∈ tasks ↔ peer ≠ localNodeId ∧ peer ∈ ring.replicas token rf

/-- The peers of a range are the other replicas of each of its tokens. -/
def PeersMatch (ring : TokenRing) (localNodeId : NodeId) (rf : Nat) (range : RangeWithPeers) :
    Prop :=
  ∀ token, range.start ≤ token → token < range.stop → ∀ peer,
    peer ∈ range.peers ↔ peer ≠ localNodeId ∧ peer ∈ ring.replicas token rf

section Sessions

variable {ring : TokenRing} {localNodeId : NodeId} {rf : Nat}

@[simp] theorem mem_sortPeers {peers : List NodeId} {peer : NodeId} :
    peer ∈ sortPeers peers ↔ peer ∈ peers :=
  (perm_insertionSort (· ≤ ·) peers).mem_iff

variable {merged : List RangeWithPeers}

theorem peersMatch_mergeStep {range : RangeWithPeers}
    (mergedMatch : ∀ earlier ∈ merged, PeersMatch ring localNodeId rf earlier)
    (rangeMatch : PeersMatch ring localNodeId rf range) :
    ∀ result ∈ mergeStep merged range, PeersMatch ring localNodeId rf result := by
  have pushed : ∀ result ∈ merged ++ [{ range with peers := sortPeers range.peers }],
      PeersMatch ring localNodeId rf result := by
    refine forall_mem_append.mpr ⟨mergedMatch, forall_mem_singleton.mpr ?_⟩
    intro token low high peer
    simpa using rangeMatch token low high peer
  unfold mergeStep
  cases ending : merged.getLast? with
  | none => exact pushed
  | some last =>
    dsimp only
    split_ifs with continues
    · obtain ⟨contiguous, samePeers⟩ := continues
      intro result present
      rcases mem_append.mp present with old | new
      · exact mergedMatch result (dropLast_subset merged old)
      · rw [mem_singleton.mp new]
        intro token low high peer
        by_cases before : token < last.stop
        · exact mergedMatch last (mem_of_getLast? ending) token low before peer
        · have inside : range.start ≤ token := contiguous ▸ not_lt.mp before
          have same := rangeMatch token inside high peer
          rw [samePeers, mem_sortPeers]
          exact same
    · exact pushed

theorem peersMatch_mergeContiguousSamePeers {ranges : List RangeWithPeers}
    (all : ∀ range ∈ ranges, PeersMatch ring localNodeId rf range) :
    ∀ result ∈ mergeContiguousSamePeers ranges, PeersMatch ring localNodeId rf result := by
  have sortedAll : ∀ range ∈ ranges.insertionSort (fun left right => left.start ≤ right.start),
      PeersMatch ring localNodeId rf range :=
    fun range present => all range ((perm_insertionSort _ ranges).mem_iff.mp present)
  unfold mergeContiguousSamePeers
  refine List.foldlRecOn (motive := fun merged =>
    ∀ result ∈ merged, PeersMatch ring localNodeId rf result) _ _ (by simp) ?_
  intro merged mergedMatch range present
  exact peersMatch_mergeStep mergedMatch (sortedAll range present)

theorem sessionsMatch_tasksOf (all : ∀ range ∈ merged, PeersMatch ring localNodeId rf range) :
    SessionsMatchReplicas ring localNodeId rf (tasksOf merged) := by
  intro task present token low high peer
  obtain ⟨range, inMerged, listed⟩ := mem_flatMap.mp present
  obtain ⟨first, -, rfl⟩ := mem_map.mp listed
  constructor
  · intro scheduled
    obtain ⟨other, otherMerged, otherListed⟩ := mem_flatMap.mp scheduled
    obtain ⟨chosen, member, same⟩ := mem_map.mp otherListed
    obtain ⟨startEq, stopEq, rfl⟩ := SessionTask.mk.inj same
    refine (all other otherMerged token ?_ ?_ chosen).mp member
    · rw [startEq]
      exact low
    · rw [stopEq]
      exact high
  · intro otherReplica
    refine mem_flatMap.mpr ⟨range, inMerged, mem_map.mpr ⟨peer, ?_, rfl⟩⟩
    exact (all range inMerged token low high peer).mpr otherReplica

end Sessions

/-- Repair ranges hold exactly the replicated tokens, participants are the same for all tokens of a
range, and sessions are with the other replicas. -/
structure RepairsRealReplicas (ring : TokenRing) (rf : Nat) : Prop where
  owned_iff : ∀ nodeId token, token < Int64.maxValue →
    ((∃ range ∈ ownedTokenRanges ring nodeId rf, range.1 ≤ token ∧ token < range.2) ↔
      nodeId ∈ ring.replicas token rf)
  participants_iff : ∀ nodeId, ∀ range ∈ ownedTokenRanges ring nodeId rf,
    ∀ token, range.1 ≤ token → token < range.2 → ∀ participant,
      participant ∈ repairParticipants ring range.1 rf ↔
        participant ∈ repairParticipants ring token rf
  repairTable_sessions : ∀ nodeId, SessionsMatchReplicas ring nodeId rf (repairTable ring nodeId rf)
  repairInitiated_sessions : ∀ nodeId,
    SessionsMatchReplicas ring nodeId rf (repairInitiated ring nodeId rf)

section Main

variable {ring : TokenRing} {rf : Nat}

theorem mem_repairParticipants_iff (positive : 1 ≤ rf) {token : Token} {nodeId : NodeId} :
    nodeId ∈ repairParticipants ring token rf ↔ nodeId ∈ ring.replicas token rf := by
  rw [repairParticipants, mem_filter]
  exact ⟨fun both => both.1, fun replica => ⟨replica, isEligible_of_mem_replicas positive replica⟩⟩

variable {localNodeId : NodeId}

theorem mem_allTokens_of_mem_replicas (positive : 1 ≤ rf) {token : Token} {nodeId : NodeId}
    (replica : nodeId ∈ ring.replicas token rf) : ∃ known, known ∈ allTokens ring := by
  rw [ring.replicas_eq token positive] at replica
  obtain ⟨entry, visited, -⟩ := mem_map.mp (mem_of_mem_firstDistinct replica)
  rcases mem_append.mp visited with above | below
  · exact ⟨entry.1, mem_allTokens_of_eligible (mem_of_mem_filter above)⟩
  · exact ⟨entry.1, mem_allTokens_of_eligible (mem_of_mem_filter below)⟩

theorem peersMatch_owned (positive : 1 ≤ rf) (inTime : OwnersMetInTime ring rf)
    {range : Token × Token} {peers : List NodeId}
    (owned : range ∈ ownedTokenRanges ring localNodeId rf)
    (listed : ∀ peer, peer ∈ peers ↔ peer ∈ peersOf ring localNodeId rf range.1) :
    PeersMatch ring localNodeId rf ⟨range.1, range.2, peers⟩ := by
  intro token low high peer
  have present := (mem_ownedTokenRanges_iff.mp owned).1
  rw [listed, peersOf, mem_filter, mem_repairParticipants_iff positive, and_comm, decide_eq_true_eq,
    mem_replicas_range_iff positive inTime present low high peer]

theorem mem_selectInitiatedRanges_iff {selected : RangeWithPeers} :
    selected ∈ selectInitiatedRanges ring localNodeId rf ↔
      (selected.start, selected.stop) ∈ ownedTokenRanges ring localNodeId rf ∧
      selected.peers = peersOf ring localNodeId rf selected.start ∧ selected.peers ≠ [] ∧
      ∃ info, ring.getNode localNodeId = some info ∧
        isInitiator ring info.hostId rf selected.start := by
  rw [selectInitiatedRanges, ownedRangesWithPeers]
  cases found : ring.getNode localNodeId with
  | none => simp
  | some info =>
    constructor
    · intro chosen
      obtain ⟨⟨candidate, initiator⟩, listed, kept⟩ := mem_filterMap.mp chosen
      obtain ⟨range, owned, built⟩ := mem_filterMap.mp listed
      dsimp only at built kept
      split_ifs at built kept with nobody initiates
      cases built
      cases kept
      exact ⟨owned, rfl, by simpa using nobody, info, rfl, initiates⟩
    · rintro ⟨owned, listed, nonempty, _, ⟨⟩, initiates⟩
      refine mem_filterMap.mpr ⟨(selected, true), mem_filterMap.mpr ⟨_, owned, ?_⟩, rfl⟩
      simp [nonempty, initiates, ← listed]

theorem repairsRealReplicas_of_inTime (positive : 1 ≤ rf) (inTime : OwnersMetInTime ring rf) :
    RepairsRealReplicas ring rf where
  owned_iff := by
    intro nodeId token high
    constructor
    · rintro ⟨range, owned, low, inside⟩
      obtain ⟨present, replica⟩ := mem_ownedTokenRanges_iff.mp owned
      exact (mem_replicas_range_iff positive inTime present low inside nodeId).mp replica
    · intro replica
      obtain ⟨known, member⟩ := mem_allTokens_of_mem_replicas positive replica
      obtain ⟨range, present, low, inside⟩ := exists_vnodeRange high member
      refine ⟨range, mem_ownedTokenRanges_iff.mpr ⟨present, ?_⟩, low, inside⟩
      exact (mem_replicas_range_iff positive inTime present low inside nodeId).mpr replica
  participants_iff := by
    intro nodeId range owned token low high participant
    have present := (mem_ownedTokenRanges_iff.mp owned).1
    rw [mem_repairParticipants_iff positive, mem_repairParticipants_iff positive]
    exact mem_replicas_range_iff positive inTime present low high participant
  repairTable_sessions := by
    intro nodeId
    apply sessionsMatch_tasksOf
    apply peersMatch_mergeContiguousSamePeers
    intro built listed
    obtain ⟨range, owned, rfl⟩ := mem_map.mp listed
    apply peersMatch_owned positive inTime owned
    intro peer
    exact mem_sortPeers
  repairInitiated_sessions := by
    intro nodeId
    apply sessionsMatch_tasksOf
    apply peersMatch_mergeContiguousSamePeers
    intro selected chosen
    obtain ⟨owned, listed, -⟩ := mem_selectInitiatedRanges_iff.mp chosen
    apply peersMatch_owned positive inTime owned
    intro peer
    rw [listed]

theorem inTime_of_repairsRealReplicas (positive : 1 ≤ rf)
    (repairs : RepairsRealReplicas ring rf) : OwnersMetInTime ring rf := by
  intro entry member isEligible interior
  have eligible : entry ∈ ring.eligibleEntries := mem_filter.mpr ⟨member, isEligible⟩
  obtain ⟨stop, present, inside⟩ :=
    exists_range_of_hasInterior (mem_allTokens_of_eligible eligible) interior
  have past : entry.1 < entry.1 + 1 := lt_add_one_of_lt interior.1
  have atStart : entry.2 ∈ ring.replicas entry.1 rf := by
    rw [ring.replicas_eq entry.1 positive, clockwiseFrom_entry eligible]
    exact mem_firstDistinct_cons_self positive entry.2 _
  have owned := mem_ownedTokenRanges_iff.mpr ⟨present, atStart⟩
  have atNext := (repairs.owned_iff entry.2 (entry.1 + 1) interior.2.1).mp
    ⟨_, owned, past.le, inside⟩
  have later : ∀ other ∈ ring.eligibleEntries, entry.1 < other.1 → entry.1 + 1 ≤ other.1 :=
    fun other _ after => add_one_le_of_lt after
  rw [ring.replicas_eq _ positive, clockwiseFrom_past eligible past later] at atNext
  exact (mem_firstDistinct_concat_iff entry.2 _).mp atNext

theorem repairsRealReplicas_iff (positive : 1 ≤ rf) :
    RepairsRealReplicas ring rf ↔ OwnersMetInTime ring rf :=
  ⟨inTime_of_repairsRealReplicas positive, repairsRealReplicas_of_inTime positive⟩

end Main

def threeNodeRing : TokenRing :=
  ((((((TokenRing.new.addNode 1 ⟨1, .normal⟩).addNode 2 ⟨2, .normal⟩).addNode 3 ⟨3, .normal⟩
    ).assignTokens 1 [0]).assignTokens 2 [100]).assignTokens 3 [200])

theorem repairsRealReplicas_fullReplication :
    OwnersMetInTime threeNodeRing 3 ∧ RepairsRealReplicas threeNodeRing 3 := by
  have inTime : OwnersMetInTime threeNodeRing 3 := by decide
  exact ⟨inTime, (repairsRealReplicas_iff (by decide)).mpr inTime⟩

/-- With two copies, token `50` lives on nodes 2 and 3, yet node 1 repairs it with node 2. -/
theorem not_repairsRealReplicas_twoCopies :
    (0, 100) ∈ ownedTokenRanges threeNodeRing 1 2 ∧ threeNodeRing.replicas 50 2 = [2, 3] ∧
      repairParticipants threeNodeRing 0 2 = [1, 2] ∧
      (⟨Int64.minValue, 100, 2⟩ : SessionTask) ∈ repairTable threeNodeRing 1 2 ∧
      ¬RepairsRealReplicas threeNodeRing 2 := by
  have owned : (0, 100) ∈ ownedTokenRanges threeNodeRing 1 2 := by decide
  have placed : threeNodeRing.replicas 50 2 = [2, 3] := by decide
  refine ⟨owned, placed, by decide, by decide, ?_⟩
  intro repairs
  have replica := (repairs.owned_iff 1 50 (by decide)).mp ⟨(0, 100), owned, by decide, by decide⟩
  rw [placed] at replica
  simp at replica

end Ferrosa.Cluster
