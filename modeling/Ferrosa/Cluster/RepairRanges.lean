import Ferrosa.Cluster.TokenRing

/-!
# Which ranges are repaired, and with whom

Anti-entropy repair cuts the ring into one range per token, `[token, next)`, and
takes the replicas of the range's first token for the replicas of all of it.
Ranges that continue each other with the same peers are joined before one
session per peer is scheduled.
-/

namespace Ferrosa.Cluster

open List

variable (ring : TokenRing) (localNodeId : NodeId)

def repairParticipants (token : Token) (rf : Nat) : List NodeId :=
  (ring.replicas token rf).filter ring.isEligible

def allTokens : List Token :=
  ((ring.nodeIds.flatMap ring.tokensForNode).insertionSort (· ≤ ·)).dedup

def ownedTokenRanges (rf : Nat) : List (Token × Token) :=
  match allTokens ring with
  | [] => []
  | first :: rest =>
    ((first :: rest).zip (rest ++ [Int64.maxValue])).filter
        (fun range => localNodeId ∈ ring.replicas range.1 rf) ++
      if first ≠ Int64.minValue ∧ localNodeId ∈ ring.replicas Int64.minValue rf then
        [(Int64.minValue, first)]
      else []

structure RangeWithPeers where
  start : Token
  stop : Token
  peers : List NodeId
deriving DecidableEq, Repr

def peersOf (rf : Nat) (start : Token) : List NodeId :=
  (repairParticipants ring start rf).filter (· ≠ localNodeId)

def isInitiator (localHost : HostId) (rf : Nat) (start : Token) : Bool :=
  ((repairParticipants ring start rf).filterMap
    (fun nodeId => (ring.getNode nodeId).map (·.hostId))).min? = some localHost

def ownedRangesWithPeers (rf : Nat) : List (RangeWithPeers × Bool) :=
  match ring.getNode localNodeId with
  | none => []
  | some info =>
    (ownedTokenRanges ring localNodeId rf).filterMap (fun range =>
      let peers := peersOf ring localNodeId rf range.1
      if peers.isEmpty then none
      else some (⟨range.1, range.2, peers⟩, isInitiator ring info.hostId rf range.1))

def selectInitiatedRanges (rf : Nat) : List RangeWithPeers :=
  (ownedRangesWithPeers ring localNodeId rf).filterMap
    (fun owned => if owned.2 then some owned.1 else none)

def sortPeers (peers : List NodeId) : List NodeId := peers.insertionSort (· ≤ ·)

/-- Extend the last range if the next one continues it with the same peers. -/
def mergeStep (merged : List RangeWithPeers) (range : RangeWithPeers) : List RangeWithPeers :=
  match merged.getLast? with
  | some last =>
    if last.stop = range.start ∧ last.peers = sortPeers range.peers then
      merged.dropLast ++ [{ last with stop := range.stop }]
    else merged ++ [{ range with peers := sortPeers range.peers }]
  | none => merged ++ [{ range with peers := sortPeers range.peers }]

def mergeContiguousSamePeers (ranges : List RangeWithPeers) : List RangeWithPeers :=
  (ranges.insertionSort (fun left right => left.start ≤ right.start)).foldl mergeStep []

structure SessionTask where
  start : Token
  stop : Token
  peer : NodeId
deriving DecidableEq, Repr

def tasksOf (merged : List RangeWithPeers) : List SessionTask :=
  merged.flatMap (fun range => range.peers.map (fun peer => ⟨range.start, range.stop, peer⟩))

def repairTable (rf : Nat) : List SessionTask :=
  tasksOf (mergeContiguousSamePeers ((ownedTokenRanges ring localNodeId rf).map
    (fun range => ⟨range.1, range.2, sortPeers (peersOf ring localNodeId rf range.1)⟩)))

def repairInitiated (rf : Nat) : List SessionTask :=
  tasksOf (mergeContiguousSamePeers (selectInitiatedRanges ring localNodeId rf))

variable {token : Token} {ring}

theorem mem_allTokens_of_eligible {entry : Token × NodeId}
    (eligible : entry ∈ ring.eligibleEntries) : entry.1 ∈ allTokens ring := by
  obtain ⟨present, isEligible⟩ := mem_filter.mp eligible
  suffices known : entry.2 ∈ ring.nodeIds by
    simpa [allTokens, TokenRing.tokensForNode] using ⟨entry.2, known, present⟩
  unfold TokenRing.isEligible at isEligible
  cases found : ring.getNode entry.2 with
  | none => simp [found] at isEligible
  | some info => exact SortedMap.mem_keys_of_get? found

theorem sorted_allTokens (ring : TokenRing) : (allTokens ring).Pairwise (· < ·) := by
  have ordered := ((pairwise_insertionSort (· ≤ ·)
    (ring.nodeIds.flatMap ring.tokensForNode)).sublist (dedup_sublist _))
  have distinct := nodup_dedup ((ring.nodeIds.flatMap ring.tokensForNode).insertionSort (· ≤ ·))
  exact ordered.imp₂ (fun _ _ le ne => lt_of_le_of_ne le ne) distinct

section Ranges

variable {first : Token} {rest : List Token} {range : Token × Token}

theorem range_spec (sorted : (first :: rest).Pairwise (· < ·))
    (present : range ∈ (first :: rest).zip (rest ++ [Int64.maxValue])) :
    range.1 ∈ first :: rest ∧ ∀ token ∈ first :: rest, range.1 < token → range.2 ≤ token := by
  induction rest generalizing first with
  | nil =>
    simp only [nil_append, zip_cons_cons, zip_nil_right, mem_singleton] at present
    subst present
    refine ⟨mem_cons_self, ?_⟩
    intro token member above
    exact absurd above (by simp [mem_singleton.mp member])
  | cons second rest ih =>
    rw [cons_append, zip_cons_cons] at present
    have above := (pairwise_cons.mp sorted).1
    rcases mem_cons.mp present with rfl | later
    · refine ⟨mem_cons_self, ?_⟩
      intro token member past
      rcases mem_cons.mp member with rfl | inRest
      · exact absurd past (lt_irrefl _)
      · rcases mem_cons.mp inRest with rfl | further
        · exact le_refl _
        · exact ((pairwise_cons.mp sorted.of_cons).1 token further).le
    · obtain ⟨startMem, free⟩ := ih sorted.of_cons later
      refine ⟨mem_cons_of_mem _ startMem, ?_⟩
      intro token member past
      rcases mem_cons.mp member with rfl | inRest
      · exact absurd past (not_lt.mpr (above range.1 startMem).le)
      · exact free token inRest past

theorem exists_range (sorted : (first :: rest).Pairwise (· < ·)) {token : Token}
    (low : first ≤ token) (high : token < Int64.maxValue) :
    ∃ range ∈ (first :: rest).zip (rest ++ [Int64.maxValue]),
      range.1 ≤ token ∧ token < range.2 := by
  induction rest generalizing first with
  | nil => exact ⟨(first, Int64.maxValue), by simp, low, high⟩
  | cons second rest ih =>
    by_cases before : token < second
    · exact ⟨(first, second), by simp, low, before⟩
    · obtain ⟨range, present, inside⟩ := ih sorted.of_cons (not_lt.mp before)
      exact ⟨range, mem_cons_of_mem _ present, inside⟩

end Ranges

theorem minValue_le (token : Token) : Int64.minValue ≤ token := by
  rw [Int64.le_iff_toInt_le]
  exact Int64.minValue_le_toInt token

theorem le_maxValue (token : Token) : token ≤ Int64.maxValue := by
  rw [Int64.le_iff_toInt_le]
  have top : Int64.maxValue.toInt = 9223372036854775807 := rfl
  have bound := Int64.toInt_lt token
  omega

theorem toInt_add_one (below : token < Int64.maxValue) : (token + 1).toInt = token.toInt + 1 := by
  rw [Int64.lt_iff_toInt_lt] at below
  have low := Int64.le_toInt token
  have top : Int64.maxValue.toInt = 9223372036854775807 := rfl
  rw [Int64.toInt_add]
  have one : (1 : Int64).toInt = 1 := rfl
  rw [one]
  simp only [Int.bmod]
  omega

theorem lt_add_one_of_lt (below : token < Int64.maxValue) : token < token + 1 := by
  rw [Int64.lt_iff_toInt_lt, toInt_add_one below]
  omega

theorem add_one_le_of_lt {later : Token} (past : token < later) : token + 1 ≤ later := by
  have below : token < Int64.maxValue := lt_of_lt_of_le past (le_maxValue later)
  rw [Int64.lt_iff_toInt_lt] at past
  rw [Int64.le_iff_toInt_le, toInt_add_one below]
  omega

def vnodeRanges (ring : TokenRing) : List (Token × Token) :=
  match allTokens ring with
  | [] => []
  | first :: rest =>
    (first :: rest).zip (rest ++ [Int64.maxValue]) ++
      if first ≠ Int64.minValue then [(Int64.minValue, first)] else []

theorem mem_ownedTokenRanges_iff {nodeId : NodeId} {rf : Nat} {range : Token × Token} :
    range ∈ ownedTokenRanges ring nodeId rf ↔
      range ∈ vnodeRanges ring ∧ nodeId ∈ ring.replicas range.1 rf := by
  unfold ownedTokenRanges vnodeRanges
  cases allTokens ring with
  | nil => simp
  | cons first rest =>
    simp only [mem_append, mem_filter, decide_eq_true_eq, mem_ite_nil_right, mem_singleton]
    constructor
    · rintro (⟨present, replica⟩ | ⟨⟨proper, replica⟩, rfl⟩)
      · exact ⟨Or.inl present, replica⟩
      · exact ⟨Or.inr ⟨proper, rfl⟩, replica⟩
    · rintro ⟨present | ⟨proper, rfl⟩, replica⟩
      · exact Or.inl ⟨present, replica⟩
      · exact Or.inr ⟨⟨proper, replica⟩, rfl⟩

theorem exists_vnodeRange {known : Token} (high : token < Int64.maxValue)
    (nonempty : known ∈ allTokens ring) :
    ∃ range ∈ vnodeRanges ring, range.1 ≤ token ∧ token < range.2 := by
  have sorted := sorted_allTokens ring
  unfold vnodeRanges
  cases tokens : allTokens ring with
  | nil => simp [tokens] at nonempty
  | cons first rest =>
    rw [tokens] at sorted
    by_cases before : token < first
    · refine ⟨(Int64.minValue, first), ?_, minValue_le token, before⟩
      have proper : first ≠ Int64.minValue := by
        rintro rfl
        exact absurd before (not_lt.mpr (minValue_le token))
      simp [proper]
    · obtain ⟨range, present, inside⟩ := exists_range sorted (not_lt.mp before) high
      exact ⟨range, mem_append_left _ present, inside⟩

end Ferrosa.Cluster
