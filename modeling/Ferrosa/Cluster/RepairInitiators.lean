import Ferrosa.Cluster.RepairReplicas

/-!
# One initiator for each range

All nodes cut the ring into the same ranges and elect the participant with the lowest host id, so a
range is initiated by one node.  Joining ranges that continue each other keeps what is repaired with
whom.
-/

namespace Ferrosa.Cluster

namespace RangeWithPeers

def Holds (range : RangeWithPeers) (token : Token) : Prop :=
  range.start ≤ token ∧ token < range.stop

def Apart (left right : RangeWithPeers) : Prop := ∀ token, left.Holds token → ¬right.Holds token

end RangeWithPeers

open RangeWithPeers List

def DistinctHosts (ring : TokenRing) : Prop :=
  ∀ left right leftInfo rightInfo, ring.getNode left = some leftInfo →
    ring.getNode right = some rightInfo → leftInfo.hostId = rightInfo.hostId → left = right

/-- No two nodes initiate a token, and one node initiates each range that has two participants. -/
structure InitiatedOnce (ring : TokenRing) (rf : Nat) : Prop where
  apart : ∀ left right, left ≠ right → ∀ range ∈ selectInitiatedRanges ring left rf,
    ∀ other ∈ selectInitiatedRanges ring right rf, range.Apart other
  once : ∀ range ∈ vnodeRanges ring, ∀ first ∈ repairParticipants ring range.1 rf,
    ∀ second ∈ repairParticipants ring range.1 rf, first ≠ second →
      ∃! nodeId, ∃ peers, ⟨range.1, range.2, peers⟩ ∈ selectInitiatedRanges ring nodeId rf

/-- The joined ranges pair the same tokens with the same peers, and are apart and in order. -/
structure MergesExactly (ranges merged : List RangeWithPeers) : Prop where
  pairs : ∀ token peer, (∃ range ∈ merged, range.Holds token ∧ peer ∈ range.peers) ↔
    ∃ range ∈ ranges, range.Holds token ∧ peer ∈ range.peers
  apart : merged.Pairwise Apart
  sorted : merged.Pairwise fun left right => left.start ≤ right.start

section

variable {ring : TokenRing} {rf : Nat}

instance : Std.MinEqOr HostId := ⟨min_choice⟩

theorem start_eq_of_holds {range other : Token × Token} {token : Token}
    (present : range ∈ vnodeRanges ring) (otherPresent : other ∈ vnodeRanges ring)
    (inRange : range.1 ≤ token ∧ token < range.2) (inOther : other.1 ≤ token ∧ token < other.2) :
    range.1 = other.1 := by
  have notPast {first second : Token × Token} (isFirst : first ∈ vnodeRanges ring)
      (isSecond : second ∈ vnodeRanges ring) (inFirst : token < first.2)
      (inSecond : second.1 ≤ token) : second.1 ≤ first.1 := by
    by_contra past
    rw [not_le] at past
    rcases start_of_mem_vnodeRanges isSecond with known | lowest
    · exact absurd (known_past_range isFirst known past) (not_le.mpr (inSecond.trans_lt inFirst))
    · exact absurd (minValue_le first.1) (not_le.mpr (lowest ▸ past))
  exact le_antisymm (notPast otherPresent present inOther.2 inRange.1)
    (notPast present otherPresent inRange.2 inOther.1)

theorem initiatedOnce (distinct : DistinctHosts ring) : InitiatedOnce ring rf where
  apart := by
    intro left right different range isRange other isOther token inRange inOther
    obtain ⟨owned, -, -, info, found, initiates⟩ := mem_selectInitiatedRanges_iff.mp isRange
    obtain ⟨otherOwned, -, -, _, otherFound, otherInitiates⟩ :=
      mem_selectInitiatedRanges_iff.mp isOther
    have start : range.start = other.start :=
      start_eq_of_holds (mem_ownedTokenRanges_iff.mp owned).1
        (mem_ownedTokenRanges_iff.mp otherOwned).1 inRange inOther
    rw [isInitiator, decide_eq_true_eq, start] at initiates
    rw [isInitiator, decide_eq_true_eq, initiates] at otherInitiates
    exact different (distinct _ _ _ _ found otherFound (Option.some.inj otherInitiates))
  once := by
    intro range present first isFirst second isSecond different
    have known : ∀ participant ∈ repairParticipants ring range.1 rf,
        participant ∈ ring.replicas range.1 rf ∧ ∃ info, ring.getNode participant = some info := by
      intro participant member
      obtain ⟨replica, eligible⟩ := mem_filter.mp member
      obtain ⟨info, found, -⟩ := (Option.any_eq_true ..).mp eligible
      exact ⟨replica, info, found⟩
    let hosts := (repairParticipants ring range.1 rf).filterMap
      fun nodeId => (ring.getNode nodeId).map (·.hostId)
    obtain ⟨host, least⟩ : ∃ host, hosts.min? = some host := by
      obtain ⟨-, info, found⟩ := known first isFirst
      exact Option.isSome_iff_exists.mp (isSome_min?_of_mem
        (mem_filterMap.mpr ⟨first, isFirst, by rw [found]; rfl⟩))
    obtain ⟨elected, isElected, isHost⟩ := mem_filterMap.mp (List.min?_mem least)
    obtain ⟨info, found, rfl⟩ := Option.map_eq_some_iff.mp isHost
    have nonempty : peersOf ring elected rf range.1 ≠ [] := by
      intro nobody
      have alone : ∀ participant ∈ repairParticipants ring range.1 rf, participant = elected := by
        simpa [peersOf] using nobody
      exact different ((alone first isFirst).trans (alone second isSecond).symm)
    have owned : range ∈ ownedTokenRanges ring elected rf :=
      mem_ownedTokenRanges_iff.mpr ⟨present, (known elected isElected).1⟩
    refine ⟨elected, ⟨_, mem_selectInitiatedRanges_iff.mpr
      ⟨owned, rfl, nonempty, info, found, decide_eq_true least⟩⟩, ?_⟩
    rintro other ⟨peers, isSelected⟩
    obtain ⟨-, -, -, _, otherFound, initiates⟩ := mem_selectInitiatedRanges_iff.mp isSelected
    rw [isInitiator, decide_eq_true_eq] at initiates
    exact distinct _ _ _ _ otherFound found (Option.some.inj (initiates.symm.trans least))

end

section Merge

variable {ranges front old rest merged : List RangeWithPeers} {joined range : RangeWithPeers}

theorem pairwise_joined {R : RangeWithPeers → RangeWithPeers → Prop}
    (pairwise : (front ++ (old ++ rest)).Pairwise R)
    (before : ∀ other, (∀ range ∈ old, R other range) → R other joined)
    (behind : ∀ other, (∀ range ∈ old, R range other) → R joined other) :
    (front ++ joined :: rest).Pairwise R := by
  simp only [pairwise_append, pairwise_cons, mem_append, mem_cons] at pairwise ⊢
  obtain ⟨isFront, ⟨-, isRest, oldRest⟩, frontOther⟩ := pairwise
  refine ⟨isFront, ⟨?_, isRest⟩, ?_⟩
  · intro other member
    exact behind other fun range isOld => oldRest range isOld other member
  · rintro other member range (rfl | inRest)
    · exact before other fun range isOld => frontOther other member range (Or.inl isOld)
    · exact frontOther other member range (Or.inr inRest)

structure Joining (ranges all : List RangeWithPeers) : Prop extends MergesExactly ranges all where
  proper : ∀ range ∈ all, range.start ≤ range.stop

theorem Joining.replace (joining : Joining ranges (front ++ (old ++ rest)))
    (holds : ∀ token, joined.Holds token ↔ ∃ range ∈ old, range.Holds token)
    (peers : ∀ range ∈ old, ∀ peer, peer ∈ range.peers ↔ peer ∈ joined.peers)
    (start : ∃ range ∈ old, joined.start = range.start) (proper : joined.start ≤ joined.stop) :
    Joining ranges (front ++ joined :: rest) where
  pairs := by
    intro token peer
    have inOld : (joined.Holds token ∧ peer ∈ joined.peers) ↔
        ∃ range ∈ old, range.Holds token ∧ peer ∈ range.peers := by
      rw [holds]
      constructor
      · rintro ⟨⟨range, isOld, inRange⟩, listed⟩
        exact ⟨range, isOld, inRange, (peers range isOld peer).mpr listed⟩
      · rintro ⟨range, isOld, inRange, listed⟩
        exact ⟨⟨range, isOld, inRange⟩, (peers range isOld peer).mp listed⟩
    rw [← joining.pairs]
    simp only [mem_append, mem_cons, or_and_right, exists_or, exists_eq_left, inOld]
  apart := by
    apply pairwise_joined joining.apart
    · intro other apart token inOther inJoined
      obtain ⟨range, isOld, inRange⟩ := (holds token).mp inJoined
      exact apart range isOld token inOther inRange
    · intro other apart token inJoined
      obtain ⟨range, isOld, inRange⟩ := (holds token).mp inJoined
      exact apart range isOld token inRange
  sorted := by
    obtain ⟨range, isOld, same⟩ := start
    apply pairwise_joined joining.sorted
    · intro other below
      rw [same]
      exact below range isOld
    · intro other above
      rw [same]
      exact above range isOld
  proper := by
    have kept := joining.proper
    simp only [forall_mem_append, forall_mem_cons] at kept ⊢
    exact ⟨kept.1, proper, kept.2.2⟩

theorem Joining.mergeStep (joining : Joining ranges (merged ++ range :: rest)) :
    Joining ranges (mergeStep merged range ++ rest) := by
  have rangeProper := joining.proper range (by simp)
  have pushed :
      Joining ranges (merged ++ [{ range with peers := sortPeers range.peers }] ++ rest) := by
    rw [append_assoc]
    refine @Joining.replace _ _ [range] _ _ joining ?_ ?_ ?_ rangeProper
    · simp [Holds]
    · simp
    · simp
  unfold Cluster.mergeStep
  cases ending : merged.getLast? with
  | none => exact pushed
  | some last =>
    dsimp only
    split_ifs with continues
    · obtain ⟨contiguous, samePeers⟩ := continues
      obtain ⟨front, rfl⟩ := List.getLast?_eq_some_iff.mp ending
      rw [append_assoc] at joining
      have lastProper := joining.proper last (by simp)
      rw [dropLast_concat, append_assoc]
      refine @Joining.replace _ _ [last, range] _ _ joining ?_ ?_ ?_ ?_
      · intro token
        simp only [Holds, mem_cons, not_mem_nil]
        grind
      · simp [samePeers]
      · simp
      · exact lastProper.trans (contiguous ▸ rangeProper)
    · exact pushed

theorem mergesExactly (proper : ∀ range ∈ ranges, range.start ≤ range.stop)
    (apart : ranges.Pairwise Apart) :
    MergesExactly ranges (mergeContiguousSamePeers ranges) := by
  have perm := perm_insertionSort (fun left right => left.start ≤ right.start) ranges
  have symmetric {left right : RangeWithPeers} (apart : left.Apart right) : right.Apart left :=
    fun token inRight inLeft => apart token inLeft inRight
  have sorted : Joining ranges (ranges.insertionSort fun left right => left.start ≤ right.start) :=
    { pairs := by simp [perm.mem_iff]
      apart := (perm.pairwise_iff symmetric).mpr apart
      sorted := pairwise_insertionSort _ _
      proper := fun range member => proper range (perm.mem_iff.mp member) }
  have folded (rest merged : List RangeWithPeers) (joining : Joining ranges (merged ++ rest)) :
      Joining ranges (rest.foldl mergeStep merged) := by
    induction rest generalizing merged with
    | nil => simpa using joining
    | cons range rest ih => exact ih _ joining.mergeStep
  exact (folded _ [] sorted).toMergesExactly

end Merge

theorem initiated_once_and_merged (ring : TokenRing) (rf : Nat) (distinct : DistinctHosts ring) :
    InitiatedOnce ring rf ∧ ∀ ranges : List RangeWithPeers,
      (∀ range ∈ ranges, range.start ≤ range.stop) → ranges.Pairwise Apart →
        MergesExactly ranges (mergeContiguousSamePeers ranges) :=
  ⟨initiatedOnce distinct, fun _ => mergesExactly⟩

theorem initiated_once_and_merged_threeNodes :
    DistinctHosts threeNodeRing ∧ InitiatedOnce threeNodeRing 3 ∧
      MergesExactly [⟨5, 9, [2]⟩, ⟨0, 5, [2]⟩]
        (mergeContiguousSamePeers [⟨5, 9, [2]⟩, ⟨0, 5, [2]⟩]) := by
  have distinct : DistinctHosts threeNodeRing := by
    have listed : ∀ left ∈ threeNodeRing.nodes.entries, ∀ right ∈ threeNodeRing.nodes.entries,
        left.2.hostId = right.2.hostId → left.1 = right.1 := by decide
    intro left right leftInfo rightInfo isLeft isRight
    exact listed _ (SortedMap.mem_entries_iff.mpr isLeft) _ (SortedMap.mem_entries_iff.mpr isRight)
  have spec := initiated_once_and_merged threeNodeRing 3 distinct
  refine ⟨distinct, spec.1, spec.2 _ (by decide) (pairwise_pair.mpr ?_)⟩
  intro token above below
  exact absurd above.1 (not_le.mpr below.2)

end Ferrosa.Cluster
