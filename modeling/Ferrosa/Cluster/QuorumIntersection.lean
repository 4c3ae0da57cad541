import Ferrosa.Cluster.Consistency
import Ferrosa.Lib.Counting

/-!
# Acknowledged writes meet later reads

A placement puts at most the configured number of replicas in each data center.  Every
level's progress is read off as a lower bound on the replies, in one data center, in all
of them or in total, and two sets of replies that exceed the bound of the placement share
a replica.
-/

namespace Ferrosa.Cluster

open Counting Finset List

universe u

/-- The replicas of a token under a `NetworkTopology` strategy. -/
structure Placement (Node : Type u) (dcRf : FiniteMap DataCenter ℕ) where
  replicas : Finset Node
  dataCenter : Node → DataCenter
  bounded : ∀ dc, (members dataCenter replicas dc).card ≤ (dcRf.lookup dc).getD 0

namespace Progress

theorem satisfied_iff {progress : Progress} :
    progress.satisfied ↔ 0 < progress.required ∧ progress.required ≤ progress.received := by
  simp [satisfied]

@[simp]
theorem not_satisfied_unavailable : ¬ unavailable.satisfied := by decide

end Progress

namespace ReplicationStrategy

variable {dcRf : FiniteMap DataCenter ℕ}

theorem configuredFactor_eq_some {dc : DataCenter} {rf : ℕ} :
    (networkTopology dcRf).configuredFactor dc = some rf ↔ dcRf.lookup dc = some rf ∧ 0 < rf := by
  simp only [configuredFactor, dcReplicationFactors, Option.filter_eq_some_iff, decide_eq_true_iff]

theorem sum_configured (dcRf : FiniteMap DataCenter ℕ) :
    ((networkTopology dcRf).configured.map (·.2)).sum =
      (networkTopology dcRf).replicationFactor := by
  simp only [configured, dcReplicationFactors, replicationFactor]
  induction dcRf.entries with
  | nil => rfl
  | cons entry entries ih =>
    by_cases positive : 0 < entry.2
    · simp only [List.filter_cons, positive, decide_true, if_true, List.map_cons, List.sum_cons, ih]
    · have zero : entry.2 = 0 := by omega
      simp only [List.filter_cons, zero, lt_irrefl, decide_false, List.map_cons, List.sum_cons,
        zero_add]
      simpa using ih

theorem mem_configured {dc : DataCenter} {rf : ℕ} :
    ⟨dc, rf⟩ ∈ (networkTopology dcRf).configured ↔ dcRf.lookup dc = some rf ∧ 0 < rf := by
  simp only [configured, dcReplicationFactors, mem_filter, decide_eq_true_iff,
    ← AList.mem_lookup_iff, Option.mem_def]

end ReplicationStrategy

namespace Placement

open DcQuorum ReplicationStrategy Progress

variable {Node : Type u} {dcRf : FiniteMap DataCenter ℕ} (placement : Placement Node dcRf)

def countInDc (responders : Finset Node) (dc : DataCenter) : ℕ :=
  (members placement.dataCenter responders dc).card

/-- The write is acknowledged once these replicas have applied it. -/
def Acknowledged (level : ConsistencyLevel) (origin : DataCenter) (acks : Finset Node) : Prop :=
  (progress level (networkTopology dcRf) origin acks.card (placement.countInDc acks)).satisfied
  deriving Decidable

/-- The read is answered once these replicas have replied. -/
def Answered (level : ConsistencyLevel) (origin : DataCenter) (responders : Finset Node) : Prop :=
  (readQuorumProgress level (networkTopology dcRf) origin responders.card
    (placement.countInDc responders)).satisfied
  deriving Decidable

variable {placement}

theorem mem_of_mem_replicas {replica : Node} (member : replica ∈ placement.replicas) :
    placement.dataCenter replica ∈ dcRf := by
  have positive : 0 < (members placement.dataCenter placement.replicas
      (placement.dataCenter replica)).card :=
    card_pos.mpr ⟨replica, Finset.mem_filter.mpr ⟨member, rfl⟩⟩
  have bounded := placement.bounded (placement.dataCenter replica)
  rw [← AList.lookup_isSome]
  cases factor : dcRf.lookup (placement.dataCenter replica) with
  | none => simp [factor] at bounded; simp [bounded] at positive
  | some rf => rfl

variable {responders acks : Finset Node} {origin : DataCenter} {count : DataCenter → ℕ}

theorem card_eq_sum_countInDc (subset : responders ⊆ placement.replicas) :
    responders.card = (dcRf.entries.map fun entry => placement.countInDc responders entry.1).sum :=
  card_eq_sum_members dcRf placement.dataCenter fun _ member => mem_of_mem_replicas (subset member)

theorem bounded_of_lookup {dc : DataCenter} {rf : ℕ} (factor : dcRf.lookup dc = some rf) :
    placement.countInDc placement.replicas dc ≤ rf := by
  have bounded := placement.bounded dc
  simpa only [countInDc, factor, Option.getD_some] using bounded

theorem card_replicas_le : placement.replicas.card ≤ (networkTopology dcRf).replicationFactor := by
  rw [card_eq_sum_countInDc (Finset.Subset.refl placement.replicas)]
  apply List.sum_le_sum
  intro entry member
  exact bounded_of_lookup (AList.mem_lookup_iff.mpr member)

section Meeting

variable [DecidableEq Node] {acks responders : Finset Node}
  (acksSubset : acks ⊆ placement.replicas) (respondersSubset : responders ⊆ placement.replicas)

include acksSubset respondersSubset

theorem meet_of_dataCenter {dc : DataCenter} {rf : ℕ} (factor : dcRf.lookup dc = some rf)
    (acked : rf / 2 + 1 ≤ placement.countInDc acks dc)
    (answered : rf / 2 + 1 ≤ placement.countInDc responders dc) :
    (acks ∩ responders).Nonempty := by
  have bounded : placement.countInDc placement.replicas dc ≤ rf := bounded_of_lookup factor
  have localMeet := inter_nonempty_of_card_lt_card_add_card
    (members_mono placement.dataCenter dc acksSubset)
    (members_mono placement.dataCenter dc respondersSubset)
    (by simp only [countInDc] at bounded acked answered; omega)
  exact localMeet.mono (inter_subset_inter (members_subset placement.dataCenter acks dc)
    (members_subset placement.dataCenter responders dc))

end Meeting

variable {level : ConsistencyLevel} {total : ℕ}

theorem totalProgress_satisfied {strategy : ReplicationStrategy}
    (meets : (totalProgress level strategy total).satisfied)
    (notTwo : level ≠ .two) (notThree : level ≠ .three) :
    level.blockFor strategy.replicationFactor ≤ total := by
  simp only [totalProgress] at meets
  split_ifs at meets
  · simp at meets
  · cases level <;> simp_all [satisfied_iff]

theorem localProgress_satisfied
    (meets : (localProgress (networkTopology dcRf) origin count).satisfied) :
    ∃ rf, (networkTopology dcRf).configuredFactor origin = some rf ∧ rf / 2 + 1 ≤ count origin := by
  simp only [localProgress] at meets
  split at meets
  · simp at meets
  · next rf found => exact ⟨rf, found, (satisfied_iff.mp meets).2⟩

theorem dcQuorumProgress_satisfied
    (meets : (dcQuorumProgress (networkTopology dcRf) origin total count).satisfied) :
    (localProgress (networkTopology dcRf) origin count).satisfied ∧
      (dcRf.entries.countP fun entry => 0 < entry.2) / 2 + 1 ≤
        dcVotes (networkTopology dcRf) count ∧
      (networkTopology dcRf).replicationFactor / 2 + 1 ≤ total := by
  simp only [dcQuorumProgress] at meets
  split at meets
  · simp at meets
  · next rf found =>
      split_ifs at meets with originMissed votesMissed
      · simp_all
      · simp_all
      · simp only [Bool.not_eq_true', Bool.not_eq_false] at originMissed votesMissed
        rw [sum_configured] at meets
        refine ⟨?_, (satisfied_iff.mp votesMissed).2, (satisfied_iff.mp meets).2⟩
        simpa only [localProgress, found] using originMissed

theorem progress_dcQuorum_satisfied
    (meets : (progress .dcQuorum (networkTopology dcRf) origin total count).satisfied) :
    (dcQuorumProgress (networkTopology dcRf) origin total count).satisfied := by
  simp only [progress] at meets
  split_ifs at meets with empty
  · have noReplicas : (networkTopology dcRf).replicationFactor = 0 := by
      have noEntries : dcRf.entries = [] := isEmpty_iff.mp empty
      simp [replicationFactor, noEntries]
    simp [totalProgress, noReplicas] at meets
  · exact meets

theorem eachQuorumProgress_satisfied
    (meets : (eachQuorumProgress (networkTopology dcRf) count).satisfied) :
    (networkTopology dcRf).configured ≠ [] ∧
      ∀ entry ∈ (networkTopology dcRf).configured, entry.2 / 2 + 1 ≤ count entry.1 := by
  simp only [eachQuorumProgress] at meets
  split_ifs at meets with none
  · simp at meets
  · refine ⟨fun empty => none (by simp [empty]), fun entry member => ?_⟩
    have capped := le_of_sum_le_sum (fun entry _ => min_le_right (count entry.1) (entry.2 / 2 + 1))
      (satisfied_iff.mp meets).2 entry member
    exact (le_min_iff.mp capped).1

theorem not_satisfied_of_no_replies (level : ConsistencyLevel) (origin : DataCenter) :
    ¬ (progress level (networkTopology dcRf) origin 0 fun _ => 0).satisfied := by
  have noTotal : ¬ (totalProgress level (networkTopology dcRf) 0).satisfied := by
    simp only [totalProgress]
    split_ifs
    · exact not_satisfied_unavailable
    · simp [satisfied_iff]; omega
  have noLocal : ¬ (localLevelProgress level (networkTopology dcRf) origin fun _ => 0).satisfied := by
    simp only [localLevelProgress]
    split
    · exact not_satisfied_unavailable
    · simp [satisfied_iff]; omega
  cases level with
  | dcQuorum =>
    intro meets
    rcases localProgress_satisfied
      (dcQuorumProgress_satisfied (progress_dcQuorum_satisfied meets)).1 with ⟨rf, _, counted⟩
    omega
  | eachQuorum =>
    intro meets
    rcases eachQuorumProgress_satisfied meets with ⟨nonempty, counted⟩
    rcases exists_mem_of_ne_nil _ nonempty with ⟨entry, member⟩
    have positive := counted entry member
    omega
  | localOne => exact noLocal
  | localQuorum => exact noLocal
  | localSerial => exact noLocal
  | _ => exact noTotal

theorem nonempty_of_answered (answered : placement.Answered level origin responders) :
    responders.Nonempty := by
  rw [nonempty_iff_ne_empty]
  rintro rfl
  have noCount : placement.countInDc ∅ = fun _ => 0 := by
    funext dc
    simp [countInDc, members]
  simp only [Answered, card_empty, noCount] at answered
  cases level with
  | dcQuorum =>
    rcases localProgress_satisfied answered with ⟨rf, _, counted⟩
    omega
  | _ => exact not_satisfied_of_no_replies _ origin answered

theorem half_lt_card_of_eachQuorum (subset : acks ⊆ placement.replicas)
    (acked : placement.Acknowledged .eachQuorum origin acks) :
    (networkTopology dcRf).replicationFactor < 2 * acks.card := by
  rcases eachQuorumProgress_satisfied acked with ⟨nonempty, counted⟩
  have halves := sum_lt_two_mul_sum_half (fun entry => entry.2) nonempty
  have counts : ((networkTopology dcRf).configured.map fun entry => entry.2 / 2 + 1).sum ≤
      ((networkTopology dcRf).configured.map
        fun entry => placement.countInDc acks entry.1).sum := List.sum_le_sum counted
  have part : ((networkTopology dcRf).configured.map
        fun entry => placement.countInDc acks entry.1).sum ≤
      (dcRf.entries.map fun entry => placement.countInDc acks entry.1).sum :=
    (filter_sublist.map _).sum_le_sum fun _ _ => Nat.zero_le _
  rw [← card_eq_sum_countInDc subset] at part
  rw [sum_configured] at halves
  omega

theorem half_lt_card_of_quorum (acked : placement.Acknowledged .quorum origin acks) :
    (networkTopology dcRf).replicationFactor < 2 * acks.card := by
  have counted := totalProgress_satisfied acked (by simp) (by simp)
  simp only [ConsistencyLevel.blockFor] at counted
  omega

theorem half_lt_card_of_answered (answered : placement.Answered .quorum origin responders) :
    (networkTopology dcRf).replicationFactor < 2 * responders.card := by
  have acked : placement.Acknowledged .quorum origin responders := answered
  exact half_lt_card_of_quorum acked

/-- The levels of a write and of a read that are meant to meet, with their origins. -/
inductive MeetingLevels : ConsistencyLevel → DataCenter → ConsistencyLevel → DataCenter → Prop where
  | quorum (writeOrigin readOrigin : DataCenter) :
      MeetingLevels .quorum writeOrigin .quorum readOrigin
  | eachQuorumThenQuorum (writeOrigin readOrigin : DataCenter) :
      MeetingLevels .eachQuorum writeOrigin .quorum readOrigin
  | dcQuorumThenQuorum (writeOrigin readOrigin : DataCenter) :
      MeetingLevels .dcQuorum writeOrigin .quorum readOrigin
  | localQuorum (origin : DataCenter) :
      MeetingLevels .localQuorum origin .localQuorum origin
  | dcQuorum (origin : DataCenter) :
      MeetingLevels .dcQuorum origin .dcQuorum origin
  | eachQuorumThenLocalQuorum (writeOrigin readOrigin : DataCenter) :
      MeetingLevels .eachQuorum writeOrigin .localQuorum readOrigin
  | all (level : ConsistencyLevel) (writeOrigin readOrigin : DataCenter) :
      MeetingLevels .all writeOrigin level readOrigin

section Intersection

variable [DecidableEq Node]

theorem meet_of_all {writeOrigin readOrigin : DataCenter} {level : ConsistencyLevel}
    {acks responders : Finset Node} (acksSubset : acks ⊆ placement.replicas)
    (respondersSubset : responders ⊆ placement.replicas)
    (acked : placement.Acknowledged .all writeOrigin acks)
    (answered : placement.Answered level readOrigin responders) :
    (acks ∩ responders).Nonempty := by
  have counted := totalProgress_satisfied acked (by simp) (by simp)
  have everyReplica : acks = placement.replicas :=
    eq_of_subset_of_card_le acksSubset (card_replicas_le.trans counted)
  rw [everyReplica, inter_eq_right.mpr respondersSubset]
  exact nonempty_of_answered answered

theorem meet_of_localQuorums {origin : DataCenter} {acks responders : Finset Node}
    (acksSubset : acks ⊆ placement.replicas) (respondersSubset : responders ⊆ placement.replicas)
    (acked : (localProgress (networkTopology dcRf) origin (placement.countInDc acks)).satisfied)
    (answered :
      (localProgress (networkTopology dcRf) origin (placement.countInDc responders)).satisfied) :
    (acks ∩ responders).Nonempty := by
  rcases localProgress_satisfied acked with ⟨rf, factor, ackedLocally⟩
  rcases localProgress_satisfied answered with ⟨sameRf, sameFactor, answeredLocally⟩
  cases Option.some.inj (factor.symm.trans sameFactor)
  exact meet_of_dataCenter acksSubset respondersSubset (configuredFactor_eq_some.mp factor).1
    ackedLocally answeredLocally

/-- Two majorities of the data centers share one, and two majorities of its replicas meet. -/
theorem meet_of_dcQuorum_writes {firstOrigin secondOrigin : DataCenter} {first second : Finset Node}
    (firstSubset : first ⊆ placement.replicas) (secondSubset : second ⊆ placement.replicas)
    (firstAcked : placement.Acknowledged .dcQuorum firstOrigin first)
    (secondAcked : placement.Acknowledged .dcQuorum secondOrigin second) :
    (first ∩ second).Nonempty := by
  have firstVotes := (dcQuorumProgress_satisfied (progress_dcQuorum_satisfied firstAcked)).2.1
  have secondVotes := (dcQuorumProgress_satisfied (progress_dcQuorum_satisfied secondAcked)).2.1
  simp only [dcVotes, dcReplicationFactors] at firstVotes secondVotes
  have exceeds : (dcRf.entries.countP fun entry => 0 < entry.2) < (dcRf.entries.countP fun entry =>
        0 < entry.2 && entry.2 / 2 < placement.countInDc first entry.1) +
      (dcRf.entries.countP fun entry =>
        0 < entry.2 && entry.2 / 2 < placement.countInDc second entry.1) := by omega
  rcases exists_both_of_countP_lt (by simp +contextual) (by simp +contextual) exceeds with
    ⟨entry, member, voted⟩
  simp only [Bool.and_eq_true, decide_eq_true_iff] at voted
  exact meet_of_dataCenter firstSubset secondSubset (AList.mem_lookup_iff.mpr member)
    voted.1.2 voted.2.2

/-- Every acknowledged write is met by every read of a level meant to meet it, and any two
`DC_QUORUM` writes meet, whatever their origins. -/
theorem acknowledged_meets (placement : Placement Node dcRf) (acks responders : Finset Node)
    (acksSubset : acks ⊆ placement.replicas) (respondersSubset : responders ⊆ placement.replicas) :
    (∀ write writeOrigin read readOrigin, MeetingLevels write writeOrigin read readOrigin →
      placement.Acknowledged write writeOrigin acks →
      placement.Answered read readOrigin responders → (acks ∩ responders).Nonempty) ∧
    (∀ firstOrigin secondOrigin, placement.Acknowledged .dcQuorum firstOrigin acks →
      placement.Acknowledged .dcQuorum secondOrigin responders →
      (acks ∩ responders).Nonempty) := by
  refine ⟨?_, fun _ _ => meet_of_dcQuorum_writes acksSubset respondersSubset⟩
  intro write writeOrigin read readOrigin levels acked answered
  have meet_of_halves : (networkTopology dcRf).replicationFactor < 2 * acks.card →
      (networkTopology dcRf).replicationFactor < 2 * responders.card →
      (acks ∩ responders).Nonempty := fun ackedHalf answeredHalf =>
    inter_nonempty_of_card_lt_card_add_card acksSubset respondersSubset
      (lt_of_le_of_lt card_replicas_le (by omega))
  cases levels with
  | quorum =>
    exact meet_of_halves (half_lt_card_of_quorum acked) (half_lt_card_of_answered answered)
  | eachQuorumThenQuorum =>
    exact meet_of_halves (half_lt_card_of_eachQuorum acksSubset acked)
      (half_lt_card_of_answered answered)
  | dcQuorumThenQuorum =>
    have counted := (dcQuorumProgress_satisfied (progress_dcQuorum_satisfied acked)).2.2
    exact meet_of_halves (by omega) (half_lt_card_of_answered answered)
  | localQuorum =>
    exact meet_of_localQuorums acksSubset respondersSubset acked answered
  | dcQuorum =>
    exact meet_of_localQuorums acksSubset respondersSubset
      (dcQuorumProgress_satisfied (progress_dcQuorum_satisfied acked)).1 answered
  | eachQuorumThenLocalQuorum =>
    rcases localProgress_satisfied answered with ⟨rf, factor, answeredLocally⟩
    have ackedLocally := (eachQuorumProgress_satisfied acked).2 ⟨readOrigin, rf⟩
      (mem_configured.mpr (configuredFactor_eq_some.mp factor))
    exact meet_of_dataCenter acksSubset respondersSubset
      (configuredFactor_eq_some.mp factor).1 ackedLocally answeredLocally
  | all => exact meet_of_all acksSubset respondersSubset acked answered

def samplePlacement :
    Placement ℕ ((∅ : FiniteMap DataCenter ℕ).insert "dc1" 3 |>.insert "dc2" 3) where
  replicas := {1, 2, 3, 4, 5, 6}
  dataCenter node := if node % 2 = 0 then "dc1" else "dc2"
  bounded dc := by
    by_cases first : dc = "dc1"
    · subst first; decide
    · by_cases second : dc = "dc2"
      · subst second; decide
      · have noMembers : members (fun node => if node % 2 = 0 then "dc1" else "dc2")
            ({1, 2, 3, 4, 5, 6} : Finset ℕ) dc = ∅ := by
          apply Finset.filter_eq_empty_iff.mpr
          intro node _
          dsimp only
          split_ifs
          · exact Ne.symm first
          · exact Ne.symm second
        simp [noMembers]

theorem acknowledged_meets_samplePlacement :
    samplePlacement.Acknowledged .dcQuorum "dc1" {1, 2, 3, 4} ∧
      samplePlacement.Answered .quorum "dc2" {1, 3, 5, 6} ∧
      samplePlacement.Acknowledged .dcQuorum "dc2" {1, 5, 4, 6} ∧
      ({1, 2, 3, 4} ∩ {1, 3, 5, 6} : Finset ℕ).Nonempty ∧
      ({1, 2, 3, 4} ∩ {1, 5, 4, 6} : Finset ℕ).Nonempty := by
  have acked : samplePlacement.Acknowledged .dcQuorum "dc1" {1, 2, 3, 4} := by decide
  have answered : samplePlacement.Answered .quorum "dc2" {1, 3, 5, 6} := by decide
  have ackedElsewhere : samplePlacement.Acknowledged .dcQuorum "dc2" {1, 5, 4, 6} := by decide
  refine ⟨acked, answered, ackedElsewhere, ?_, ?_⟩
  · exact (acknowledged_meets samplePlacement _ _ (by decide) (by decide)).1 _ _ _ _
      (.dcQuorumThenQuorum "dc1" "dc2") acked answered
  · exact (acknowledged_meets samplePlacement _ _ (by decide) (by decide)).2 _ _ acked
      ackedElsewhere

end Intersection

end Placement

end Ferrosa.Cluster
