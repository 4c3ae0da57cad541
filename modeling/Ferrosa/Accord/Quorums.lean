import Mathlib

/-!
# Quorum sizes

The sizes of the slow and the fast quorum, and for which replication factors two fast quorums and
a slow one share a replica.
-/

namespace Ferrosa.Accord

open Finset

def slowQuorumSize (rf : ℕ) : ℕ := rf / 2 + 1

/-- With the number of failures that a slow quorum tolerates. -/
def fastQuorumSize (rf : ℕ) : ℕ :=
  let f := rf - slowQuorumSize rf
  (3 * f + 1) / 2 + 1

variable {Node : Type*} [DecidableEq Node] {replicas first second third : Finset Node}

/-- Two fast quorums and a slow one share a replica, and so do two slow ones. -/
structure QuorumsIntersect (replicas : Finset Node) : Prop where
  fast : ∀ first ⊆ replicas, ∀ second ⊆ replicas, ∀ slow ⊆ replicas,
    first.card = fastQuorumSize replicas.card → second.card = fastQuorumSize replicas.card →
    slow.card = slowQuorumSize replicas.card → (first ∩ second ∩ slow).Nonempty
  slow : ∀ first ⊆ replicas, ∀ second ⊆ replicas, first.card = slowQuorumSize replicas.card →
    second.card = slowQuorumSize replicas.card → (first ∩ second).Nonempty

theorem card_add_card_le (inFirst : first ⊆ replicas) (inSecond : second ⊆ replicas) :
    first.card + second.card ≤ replicas.card + (first ∩ second).card := by
  have union := card_le_card (union_subset inFirst inSecond)
  have split := card_union_add_card_inter first second
  omega

theorem quorumsIntersect_of_mod (mod : replicas.card % 4 ≠ 2) : QuorumsIntersect replicas where
  fast first inFirst second inSecond slow inSlow isFirst isSecond isSlow := by
    have both := card_add_card_le inFirst inSecond
    have all := card_add_card_le (inter_subset_left.trans inFirst : first ∩ second ⊆ _) inSlow
    rw [← card_pos]
    simp only [fastQuorumSize, slowQuorumSize] at isFirst isSecond isSlow
    rcases (by omega : replicas.card % 4 = 0 ∨ replicas.card % 4 = 1 ∨ replicas.card % 4 = 3) with
      remainder | remainder | remainder <;> omega
  slow first inFirst second inSecond isFirst isSecond := by
    have both := card_add_card_le inFirst inSecond
    rw [← card_pos]
    simp only [slowQuorumSize] at isFirst isSecond
    omega

/-- Half of the replicas less one lie in both fast quorums, the others are the slow one. -/
theorem exists_disjoint_quorums {k : ℕ} (size : replicas.card = 4 * k + 2) :
    ∃ first ⊆ replicas, ∃ second ⊆ replicas, ∃ slow ⊆ replicas,
      first.card = 3 * k + 1 ∧ second.card = 3 * k + 1 ∧ slow.card = 2 * k + 2 ∧
      first ∩ second ∩ slow = ∅ := by
  rcases exists_subset_card_eq (show 2 * k ≤ replicas.card by omega) with
    ⟨shared, inShared, isShared⟩
  have rest : (replicas \ shared).card = 2 * k + 2 := by
    rw [card_sdiff_of_subset inShared]
    omega
  rcases exists_subset_card_eq (show k + 1 ≤ (replicas \ shared).card by omega) with
    ⟨left, inLeft, isLeft⟩
  have outside : Disjoint shared (replicas \ shared) := disjoint_sdiff
  have leftOutside := outside.mono_right inLeft
  have rightOutside : Disjoint shared ((replicas \ shared) \ left) :=
    outside.mono_right sdiff_subset
  refine ⟨shared ∪ left, ?_, shared ∪ ((replicas \ shared) \ left), ?_, replicas \ shared,
    sdiff_subset, ?_, ?_, rest, ?_⟩
  · exact union_subset inShared (inLeft.trans sdiff_subset)
  · exact union_subset inShared (sdiff_subset.trans sdiff_subset)
  · rw [card_union_of_disjoint leftOutside]
    omega
  · rw [card_union_of_disjoint rightOutside, card_sdiff_of_subset inLeft]
    omega
  · rw [← union_inter_distrib_left, inter_sdiff_self, union_empty]
    exact disjoint_iff_inter_eq_empty.mp outside

theorem quorumsIntersect_iff (replicas : Finset Node) :
    QuorumsIntersect replicas ↔ replicas.card % 4 ≠ 2 := by
  refine ⟨fun intersect mod => ?_, quorumsIntersect_of_mod⟩
  have size : replicas.card = 4 * (replicas.card / 4) + 2 := by omega
  rcases exists_disjoint_quorums size with
    ⟨first, inFirst, second, inSecond, slow, inSlow, isFirst, isSecond, isSlow, disjoint⟩
  have shared := intersect.fast first inFirst second inSecond slow inSlow
    (by simp only [fastQuorumSize, slowQuorumSize]; omega)
    (by simp only [fastQuorumSize, slowQuorumSize]; omega)
    (by simp only [slowQuorumSize]; omega)
  rw [disjoint] at shared
  exact not_nonempty_empty shared

/-- Of six replicas, two fast quorums of four and a slow one of four. -/
theorem not_quorumsIntersect_six : ¬ QuorumsIntersect (Finset.univ : Finset (Fin 6)) := by
  intro intersect
  have shared := intersect.fast {0, 1, 2, 3} (subset_univ _) {2, 3, 4, 5}
    (subset_univ _) {0, 1, 4, 5} (subset_univ _) rfl rfl rfl
  revert shared
  decide

end Ferrosa.Accord
