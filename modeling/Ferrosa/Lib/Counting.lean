import Ferrosa.Lib.FiniteMap

/-!
# Counting by classes

The members of a finite set are counted class by class, where a finite map lists the
classes.  Two lists of numbers that agree in their sums and are ordered pointwise agree
everywhere, and two majorities of one list share an entry.
-/

namespace Ferrosa.Counting

open List

universe u v w

section Lists

variable {α : Type u} {list : List α}

theorem le_of_sum_le_sum {smaller larger : α → ℕ}
    (pointwise : ∀ entry ∈ list, smaller entry ≤ larger entry)
    (sums : (list.map larger).sum ≤ (list.map smaller).sum) :
    ∀ entry ∈ list, larger entry ≤ smaller entry := by
  induction list with
  | nil => simp
  | cons head tail ih =>
    simp only [map_cons, sum_cons, forall_mem_cons] at pointwise sums ⊢
    rcases pointwise with ⟨headLe, tailLe⟩
    have tailSums : (tail.map smaller).sum ≤ (tail.map larger).sum := sum_le_sum tailLe
    refine ⟨by omega, ih tailLe (by omega)⟩

theorem exists_both_of_countP_lt {whole first second : α → Bool}
    (firstPart : ∀ entry, first entry → whole entry)
    (secondPart : ∀ entry, second entry → whole entry)
    (exceeds : list.countP whole < list.countP first + list.countP second) :
    ∃ entry ∈ list, first entry ∧ second entry := by
  induction list with
  | nil => simp at exceeds
  | cons head tail ih =>
    by_cases both : first head ∧ second head
    · exact ⟨head, mem_cons_self, both⟩
    · have tailExceeds : tail.countP whole < tail.countP first + tail.countP second := by
        have firstHead := firstPart head
        have secondHead := secondPart head
        simp only [countP_cons] at exceeds
        split_ifs at exceeds <;> simp_all <;> omega
      rcases ih tailExceeds with ⟨entry, member, holds⟩
      exact ⟨entry, mem_cons_of_mem head member, holds⟩

/-- The halves of several numbers, each rounded up past the half, cover half of the sum. -/
theorem sum_lt_two_mul_sum_half (size : α → ℕ) (nonempty : list ≠ []) :
    (list.map size).sum < 2 * (list.map fun entry => size entry / 2 + 1).sum := by
  induction list with
  | nil => exact absurd rfl nonempty
  | cons head tail ih =>
    simp only [map_cons, sum_cons]
    cases tail with
    | nil => simp; omega
    | cons next rest =>
      have tailBound := ih (cons_ne_nil next rest)
      omega

end Lists

section Classes

variable {α : Type u} {κ : Type v} {β : Type w} [DecidableEq κ]

def members (classOf : α → κ) (set : Finset α) (key : κ) : Finset α :=
  set.filter fun member => classOf member = key

theorem members_subset (classOf : α → κ) (set : Finset α) (key : κ) :
    members classOf set key ⊆ set := Finset.filter_subset _ set

theorem members_mono (classOf : α → κ) {part whole : Finset α} (key : κ) (subset : part ⊆ whole) :
    members classOf part key ⊆ members classOf whole key := Finset.filter_subset_filter _ subset

theorem card_eq_sum_members (map : FiniteMap κ β) (classOf : α → κ) {set : Finset α}
    (listed : ∀ member ∈ set, classOf member ∈ map) :
    set.card = (map.entries.map fun entry => (members classOf set entry.1).card).sum := by
  have fibres : set.card = ∑ key ∈ map.keys.toFinset, (members classOf set key).card :=
    Finset.card_eq_sum_card_fiberwise fun member inSet => by
      simpa using AList.mem_keys.mp (listed member inSet)
  rw [fibres, sum_toFinset _ map.keys_nodup, AList.keys, List.keys, map_map]
  rfl

end Classes

end Ferrosa.Counting
