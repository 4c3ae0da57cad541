import Mathlib

/-!
# Chunks

Consecutive pieces of a list, of a given size except for the last one.
-/

namespace Ferrosa

open List

universe u

variable {α : Type u}

def chunks (size : ℕ) (xs : List α) : List (List α) :=
  if size = 0 ∨ xs = [] then [] else xs.take size :: chunks size (xs.drop size)
termination_by xs.length
decreasing_by
  rename_i proper
  rw [not_or] at proper
  have nonempty := List.length_pos_of_ne_nil proper.2
  simp only [List.length_drop]
  omega

variable {size : ℕ} (positive : 0 < size)

include positive

theorem chunks_eq {xs : List α} (nonempty : xs ≠ []) :
    chunks size xs = xs.take size :: chunks size (xs.drop size) := by
  rw [chunks, if_neg]
  rintro (rfl | empty)
  · exact positive.ne rfl
  · exact nonempty empty

theorem chunks_induction {holds : List α → Prop} (empty : holds [])
    (chunk : ∀ xs, xs ≠ [] → holds (xs.drop size) → holds xs) (xs : List α) : holds xs := by
  induction bound : xs.length using Nat.strongRecOn generalizing xs with
  | ind n ih =>
    by_cases isEmpty : xs = []
    · subst isEmpty
      exact empty
    · have nonempty := length_pos_of_ne_nil isEmpty
      apply chunk xs isEmpty
      exact ih _ (by simp only [length_drop]; omega) _ rfl

theorem flatten_chunks (xs : List α) : (chunks size xs).flatten = xs := by
  induction xs using chunks_induction positive with
  | empty => simp [chunks]
  | chunk xs nonempty ih => rw [chunks_eq positive nonempty, flatten_cons, ih,
      take_append_drop]

theorem length_chunks_mul_lt (xs : List α) : (chunks size xs).length * size < xs.length + size := by
  induction xs using chunks_induction positive with
  | empty => simpa [chunks] using positive
  | chunk xs nonempty ih =>
    have someLeft := length_pos_of_ne_nil nonempty
    rw [chunks_eq positive nonempty, length_cons, Nat.add_one_mul]
    by_cases last : xs.length ≤ size
    · rw [drop_eq_nil_of_le last, chunks, if_pos (Or.inr rfl)]
      simpa using someLeft
    · simp only [length_drop] at ih
      omega

end Ferrosa
