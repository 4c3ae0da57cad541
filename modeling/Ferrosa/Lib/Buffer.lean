import Mathlib

/-!
# Byte buffers

Positional reads and writes of a list.  The rules split the list at the offset,
so that a layout is described as the concatenation of its parts.
-/

namespace Ferrosa

universe u

variable {α : Type u}

def slice (buffer : List α) (offset count : ℕ) : List α := (buffer.drop offset).take count

def overwrite (buffer : List α) (offset : ℕ) (written : List α) : List α :=
  buffer.take offset ++ (written ++ buffer.drop (offset + written.length))

theorem slice_append {front middle : List α} {offset count : ℕ} (back : List α)
    (start : front.length = offset) (whole : middle.length = count) :
    slice (front ++ (middle ++ back)) offset count = middle := by
  subst start whole
  simp [slice]

theorem slice_zero_append {front : List α} {count : ℕ} (back : List α)
    (whole : front.length = count) : slice (front ++ back) 0 count = front := by
  subst whole
  simp [slice]

theorem slice_append_right (front back : List α) (offset count : ℕ) :
    slice (front ++ back) (front.length + offset) count = slice back offset count := by
  simp [slice]

theorem overwrite_append {front middle written : List α} (back : List α)
    (same : middle.length = written.length) :
    overwrite (front ++ (middle ++ back)) front.length written = front ++ (written ++ back) := by
  simp [overwrite, ← same]

theorem take_overwrite {buffer : List α} {offset count : ℕ} (written : List α)
    (below : count ≤ offset) (inside : offset ≤ buffer.length) :
    (overwrite buffer offset written).take count = buffer.take count := by
  rw [overwrite, List.take_append_of_le_length, List.take_take, Nat.min_eq_left below]
  rw [List.length_take]
  omega

end Ferrosa
