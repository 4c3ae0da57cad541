import Mathlib

/-!
# The first distinct elements of a walk

A walk visits elements, possibly several times, and keeps the first `count`
distinct ones.  Moving the first element of a walk to its end changes the set
that is kept exactly when the walk meets `count` other elements before it
comes back to the moved one.
-/

namespace Ferrosa.FirstDistinct

open List

universe u

variable {α : Type u} [DecidableEq α]

def firstDistinct (count : Nat) (walk : List α) : List α :=
  walk.eraseDups.take count

variable {count : Nat}

theorem mem_of_mem_firstDistinct {walk : List α} {a : α}
    (kept : a ∈ firstDistinct count walk) : a ∈ walk :=
  mem_eraseDups.mp (mem_of_mem_take kept)

theorem firstDistinct_cons (a : α) (walk : List α) : firstDistinct (count + 1) (a :: walk) =
      a :: firstDistinct count (walk.filter (fun b => !b == a)) := by
  simp [firstDistinct, eraseDups_cons]

theorem mem_firstDistinct_cons_self (positive : 1 ≤ count) (a : α)
    (walk : List α) : a ∈ firstDistinct count (a :: walk) := by
  obtain ⟨fewer, rfl⟩ : ∃ fewer, count = fewer + 1 := ⟨count - 1, by omega⟩
  simp [firstDistinct_cons]

theorem firstDistinct_append_of_subset (walk again : List α) (visited : ∀ a ∈ again, a ∈ walk) :
    firstDistinct count (walk ++ again) = firstDistinct count walk := by
  have nothingNew : again.removeAll walk = [] := by
    simpa [List.removeAll, filter_eq_nil_iff] using visited
  simp [firstDistinct, eraseDups_append, nothingNew]

theorem firstDistinct_wrap (before after : List α) :
    firstDistinct count (after ++ (before ++ after)) = firstDistinct count (after ++ before) := by
  rw [← append_assoc]
  apply firstDistinct_append_of_subset
  intro a visited
  exact mem_append_left _ visited

section Rotate

variable {a : α} {ahead : List α} (behind : List α)

/-- Where `a` is first met decides its place; what follows is the same either way. -/
theorem eraseDups_rotate (fresh : a ∉ ahead) : ∃ others : List α,
      (a :: (ahead ++ behind)).eraseDups = a :: (ahead.eraseDups ++ others) ∧
      (ahead ++ a :: behind).eraseDups = ahead.eraseDups ++ a :: others := by
  refine ⟨((behind.filter (fun b => !b == a)).removeAll ahead).eraseDups, ?_, ?_⟩
  · have kept : ahead.filter (fun b => !b == a) = ahead := by
      apply filter_eq_self.mpr
      intro b present
      have distinct : b ≠ a := fun same => fresh (same ▸ present)
      simp [distinct]
    rw [eraseDups_cons, filter_append, kept, eraseDups_append]
  · have missed : (a :: behind).removeAll ahead = a :: behind.removeAll ahead := by
      simp [List.removeAll, fresh]
    rw [eraseDups_append, missed, eraseDups_cons]
    simp [List.removeAll, filter_filter, Bool.and_comm]

omit [DecidableEq α] in
theorem mem_take_rotate_iff {count : Nat} {met others : List α} (small : met.length < count)
    (b : α) : b ∈ (a :: (met ++ others)).take count ↔ b ∈ (met ++ a :: others).take count := by
  obtain ⟨extra, rfl⟩ : ∃ extra, count = met.length + 1 + extra :=
    ⟨count - (met.length + 1), by omega⟩
  have front : (a :: (met ++ others)).take (met.length + 1 + extra) =
      a :: (met ++ others.take extra) := by
    rw [show met.length + 1 + extra = (met.length + extra) + 1 by omega, take_succ_cons,
      take_length_add_append]
  have back : (met ++ a :: others).take (met.length + 1 + extra) =
      met ++ a :: others.take extra := by
    rw [show met.length + 1 + extra = met.length + (extra + 1) by omega,
      take_length_add_append, take_succ_cons]
  rw [front, back]
  simp only [mem_cons, mem_append]
  tauto

theorem mem_firstDistinct_met_iff {count : Nat} (fresh : a ∉ ahead) :
    a ∈ firstDistinct count (ahead ++ a :: behind) ↔ ahead.eraseDups.length < count := by
  obtain ⟨others, -, back⟩ := eraseDups_rotate behind fresh
  rw [firstDistinct, back]
  constructor
  · intro kept
    by_contra large
    rw [take_append_of_le_length (by omega)] at kept
    exact fresh (mem_eraseDups.mp (mem_of_mem_take kept))
  · intro small
    obtain ⟨extra, rfl⟩ : ∃ extra, count = ahead.eraseDups.length + (extra + 1) :=
      ⟨count - ahead.eraseDups.length - 1, by omega⟩
    rw [take_length_add_append, take_succ_cons]
    simp

end Rotate

theorem exists_append_singleton (a : α) (walk : List α) :
    ∃ behind, walk ++ [a] = walk.takeWhile (· ≠ a) ++ a :: behind ∧
      (a :: walk).eraseDups = (a :: (walk.takeWhile (· ≠ a) ++ behind)).eraseDups := by
  have pieces := takeWhile_append_dropWhile (p := fun b => decide (b ≠ a)) (l := walk)
  cases rest : walk.dropWhile (· ≠ a) with
  | nil =>
    rw [rest, append_nil] at pieces
    refine ⟨[], ?_, ?_⟩
    · rw [pieces]
    · rw [pieces, append_nil]
  | cons first behind =>
    have stopped : first = a := by
      have notKept := head_dropWhile_not (fun b => decide (b ≠ a)) (l := walk) (by rw [rest]; simp)
      simp only [rest, head_cons] at notKept
      simpa using notKept
    rw [rest, stopped] at pieces
    refine ⟨behind ++ [a], ?_, ?_⟩
    · conv_lhs => rw [← pieces]
      simp
    · conv_lhs => rw [← pieces]
      simp [eraseDups_cons, filter_append]

def metBefore (a : α) (walk : List α) : List α :=
  (walk.takeWhile (· ≠ a)).eraseDups

theorem notMem_takeWhile_ne (a : α) (walk : List α) : a ∉ walk.takeWhile (· ≠ a) := by
  intro present
  simpa using mem_takeWhile_imp present

theorem mem_firstDistinct_concat_iff (a : α) (walk : List α) :
    a ∈ firstDistinct count (walk ++ [a]) ↔ (metBefore a walk).length < count := by
  obtain ⟨behind, back, -⟩ := exists_append_singleton a walk
  rw [back, mem_firstDistinct_met_iff behind (notMem_takeWhile_ne a walk), metBefore]

theorem mem_firstDistinct_rotate_iff (a : α) (walk : List α)
    (small : (metBefore a walk).length < count) (b : α) :
    b ∈ firstDistinct count (a :: walk) ↔ b ∈ firstDistinct count (walk ++ [a]) := by
  obtain ⟨behind, back, front⟩ := exists_append_singleton a walk
  obtain ⟨others, frontSplit, backSplit⟩ :=
    eraseDups_rotate behind (notMem_takeWhile_ne a walk)
  rw [firstDistinct, firstDistinct, back, front, frontSplit, backSplit]
  exact mem_take_rotate_iff small b

end Ferrosa.FirstDistinct
