import Ferrosa.Lib.KeyedFold

/-!
# Binary search

The slice search of the standard library of Rust: a loop that halves a window without
stopping at an equal element, then one last comparison.  On a list that is strictly
sorted by the compared key it finds the element with the key, or the place where such
an element belongs.
-/

namespace Ferrosa.BinarySearch

open KeyedFold
open List hiding lookup lookup_eq_none_iff

universe u v

variable {α : Type u} {κ : Type v}

section Search

variable (compare : α → Ordering) (xs : List α)

/-- The comparison at an index; an index outside the list does not occur. -/
def probe (index : ℕ) : Ordering := (xs[index]?.map compare).getD .eq

def narrow : (fuel base size : ℕ) → ℕ
  | 0, base, _ => base
  | fuel + 1, base, size =>
    if 1 < size then
      let half := size / 2
      let mid := base + half
      narrow fuel (if probe compare xs mid = .gt then base else mid) (size - half)
    else base

def binarySearchBy : Except ℕ ℕ :=
  if xs.isEmpty then .error 0
  else
    let base := narrow compare xs xs.length 0 xs.length
    match probe compare xs base with
    | .eq => .ok base
    | .lt => .error (base + 1)
    | .gt => .error base

end Search

def binarySearchByKey [LinearOrder κ] (key : α → κ) (k : κ) (xs : List α) : Except ℕ ℕ :=
  binarySearchBy (fun x => cmp (key x) k) xs

variable [LinearOrder κ] {key : α → κ} {k : κ} {xs : List α}

theorem probe_of_lt {index : ℕ} (bound : index < xs.length) :
    probe (fun x => cmp (key x) k) xs index = cmp (key xs[index]) k := by
  simp [probe, getElem?_eq_getElem bound]

/-- The window that the loop keeps: nothing before `base` is above the key and everything
after the window is. -/
structure Window (key : α → κ) (k : κ) (xs : List α) (base size : ℕ) : Prop where
  positive : 0 < size
  inside : base + size ≤ xs.length
  below : ∀ bound : base < xs.length, base = 0 ∨ key xs[base] ≤ k
  above : ∀ index (bound : index < xs.length), base + size ≤ index → k < key xs[index]

theorem Window.halve {base size : ℕ} (sorted : StrictlySorted key xs)
    (window : Window key k xs base size) (many : 1 < size) :
    Window key k xs
      (if probe (fun x => cmp (key x) k) xs (base + size / 2) = .gt then base else base + size / 2)
      (size - size / 2) := by
  rcases window with ⟨positive, inside, below, above⟩
  have midBound : base + size / 2 < xs.length := by omega
  simp only [probe_of_lt midBound, cmp_eq_gt_iff]
  split
  · rename_i midAbove
    refine ⟨by omega, by omega, below, ?_⟩
    intro index bound past
    rcases (show base + size / 2 ≤ index by omega).lt_or_eq with later | rfl
    · exact midAbove.trans (pairwise_iff_getElem.mp sorted _ _ midBound bound later)
    · exact midAbove
  · rename_i midBelow
    refine ⟨by omega, by omega, fun _ => Or.inr (not_lt.mp midBelow), ?_⟩
    intro index bound past
    exact above index bound (by omega)

theorem window_narrow (sorted : StrictlySorted key xs) {fuel base size : ℕ}
    (window : Window key k xs base size) (enough : size ≤ fuel + 1) :
    Window key k xs (narrow (fun x => cmp (key x) k) xs fuel base size) 1 := by
  induction fuel generalizing base size with
  | zero =>
    have isOne : size = 1 := by
      have positive := window.positive
      omega
    rw [narrow]
    exact isOne ▸ window
  | succ fuel ih =>
    rw [narrow]
    split
    · rename_i many
      exact ih (window.halve sorted many) (by omega)
    · rename_i few
      have isOne : size = 1 := by
        have positive := window.positive
        omega
      exact isOne ▸ window

inductive Found (key : α → κ) (k : κ) (xs : List α) : Except ℕ ℕ → Prop
  | present (before : List α) (x : α) (after : List α) (split : xs = before ++ x :: after)
      (isKey : key x = k) : Found key k xs (.ok before.length)
  | absent (before after : List α) (split : xs = before ++ after)
      (below : ∀ y ∈ before, key y < k) (above : ∀ y ∈ after, k < key y) :
      Found key k xs (.error before.length)

theorem found_binarySearchByKey (sorted : StrictlySorted key xs) (k : κ) :
    Found key k xs (binarySearchByKey key k xs) := by
  rw [binarySearchByKey, binarySearchBy]
  split
  · rename_i isEmpty
    rw [List.isEmpty_iff] at isEmpty
    exact .absent [] [] (by simp [isEmpty]) (by simp) (by simp)
  · rename_i nonempty
    have positive : 0 < xs.length := length_pos_iff.mpr (by simpa using nonempty)
    have start : Window key k xs 0 xs.length :=
      ⟨positive, by omega, fun _ => Or.inl rfl, fun index bound past => by omega⟩
    have narrowed : Window key k xs (narrow (fun x => cmp (key x) k) xs xs.length 0 xs.length) 1 :=
      window_narrow sorted start (by omega)
    generalize narrow (fun x => cmp (key x) k) xs xs.length 0 xs.length = base at *
    rcases narrowed with ⟨_, inside, below, above⟩
    have bound : base < xs.length := by omega
    have ordered := pairwise_iff_getElem.mp sorted
    have beforeLt : ∀ y ∈ xs.take base, key y < key xs[base] := by
      intro y yMem
      rcases mem_take_iff_getElem.mp yMem with ⟨index, indexBound, rfl⟩
      exact ordered _ _ (by omega) bound (by omega)
    have afterAbove : ∀ y ∈ xs.drop (base + 1), k < key y := by
      intro y yMem
      rcases mem_drop_iff_getElem.mp yMem with ⟨index, indexBound, rfl⟩
      exact above _ (by omega) (by omega)
    have splits : xs = xs.take base ++ xs[base] :: xs.drop (base + 1) := by
      rw [← drop_eq_getElem_cons bound, take_append_drop]
    have lengthTake : (xs.take base).length = base := by simp; omega
    simp only [probe_of_lt bound]
    split
    · rename_i isEq
      have isFound := Found.present _ _ _ splits ((cmp_eq_eq_iff _ _).mp isEq)
      rw [lengthTake] at isFound
      exact isFound
    · rename_i isLt
      have baseBelow : key xs[base] < k := by rwa [cmp_eq_lt_iff] at isLt
      have takeBelow : ∀ y ∈ xs.take (base + 1), key y < k := by
        intro y yMem
        rw [take_succ_eq_append_getElem bound, mem_append, mem_singleton] at yMem
        rcases yMem with before | rfl
        · exact (beforeLt y before).trans baseBelow
        · exact baseBelow
      have isAbsent : Found key k xs (.error (xs.take (base + 1)).length) :=
        .absent _ _ (take_append_drop _ _).symm takeBelow afterAbove
      rw [show (xs.take (base + 1)).length = base + 1 by simp; omega] at isAbsent
      exact isAbsent
    · rename_i isGt
      have baseAbove : k < key xs[base] := by rwa [cmp_eq_gt_iff] at isGt
      have isZero : base = 0 := by
        rcases below bound with isZero | notAbove
        · exact isZero
        · exact absurd baseAbove (not_lt.mpr notAbove)
      subst isZero
      refine .absent [] xs rfl (by simp) ?_
      intro y yMem
      rcases mem_iff_getElem.mp yMem with ⟨index, indexBound, rfl⟩
      rcases Nat.eq_zero_or_pos index with rfl | later
      · exact baseAbove
      · exact above index indexBound (by omega)

/-- The sorted list `ys` is `xs` with `y` as its element of key `k`. -/
structure Updated (key : α → κ) (k : κ) (y : α) (xs ys : List α) : Prop where
  sorted : StrictlySorted key ys
  lookup_self : lookup key k ys = some y
  lookup_other : ∀ other, other ≠ k → lookup key other ys = lookup key other xs

theorem updated_append_cons {before after : List α} {y : α} (isKey : key y = k)
    (sortedBefore : StrictlySorted key before) (sortedAfter : StrictlySorted key after)
    (below : ∀ x ∈ before, key x < k) (above : ∀ x ∈ after, k < key x)
    (others : ∀ other, other ≠ k →
      (lookup key other before).or (lookup key other after) = lookup key other xs) :
    Updated key k y xs (before ++ y :: after) := by
  have sorted : StrictlySorted key (before ++ y :: after) := by
    rw [StrictlySorted, pairwise_append, pairwise_cons]
    refine ⟨sortedBefore, ⟨fun x xMem => isKey ▸ above x xMem, sortedAfter⟩, ?_⟩
    intro x xMem z zMem
    rcases mem_cons.mp zMem with rfl | inAfter
    · exact isKey ▸ below x xMem
    · exact (below x xMem).trans (above z inAfter)
  refine ⟨sorted, sorted.lookup_eq_some_iff.mpr ⟨by simp, isKey⟩, ?_⟩
  intro other notKey
  rw [← others other notKey, lookup, find?_append, find?_cons]
  have notY : decide (key y = other) = false := by
    rw [isKey]
    exact decide_eq_false (Ne.symm notKey)
  rw [notY]
  rfl

theorem Found.of_ok {i : ℕ} (sorted : StrictlySorted key xs) (found : Found key k xs (.ok i)) :
    ∃ x, xs[i]? = some x ∧ lookup key k xs = some x ∧
      ∀ y, key y = k → Updated key k y xs (xs.set i y) := by
  cases found with
  | present before x after splits isKey =>
    subst splits
    refine ⟨x, by simp, sorted.lookup_eq_some_iff.mpr ⟨by simp, isKey⟩, ?_⟩
    intro y yKey
    rw [StrictlySorted, pairwise_append, pairwise_cons] at sorted
    rcases sorted with ⟨sortedBefore, ⟨above, sortedAfter⟩, below⟩
    rw [set_append_right _ _ le_rfl, Nat.sub_self, set_cons_zero]
    refine updated_append_cons yKey sortedBefore sortedAfter
      (fun z zMem => isKey ▸ below z zMem x (by simp)) (fun z zMem => isKey ▸ above z zMem) ?_
    intro other notKey
    rw [lookup, lookup, lookup, find?_append, find?_cons, decide_eq_false (isKey ▸ Ne.symm notKey)]

theorem insertIdx_length_append (before after : List α) (y : α) :
    (before ++ after).insertIdx before.length y = before ++ y :: after := by
  induction before with
  | nil => rfl
  | cons first rest ih => simp [insertIdx_succ_cons, ih]

theorem Found.of_error {i : ℕ} (sorted : StrictlySorted key xs)
    (found : Found key k xs (.error i)) :
    lookup key k xs = none ∧ ∀ y, key y = k → Updated key k y xs (xs.insertIdx i y) := by
  cases found with
  | absent before after splits below above =>
    subst splits
    refine ⟨?_, ?_⟩
    · rw [lookup_eq_none_iff]
      exact forall_mem_append.mpr
        ⟨fun x inBefore => (below x inBefore).ne, fun x inAfter => (above x inAfter).ne'⟩
    · intro y yKey
      rw [StrictlySorted, pairwise_append] at sorted
      rcases sorted with ⟨sortedBefore, sortedAfter, _⟩
      rw [insertIdx_length_append]
      refine updated_append_cons yKey sortedBefore sortedAfter below above ?_
      intro other _
      rw [lookup, lookup, lookup, find?_append]

end Ferrosa.BinarySearch
