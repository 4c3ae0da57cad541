import Mathlib

/-!
# Stable sorting by merging runs

A stable sort keeps, for every element, the sequence of the elements that compare equal to it.
That much is an equivalence of lists which respects appending, so it can be followed through
any arrangement of runs.  A merge of sorted runs that prefers the earliest run among equal
heads is sorted and keeps these sequences, whatever the number of runs.
-/

namespace Ferrosa.StableMerge

open List Std.TransCmp Std.ReflCmp

universe u

variable {α : Type u} (cmp : α → α → Ordering)

def Ordered (xs : List α) : Prop := xs.Pairwise fun a b => (cmp a b).isLE

def ties (a : α) (xs : List α) : List α := xs.filter fun b => cmp a b == .eq

def SameTies (xs ys : List α) : Prop := ∀ a, ties cmp a xs = ties cmp a ys

/-- `ys` is sorted and has the elements of `xs`, equal ones in the order of `xs`. -/
structure IsStableSort (xs ys : List α) : Prop where
  ordered : Ordered cmp ys
  sameTies : SameTies cmp xs ys

variable {cmp}

section Ties

variable {a : α} {xs ys zs : List α}

@[simp] theorem ties_nil : ties cmp a [] = [] := rfl

@[simp] theorem ties_append : ties cmp a (xs ++ ys) = ties cmp a xs ++ ties cmp a ys :=
  filter_append xs ys

theorem ties_eq_nil_iff : ties cmp a xs = [] ↔ ∀ b ∈ xs, cmp a b ≠ .eq := by
  simp [ties]

namespace SameTies

theorem refl (xs : List α) : SameTies cmp xs xs := fun _ => rfl

theorem trans (first : SameTies cmp xs ys) (second : SameTies cmp ys zs) : SameTies cmp xs zs :=
  fun a => (first a).trans (second a)

theorem append {xs' ys' : List α} (front : SameTies cmp xs ys) (back : SameTies cmp xs' ys') :
    SameTies cmp (xs ++ xs') (ys ++ ys') := by
  intro a
  rw [ties_append, ties_append, front a, back a]

end SameTies

end Ties

section Order

variable [Std.TransCmp cmp]

theorem ties_cons_self {a : α} {xs : List α} : ties cmp a (a :: xs) = a :: ties cmp a xs := by
  simp [ties, compare_self]

theorem ties_congr {a b : α} (same : cmp a b = .eq) (xs : List α) :
    ties cmp a xs = ties cmp b xs := by
  simp only [ties, congr_left same]

theorem SameTies.perm {xs ys : List α} (same : SameTies cmp xs ys) : xs.Perm ys := by
  induction xs generalizing ys with
  | nil =>
    cases ys with
    | nil => exact .nil
    | cons first rest =>
      have missing := same first
      rw [ties_cons_self, ties_nil] at missing
      cases missing
  | cons first rest ih =>
    have split := same first
    rw [ties_cons_self] at split
    rcases filter_eq_cons_iff.mp split.symm with ⟨front, back, rfl, noTies, _, behind⟩
    have frontTies : ties cmp first front = [] := by
      rw [ties_eq_nil_iff]
      simpa using noTies
    have others : SameTies cmp rest (front ++ back) := by
      intro a
      by_cases tied : cmp a first = .eq
      · rw [ties_congr tied, ties_congr tied, ties_append, frontTies, nil_append]
        exact behind.symm
      · simpa [ties, tied] using same a
    exact ((ih others).cons first).trans perm_middle.symm

theorem SameTies.eq_of_ordered {xs ys : List α} (same : SameTies cmp xs ys)
    (orderedXs : Ordered cmp xs) (orderedYs : Ordered cmp ys) : xs = ys := by
  induction xs generalizing ys with
  | nil => exact same.perm.nil_eq
  | cons x xs ih =>
    cases ys with
    | nil => cases same.perm.eq_nil
    | cons y ys =>
      rw [Ordered, pairwise_cons] at orderedXs orderedYs
      have below : (cmp x y).isLE := by
        rcases mem_cons.mp (same.perm.mem_iff.mpr mem_cons_self) with rfl | later
        · simp [compare_self]
        · exact orderedXs.1 y later
      have above : (cmp y x).isLE := by
        rcases mem_cons.mp (same.perm.mem_iff.mp mem_cons_self) with rfl | later
        · simp [compare_self]
        · exact orderedYs.1 x later
      have tied : cmp x y = .eq := Std.OrientedCmp.isLE_antisymm below above
      have heads := same x
      rw [ties_cons_self, ties_congr tied (y :: ys), ties_cons_self, List.cons.injEq] at heads
      obtain rfl := heads.1
      rw [ih (fun a => ?_) orderedXs.2 orderedYs.2]
      have rest := same a
      by_cases tiedA : cmp a x = .eq <;> simpa [ties, tiedA] using rest

theorem isLE_trans_of_cmp (a b c : α) (first : (cmp a b).isLE) (second : (cmp b c).isLE) :
    (cmp a c).isLE :=
  isLE_trans first second

theorem isLE_total_of_cmp (a b : α) : ((cmp a b).isLE || (cmp b a).isLE) = true := by
  have swapped : cmp b a = (cmp a b).swap := Std.OrientedCmp.eq_swap
  rw [swapped]
  cases cmp a b <;> rfl

theorem isStableSort_mergeSort (xs : List α) :
    IsStableSort cmp xs (xs.mergeSort fun a b => (cmp a b).isLE) where
  ordered := List.pairwise_mergeSort isLE_trans_of_cmp isLE_total_of_cmp xs
  sameTies a := by
    have tied : (ties cmp a xs).Pairwise fun b c => (cmp b c).isLE := by
      refine pairwise_of_forall_mem_list fun b inTies c inTies' => ?_
      have equalB : cmp a b = .eq := by simpa using of_mem_filter inTies
      have equalC : cmp a c = .eq := by simpa using of_mem_filter inTies'
      rw [← congr_left equalB, equalC]
      rfl
    have kept : (ties cmp a xs).Sublist (xs.mergeSort fun a b => (cmp a b).isLE) :=
      sublist_mergeSort isLE_trans_of_cmp isLE_total_of_cmp tied filter_sublist
    have keptTies := kept.filter fun b => cmp a b == .eq
    have whole : (ties cmp a xs).filter (fun b => cmp a b == .eq) = ties cmp a xs := by
      simp [ties]
    rw [whole] at keptTies
    apply keptTies.eq_of_length
    exact (mergeSort_perm xs fun a b => (cmp a b).isLE).filter (fun b => cmp a b == .eq)
      |>.length_eq.symm

end Order

/-- The head of run `i` comes first: it is not above another head, and among equal heads its
run is the earliest. -/
def Leads (cmp : α → α → Ordering) (runs : List (List α)) (i : ℕ) (row : α) : Prop :=
  ∀ j head tail, runs[j]? = some (head :: tail) → cmp row head = .lt ∨ (cmp row head = .eq ∧ i ≤ j)

inductive Merges (cmp : α → α → Ordering) : List (List α) → List α → Prop
  | done {runs : List (List α)} (empty : ∀ run ∈ runs, run = []) : Merges cmp runs []
  | pull {runs : List (List α)} {i : ℕ} {row : α} {rest merged : List α}
      (isRun : runs[i]? = some (row :: rest)) (leads : Leads cmp runs i row)
      (later : Merges cmp (runs.set i rest) merged) : Merges cmp runs (row :: merged)

section Merge

variable {runs : List (List α)} {i : ℕ} {row : α} {rest : List α} {run : List α}

theorem exists_split_of_getElem? (isRun : runs[i]? = some run) :
    ∃ front back, front.length = i ∧ runs = front ++ run :: back ∧
      ∀ other, runs.set i other = front ++ other :: back := by
  rcases List.getElem?_eq_some_iff.mp isRun with ⟨bound, rfl⟩
  refine ⟨runs.take i, runs.drop (i + 1), by simp; omega, by simp, fun other => ?_⟩
  rw [List.set_eq_take_append_cons_drop, if_pos bound]

theorem ordered_of_mem_set (ordered : ∀ run ∈ runs, Ordered cmp run)
    (isRun : runs[i]? = some (row :: rest)) : ∀ run ∈ runs.set i rest, Ordered cmp run := by
  intro run present
  rcases mem_or_eq_of_mem_set present with old | rfl
  · exact ordered run old
  · exact (pairwise_cons.mp (ordered _ (mem_of_getElem? isRun))).2

variable [Std.TransCmp cmp]

theorem Leads.isLE (leads : Leads cmp runs i row) (ordered : ∀ run ∈ runs, Ordered cmp run)
    (present : run ∈ runs) {other : α} (inRun : other ∈ run) :
    (cmp row other).isLE := by
  rcases mem_iff_getElem?.mp present with ⟨j, isRun⟩
  cases run with
  | nil => cases inRun
  | cons head tail =>
    have atMostHead : (cmp row head).isLE := by
      rcases leads j head tail isRun with below | ⟨equal, _⟩
      · rw [below]
        rfl
      · rw [equal]
        rfl
    rcases mem_cons.mp inRun with rfl | inTail
    · exact atMostHead
    · exact isLE_trans atMostHead ((pairwise_cons.mp (ordered _ present)).1 other inTail)

theorem Leads.ties_eq_nil (leads : Leads cmp runs i row) (ordered : ∀ run ∈ runs, Ordered cmp run)
    {j : ℕ} (before : j < i) (isRun : runs[j]? = some run) : ties cmp row run = [] := by
  rw [ties_eq_nil_iff]
  cases run with
  | nil => simp
  | cons head tail =>
    have below : cmp row head = .lt := by
      rcases leads j head tail isRun with below | ⟨_, notBefore⟩
      · exact below
      · omega
    have orderedRun := ordered _ (mem_of_getElem? isRun)
    intro other inRun equal
    have strictly : cmp row other = .lt := by
      rcases mem_cons.mp inRun with rfl | inTail
      · exact below
      · exact lt_of_lt_of_isLE below ((pairwise_cons.mp orderedRun).1 other inTail)
    rw [strictly] at equal
    cases equal

section

variable (ordered : ∀ run ∈ runs, Ordered cmp run)

include ordered

theorem Leads.sameTies_cons (leads : Leads cmp runs i row) (isRun : runs[i]? = some (row :: rest)) :
    SameTies cmp runs.flatten (row :: (runs.set i rest).flatten) := by
  rcases exists_split_of_getElem? isRun with ⟨front, back, atFront, split, changed⟩
  have frontTies : ties cmp row front.flatten = [] := by
    rw [ties, filter_flatten, flatten_eq_nil_iff]
    intro run present
    rcases mem_map.mp present with ⟨run, inFront, rfl⟩
    rcases mem_iff_getElem?.mp inFront with ⟨j, isFront⟩
    have before : j < front.length := (List.getElem?_eq_some_iff.mp isFront).1
    apply leads.ties_eq_nil ordered (atFront ▸ before)
    rw [split, getElem?_append_left before, isFront]
  have whole : runs.flatten = front.flatten ++ ([row] ++ (rest ++ back.flatten)) := by
    simp [split]
  have left : row :: (runs.set i rest).flatten =
      [row] ++ (front.flatten ++ (rest ++ back.flatten)) := by
    simp [changed]
  intro a
  rw [whole, left]
  simp only [ties_append]
  by_cases tied : cmp a row = .eq
  · rw [ties_congr tied, ties_congr tied, frontTies]
    simp
  · have noTie : ties cmp a [row] = [] := by
      rw [ties_eq_nil_iff]
      simpa using tied
    rw [noTie]
    simp

theorem Merges.isStableSort {merged : List α} (merges : Merges cmp runs merged) :
    IsStableSort cmp runs.flatten merged := by
  induction merges with
  | done empty =>
    refine ⟨List.Pairwise.nil, ?_⟩
    rw [flatten_eq_nil_iff.mpr empty]
    exact SameTies.refl []
  | @pull runs i row rest merged isRun leads later ih =>
    have orderedLater := ordered_of_mem_set ordered isRun
    have sorted := ih orderedLater
    have firstTies := leads.sameTies_cons ordered isRun
    refine ⟨pairwise_cons.mpr ⟨?_, sorted.ordered⟩, ?_⟩
    · intro other inMerged
      have inLater : other ∈ (runs.set i rest).flatten :=
        sorted.sameTies.perm.mem_iff.mpr inMerged
      have inRuns : other ∈ runs.flatten :=
        firstTies.perm.mem_iff.mpr (mem_cons_of_mem _ inLater)
      rcases mem_flatten.mp inRuns with ⟨run, present, inRun⟩
      exact leads.isLE ordered present inRun
    · exact firstTies.trans ((SameTies.refl [row]).append sorted.sameTies)

end

end Merge

end Ferrosa.StableMerge
