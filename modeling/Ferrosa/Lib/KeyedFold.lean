import Mathlib

/-!
# Sorting a keyed list and folding its runs

A list whose elements carry a key is sorted stably by that key, and every run of
equal keys is folded into its first element.  When the fold respects keys, the
result is the strictly sorted list whose element at a key is the left fold, in
input order, of the input elements with that key.  Strictly sorted lists are
determined by their lookups, so equations between such lists are proved one
key at a time.
-/

namespace Ferrosa.KeyedFold

open List
open Option hiding filter_map map_map

universe u v w

section Reduce

variable {α : Type u}

/-- The left fold of a list without an initial value; `none` on the empty list. -/
def reduce (merge : α → α → α) : List α → Option α
  | [] => none
  | first :: rest => some (rest.foldl merge first)

variable {merge : α → α → α}

@[simp] theorem reduce_nil : reduce merge [] = none := rfl

@[simp] theorem reduce_singleton (a : α) : reduce merge [a] = some a := rfl

theorem reduce_cons_cons (a b : α) (rest : List α) :
    reduce merge (a :: b :: rest) = reduce merge (merge a b :: rest) := rfl

variable {xs : List α}

theorem reduce_eq_none_iff : reduce merge xs = none ↔ xs = [] := by
  cases xs <;> simp [reduce]

theorem reduce_concat (xs : List α) (a : α) :
    reduce merge (xs ++ [a]) = Option.merge merge (reduce merge xs) (some a) := by
  cases xs with
  | nil => rfl
  | cons first rest => simp [reduce, foldl_append]

theorem map_reduce {β : Type v} {merge' : β → β → β} {f : α → β}
    (hom : ∀ a b, f (merge a b) = merge' (f a) (f b)) (xs : List α) :
    (reduce merge xs).map f = reduce merge' (xs.map f) := by
  induction xs using List.reverseRecOn with
  | nil => rfl
  | append_singleton init last ih =>
    rw [reduce_concat, map_append, map_singleton, reduce_concat, ← ih]
    cases reduce merge init with
    | none => rfl
    | some folded => simp [hom]

theorem reduce_rec {motive : List α → α → Prop} (single : ∀ a, motive [a] a)
    (concat : ∀ init last folded, reduce merge init = some folded → motive init folded →
      motive (init ++ [last]) (merge folded last))
    {folded : α} (found : reduce merge xs = some folded) : motive xs folded := by
  induction xs using List.reverseRecOn generalizing folded with
  | nil => simp at found
  | append_singleton init last ih =>
    rw [reduce_concat] at found
    cases initFold : reduce merge init with
    | none =>
      rw [initFold, merge_none_left] at found
      rw [reduce_eq_none_iff.mp initFold, ← Option.some.inj found]
      exact single last
    | some initFolded =>
      rw [initFold, merge_some_some] at found
      rw [← Option.some.inj found]
      exact concat init last initFolded initFold (ih initFold)

theorem reduce_induction {P : α → Prop} (step : ∀ a b, P a → P b → P (merge a b))
    (all : ∀ x ∈ xs, P x) {folded : α} (found : reduce merge xs = some folded) :
    P folded := by
  refine reduce_rec (motive := fun xs folded => (∀ x ∈ xs, P x) → P folded) ?_ ?_ found all
  · intro a all
    exact all a (mem_singleton_self a)
  · intro init last folded _ ih all
    rw [forall_mem_append, forall_mem_singleton] at all
    exact step folded last (ih all.1) all.2

/-- Discarding commutes with the fold if every merge of elements in `P` treats the discarded ones as
absent. -/
theorem filter_reduce {P : α → Prop} {p : α → Bool} (closed : ∀ a b, P a → P b → P (merge a b))
    (select : ∀ a b, P a → P b → (some (merge a b)).filter p =
      Option.merge merge ((some a).filter p) ((some b).filter p))
    (all : ∀ x ∈ xs, P x) :
    (reduce merge xs).filter p = reduce merge (xs.filter p) := by
  induction xs using List.reverseRecOn with
  | nil => rfl
  | append_singleton init last ih =>
    have initAll : ∀ x ∈ init, P x := by
      intro x mem
      exact all x (mem_append_left _ mem)
    have lastSplit : reduce merge (init.filter p ++ [last].filter p) =
        Option.merge merge (reduce merge (init.filter p)) ((some last).filter p) := by
      by_cases keeps : p last
      · simp [filter_some, keeps, reduce_concat]
      · simp [filter_some, keeps]
    rw [filter_append, lastSplit, ← ih initAll, reduce_concat]
    cases initFold : reduce merge init with
    | none => simp
    | some folded =>
      exact select folded last (reduce_induction closed initAll initFold) (all last (by simp))

variable [Std.Associative merge]

theorem reduce_append (xs ys : List α) :
    reduce merge (xs ++ ys) = Option.merge merge (reduce merge xs) (reduce merge ys) := by
  induction ys using List.reverseRecOn with
  | nil => simp
  | append_singleton init last ih =>
    rw [← append_assoc, reduce_concat, ih, reduce_concat]
    exact (associative_merge merge).assoc _ _ _

theorem reduce_flatMap {β : Type v} (parts : β → List α) (groups : List β) :
    reduce merge (groups.flatMap parts) =
      reduce merge (groups.filterMap fun group => reduce merge (parts group)) := by
  induction groups with
  | nil => rfl
  | cons group rest ih =>
    rw [flatMap_cons, reduce_append, ih, filterMap_cons]
    cases found : reduce merge (parts group) with
    | none => simp
    | some folded =>
      change _ = reduce merge ([folded] ++ _)
      rw [reduce_append, reduce_singleton]

end Reduce

section Newest

variable {α : Type u} {β : Type v} [LinearOrder β]

variable (rank : α → β)

def newer (a b : α) : α := if rank a < rank b then b else a

instance newer_associative (rank : α → β) : Std.Associative (newer rank) where
  assoc a b c := by
    unfold newer
    grind

theorem rank_newer (a b : α) : rank (newer rank a b) = max (rank a) (rank b) := by
  unfold newer
  split <;> rename_i above
  · exact (max_eq_right above.le).symm
  · exact (max_eq_left (not_lt.mp above)).symm

@[simp] theorem newer_self (a : α) : newer rank a a = a := by
  simp [newer]

theorem filter_reduce_newer (bound : β) (xs : List α) :
    (reduce (newer rank) xs).filter (fun x => bound ≤ rank x) =
      reduce (newer rank) (xs.filter (fun x => bound ≤ rank x)) := by
  refine filter_reduce (P := fun _ => True) (fun _ _ _ _ => trivial) ?_ (fun _ _ => trivial)
  intro a b _ _
  by_cases less : rank a < rank b
  · by_cases aboveA : bound ≤ rank a
    · simp [filter_some, newer, less, aboveA, aboveA.trans less.le]
    · by_cases aboveB : bound ≤ rank b <;> simp [filter_some, newer, less, aboveA, aboveB]
  · by_cases aboveB : bound ≤ rank b
    · simp [filter_some, newer, less, aboveB, aboveB.trans (not_lt.mp less)]
    · by_cases aboveA : bound ≤ rank a <;> simp [filter_some, newer, less, aboveA, aboveB]

theorem reduce_newer_eq_argmax (xs : List α) : reduce (newer rank) xs = xs.argmax rank := by
  induction xs using List.reverseRecOn with
  | nil => rfl
  | append_singleton init last ih =>
    rw [reduce_concat, ih, argmax_concat]
    cases init.argmax rank with
    | none => rfl
    | some best =>
      simp only [Option.merge, newer]
      split <;> rfl

end Newest

section Lookup

variable {α : Type u} {κ : Type v} [LinearOrder κ] (key : α → κ)

def StrictlySorted (xs : List α) : Prop := xs.Pairwise (fun a b => key a < key b)
  deriving Decidable

def lookup (k : κ) (xs : List α) : Option α := xs.find? (fun x => key x = k)

def withKey (k : κ) (xs : List α) : List α := xs.filter (fun x => key x = k)

variable {key}

@[simp] theorem withKey_nil (k : κ) : withKey key k [] = [] := rfl

theorem withKey_cons (k : κ) (x : α) (xs : List α) :
    withKey key k (x :: xs) = if key x = k then x :: withKey key k xs else withKey key k xs := by
  simp [withKey, filter_cons]

@[simp] theorem withKey_append (k : κ) (xs ys : List α) :
    withKey key k (xs ++ ys) = withKey key k xs ++ withKey key k ys :=
  filter_append xs ys

theorem withKey_flatten (k : κ) (groups : List (List α)) :
    withKey key k groups.flatten = (groups.map (withKey key k)).flatten :=
  filter_flatten

variable {β : Type w} {xs : List α} {x : α} {k : κ} {key' : β → κ} {f : α → β}

@[simp] theorem mem_withKey : x ∈ withKey key k xs ↔ x ∈ xs ∧ key x = k := by
  simp [withKey]

@[simp] theorem lookup_nil (k : κ) : lookup key k [] = none := rfl

theorem lookup_cons (k : κ) (x : α) (xs : List α) :
    lookup key k (x :: xs) = if key x = k then some x else lookup key k xs := by
  by_cases same : key x = k <;> simp [lookup, same]

theorem mem_of_lookup (found : lookup key k xs = some x) : x ∈ xs ∧ key x = k :=
  ⟨mem_of_find?_eq_some found, by simpa using find?_some found⟩

theorem lookup_eq_none_iff : lookup key k xs = none ↔ ∀ x ∈ xs, key x ≠ k := by
  simp [lookup, find?_eq_none]

theorem StrictlySorted.tail (sorted : StrictlySorted key (x :: xs)) :
    StrictlySorted key xs :=
  (pairwise_cons.mp sorted).2

theorem StrictlySorted.head_lt {y : α} (sorted : StrictlySorted key (x :: xs)) (mem : y ∈ xs) :
    key x < key y :=
  (pairwise_cons.mp sorted).1 y mem

theorem lookup_eq_some_iff_of_distinct (distinct : xs.Pairwise (fun a b => key a ≠ key b)) :
    lookup key k xs = some x ↔ x ∈ xs ∧ key x = k := by
  refine ⟨mem_of_lookup, ?_⟩
  rintro ⟨mem, rfl⟩
  induction xs with
  | nil => simp at mem
  | cons first rest ih =>
    rw [lookup_cons]
    rcases mem_cons.mp mem with rfl | memRest
    · simp
    · rw [if_neg ((pairwise_cons.mp distinct).1 x memRest)]
      exact ih (pairwise_cons.mp distinct).2 memRest

theorem withKey_eq_of_distinct (distinct : xs.Pairwise (fun a b => key a ≠ key b))
    (k : κ) : withKey key k xs = (lookup key k xs).toList := by
  induction xs with
  | nil => rfl
  | cons first rest ih =>
    rw [lookup_cons, withKey_cons]
    by_cases same : key first = k
    · have restEmpty : withKey key k rest = [] := by
        refine eq_nil_iff_forall_not_mem.mpr fun x mem => ?_
        have differs := (pairwise_cons.mp distinct).1 x (mem_withKey.mp mem).1
        exact differs (same.trans (mem_withKey.mp mem).2.symm)
      simp [same, restEmpty]
    · simp [same, ih (pairwise_cons.mp distinct).2]

theorem withKey_eq_ite {k k' : κ} (only : ∀ x ∈ xs, key x = k) :
    withKey key k' xs = if k = k' then xs else [] := by
  split_ifs with same
  · simp only [withKey, filter_eq_self, decide_eq_true_eq]
    intro x present
    rw [only x present, same]
  · simp only [withKey, filter_eq_nil_iff, decide_eq_true_eq]
    intro x present
    rwa [only x present]

theorem withKey_flatMap (distinct : xs.Pairwise (fun a b => key a ≠ key b))
    {f : α → List β} (keepsKey : ∀ x ∈ xs, ∀ y ∈ f x, key' y = key x) (k : κ) :
    withKey key' k (xs.flatMap f) = (lookup key k xs).elim [] f := by
  induction xs with
  | nil => rfl
  | cons first rest ih =>
    rcases pairwise_cons.mp distinct with ⟨differs, distinctRest⟩
    have tail := ih distinctRest (fun x present => keepsKey x (mem_cons_of_mem _ present))
    rw [flatMap_cons, withKey_append, tail, lookup_cons,
      withKey_eq_ite (keepsKey first mem_cons_self)]
    split_ifs with same
    · have absent : lookup key k rest = none := by
        rw [lookup_eq_none_iff]
        intro x present atKey
        exact differs x present (same.trans atKey.symm)
      simp [absent]
    · rfl

section

variable (sorted : StrictlySorted key xs)

include sorted

theorem StrictlySorted.distinct : xs.Pairwise (fun a b => key a ≠ key b) :=
  sorted.imp (fun below => below.ne)

theorem StrictlySorted.lookup_eq_some_iff : lookup key k xs = some x ↔ x ∈ xs ∧ key x = k :=
  lookup_eq_some_iff_of_distinct sorted.distinct

theorem StrictlySorted.lookup_of_mem (mem : x ∈ xs) : lookup key (key x) xs = some x :=
  sorted.lookup_eq_some_iff.mpr ⟨mem, rfl⟩

theorem StrictlySorted.eq_of_key_eq {y : α}
    (memX : x ∈ xs) (memY : y ∈ xs) (same : key x = key y) : x = y := by
  have foundX := sorted.lookup_of_mem memX
  rw [same, sorted.lookup_of_mem memY] at foundX
  exact (Option.some.inj foundX).symm

theorem StrictlySorted.withKey_eq (k : κ) : withKey key k xs = (lookup key k xs).toList :=
  withKey_eq_of_distinct sorted.distinct k

end

theorem StrictlySorted.ext_mem {ys : List α} (sortedX : StrictlySorted key xs)
    (sortedY : StrictlySorted key ys) (agree : ∀ x, x ∈ xs ↔ x ∈ ys) : xs = ys := by
  have nodup : ∀ {us : List α}, StrictlySorted key us → us.Nodup := by
    intro us sorted
    exact sorted.imp (fun below equal => absurd (equal ▸ below) (lt_irrefl _))
  have perm : xs.Perm ys :=
    (perm_ext_iff_of_nodup (nodup sortedX) (nodup sortedY)).mpr agree
  exact perm.eq_of_pairwise (fun a b _ _ below above => absurd (below.trans above) (lt_irrefl _))
    sortedX sortedY

theorem StrictlySorted.ext_lookup {ys : List α} (sortedX : StrictlySorted key xs)
    (sortedY : StrictlySorted key ys)
    (agree : ∀ k, lookup key k xs = lookup key k ys) : xs = ys := by
  refine sortedX.ext_mem sortedY fun x => ?_
  have foundX := @StrictlySorted.lookup_eq_some_iff _ _ _ key xs x (key x) sortedX
  have foundY := @StrictlySorted.lookup_eq_some_iff _ _ _ key ys x (key x) sortedY
  rw [agree] at foundX
  simpa using foundX.symm.trans foundY

section

variable (sorted : StrictlySorted key xs)

include sorted

theorem StrictlySorted.filter (p : α → Bool) : StrictlySorted key (xs.filter p) :=
  List.Pairwise.filter p sorted

theorem StrictlySorted.dropWhile_lt (bound : κ) :
    xs.dropWhile (fun x => key x < bound) = xs.filter (fun x => bound ≤ key x) := by
  induction xs with
  | nil => rfl
  | cons first rest ih =>
    by_cases below : key first < bound
    · simp [below, not_le.mpr below, ih sorted.tail]
    · have above : bound ≤ key first := not_lt.mp below
      have keepsRest : rest.filter (fun x => bound ≤ key x) = rest := by
        rw [filter_eq_self]
        intro x mem
        exact decide_eq_true (above.trans (sorted.head_lt mem).le)
      simp [below, above, keepsRest]

theorem StrictlySorted.lookup_filter (p : α → Bool) (k : κ) :
    lookup key k (xs.filter p) = (lookup key k xs).filter p := by
  ext x
  rw [(sorted.filter p).lookup_eq_some_iff, filter_eq_some_iff,
    sorted.lookup_eq_some_iff, mem_filter]
  tauto

theorem StrictlySorted.mem_take_iff {n : ℕ} :
    x ∈ xs.take n ↔ x ∈ xs ∧ (xs.filter (fun y => key y < key x)).length < n := by
  induction xs generalizing n with
  | nil => simp
  | cons first rest ih =>
    cases n with
    | zero => simp
    | succ n =>
      rw [take_succ_cons, mem_cons, mem_cons, ih sorted.tail]
      by_cases isFirst : x = first
      · have noneBelow : rest.filter (fun y => key y < key x) = [] := by
          rw [filter_eq_nil_iff]
          intro y present
          simpa [isFirst] using (sorted.head_lt present).le
        simp [isFirst, isFirst ▸ noneBelow]
      · by_cases present : x ∈ rest
        · simp [isFirst, present, sorted.head_lt present]
        · simp [isFirst, present]

end

theorem StrictlySorted.take_eq_take_iff {ys : List α} (sortedX : StrictlySorted key xs)
    (sortedY : StrictlySorted key ys) (covered : ∀ y ∈ ys, ∃ x ∈ xs, key x = key y) (n : ℕ) :
    ys.take n = xs.take n ↔ ∀ x ∈ xs.take n, x ∈ ys := by
  constructor
  · intro same x present
    rw [← same] at present
    exact mem_of_mem_take present
  · intro contained
    induction xs generalizing ys n with
    | nil =>
      have empty : ys = [] := by
        rw [eq_nil_iff_forall_not_mem]
        intro y present
        rcases covered y present with ⟨x, absurd_, _⟩
        simp at absurd_
      rw [empty]
    | cons first rest ih =>
      cases n with
      | zero => simp
      | succ n =>
        have firstIn : first ∈ ys := contained first (by simp)
        cases ys with
        | nil => simp at firstIn
        | cons head others =>
          have sameHead : head = first := by
            rcases mem_cons.mp firstIn with same | later
            · exact same.symm
            · rcases covered head mem_cons_self with ⟨x, xIn, sameKey⟩
              have below := sortedY.head_lt later
              rcases mem_cons.mp xIn with rfl | xLater
              · exact absurd sameKey below.ne'
              · have above := sortedX.head_lt xLater
                exact absurd (above.trans (sameKey ▸ below)) (lt_irrefl _)
          subst sameHead
          rw [take_succ_cons, take_succ_cons, ih sortedX.tail sortedY.tail]
          · intro y present
            rcases covered y (mem_cons_of_mem _ present) with ⟨x, xIn, sameKey⟩
            rcases mem_cons.mp xIn with rfl | xLater
            · exact absurd sameKey (sortedY.head_lt present).ne
            · exact ⟨x, xLater, sameKey⟩
          · intro x present
            have inRest := mem_of_mem_take present
            have inYs := contained x (by
              rw [take_succ_cons]
              exact mem_cons_of_mem _ present)
            rcases mem_cons.mp inYs with rfl | later
            · exact absurd (sortedX.head_lt inRest) (lt_irrefl _)
            · exact later

theorem StrictlySorted.map (sorted : StrictlySorted key xs) (keepsKey : ∀ x, key' (f x) = key x) :
    StrictlySorted key' (xs.map f) := by
  refine pairwise_map.mpr (List.Pairwise.imp ?_ sorted)
  intro a b below
  rwa [keepsKey, keepsKey]

theorem lookup_map (keepsKey : ∀ x, key' (f x) = key x)
    (k : κ) (xs : List α) : lookup key' k (xs.map f) = (lookup key k xs).map f := by
  simp [lookup, find?_map, Function.comp_def, keepsKey]

theorem withKey_map (keepsKey : ∀ x, key' (f x) = key x)
    (k : κ) (xs : List α) : withKey key' k (xs.map f) = (withKey key k xs).map f := by
  simp [withKey, filter_map, Function.comp_def, keepsKey]

@[simp] theorem withKey_withKey (k : κ) (xs : List α) :
    withKey key k (withKey key k xs) = withKey key k xs := by
  simp [withKey]

@[simp] theorem lookup_withKey (k : κ) (xs : List α) :
    lookup key k (withKey key k xs) = lookup key k xs := by
  simp [lookup, withKey, find?_filter]

theorem StrictlySorted.filterMap (sorted : StrictlySorted key xs)
    {f : α → Option α} (keepsKey : ∀ x, ∀ y ∈ f x, key y = key x) :
    StrictlySorted key (xs.filterMap f) := by
  refine List.Pairwise.filterMap f ?_ sorted
  intro a b below a' isA b' isB
  rwa [keepsKey a a' isA, keepsKey b b' isB]

theorem StrictlySorted.lookup_filterMap (sorted : StrictlySorted key xs)
    {f : α → Option α} (keepsKey : ∀ x, ∀ y ∈ f x, key y = key x) (k : κ) :
    lookup key k (xs.filterMap f) = (lookup key k xs).bind f := by
  ext x
  rw [(sorted.filterMap keepsKey).lookup_eq_some_iff, bind_eq_some_iff, mem_filterMap]
  simp only [sorted.lookup_eq_some_iff]
  constructor
  · rintro ⟨⟨source, sourceMem, isX⟩, atKey⟩
    exact ⟨source, ⟨sourceMem, (keepsKey source x isX).symm.trans atKey⟩, isX⟩
  · rintro ⟨source, ⟨sourceMem, atKey⟩, isX⟩
    exact ⟨⟨source, sourceMem, isX⟩, (keepsKey source x isX).trans atKey⟩

theorem lookup_filterMap_keys {keys : List κ} {f : κ → Option α}
    (ownKey : ∀ k, ∀ x ∈ f k, key x = k) (k : κ) :
    lookup key k (keys.filterMap f) = if k ∈ keys then f k else none := by
  induction keys with
  | nil => rfl
  | cons first rest ih =>
    cases value : f first with
    | none =>
      rw [filterMap_cons_none value, ih]
      by_cases same : k = first
      · simp [same, value]
      · simp [same]
    | some x =>
      rw [filterMap_cons_some value, lookup_cons, ownKey first x value, ih]
      by_cases same : first = k
      · simp [← same, value]
      · simp [same, Ne.symm same]

end Lookup

section SortFold

variable {α : Type u} {κ : Type v} [LinearOrder κ] (key : α → κ) (merge : α → α → α)

def sortByKey (xs : List α) : List α := xs.insertionSort (fun a b => key a ≤ key b)

/-- Fold the elements that follow `current` into it while they have its key. -/
def foldRunsFrom (current : α) : List α → List α
  | [] => [current]
  | next :: rest =>
    if key next = key current then
      foldRunsFrom (merge current next) rest
    else
      current :: foldRunsFrom next rest

def foldRuns : List α → List α
  | [] => []
  | first :: rest => foldRunsFrom key merge first rest

def sortFold (xs : List α) : List α := foldRuns key merge (sortByKey key xs)

def headAt (k : κ) (xs : List α) : Option α := xs.head?.filter (fun x => key x = k)

def headsAt (k : κ) (lists : List (List α)) : List α := lists.filterMap (headAt key k)

def dropHeadAt (k : κ) : List α → List α
  | [] => []
  | first :: rest => if key first = k then rest else first :: rest

variable {key merge}

@[simp] theorem headsAt_nil_cons (k : κ) (lists : List (List α)) :
    headsAt key k ([] :: lists) = headsAt key k lists := rfl

theorem headsAt_cons_cons (k : κ) (x : α) (xs : List α) (lists : List (List α)) :
    headsAt key k ((x :: xs) :: lists) =
      if key x = k then x :: headsAt key k lists else headsAt key k lists := by
  by_cases atKey : key x = k <;> simp [headsAt, headAt, filter_some, atKey]

variable {xs : List α} {k : κ}

theorem headAt_eq_lookup (sorted : StrictlySorted key xs)
    (least : ∀ x ∈ xs.head?, k ≤ key x) : headAt key k xs = lookup key k xs := by
  cases xs with
  | nil => rfl
  | cons first rest =>
    rw [lookup_cons, headAt, head?_cons, filter_some]
    by_cases atKey : key first = k
    · simp [atKey]
    · have notInRest : lookup key k rest = none := by
        rw [lookup_eq_none_iff]
        intro x memRest
        exact ((least first rfl).trans_lt (sorted.head_lt memRest)).ne'
      simp [atKey, notInRest]

theorem withKey_dropHeadAt {k' : κ} (other : k' ≠ k) (xs : List α) :
    withKey key k' (dropHeadAt key k xs) = withKey key k' xs := by
  cases xs with
  | nil => rfl
  | cons first rest =>
    by_cases atKey : key first = k
    · simp [dropHeadAt, withKey_cons, atKey, other.symm]
    · simp [dropHeadAt, atKey]

theorem lookup_dropHeadAt {k' : κ} (other : k' ≠ k) (xs : List α) :
    lookup key k' (dropHeadAt key k xs) = lookup key k' xs := by
  cases xs with
  | nil => rfl
  | cons first rest =>
    by_cases atKey : key first = k
    · simp [dropHeadAt, lookup_cons, atKey, other.symm]
    · simp [dropHeadAt, atKey]

theorem dropHeadAt_sublist (k : κ) (xs : List α) : (dropHeadAt key k xs).Sublist xs := by
  cases xs with
  | nil => exact List.Sublist.refl _
  | cons first rest =>
    simp only [dropHeadAt]
    split
    · exact sublist_cons_self first rest
    · exact List.Sublist.refl _

theorem StrictlySorted.dropHeadAt (sorted : StrictlySorted key xs) (k : κ) :
    StrictlySorted key (dropHeadAt key k xs) :=
  List.Pairwise.sublist (dropHeadAt_sublist k xs) sorted

theorem lt_key_of_mem_dropHeadAt (sorted : StrictlySorted key xs)
    (least : ∀ x ∈ xs.head?, k ≤ key x) {y : α} (mem : y ∈ dropHeadAt key k xs) : k < key y := by
  cases xs with
  | nil => simp [dropHeadAt] at mem
  | cons first rest =>
    have atLeast : k ≤ key first := least first rfl
    have aboveRest : ∀ x ∈ rest, k < key x := by
      intro x memRest
      exact atLeast.trans_lt (sorted.head_lt memRest)
    simp only [dropHeadAt] at mem
    split at mem
    · exact aboveRest y mem
    · rename_i other
      rcases mem_cons.mp mem with rfl | memRest
      · exact lt_of_le_of_ne atLeast (Ne.symm other)
      · exact aboveRest y memRest

theorem length_flatten_dropHeadAt_lt {lists : List (List α)}
    (found : ∃ xs ∈ lists, ∃ x ∈ xs.head?, key x = k) :
    (lists.map (dropHeadAt key k)).flatten.length < lists.flatten.length := by
  have lengthLe : ∀ xs : List α, (dropHeadAt key k xs).length ≤ xs.length :=
    fun xs => (dropHeadAt_sublist k xs).length_le
  rw [length_flatten, length_flatten, map_map]
  refine sum_lt_sum _ _ (fun xs _ => lengthLe xs) ?_
  rcases found with ⟨xs, memXs, x, atHead, atKey⟩
  refine ⟨xs, memXs, ?_⟩
  cases xs with
  | nil => simp at atHead
  | cons first rest =>
    simp only [head?_cons, mem_def, Option.some.injEq] at atHead
    subst atHead
    simp [dropHeadAt, atKey]

theorem sortByKey_sorted (key : α → κ) (xs : List α) :
    (sortByKey key xs).Pairwise (fun a b => key a ≤ key b) :=
  letI : Std.Total (fun a b : α => key a ≤ key b) := ⟨fun a b => le_total (key a) (key b)⟩
  letI : IsTrans α (fun a b : α => key a ≤ key b) := ⟨fun _ _ _ => le_trans⟩
  pairwise_insertionSort _ xs

theorem StrictlySorted.orderedInsert (sorted : StrictlySorted key xs) {a : α}
    (fresh : ∀ x ∈ xs, key x ≠ key a) :
    StrictlySorted key (xs.orderedInsert (fun a b => key a ≤ key b) a) := by
  induction xs with
  | nil => exact pairwise_singleton _ a
  | cons first rest ih =>
    have aboveFirst : ∀ x ∈ rest, key first < key x := fun x => sorted.head_lt
    have freshRest : ∀ x ∈ rest, key x ≠ key a := fun x mem =>
      fresh x (mem_cons_of_mem _ mem)
    rw [orderedInsert_cons]
    split
    · rename_i below
      have strictly := lt_of_le_of_ne below (fresh first mem_cons_self).symm
      refine pairwise_cons.mpr ⟨fun x mem => ?_, sorted⟩
      rcases mem_cons.mp mem with rfl | inRest
      · exact strictly
      · exact strictly.trans (aboveFirst x inRest)
    · rename_i notBelow
      refine pairwise_cons.mpr ⟨fun x mem => ?_, ih sorted.tail freshRest⟩
      rcases (mem_orderedInsert _).mp mem with rfl | inRest
      · exact not_le.mp notBelow
      · exact aboveFirst x inRest

/-- The sort is stable: elements with one key keep their order. -/
theorem withKey_sortByKey (k : κ) (xs : List α) :
    withKey key k (sortByKey key xs) = withKey key k xs := by
  have oneKey : (withKey key k xs).Pairwise (fun a b => key a ≤ key b) :=
    pairwise_of_forall_mem_list fun a memA b memB =>
      ((mem_withKey.mp memA).2.trans (mem_withKey.mp memB).2.symm).le
  have kept := (sublist_insertionSort oneKey filter_sublist).filter (key · = k)
  have sameLength := ((perm_insertionSort (key · ≤ key ·) xs).filter (key · = k)).length_eq
  rw [← withKey, withKey_withKey] at kept
  exact (kept.eq_of_length sameLength.symm).symm

section Spec

variable (keyMerge : ∀ a b, key b = key a → key (merge a b) = key a)
include keyMerge

theorem foldRunsFrom_spec {current : α} {rest : List α}
    (sorted : (current :: rest).Pairwise (fun a b => key a ≤ key b)) :
    StrictlySorted key (foldRunsFrom key merge current rest) ∧
      ∀ k, lookup key k (foldRunsFrom key merge current rest) =
        reduce merge (withKey key k (current :: rest)) := by
  induction rest generalizing current with
  | nil =>
    refine ⟨pairwise_singleton _ _, fun k => ?_⟩
    by_cases same : key current = k <;>
      simp [foldRunsFrom, lookup_cons, withKey_cons, same]
  | cons next rest ih =>
    rcases pairwise_cons.mp sorted with ⟨currentLe, restSorted⟩
    by_cases same : key next = key current
    · have merged := keyMerge current next same
      have mergedSorted : (merge current next :: rest).Pairwise (fun a b => key a ≤ key b) := by
        refine pairwise_cons.mpr ⟨?_, restSorted.tail⟩
        intro y memY
        rw [merged]
        exact currentLe y (mem_cons_of_mem _ memY)
      simp only [foldRunsFrom, if_pos same]
      refine ⟨(ih mergedSorted).1, fun k => ?_⟩
      rw [(ih mergedSorted).2 k]
      by_cases atKey : key current = k
      · simp [withKey_cons, merged, same, atKey, reduce_cons_cons]
      · simp [withKey_cons, merged, same, atKey]
    · simp only [foldRunsFrom, if_neg same]
      have below : key current < key next :=
        lt_of_le_of_ne (currentLe next mem_cons_self) (Ne.symm same)
      have belowRest : ∀ x ∈ next :: rest, key current < key x := by
        intro x mem
        rcases mem_cons.mp mem with rfl | memRest
        · exact below
        · exact below.trans_le ((pairwise_cons.mp restSorted).1 x memRest)
      refine ⟨pairwise_cons.mpr ⟨fun x mem => ?_, (ih restSorted).1⟩, fun k => ?_⟩
      · have found := (ih restSorted).2 (key x)
        rw [StrictlySorted.lookup_of_mem (ih restSorted).1 mem] at found
        rcases exists_mem_of_ne_nil (withKey key (key x) (next :: rest))
          (by rintro none; simp [none] at found) with ⟨y, memY⟩
        rw [mem_withKey] at memY
        exact memY.2 ▸ belowRest y memY.1
      · rw [lookup_cons, (ih restSorted).2 k, withKey_cons k current]
        by_cases atKey : key current = k
        · have noneAbove : withKey key k (next :: rest) = [] := by
            refine eq_nil_iff_forall_not_mem.mpr fun x mem => ?_
            rw [mem_withKey] at mem
            exact absurd (atKey.trans mem.2.symm) (belowRest x mem.1).ne
          simp [atKey, noneAbove]
        · simp [atKey]

theorem sortFold_sorted (xs : List α) : StrictlySorted key (sortFold key merge xs) := by
  have sorted := sortByKey_sorted key xs
  unfold sortFold
  cases shape : sortByKey key xs with
  | nil => exact List.Pairwise.nil
  | cons first rest => exact (foldRunsFrom_spec keyMerge (shape ▸ sorted)).1

theorem lookup_sortFold (k : κ) (xs : List α) : lookup key k (sortFold key merge xs) =
      reduce merge (withKey key k xs) := by
  rw [← withKey_sortByKey]
  have sorted := sortByKey_sorted key xs
  unfold sortFold
  cases shape : sortByKey key xs with
  | nil => rfl
  | cons first rest => exact (foldRunsFrom_spec keyMerge (shape ▸ sorted)).2 k

theorem reduce_withKey_sortFold (k : κ) (xs : List α) :
    reduce merge (withKey key k (sortFold key merge xs)) = reduce merge (withKey key k xs) := by
  rw [(sortFold_sorted keyMerge xs).withKey_eq, lookup_sortFold keyMerge]
  cases reduce merge (withKey key k xs) <;> rfl

theorem filter_sortFold {p : α → Bool}
    (select : ∀ a b, key b = key a → (some (merge a b)).filter p =
      Option.merge merge ((some a).filter p) ((some b).filter p)) (xs : List α) :
    (sortFold key merge xs).filter p = sortFold key merge (xs.filter p) := by
  have sorted := sortFold_sorted keyMerge xs
  refine (sorted.filter p).ext_lookup (sortFold_sorted keyMerge _) fun k => ?_
  rw [sorted.lookup_filter, lookup_sortFold keyMerge, lookup_sortFold keyMerge]
  have commutes : withKey key k (xs.filter p) = (withKey key k xs).filter p :=
    filter_comm _ _ xs
  rw [commutes]
  refine filter_reduce (P := fun x => key x = k) ?_ ?_ fun x mem => (mem_withKey.mp mem).2
  · intro a b keyA keyB
    exact (keyMerge a b (keyB.trans keyA.symm)).trans keyA
  · intro a b keyA keyB
    exact select a b (keyB.trans keyA.symm)

theorem sortFold_of_sorted {xs : List α} (sorted : StrictlySorted key xs) :
    sortFold key merge xs = xs := by
  refine (sortFold_sorted keyMerge xs).ext_lookup sorted fun k => ?_
  rw [lookup_sortFold keyMerge, sorted.withKey_eq]
  cases lookup key k xs <;> rfl

theorem exists_mem_sortFold_iff {xs : List α} {k : κ} :
    (∃ x ∈ sortFold key merge xs, key x = k) ↔ ∃ x ∈ xs, key x = k := by
  have found := lookup_sortFold keyMerge k xs
  rw [← not_iff_not]
  push Not
  rw [← lookup_eq_none_iff, found, reduce_eq_none_iff, withKey, filter_eq_nil_iff]
  simp

/-- One step of a k-way merge: the fold starts with the heads at the least key `k` and goes on
without them. -/
theorem sortFold_flatten_of_least {lists : List (List α)} {k : κ}
    (sorted : ∀ xs ∈ lists, StrictlySorted key xs) (least : ∀ xs ∈ lists, ∀ x ∈ xs.head?, k ≤ key x)
    {folded : α} (found : reduce merge (headsAt key k lists) = some folded) :
    sortFold key merge lists.flatten =
      folded :: sortFold key merge (lists.map (dropHeadAt key k)).flatten := by
  have atLeast : withKey key k lists.flatten = headsAt key k lists := by
    rw [withKey_flatten, headsAt, filterMap_eq_flatMap_toList, List.flatMap]
    congr 1
    refine map_congr_left fun xs mem => ?_
    rw [(sorted xs mem).withKey_eq, headAt_eq_lookup (sorted xs mem) (least xs mem)]
  have elsewhere : ∀ k', k' ≠ k →
      withKey key k' (lists.map (dropHeadAt key k)).flatten = withKey key k' lists.flatten := by
    intro k' other
    rw [withKey_flatten, withKey_flatten, map_map]
    congr 1
    exact map_congr_left fun xs _ => withKey_dropHeadAt other xs
  have foldedKey : key folded = k := by
    refine reduce_induction (P := fun x => key x = k) ?_ ?_ found
    · intro a b keyA keyB
      exact (keyMerge a b (keyB.trans keyA.symm)).trans keyA
    · intro x mem
      rw [← atLeast] at mem
      exact (mem_withKey.mp mem).2
  have aboveRest : ∀ x ∈ sortFold key merge (lists.map (dropHeadAt key k)).flatten,
      key folded < key x := by
    intro x mem
    rcases (exists_mem_sortFold_iff keyMerge).mp ⟨x, mem, rfl⟩ with ⟨y, memY, sameKey⟩
    rcases mem_flatten.mp memY with ⟨ys, memYs, inYs⟩
    rcases mem_map.mp memYs with ⟨xs, memXs, rfl⟩
    rw [foldedKey, ← sameKey]
    exact lt_key_of_mem_dropHeadAt (sorted xs memXs) (least xs memXs) inYs
  refine (sortFold_sorted keyMerge _).ext_lookup
    (pairwise_cons.mpr ⟨aboveRest, sortFold_sorted keyMerge _⟩) fun k' => ?_
  rw [lookup_cons, lookup_sortFold keyMerge, lookup_sortFold keyMerge, foldedKey]
  by_cases atKey : k = k'
  · rw [if_pos atKey, ← atKey, atLeast, found]
  · rw [if_neg atKey, elsewhere k' (Ne.symm atKey)]

end Spec

end SortFold

end Ferrosa.KeyedFold
