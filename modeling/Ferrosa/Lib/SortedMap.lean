import Mathlib

/-!
# Ordered maps

A map kept as the list of its entries in strictly increasing key order, so that
the entries at or above a key are met in that order.
-/

namespace Ferrosa

open List

universe u v

structure SortedMap (κ : Type u) (β : Type v) [LinearOrder κ] where
  entries : List (κ × β)
  sorted : entries.Pairwise (fun left right => left.1 < right.1)

namespace SortedMap

variable {κ : Type u} {β : Type v} [LinearOrder κ]

def empty : SortedMap κ β := ⟨[], List.Pairwise.nil⟩

def insertEntry (key : κ) (value : β) : List (κ × β) → List (κ × β)
  | [] => [(key, value)]
  | entry :: rest =>
    if key < entry.1 then (key, value) :: entry :: rest
    else if key = entry.1 then (key, value) :: rest
    else entry :: insertEntry key value rest

variable {entries : List (κ × β)} {value : β} {key : κ}

theorem key_of_mem_insertEntry {entry : κ × β}
    (present : entry ∈ insertEntry key value entries) : entry.1 = key ∨ entry ∈ entries := by
  induction entries with
  | nil =>
    simp only [insertEntry, mem_singleton] at present
    exact Or.inl (by rw [present])
  | cons first rest ih =>
    unfold insertEntry at present
    split_ifs at present with below same
    · rcases mem_cons.mp present with rfl | old
      · exact Or.inl rfl
      · exact Or.inr old
    · rcases mem_cons.mp present with rfl | old
      · exact Or.inl rfl
      · exact Or.inr (mem_cons_of_mem _ old)
    · rcases mem_cons.mp present with rfl | later
      · exact Or.inr mem_cons_self
      · exact (ih later).imp id (mem_cons_of_mem _)

theorem sorted_insertEntry (key : κ) (value : β)
    (sorted : entries.Pairwise (fun left right => left.1 < right.1)) :
    (insertEntry key value entries).Pairwise (fun left right => left.1 < right.1) := by
  induction entries with
  | nil => simp [insertEntry]
  | cons first rest ih =>
    have above := (pairwise_cons.mp sorted).1
    unfold insertEntry
    split_ifs with below same
    · refine pairwise_cons.mpr ⟨?_, sorted⟩
      intro entry present
      rcases mem_cons.mp present with rfl | later
      · exact below
      · exact below.trans (above entry later)
    · refine pairwise_cons.mpr ⟨?_, sorted.of_cons⟩
      intro entry present
      exact same ▸ above entry present
    · refine pairwise_cons.mpr ⟨?_, ih sorted.of_cons⟩
      intro entry present
      rcases key_of_mem_insertEntry present with atKey | old
      · rw [atKey]
        exact lt_of_le_of_ne (not_lt.mp below) (Ne.symm same)
      · exact above entry old

variable (map : SortedMap κ β)

def insert (key : κ) (value : β) : SortedMap κ β :=
  ⟨insertEntry key value map.entries, sorted_insertEntry key value map.sorted⟩

def retain (keep : κ × β → Bool) (map : SortedMap κ β) : SortedMap κ β :=
  ⟨map.entries.filter keep, map.sorted.filter keep⟩

def erase (key : κ) : SortedMap κ β :=
  map.retain fun entry => entry.1 ≠ key

def mapValues (change : κ → β → β) (map : SortedMap κ β) : SortedMap κ β :=
  ⟨map.entries.map (fun entry => (entry.1, change entry.1 entry.2)),
    List.pairwise_map.mpr map.sorted⟩

def get? (key : κ) : Option β :=
  (map.entries.find? (fun entry => entry.1 = key)).map (·.2)

def keys : List κ := map.entries.map (·.1)

def values : List β := map.entries.map (·.2)

def range (low : κ) : List (κ × β) :=
  map.entries.filter (fun entry => low ≤ entry.1)

def ofList (entries : List (κ × β)) : SortedMap κ β :=
  entries.foldl (fun map entry => map.insert entry.1 entry.2) empty

theorem insertEntry_append_of_forall_lt (above : ∀ entry ∈ entries, entry.1 < key)
    (later : List (κ × β)) :
    insertEntry key value (entries ++ later) = entries ++ insertEntry key value later := by
  induction entries with
  | nil => rfl
  | cons first rest ih =>
    have below := above first mem_cons_self
    simp only [cons_append, insertEntry, not_lt.mpr below.le, if_false, below.ne']
    rw [ih (fun entry present => above entry (mem_cons_of_mem _ present))]

theorem insertEntry_of_forall_lt (above : ∀ entry ∈ entries, entry.1 < key) :
    insertEntry key value entries = entries ++ [(key, value)] := by
  simpa [insertEntry] using insertEntry_append_of_forall_lt above []

theorem entries_insert_of_concat {map : SortedMap κ β} {old : β}
    (last : map.entries = entries ++ [(key, old)]) :
    (map.insert key value).entries = entries ++ [(key, value)] := by
  have ordered := map.sorted
  rw [last, pairwise_append] at ordered
  have above : ∀ entry ∈ entries, entry.1 < key := by
    intro entry present
    exact ordered.2.2 entry present (key, old) mem_cons_self
  apply (congrArg (insertEntry key value) last).trans
  simp [insertEntry_append_of_forall_lt above, insertEntry]

theorem entries_ofList (sorted : entries.Pairwise (fun left right => left.1 < right.1)) :
    (ofList entries).entries = entries := by
  induction entries using List.reverseRecOn with
  | nil => rfl
  | append_singleton init last ih =>
    simp only [pairwise_append, mem_singleton, forall_eq] at sorted
    rw [ofList, foldl_append, foldl_cons, foldl_nil]
    change insertEntry last.1 last.2 (ofList init).entries = _
    rw [ih sorted.1, insertEntry_of_forall_lt sorted.2.2]

theorem find?_insertEntry (key other : κ) (value : β) (entries : List (κ × β)) :
    (insertEntry key value entries).find? (fun entry => entry.1 = other) =
      if other = key then some (key, value) else entries.find? (fun entry => entry.1 = other) := by
  induction entries with
  | nil =>
    by_cases same : other = key
    · simp [insertEntry, same]
    · simp [insertEntry, same, Ne.symm same]
  | cons first rest ih =>
    by_cases same : other = key
    · subst same
      rw [if_pos rfl]
      rw [if_pos rfl] at ih
      unfold insertEntry
      split_ifs with below equal
      · simp
      · simp
      · rw [find?_cons_of_neg (by simpa using Ne.symm equal), ih]
    · rw [if_neg same]
      rw [if_neg same] at ih
      unfold insertEntry
      split_ifs with below equal
      · simp [Ne.symm same]
      · simp [Ne.symm same, ← equal]
      · simp [find?_cons, ih]

theorem get?_insert (key other : κ) (value : β) :
    (map.insert key value).get? other = if other = key then some value else map.get? other := by
  unfold get?
  rw [insert, find?_insertEntry]
  split_ifs <;> rfl

theorem mem_entries_iff {map : SortedMap κ β} :
    (key, value) ∈ map.entries ↔ map.get? key = some value := by
  rcases map with ⟨entries, sorted⟩
  simp only [get?, Option.map_eq_some_iff]
  constructor
  · intro present
    induction entries with
    | nil => simp at present
    | cons first rest ih =>
      rcases mem_cons.mp present with rfl | later
      · exact ⟨(key, value), by simp, rfl⟩
      · have above := (pairwise_cons.mp sorted).1 (key, value) later
        rcases ih sorted.of_cons later with ⟨entry, found, isValue⟩
        refine ⟨entry, ?_, isValue⟩
        rw [find?_cons_of_neg (by simp [above.ne]), found]
  · rintro ⟨⟨found, _⟩, search, rfl⟩
    have atKey : found = key := by simpa using find?_some search
    rw [← atKey]
    exact mem_of_find?_eq_some search

theorem get?_retain_key (keep : κ → Bool) (key : κ) :
    (map.retain fun entry => keep entry.1).get? key =
      if keep key then map.get? key else none := by
  apply Option.ext
  intro value
  rw [← mem_entries_iff, retain, mem_filter]
  split_ifs with kept
  · simp [mem_entries_iff, kept]
  · simp [kept]

theorem get?_erase (erased key : κ) :
    (map.erase erased).get? key = if key = erased then none else map.get? key := by
  have retained := get?_retain_key map (fun key => key ≠ erased) key
  by_cases same : key = erased <;> simpa [erase, same] using retained

theorem nodup_entries : map.entries.Nodup :=
  map.sorted.imp fun before same => before.ne (congrArg Prod.fst same)

theorem perm_cons_erase_of_get? {map other : SortedMap κ β}
    (agrees : ∀ k, other.get? k = if k = key then some value else map.get? k) :
    other.entries.Perm ((key, value) :: (map.erase key).entries) := by
  have absent : (key, value) ∉ (map.erase key).entries := by
    simp [mem_entries_iff, get?_erase]
  apply (perm_ext_iff_of_nodup (nodup_entries _) (nodup_cons.mpr ⟨absent, nodup_entries _⟩)).mpr
  rintro ⟨k, kValue⟩
  rw [mem_cons, mem_entries_iff, mem_entries_iff, get?_erase, agrees]
  by_cases same : k = key
  · simp [same, eq_comm]
  · simp [same]

theorem perm_cons_erase {map : SortedMap κ β} (found : map.get? key = some value) :
    map.entries.Perm ((key, value) :: (map.erase key).entries) := by
  apply perm_cons_erase_of_get?
  intro k
  split_ifs with same
  · rw [same, found]
  · rfl

theorem insert_perm_cons_erase (key : κ) (value : β) :
    (map.insert key value).entries.Perm ((key, value) :: (map.erase key).entries) :=
  perm_cons_erase_of_get? fun k => map.get?_insert key k value

theorem erase_of_get?_eq_none {map : SortedMap κ β} (absent : map.get? key = none) :
    (map.erase key).entries = map.entries := by
  apply filter_eq_self.mpr
  rintro ⟨other, value⟩ present
  have found := mem_entries_iff.mp present
  have different : other ≠ key := by
    rintro rfl
    simp [absent] at found
  simp [different]

theorem mem_keys_iff {map : SortedMap κ β} : key ∈ map.keys ↔ (map.get? key).isSome := by
  simp [keys, Option.isSome_iff_exists, ← mem_entries_iff]

theorem keys_insert_perm {map : SortedMap κ β} (absent : key ∉ map.keys) (value : β) :
    (map.insert key value).keys.Perm (key :: map.keys) := by
  have unlisted : map.get? key = none := by
    simpa [mem_keys_iff] using absent
  have inserted := (map.insert_perm_cons_erase key value).map Prod.fst
  rwa [erase_of_get?_eq_none unlisted] at inserted

theorem keys_erase_perm {map : SortedMap κ β} (found : map.get? key = some value) :
    map.keys.Perm (key :: (map.erase key).keys) :=
  (perm_cons_erase found).map Prod.fst

theorem sorted_keys : map.keys.Pairwise (· < ·) :=
  pairwise_map.mpr map.sorted

theorem get?_ofList_concat (entries : List (κ × β)) (entry : κ × β) (key : κ) :
    (ofList (entries ++ [entry])).get? key =
      if key = entry.1 then some entry.2 else (ofList entries).get? key := by
  rw [ofList, foldl_append, foldl_cons, foldl_nil, get?_insert]
  rfl

theorem get?_ofList_eq_some_iff (distinct : (entries.map (·.1)).Nodup) :
    (ofList entries).get? key = some value ↔ (key, value) ∈ entries := by
  induction entries using List.reverseRecOn with
  | nil => simp [ofList, empty, get?]
  | append_singleton init last ih =>
    rw [map_append, nodup_append] at distinct
    rw [get?_ofList_concat]
    split_ifs with same
    · have absent : (key, value) ∉ init := by
        intro present
        exact distinct.2.2 key (mem_map.mpr ⟨_, present, rfl⟩) last.1 (by simp) same
      rw [mem_append, mem_singleton]
      simp [absent, Prod.ext_iff, ← same, eq_comm]
    · simp [ih distinct.1, Prod.ext_iff, same]

theorem mem_keys_of_get? {map : SortedMap κ β} (found : map.get? key = some value) :
    key ∈ map.keys :=
  mem_keys_iff.mpr (by simp [found])

end SortedMap

section Cut

variable {κ : Type u} {β : Type v} [LinearOrder κ] {entries : List (κ × β)} {entry : κ × β}

theorem split_at_mem (sorted : entries.Pairwise (fun left right => left.1 < right.1))
    (present : entry ∈ entries) :
    ∃ below above, entries = below ++ entry :: above ∧
      (∀ other ∈ below, other.1 < entry.1) ∧ (∀ other ∈ above, entry.1 < other.1) := by
  obtain ⟨below, above, rfl⟩ := append_of_mem present
  rw [pairwise_append, pairwise_cons] at sorted
  refine ⟨below, above, rfl, ?_, sorted.2.1.1⟩
  intro other member
  exact sorted.2.2 other member entry mem_cons_self

theorem filter_cut {keep : α → Bool} {entry : α} {below above : List α} (first last : Bool)
    (low : ∀ other ∈ below, keep other = first) (high : ∀ other ∈ above, keep other = last) :
    (below ++ entry :: above).filter keep = (if first then below else []) ++
      ([entry].filter keep ++ if last then above else []) := by
  have all : ∀ {list : List α} {side : Bool}, (∀ other ∈ list, keep other = side) →
      list.filter keep = if side then list else [] := by
    rintro list (_ | _) same
    · simpa [filter_eq_nil_iff] using same
    · simpa [filter_eq_self] using same
  rw [filter_append, ← singleton_append, filter_append, all low, all high]

theorem filter_ge_eq_cons (sorted : entries.Pairwise (fun left right => left.1 < right.1))
    (present : entry ∈ entries) :
    entries.filter (fun other => entry.1 ≤ other.1) =
      entry :: entries.filter (fun other => entry.1 < other.1) := by
  obtain ⟨below, above, rfl, low, high⟩ := split_at_mem sorted present
  rw [filter_cut false true (by simpa using low) (by simpa using fun a b m => (high (a, b) m).le),
    filter_cut false true (by simpa using fun a b m => (low (a, b) m).le) (by simpa using high)]
  simp

theorem filter_le_eq_concat (sorted : entries.Pairwise (fun left right => left.1 < right.1))
    (present : entry ∈ entries) :
    entries.filter (fun other => other.1 ≤ entry.1) =
      entries.filter (fun other => other.1 < entry.1) ++ [entry] := by
  obtain ⟨below, above, rfl, low, high⟩ := split_at_mem sorted present
  rw [filter_cut true false (by simpa using fun a b m => (low (a, b) m).le) (by simpa using high),
    filter_cut true false (by simpa using low) (by simpa using fun a b m => (high (a, b) m).le)]
  simp

theorem filter_append_filter_not {keep : κ → Bool}
    (down : ∀ low high, low < high → keep high = true → keep low = true)
    (sorted : entries.Pairwise (fun left right => left.1 < right.1)) :
    entries.filter (fun other => keep other.1) ++ entries.filter (fun other => !keep other.1) =
      entries := by
  induction entries with
  | nil => rfl
  | cons first rest ih =>
    have above := (pairwise_cons.mp sorted).1
    cases kept : keep first.1 with
    | true => simp [kept, ih sorted.of_cons]
    | false =>
      have noneKept : ∀ other ∈ rest, keep other.1 = false := by
        intro other member
        rw [← Bool.not_eq_true]
        intro keptToo
        exact absurd (down _ _ (above other member) keptToo) (by simp [kept])
      have front : rest.filter (fun other => keep other.1) = [] := by
        simpa [filter_eq_nil_iff] using noneKept
      have back : rest.filter (fun other => !keep other.1) = rest := by
        simpa [filter_eq_self] using noneKept
      simp [kept, front, back]

theorem filter_lt_append_filter_ge (key : κ)
    (sorted : entries.Pairwise (fun left right => left.1 < right.1)) :
    entries.filter (fun other => other.1 < key) ++
      entries.filter (fun other => key ≤ other.1) = entries := by
  have down : ∀ low high, low < high → decide (high < key) = true → decide (low < key) = true := by
    intro low high order below
    exact decide_eq_true (order.trans (of_decide_eq_true below))
  simpa only [← decide_not, not_lt] using filter_append_filter_not down sorted

end Cut

end Ferrosa
