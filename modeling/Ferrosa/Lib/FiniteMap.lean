import Mathlib

/-!
# Finite maps

Association lists with distinct keys, read as maps.  Every operation is stated by
what a lookup finds afterwards, so that reasoning about a map never looks at the
list that represents it.
-/

namespace Ferrosa

open AList List

universe u v

abbrev FiniteMap (κ : Type u) (β : Type v) := AList fun _ : κ => β

namespace FiniteMap

variable {κ : Type u} {β : Type v} [DecidableEq κ]

section

variable (map : FiniteMap κ β)

include map

theorem lookup_insert_ite (key other : κ) (value : β) :
    (map.insert key value).lookup other = if other = key then some value else map.lookup other := by
  split_ifs with same
  · subst same
    exact lookup_insert map
  · exact lookup_insert_ne same

theorem lookup_erase_ite (key other : κ) :
    (map.erase key).lookup other = if other = key then none else map.lookup other := by
  split_ifs with same
  · subst same
    exact lookup_erase other map
  · exact lookup_erase_ne same

def modify (map : FiniteMap κ β) (key : κ) (change : β → β) : FiniteMap κ β :=
  match map.lookup key with
  | some value => map.insert key (change value)
  | none => map

theorem lookup_modify (key other : κ) (change : β → β) : (modify map key change).lookup other =
      if other = key then (map.lookup key).map change else map.lookup other := by
  unfold modify
  cases found : map.lookup key with
  | none =>
    split_ifs with same
    · rw [same, found, Option.map_none]
    · rfl
  | some value => simp only [lookup_insert_ite, Option.map_some]

def orInsert (map : FiniteMap κ β) (key : κ) (default : β) : FiniteMap κ β :=
  match map.lookup key with
  | some _ => map
  | none => map.insert key default

theorem lookup_orInsert (key other : κ) (default : β) : (orInsert map key default).lookup other =
      if other = key then some ((map.lookup key).getD default) else map.lookup other := by
  unfold orInsert
  cases found : map.lookup key with
  | none => simp only [lookup_insert_ite, Option.getD_none]
  | some value =>
    split_ifs with same
    · rw [same, found, Option.getD_some]
    · rfl

def mapValues (map : FiniteMap κ β) (change : β → β) : FiniteMap κ β :=
  ⟨map.entries.map (Sigma.map id fun _ => change), map.nodupKeys.map₂ _ _⟩

theorem lookup_mapValues (key : κ) (change : β → β) :
    (mapValues map change).lookup key = (map.lookup key).map change :=
  dlookup_map₂ key

def retain (map : FiniteMap κ β) (keep : κ → Bool) : FiniteMap κ β :=
  ⟨map.entries.filter fun entry => keep entry.1,
    List.NodupKeys.sublist List.filter_sublist map.nodupKeys⟩

theorem lookup_retain (keep : κ → Bool) (key : κ) :
    (retain map keep).lookup key = if keep key then map.lookup key else none := by
  apply Option.ext
  intro value
  have entry : value ∈ (retain map keep).lookup key ↔ value ∈ map.lookup key ∧ keep key = true := by
    rw [mem_lookup_iff, mem_lookup_iff]
    exact mem_filter
  split_ifs with kept
  · exact entry.trans (and_iff_left kept)
  · simpa [kept] using entry

end

theorem retain_eq_self {map : FiniteMap κ β} {keep : κ → Bool}
    (all : ∀ key, (map.lookup key).isSome → keep key) : retain map keep = map := by
  apply ext
  apply filter_eq_self.mpr
  intro entry member
  apply all
  rw [lookup_isSome]
  exact mem_keys.mpr (mem_map_of_mem member)

def eraseAll (map : FiniteMap κ β) (keys : List κ) : FiniteMap κ β :=
  keys.foldl (fun rest key => rest.erase key) map

theorem lookup_eraseAll (map : FiniteMap κ β) (keys : List κ) (other : κ) :
    (eraseAll map keys).lookup other = if other ∈ keys then none else map.lookup other := by
  unfold eraseAll
  induction keys generalizing map with
  | nil => simp
  | cons key keys ih =>
    rw [foldl_cons, ih, lookup_erase_ite]
    simp only [mem_cons]
    split_ifs <;> simp_all

def modifyAll (map : FiniteMap κ β) (keys : List κ) (change : β → β) : FiniteMap κ β :=
  keys.foldl (fun rest key => modify rest key change) map

end FiniteMap

end Ferrosa
