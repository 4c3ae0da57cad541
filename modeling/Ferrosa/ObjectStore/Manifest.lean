import Ferrosa.Lib.FiniteMap

/-!
# The manifest

The document in object storage that lists the live SSTables of every table.  Its operations
are described by the entries they list: adding replaces an entry with the same id, removing
drops ids, and a merge keeps the entries of both sides, where the merging side wins an id.
-/

namespace Ferrosa.ObjectStore

open List FiniteMap

structure ManifestEntry where
  id : String
  size : UInt64
  minToken : Int64
  maxToken : Int64
  minTimestamp : Int64
  maxTimestamp : Int64
deriving DecidableEq, Repr

abbrev Removals := List (String × List String)

structure Manifest where
  formatVersion : UInt32
  sstables : FiniteMap String (List ManifestEntry)
  lastCompactedAt : Option String
  pendingRemovals : Removals

def Removals.Removes (removals : Removals) (table id : String) : Prop :=
  ∃ removal ∈ removals, removal.1 = table ∧ id ∈ removal.2
  deriving Decidable

def upsert : List ManifestEntry → ManifestEntry → List ManifestEntry
  | [], entry => [entry]
  | first :: rest, entry =>
    if first.id = entry.id then entry :: rest else first :: upsert rest entry

/-- `None` is the least, and texts are in lexicographic order. -/
def laterCompaction : Option String → Option String → Option String
  | some own, some base => if base < own then some own else some base
  | some own, none => some own
  | none, base => base

namespace Manifest

def new : Manifest := ⟨1, ∅, none, []⟩

variable (manifest : Manifest)

def listed (table : String) : List ManifestEntry := (manifest.sstables.lookup table).getD []

def addSstable (table : String) (entry : ManifestEntry) : Manifest :=
  { manifest with
    sstables := manifest.sstables.insert table (upsert (manifest.listed table) entry) }

def mergeInto (base : Manifest) : Manifest :=
  { base with
    sstables := manifest.sstables.entries.foldl (fun merged listed =>
        merged.insert listed.1 (listed.2.foldl upsert ((merged.lookup listed.1).getD [])))
      base.sstables
    lastCompactedAt := laterCompaction manifest.lastCompactedAt base.lastCompactedAt }

def removeSstables (table : String) (ids : List String) : Manifest :=
  { manifest with
    sstables := manifest.sstables.modify table fun entries =>
      entries.filter fun entry => entry.id ∉ ids
    pendingRemovals :=
      if ids.isEmpty then manifest.pendingRemovals
      else manifest.pendingRemovals ++ [(table, ids)] }

/-- The manifest as it is written and read: pending removals are skipped. -/
def skipPending : Manifest := { manifest with pendingRemovals := [] }

def mergedSave (removals : Removals) (latest : Manifest) : Manifest :=
  (manifest.mergeInto (removals.foldl (fun latest removal =>
    latest.removeSstables removal.1 removal.2) latest)).skipPending

def DistinctIds : Prop := ∀ table, ((manifest.listed table).map (·.id)).Nodup

end Manifest

section Upsert

variable {listed : List ManifestEntry} {entry other : ManifestEntry}

theorem map_id_upsert : (upsert listed entry).map (·.id) =
    if entry.id ∈ listed.map (·.id) then listed.map (·.id)
    else listed.map (·.id) ++ [entry.id] := by
  induction listed with
  | nil => simp [upsert]
  | cons first rest ih =>
    rw [upsert]
    split_ifs with same present present
    · simp [same]
    · exact absurd (by simp [same]) present
    · rw [map_cons, ih, if_pos]
      · rfl
      · simpa [Ne.symm same] using present
    · rw [map_cons, ih, if_neg]
      · rfl
      · simp only [map_cons, mem_cons, not_or] at present
        exact present.2

theorem nodup_upsert (distinct : (listed.map (·.id)).Nodup) :
    ((upsert listed entry).map (·.id)).Nodup := by
  rw [map_id_upsert]
  split_ifs with present
  · exact distinct
  · simpa [nodup_append] using ⟨distinct, fun other listedOther same =>
      present (mem_map.mpr ⟨other, listedOther, same⟩)⟩

theorem mem_upsert (distinct : (listed.map (·.id)).Nodup) :
    other ∈ upsert listed entry ↔ other = entry ∨ (other ∈ listed ∧ other.id ≠ entry.id) := by
  induction listed with
  | nil => simp [upsert]
  | cons first rest ih =>
    rw [map_cons, nodup_cons] at distinct
    rw [upsert]
    split_ifs with same
    · have restDiffers : ∀ other ∈ rest, other.id ≠ entry.id := by
        intro other present sameId
        exact distinct.1 (mem_map.mpr ⟨other, present, sameId.trans same.symm⟩)
      grind
    · grind

end Upsert

section FoldUpsert

variable {listed added : List ManifestEntry} {entry : ManifestEntry}

theorem mem_foldl_upsert (distinct : (listed.map (·.id)).Nodup)
    (distinctAdded : (added.map (·.id)).Nodup) :
    entry ∈ added.foldl upsert listed ↔
      entry ∈ added ∨ (entry ∈ listed ∧ ∀ other ∈ added, entry.id ≠ other.id) := by
  induction added generalizing listed with
  | nil => simp
  | cons first rest ih =>
    rw [map_cons, nodup_cons] at distinctAdded
    rw [foldl_cons, ih (nodup_upsert distinct) distinctAdded.2, mem_upsert distinct]
    have firstDiffers : ∀ other ∈ rest, first.id ≠ other.id := by
      intro other present same
      exact distinctAdded.1 (mem_map.mpr ⟨other, present, same.symm⟩)
    grind

end FoldUpsert

namespace Removals

variable {removals : Removals} {table id : String}

@[simp] theorem removes_nil : ¬ Removes [] table id := by simp [Removes]

theorem removes_append {more : Removals} : Removes (removals ++ more) table id ↔
    removals.Removes table id ∨ Removes more table id := by
  simp [Removes, or_and_right, exists_or]

@[simp] theorem removes_singleton {other : String} {ids : List String} :
    Removes [(other, ids)] table id ↔ other = table ∧ id ∈ ids := by
  simp [Removes]

end Removals

namespace Manifest

variable {manifest base : Manifest} {table : String} {entry other : ManifestEntry}

@[simp] theorem listed_new : new.listed table = [] := rfl

@[simp] theorem listed_skipPending : manifest.skipPending.listed table = manifest.listed table :=
  rfl

variable {target : String} {ids : List String}

theorem listed_addSstable : (manifest.addSstable target entry).listed table =
    if table = target then upsert (manifest.listed target) entry else manifest.listed table := by
  rw [listed, addSstable, lookup_insert_ite]
  split_ifs <;> rfl

theorem listed_removeSstables : (manifest.removeSstables target ids).listed table =
      if table = target then (manifest.listed target).filter (fun entry => entry.id ∉ ids)
      else manifest.listed table := by
  rw [listed, removeSstables, lookup_modify]
  split_ifs
  · rw [listed]
    cases manifest.sstables.lookup target <;> rfl
  · rfl

theorem removes_pendingRemovals_removeSstables {id : String} :
    (manifest.removeSstables target ids).pendingRemovals.Removes table id ↔
      manifest.pendingRemovals.Removes table id ∨ (target = table ∧ id ∈ ids) := by
  rw [removeSstables]
  split_ifs with none
  · simp [isEmpty_iff.mp none]
  · rw [Removals.removes_append, Removals.removes_singleton]

theorem lookup_foldl_insert {entries : List (Sigma fun _ : String => List ManifestEntry)}
    (distinct : entries.NodupKeys) (start : FiniteMap String (List ManifestEntry)) :
    ((entries.foldl (fun merged listed =>
        merged.insert listed.1 (listed.2.foldl upsert ((merged.lookup listed.1).getD [])))
        start).lookup table).getD [] =
      ((entries.dlookup table).getD []).foldl upsert ((start.lookup table).getD []) := by
  induction entries generalizing start with
  | nil => rfl
  | cons first rest ih =>
    rcases first with ⟨target, listed⟩
    rw [nodupKeys_cons] at distinct
    rw [foldl_cons, ih distinct.2, lookup_insert_ite]
    by_cases same : table = target
    · subst same
      rw [if_pos rfl, dlookup_cons_eq, dlookup_eq_none.mpr distinct.1]
      rfl
    · rw [if_neg same, dlookup_cons_ne _ _ same]

theorem listed_mergeInto : (manifest.mergeInto base).listed table =
    (manifest.listed table).foldl upsert (base.listed table) :=
  lookup_foldl_insert manifest.sstables.nodupKeys base.sstables

theorem DistinctIds.addSstable (distinct : manifest.DistinctIds) :
    (manifest.addSstable target entry).DistinctIds := by
  intro table
  rw [listed_addSstable]
  split_ifs
  · exact nodup_upsert (distinct target)
  · exact distinct table

theorem DistinctIds.removeSstables (distinct : manifest.DistinctIds) :
    (manifest.removeSstables target ids).DistinctIds := by
  intro table
  rw [listed_removeSstables]
  split_ifs
  · exact (distinct target).sublist (filter_sublist.map _)
  · exact distinct table

theorem mem_listed_removeSstables : entry ∈ (manifest.removeSstables target ids).listed table ↔
      entry ∈ manifest.listed table ∧ ¬ (target = table ∧ entry.id ∈ ids) := by
  rw [listed_removeSstables]
  split_ifs with same
  · subst same
    simp
  · simp [Ne.symm same]

theorem mem_listed_addSstable (distinct : manifest.DistinctIds) :
    other ∈ (manifest.addSstable target entry).listed table ↔ (target = table ∧ other = entry) ∨
        (other ∈ manifest.listed table ∧ ¬ (target = table ∧ entry.id = other.id)) := by
  rw [listed_addSstable]
  split_ifs with same
  · subst same
    rw [mem_upsert (distinct table)]
    simp [eq_comm]
  · simp [Ne.symm same]

theorem removeAll_spec (removals : Removals) (distinct : manifest.DistinctIds) :
    (removals.foldl (fun latest removal => latest.removeSstables removal.1 removal.2)
        manifest).DistinctIds ∧
      ∀ table entry, entry ∈ (removals.foldl (fun latest removal =>
          latest.removeSstables removal.1 removal.2) manifest).listed table ↔
        entry ∈ manifest.listed table ∧ ¬ removals.Removes table entry.id := by
  induction removals generalizing manifest with
  | nil => exact ⟨distinct, by simp⟩
  | cons removal rest ih =>
    rcases ih (distinct.removeSstables) with ⟨distinctRest, listedRest⟩
    refine ⟨distinctRest, fun table entry => ?_⟩
    rw [foldl_cons, listedRest, mem_listed_removeSstables, ← singleton_append,
      Removals.removes_append, Removals.removes_singleton]
    tauto

variable {latest : Manifest} {removals : Removals}

/-- A save writes the entries of the saver, and those of the latest manifest that it neither
removes nor has under their id. -/
theorem mem_listed_mergedSave (distinct : manifest.DistinctIds)
    (distinctLatest : latest.DistinctIds) :
    entry ∈ (manifest.mergedSave removals latest).listed table ↔ entry ∈ manifest.listed table ∨
        (entry ∈ latest.listed table ∧ ¬ removals.Removes table entry.id ∧
          ∀ other ∈ manifest.listed table, entry.id ≠ other.id) := by
  rcases removeAll_spec removals distinctLatest with ⟨distinctKept, listedKept⟩
  rw [mergedSave, listed_skipPending, listed_mergeInto,
    mem_foldl_upsert (distinctKept table) (distinct table), listedKept, and_assoc]

theorem DistinctIds.mergedSave (distinctLatest : latest.DistinctIds) :
    (manifest.mergedSave removals latest).DistinctIds := by
  intro table
  rw [Manifest.mergedSave, listed_skipPending, listed_mergeInto]
  exact List.foldlRecOn (motive := fun listed => (listed.map (·.id)).Nodup) _ upsert
    ((removeAll_spec removals distinctLatest).1 table) fun _ distinct _ _ => nodup_upsert distinct

end Manifest

end Ferrosa.ObjectStore
