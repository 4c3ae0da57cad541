import Ferrosa.Lib.VersionedObject
import Ferrosa.ObjectStore.Manifest

/-!
# Concurrent edits of the manifest

Any number of editors load the manifest, edit their copy, and save it with a conditional put
that is tried three times.  Every attempt reloads the manifest and merges the copy into it.
-/

namespace Ferrosa.ObjectStore

def maxCasRetries : ℕ := 3

def loadManifest (object : VersionedObject Manifest) : Manifest :=
  (object.value.map Manifest.skipPending).getD .new

inductive Phase where
  | idle
  | editing (manifest : Manifest)
  /-- Before the load of an attempt. -/
  | saving (manifest : Manifest) (removals : Removals) (attempt : ℕ)
  /-- Between the load of an attempt and its conditional put. -/
  | putting (manifest : Manifest) (removals : Removals) (attempt : ℕ) (merged : Manifest)
      (version : Option ℕ)
  | saved
  | failed

structure Editor where
  phase : Phase
  added : List (String × ManifestEntry)
  removed : Removals

/-- `load`, `reload` and `put` say whether the store answers, `save` whether the removals are
explicit. -/
inductive Action where
  | load (answered : Bool)
  | add (table : String) (entry : ManifestEntry)
  | remove (table : String) (ids : List String)
  | save (withRemovals : Bool)
  | reload (answered : Bool)
  | put (answered : Bool)

namespace Phase

def manifest? : Phase → Option Manifest
  | editing manifest | saving manifest _ _ | putting manifest _ _ _ _ => some manifest
  | idle | saved | failed => none

def removals? : Phase → Option Removals
  | saving _ removals _ | putting _ removals _ _ _ => some removals
  | idle | editing _ | saved | failed => none

def retry (manifest : Manifest) (removals : Removals) (attempt : ℕ) : Phase :=
  if attempt < maxCasRetries - 1 then saving manifest removals (attempt + 1) else failed

end Phase

namespace Editor

variable (object : VersionedObject Manifest) (editor : Editor)

/-- The object and the editor after an action; `none` if the editor cannot take it. -/
def step : Action → Option (VersionedObject Manifest × Editor)
  | .load answered =>
    match editor.phase with
    | .idle =>
      some (object, { editor with
        phase := if answered then .editing (loadManifest object) else .failed })
    | _ => none
  | .add table entry =>
    match editor.phase with
    | .editing manifest =>
      some (object, { editor with
        phase := .editing (manifest.addSstable table entry)
        added := editor.added ++ [(table, entry)] })
    | _ => none
  | .remove table ids =>
    match editor.phase with
    | .editing manifest =>
      some (object, { editor with
        phase := .editing (manifest.removeSstables table ids)
        removed := editor.removed ++ [(table, ids)] })
    | _ => none
  | .save withRemovals =>
    match editor.phase with
    | .editing manifest =>
      some (object, { editor with
        phase := .saving manifest
          (if withRemovals then editor.removed else manifest.pendingRemovals) 0 })
    | _ => none
  | .reload answered =>
    match editor.phase with
    | .saving manifest removals attempt =>
      some (object, { editor with
        phase :=
          if answered then
            .putting manifest removals attempt
              (manifest.mergedSave removals (loadManifest object)) object.version
          else .failed })
    | _ => none
  | .put answered =>
    match editor.phase with
    | .putting manifest removals attempt merged version =>
      match if answered then object.conditionalPut version merged else none with
      | some next => some (next, { editor with phase := .saved })
      | none => some (object, { editor with phase := .retry manifest removals attempt })
    | _ => none

end Editor

structure System (ι : Type) where
  object : VersionedObject Manifest
  editors : ι → Editor

namespace System

variable {ι : Type}

def start (object : VersionedObject Manifest) : System ι := ⟨object, fun _ => ⟨.idle, [], []⟩⟩

variable (origin : VersionedObject Manifest) (system : System ι)

def listed (table : String) : List ManifestEntry := (loadManifest system.object).listed table

def step [DecidableEq ι] (i : ι) (action : Action) : Option (System ι) :=
  ((system.editors i).step system.object action).map fun next =>
    ⟨next.1, Function.update system.editors i next.2⟩

/-- Added ids are fresh, and only listed entries are removed. -/
def Admissible (i : ι) : Action → Prop
  | .add table entry =>
    (∀ listed ∈ (loadManifest origin).listed table, listed.id ≠ entry.id) ∧
      ∀ j, ∀ added ∈ (system.editors j).added, added.1 = table → added.2.id ≠ entry.id
  | .remove table ids =>
    ∀ manifest ∈ (system.editors i).phase.manifest?,
      ∀ id ∈ ids, ∃ entry ∈ manifest.listed table, entry.id = id
  | _ => True

/-- An initial entry, or one added by an editor whose save succeeded. -/
def Published (table : String) (entry : ManifestEntry) : Prop :=
  entry ∈ (loadManifest origin).listed table ∨
    ∃ i, (system.editors i).phase = .saved ∧ (table, entry) ∈ (system.editors i).added

def Withdrawn (table id : String) : Prop :=
  ∃ i, (system.editors i).phase = .saved ∧ (system.editors i).removed.Removes table id

/-- The stored manifest lists exactly what was published and not withdrawn. -/
def Faithful : Prop :=
  ∀ table entry, entry ∈ system.listed table ↔
    system.Published origin table entry ∧ ¬ system.Withdrawn table entry.id

/-- Whatever the editor loaded and still lists is still stored. -/
def Undisturbed (i : ι) : Prop :=
  ∀ manifest ∈ (system.editors i).phase.manifest?, ∀ table, ∀ entry ∈ manifest.listed table,
    (table, entry) ∈ (system.editors i).added ∨ entry ∈ system.listed table

def Accepts (i : ι) (action : Action) : Prop :=
  ∃ manifest removals attempt merged, action = .put true ∧
    (system.editors i).phase = .putting manifest removals attempt merged system.object.version

variable [DecidableEq ι]

def Step (before after : System ι) : Prop :=
  ∃ i action, before.Admissible origin i action ∧ before.step i action = some after

/-- A step that is no accepted put of an editor that lists an entry removed since its load. -/
def CleanStep (before after : System ι) : Prop :=
  ∃ i action, before.Admissible origin i action ∧
    (before.Accepts i action → before.Undisturbed i) ∧ before.step i action = some after

end System

end Ferrosa.ObjectStore
