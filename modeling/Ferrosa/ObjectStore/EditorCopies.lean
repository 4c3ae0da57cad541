import Ferrosa.ObjectStore.ManifestEdits

/-!
# The copies of editors

While an editor works, its copy lists entries that were published before its load and entries
it added, all it added and did not remove, and none that it removed.  Nothing that other
editors do changes that.
-/

namespace Ferrosa.ObjectStore

open Manifest Phase Removals

@[simp] theorem pendingRemovals_loadManifest (object : VersionedObject Manifest) :
    (loadManifest object).pendingRemovals = [] := by
  unfold loadManifest
  cases object.value <;> rfl

theorem listed_loadManifest_of_put {object next : VersionedObject Manifest} {expected : Option ℕ}
    {new : Manifest} (put : object.conditionalPut expected new = some next) (table : String) :
    (loadManifest next).listed table = new.listed table := by
  rcases VersionedObject.conditionalPut_eq_some_iff.mp put with ⟨_, rfl⟩
  rfl

/-- A copy of the manifest in terms of the edits made to it and of the published entries. -/
structure IsCopy (published : String → ManifestEntry → Prop)
    (added : List (String × ManifestEntry)) (removed : Removals) (manifest : Manifest) : Prop where
  distinct : manifest.DistinctIds
  known : ∀ table, ∀ entry ∈ manifest.listed table, published table entry ∨ (table, entry) ∈ added
  keepsAdded : ∀ table entry, (table, entry) ∈ added → ¬ removed.Removes table entry.id →
    entry ∈ manifest.listed table
  dropsRemoved : ∀ table, ∀ entry ∈ manifest.listed table, ¬ removed.Removes table entry.id

namespace IsCopy

variable {published : String → ManifestEntry → Prop} {added : List (String × ManifestEntry)}
  {removed : Removals} {manifest : Manifest}

section

variable (copy : IsCopy published added removed manifest)

include copy

theorem addSstable {table : String} {entry : ManifestEntry}
    (fresh : ∀ other ∈ added, other.1 = table → other.2.id ≠ entry.id)
    (notRemoved : ¬ removed.Removes table entry.id) :
    IsCopy published (added ++ [(table, entry)]) removed (manifest.addSstable table entry) where
  distinct := copy.distinct.addSstable
  known target other present := by
    rcases (mem_listed_addSstable copy.distinct).mp present with ⟨rfl, rfl⟩ | ⟨old, _⟩
    · simp
    · rcases copy.known target other old with isPublished | isAdded
      · exact Or.inl isPublished
      · exact Or.inr (List.mem_append_left _ isAdded)
  keepsAdded target other isAdded kept := by
    rw [mem_listed_addSstable copy.distinct]
    rcases List.mem_append.mp isAdded with old | new
    · refine Or.inr ⟨copy.keepsAdded target other old kept, ?_⟩
      rintro ⟨rfl, same⟩
      exact fresh _ old rfl same.symm
    · simp only [List.mem_singleton, Prod.mk.injEq] at new
      exact Or.inl ⟨new.1.symm, new.2⟩
  dropsRemoved target other present := by
    rcases (mem_listed_addSstable copy.distinct).mp present with ⟨rfl, rfl⟩ | ⟨old, _⟩
    · exact notRemoved
    · exact copy.dropsRemoved target other old

theorem removeSstables (table : String) (ids : List String) :
    IsCopy published added (removed ++ [(table, ids)]) (manifest.removeSstables table ids) where
  distinct := copy.distinct.removeSstables
  known target entry present :=
    copy.known target entry (mem_listed_removeSstables.mp present).1
  keepsAdded target entry isAdded kept := by
    rw [removes_append, removes_singleton, not_or] at kept
    exact mem_listed_removeSstables.mpr ⟨copy.keepsAdded target entry isAdded kept.1, kept.2⟩
  dropsRemoved target entry present := by
    rw [removes_append, removes_singleton, not_or]
    rcases mem_listed_removeSstables.mp present with ⟨old, notDropped⟩
    exact ⟨copy.dropsRemoved target entry old, notDropped⟩

theorem mono {more : String → ManifestEntry → Prop}
    (grows : ∀ table entry, published table entry → more table entry) :
    IsCopy more added removed manifest :=
  { copy with
    known table entry present := (copy.known table entry present).imp_left (grows table entry) }

end

end IsCopy

namespace Editor

structure Sound (published : String → ManifestEntry → Prop) (object : VersionedObject Manifest)
    (editor : Editor) : Prop where
  unedited : editor.phase = .idle → editor.added = [] ∧ editor.removed = []
  copy : ∀ manifest ∈ editor.phase.manifest?, IsCopy published editor.added editor.removed manifest
  pending : ∀ manifest, editor.phase = .editing manifest → ∀ table id,
    manifest.pendingRemovals.Removes table id ↔ editor.removed.Removes table id
  removals : ∀ removals ∈ editor.phase.removals?, ∀ table id,
    removals.Removes table id ↔ editor.removed.Removes table id
  merged : ∀ manifest removals attempt merged version,
    editor.phase = .putting manifest removals attempt merged version →
      ∃ seen : VersionedObject Manifest, object.WasRead seen.value version ∧
        merged = manifest.mergedSave removals (loadManifest seen)

variable {published : String → ManifestEntry → Prop} {object next : VersionedObject Manifest}
  {editor after : Editor}

theorem Sound.frame {more : String → ManifestEntry → Prop} (sound : editor.Sound published object)
    (grows : ∀ table entry, published table entry → more table entry)
    (written : next = object ∨ ∃ expected new, object.conditionalPut expected new = some next) :
    editor.Sound more next := by
  refine { sound with
    copy := fun manifest isManifest => (sound.copy manifest isManifest).mono grows
    merged := ?_ }
  intro manifest removals attempt merged version isPutting
  rcases sound.merged manifest removals attempt merged version isPutting with
    ⟨seen, wasRead, isMerged⟩
  refine ⟨seen, ?_, isMerged⟩
  rcases written with rfl | ⟨expected, new, put⟩
  · exact wasRead
  · exact wasRead.conditionalPut put

theorem sound_of_ended (ended : editor.phase = .saved ∨ editor.phase = .failed) :
    editor.Sound published object := by
  rcases ended with ended | ended <;> constructor <;> simp [ended, manifest?, removals?]

/-- What the other parts of the system guarantee for an action of the editor. -/
structure Allowed (published : String → ManifestEntry → Prop) (object : VersionedObject Manifest)
    (editor : Editor) (action : Action) : Prop where
  distinct : (loadManifest object).DistinctIds
  isPublished : ∀ table, ∀ entry ∈ (loadManifest object).listed table, published table entry
  fresh : ∀ table entry, action = .add table entry →
    (∀ other ∈ editor.added, other.1 = table → other.2.id ≠ entry.id) ∧
      ¬ editor.removed.Removes table entry.id

variable {action : Action}

theorem isCopy_loadManifest (allowed : Allowed published object editor action) :
    IsCopy published [] [] (loadManifest object) where
  distinct := allowed.distinct
  known table entry present := Or.inl (allowed.isPublished table entry present)
  keepsAdded := by simp
  dropsRemoved := by simp

inductive Outcome (object : VersionedObject Manifest) (editor : Editor) :
    Action → VersionedObject Manifest → Editor → Prop
  | loaded (answered : Bool) (idle : editor.phase = .idle) :
      Outcome object editor (.load answered) object
        { editor with phase := .editing (loadManifest object) }
  | added {manifest : Manifest} (table : String) (entry : ManifestEntry)
      (editing : editor.phase = .editing manifest) :
      Outcome object editor (.add table entry) object { editor with
          phase := .editing (manifest.addSstable table entry)
          added := editor.added ++ [(table, entry)] }
  | removed {manifest : Manifest} (table : String) (ids : List String)
      (editing : editor.phase = .editing manifest) :
      Outcome object editor (.remove table ids) object { editor with
          phase := .editing (manifest.removeSstables table ids)
          removed := editor.removed ++ [(table, ids)] }
  | saving {manifest : Manifest} {removals : Removals} (withRemovals : Bool)
      (editing : editor.phase = .editing manifest)
      (own : removals = editor.removed ∨ removals = manifest.pendingRemovals) :
      Outcome object editor (.save withRemovals) object
        { editor with phase := .saving manifest removals 0 }
  | reloaded {manifest : Manifest} {removals : Removals} {attempt : ℕ} (answered : Bool)
      (saving : editor.phase = .saving manifest removals attempt) :
      Outcome object editor (.reload answered) object { editor with
          phase := .putting manifest removals attempt
            (manifest.mergedSave removals (loadManifest object)) object.version }
  | retried {manifest merged : Manifest} {removals : Removals} {attempt : ℕ} {version : Option ℕ}
      (answered : Bool)
      (putting : editor.phase = .putting manifest removals attempt merged version) :
      Outcome object editor (.put answered) object
        { editor with phase := .saving manifest removals (attempt + 1) }
  | failed (action : Action) (active : editor.phase ≠ .saved) :
      Outcome object editor action object { editor with phase := .failed }
  | accepted {manifest merged : Manifest} {removals : Removals} {attempt : ℕ}
      {version : Option ℕ} {next : VersionedObject Manifest}
      (putting : editor.phase = .putting manifest removals attempt merged version)
      (put : object.conditionalPut version merged = some next) :
      Outcome object editor (.put true) next { editor with phase := .saved }

theorem outcome_of_step (stepped : editor.step object action = some (next, after)) :
    Outcome object editor action next after := by
  rcases editor with ⟨phase, added, removed⟩
  cases action <;> cases phase <;> simp only [step, reduceCtorEq, Option.some.injEq,
    Prod.mk.injEq] at stepped
  case load.idle answered =>
    rcases stepped with ⟨rfl, rfl⟩
    cases answered
    · exact .failed _ (by simp)
    · exact .loaded true rfl
  case add.editing table entry manifest =>
    rcases stepped with ⟨rfl, rfl⟩
    exact .added table entry rfl
  case remove.editing table ids manifest =>
    rcases stepped with ⟨rfl, rfl⟩
    exact .removed table ids rfl
  case save.editing withRemovals manifest =>
    rcases stepped with ⟨rfl, rfl⟩
    cases withRemovals
    · exact .saving false rfl (Or.inr rfl)
    · exact .saving true rfl (Or.inl rfl)
  case reload.saving answered manifest removals attempt =>
    rcases stepped with ⟨rfl, rfl⟩
    cases answered
    · exact .failed _ (by simp)
    · exact .reloaded true rfl
  case put.putting answered manifest removals attempt merged version =>
    have retries : ∀ answered, Outcome object
        ⟨.putting manifest removals attempt merged version, added, removed⟩ (.put answered) object
        ⟨.retry manifest removals attempt, added, removed⟩ := by
      intro answered
      unfold retry
      split_ifs
      · exact .retried answered rfl
      · exact .failed _ (by simp)
    cases answered with
    | false =>
      simp only [Bool.false_eq_true, if_false, Option.some.injEq, Prod.mk.injEq] at stepped
      rcases stepped with ⟨rfl, rfl⟩
      exact retries false
    | true =>
      simp only [if_true] at stepped
      cases put : object.conditionalPut version merged with
      | none =>
        simp only [put, Option.some.injEq, Prod.mk.injEq] at stepped
        rcases stepped with ⟨rfl, rfl⟩
        exact retries true
      | some next =>
        simp only [put, Option.some.injEq, Prod.mk.injEq] at stepped
        rcases stepped with ⟨rfl, rfl⟩
        exact .accepted rfl put

theorem Outcome.active (outcome : Outcome object editor action next after) :
    editor.phase ≠ .saved := by
  cases outcome <;> simp_all

theorem Sound.outcome (sound : editor.Sound published object)
    (allowed : Allowed published object editor action)
    (outcome : Outcome object editor action next after) : after.Sound published next := by
  cases outcome with
  | loaded answered idle =>
    rcases sound.unedited idle with ⟨noAdded, noRemoved⟩
    refine { unedited := nofun, copy := ?_, pending := ?_, removals := nofun, merged := nofun }
    · rintro _ ⟨⟩
      rw [noAdded, noRemoved]
      exact isCopy_loadManifest allowed
    · rintro _ ⟨⟩ table id
      rw [noRemoved, pendingRemovals_loadManifest]
  | @added manifest table entry editing =>
    rcases allowed.fresh table entry rfl with ⟨fresh, notRemoved⟩
    refine { unedited := nofun, copy := ?_, pending := ?_, removals := nofun, merged := nofun }
    · rintro _ ⟨⟩
      exact (sound.copy manifest (by simp [editing, manifest?])).addSstable fresh notRemoved
    · rintro _ ⟨⟩
      exact sound.pending manifest editing
  | @removed manifest table ids editing =>
    refine { unedited := nofun, copy := ?_, pending := ?_, removals := nofun, merged := nofun }
    · rintro _ ⟨⟩
      exact (sound.copy manifest (by simp [editing, manifest?])).removeSstables table ids
    · rintro _ ⟨⟩ target id
      rw [removes_pendingRemovals_removeSstables, sound.pending manifest editing,
        removes_append, removes_singleton]
  | @saving manifest removals withRemovals editing own =>
    refine { unedited := nofun, copy := ?_, pending := nofun, removals := ?_, merged := nofun }
    · rintro _ ⟨⟩
      exact sound.copy manifest (by simp [editing, manifest?])
    · rintro _ ⟨⟩ table id
      rcases own with rfl | rfl
      · exact Iff.rfl
      · exact sound.pending manifest editing table id
  | @reloaded manifest removals attempt answered saving =>
    refine { unedited := nofun, copy := ?_, pending := nofun, removals := ?_, merged := ?_ }
    · rintro _ ⟨⟩
      exact sound.copy manifest (by simp [saving, manifest?])
    · rintro _ ⟨⟩
      exact sound.removals removals (by simp [saving, removals?])
    · rintro _ _ _ _ _ ⟨⟩
      exact ⟨object, VersionedObject.wasRead_self, rfl⟩
  | @retried manifest merged removals attempt version answered putting =>
    refine { unedited := nofun, copy := ?_, pending := nofun, removals := ?_, merged := nofun }
    · rintro _ ⟨⟩
      exact sound.copy manifest (by simp [putting, manifest?])
    · rintro _ ⟨⟩
      exact sound.removals removals (by simp [putting, removals?])
  | failed => exact sound_of_ended (Or.inr rfl)
  | accepted => exact sound_of_ended (Or.inl rfl)

end Editor

end Ferrosa.ObjectStore
