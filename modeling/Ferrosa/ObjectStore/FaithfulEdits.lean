import Ferrosa.ObjectStore.EditorCopies

/-!
# What concurrent edits leave stored

The copy of an editor also has the entries it only loaded, so a save brings back what other
editors removed since that load.  If no such entry is removed in between, the stored manifest
lists the initial and the added entries without the removed ones after every step.
-/

namespace Ferrosa.ObjectStore

open Function Phase Manifest.DistinctIds
open Option hiding or_assoc

namespace System

variable {ι : Type} {origin : VersionedObject Manifest} {system after : System ι}

/-- The part of the invariant that no put touches: which ids were used, and by whom. -/
structure Traced (origin : VersionedObject Manifest) (system : System ι) : Prop where
  addedFresh : ∀ i table entry, (table, entry) ∈ (system.editors i).added →
    ∀ listed ∈ (loadManifest origin).listed table, listed.id ≠ entry.id
  addedOnce : ∀ i j table entry other, (table, entry) ∈ (system.editors i).added →
    (table, other) ∈ (system.editors j).added → entry.id = other.id → i = j ∧ entry = other
  removedKnown : ∀ i table id, (system.editors i).removed.Removes table id →
    (∃ listed ∈ (loadManifest origin).listed table, listed.id = id) ∨
      ∃ j entry, ((system.editors j).phase = .saved ∨ j = i) ∧
        (table, entry) ∈ (system.editors j).added ∧ entry.id = id

structure Consistent (origin : VersionedObject Manifest) (system : System ι) : Prop where
  distinct : (loadManifest system.object).DistinctIds
  faithful : system.Faithful origin
  traced : system.Traced origin
  sound : ∀ i, (system.editors i).Sound (system.Published origin) system.object

/-- What every step keeps: a save may bring an entry back, but it loses none. -/
structure Lossless (origin : VersionedObject Manifest) (system : System ι) : Prop where
  distinct : (loadManifest system.object).DistinctIds
  published : ∀ table, ∀ entry ∈ system.listed table, system.Published origin table entry
  kept : ∀ table entry, system.Published origin table entry →
    ¬ system.Withdrawn table entry.id → entry ∈ system.listed table
  traced : system.Traced origin
  sound : ∀ i, (system.editors i).Sound (system.Published origin) system.object

theorem Consistent.lossless (consistent : system.Consistent origin) : system.Lossless origin :=
  { consistent with
    published := fun table entry present => ((consistent.faithful table entry).mp present).1
    kept := fun table entry isPublished kept =>
      (consistent.faithful table entry).mpr ⟨isPublished, kept⟩ }

variable {entry : ManifestEntry}

theorem Traced.entry_unique (traced : system.Traced origin)
    (distinct : (loadManifest origin).DistinctIds) (table : String) {other : ManifestEntry}
    (known : entry ∈ (loadManifest origin).listed table ∨
      ∃ i, (table, entry) ∈ (system.editors i).added)
    (otherKnown : other ∈ (loadManifest origin).listed table ∨
      ∃ i, (table, other) ∈ (system.editors i).added)
    (same : entry.id = other.id) : entry = other := by
  rcases known with listed | ⟨i, added⟩
  · rcases otherKnown with otherListed | ⟨j, otherAdded⟩
    · exact List.inj_on_of_nodup_map (distinct table) listed otherListed same
    · exact absurd same (traced.addedFresh j table other otherAdded entry listed)
  · rcases otherKnown with otherListed | ⟨j, otherAdded⟩
    · exact absurd same.symm (traced.addedFresh i table entry added other otherListed)
    · exact (traced.addedOnce i j table entry other added otherAdded same).2

variable {i : ι}

theorem Traced.not_withdrawn (traced : system.Traced origin)
    (active : (system.editors i).phase ≠ .saved) {table : String}
    (added : (table, entry) ∈ (system.editors i).added) :
    ¬ system.Withdrawn table entry.id := by
  rintro ⟨j, saved, removes⟩
  rcases traced.removedKnown j table entry.id removes with
    ⟨listed, isListed, same⟩ | ⟨k, other, isSaved, otherAdded, same⟩
  · exact traced.addedFresh i table entry added listed isListed same
  · rcases (traced.addedOnce i k table entry other added otherAdded same.symm).1 with rfl
    rcases isSaved with isSaved | rfl
    · exact active isSaved
    · exact active saved

theorem Traced.not_removes_of_fresh (traced : system.Traced origin) {table : String}
    (admissible : system.Admissible origin i (.add table entry)) (j : ι) :
    ¬ (system.editors j).removed.Removes table entry.id := by
  intro removes
  rcases traced.removedKnown j table entry.id removes with
    ⟨listed, isListed, same⟩ | ⟨k, other, _, otherAdded, same⟩
  · exact admissible.1 listed isListed same
  · exact admissible.2 k _ otherAdded rfl same

theorem Lossless.allowed (lossless : system.Lossless origin) {action : Action}
    (admissible : system.Admissible origin i action) :
    (system.editors i).Allowed (system.Published origin) system.object action where
  distinct := lossless.distinct
  isPublished := lossless.published
  fresh table entry isAdd := by
    subst isAdd
    exact ⟨admissible.2 i, lossless.traced.not_removes_of_fresh admissible i⟩

theorem consistent_start (distinct : (loadManifest origin).DistinctIds) :
    (start origin : System ι).Consistent origin where
  distinct := distinct
  faithful := by simp [Faithful, Published, Withdrawn, start, listed]
  traced := by constructor <;> simp [start]
  sound i := by
    constructor <;> simp [start, manifest?, removals?]

section Step

variable [DecidableEq ι] {i : ι} {action : Action} {object : VersionedObject Manifest}
  {editor : Editor}

section

variable (active : (system.editors i).phase ≠ .saved)

include active

theorem saved_update_iff (holds : Editor → Prop) :
    (∃ j, (Function.update system.editors i editor j).phase = .saved ∧
        holds (Function.update system.editors i editor j)) ↔
      (∃ j, (system.editors j).phase = .saved ∧ holds (system.editors j)) ∨
        (editor.phase = .saved ∧ holds editor) := by
  constructor
  · rintro ⟨j, saved, isHeld⟩
    by_cases same : j = i
    · subst same
      rw [update_self] at saved isHeld
      exact Or.inr ⟨saved, isHeld⟩
    · rw [update_of_ne same] at saved isHeld
      exact Or.inl ⟨j, saved, isHeld⟩
  · rintro (⟨j, saved, isHeld⟩ | ⟨saved, isHeld⟩)
    · have other : j ≠ i := by
        rintro rfl
        exact active saved
      exact ⟨j, by rwa [update_of_ne other], by rwa [update_of_ne other]⟩
    · exact ⟨i, by rwa [update_self], by rwa [update_self]⟩

variable {table : String}

theorem published_update_iff {entry : ManifestEntry} :
    Published origin ⟨object, Function.update system.editors i editor⟩ table entry ↔
      system.Published origin table entry ∨
        (editor.phase = .saved ∧ (table, entry) ∈ editor.added) := by
  rw [Published, Published, or_assoc]
  exact or_congr_right (saved_update_iff active fun editor => (table, entry) ∈ editor.added)

theorem withdrawn_update_iff {id : String} :
    Withdrawn ⟨object, Function.update system.editors i editor⟩ table id ↔
      system.Withdrawn table id ∨ (editor.phase = .saved ∧ editor.removed.Removes table id) :=
  saved_update_iff active fun editor => editor.removed.Removes table id

theorem saved_or_eq_update {j k : ι} (isSaved : (system.editors k).phase = .saved ∨ k = j) :
    (Function.update system.editors i editor k).phase = .saved ∨ k = j := by
  rcases isSaved with saved | same
  · have other : k ≠ i := by
      rintro rfl
      exact active saved
    exact Or.inl (by rwa [update_of_ne other])
  · exact Or.inr same

end

section

variable (traced : system.Traced origin) (active : (system.editors i).phase ≠ .saved)

include traced active

theorem Traced.update (added : Option (String × ManifestEntry))
    (isAdded : editor.added = (system.editors i).added ++ added.toList)
    (admissible : ∀ pair ∈ added, system.Admissible origin i (.add pair.1 pair.2))
    (known : ∀ table id, editor.removed.Removes table id →
      (system.editors i).removed.Removes table id ∨ ∃ entry,
        (system.Published origin table entry ∨ (table, entry) ∈ (system.editors i).added) ∧
          entry.id = id) :
    Traced origin ⟨object, Function.update system.editors i editor⟩ := by
  have mem_added : ∀ j pair, pair ∈ (Function.update system.editors i editor j).added ↔
      pair ∈ (system.editors j).added ∨ (j = i ∧ pair ∈ added) := by
    intro j pair
    by_cases same : j = i
    · subst same
      simp [isAdded]
    · simp [same]
  have holder : ∀ j target id, (∃ k entry, ((system.editors k).phase = .saved ∨ k = j) ∧
      (target, entry) ∈ (system.editors k).added ∧ entry.id = id) →
      ∃ k entry, ((Function.update system.editors i editor k).phase = .saved ∨ k = j) ∧
        (target, entry) ∈ (Function.update system.editors i editor k).added ∧ entry.id = id := by
    rintro j target id ⟨k, entry, isSaved, isAdded, same⟩
    exact ⟨k, entry, saved_or_eq_update active isSaved, (mem_added k _).mpr (Or.inl isAdded), same⟩
  constructor
  · intro j target other present
    rcases (mem_added j _).mp present with old | ⟨_, new⟩
    · exact traced.addedFresh j target other old
    · exact (admissible _ new).1
  · intro j k target first second inFirst inSecond sameId
    rcases (mem_added j _).mp inFirst with old | ⟨rfl, new⟩
    · rcases (mem_added k _).mp inSecond with oldSecond | ⟨rfl, newSecond⟩
      · exact traced.addedOnce j k target first second old oldSecond sameId
      · exact absurd sameId ((admissible _ newSecond).2 j _ old rfl)
    · rcases (mem_added k _).mp inSecond with oldSecond | ⟨rfl, newSecond⟩
      · exact absurd sameId.symm ((admissible _ new).2 k _ oldSecond rfl)
      · cases mem_unique new newSecond
        exact ⟨rfl, rfl⟩
  · intro j target id removes
    by_cases isEditor : j = i
    · subst isEditor
      rcases known target id (by simpa using removes) with
        old | ⟨entry, (listed | ⟨k, saved, isAdded⟩) | isAdded, same⟩
      · exact (traced.removedKnown j target id old).imp_right (holder j target id)
      · exact Or.inl ⟨entry, listed, same⟩
      · exact Or.inr (holder j target id ⟨k, entry, Or.inl saved, isAdded, same⟩)
      · exact Or.inr (holder j target id ⟨j, entry, Or.inr rfl, isAdded, same⟩)
    · have old : (system.editors j).removed.Removes target id := by simpa [isEditor] using removes
      exact (traced.removedKnown j target id old).imp_right (holder j target id)

end

theorem Lossless.traced_step (lossless : system.Lossless origin)
    (admissible : system.Admissible origin i action)
    (outcome : Editor.Outcome system.object (system.editors i) action object editor) :
    Traced origin ⟨object, Function.update system.editors i editor⟩ := by
  have active := outcome.active
  cases outcome with
  | added table entry editing =>
    refine lossless.traced.update active (some (table, entry)) rfl ?_ fun _ _ => Or.inl
    rintro _ ⟨⟩
    exact admissible
  | @removed manifest table ids editing =>
    have isManifest : manifest ∈ (system.editors i).phase.manifest? := by
      simp [editing, manifest?]
    refine lossless.traced.update active none (List.append_nil _).symm (by rintro _ ⟨⟩)
      fun target id removes => ?_
    rw [Removals.removes_append, Removals.removes_singleton] at removes
    rcases removes with old | ⟨rfl, inIds⟩
    · exact Or.inl old
    · rcases admissible manifest isManifest id inIds with ⟨entry, listed, same⟩
      have copy := (lossless.sound i).copy manifest isManifest
      exact Or.inr ⟨entry, copy.known table entry listed, same⟩
  | _ =>
    exact lossless.traced.update active none (List.append_nil _).symm (by rintro _ ⟨⟩)
      fun _ _ => Or.inl

variable {version : Option ℕ} {removals : Removals}

section

variable (distinct : (loadManifest origin).DistinctIds)

include distinct

omit [DecidableEq ι] in
theorem Lossless.mem_listed_accepted (lossless : system.Lossless origin)
    {manifest merged : Manifest} {attempt : ℕ}
    (putting : (system.editors i).phase = .putting manifest removals attempt merged version)
    (put : system.object.conditionalPut version merged = some object) (table : String)
    (entry : ManifestEntry) :
    entry ∈ (loadManifest object).listed table ↔ entry ∈ manifest.listed table ∨
      (entry ∈ system.listed table ∧ ¬ (system.editors i).removed.Removes table entry.id) := by
  have sound := lossless.sound i
  have copy := sound.copy manifest (by simp [putting, manifest?])
  rcases sound.merged manifest removals attempt merged version putting with
    ⟨seen, wasRead, isMerged⟩
  have same : loadManifest seen = loadManifest system.object := by
    rw [loadManifest, loadManifest, wasRead.value_eq put]
  rw [listed_loadManifest_of_put put, isMerged, same,
    Manifest.mem_listed_mergedSave copy.distinct lossless.distinct,
    sound.removals removals (by simp [putting, removals?])]
  constructor
  · rintro (own | ⟨stored, kept, _⟩)
    · exact Or.inl own
    · exact Or.inr ⟨stored, kept⟩
  · rintro (own | ⟨stored, kept⟩)
    · exact Or.inl own
    · by_cases replaced : ∃ other ∈ manifest.listed table, entry.id = other.id
      · rcases replaced with ⟨other, own, sameId⟩
        have published := lossless.published table entry stored
        obtain rfl : entry = other := by
          refine lossless.traced.entry_unique distinct table ?_ ?_ sameId
          · rcases published with listed | ⟨j, _, added⟩
            · exact Or.inl listed
            · exact Or.inr ⟨j, added⟩
          · rcases copy.known table other own with (listed | ⟨j, _, added⟩) | added
            · exact Or.inl listed
            · exact Or.inr ⟨j, added⟩
            · exact Or.inr ⟨i, added⟩
        exact Or.inl own
      · push Not at replaced
        exact Or.inr ⟨stored, kept, replaced⟩

theorem Consistent.faithful_accepted_iff (consistent : system.Consistent origin)
    {manifest merged : Manifest} {attempt : ℕ}
    (putting : (system.editors i).phase = .putting manifest removals attempt merged version)
    (put : system.object.conditionalPut version merged = some object) :
    Faithful origin ⟨object, Function.update system.editors i
        { system.editors i with phase := .saved }⟩ ↔
      system.Undisturbed i := by
  have active : (system.editors i).phase ≠ .saved := by simp [putting]
  have isManifest : (system.editors i).phase.manifest? = some manifest := by
    simp [putting, manifest?]
  have copy := (consistent.sound i).copy manifest isManifest
  have stored := consistent.lossless.mem_listed_accepted distinct putting put
  simp only [Faithful, listed, published_update_iff active, withdrawn_update_iff active, true_and,
    Undisturbed, isManifest, mem_some_iff, forall_eq'] at stored ⊢
  constructor
  · intro faithful table entry own
    rcases copy.known table entry own with published | added
    · have kept := ((faithful table entry).mp ((stored table entry).mpr (Or.inl own))).2
      rw [not_or] at kept
      exact Or.inr ((consistent.faithful table entry).mpr ⟨published, kept.1⟩)
    · exact Or.inl added
  · intro undisturbed table entry
    rw [stored, not_or]
    constructor
    · rintro (own | ⟨present, kept⟩)
      · have kept := copy.dropsRemoved table entry own
        rcases undisturbed table entry own with added | present
        · exact ⟨Or.inr added, consistent.traced.not_withdrawn active added, kept⟩
        · rcases (consistent.faithful table entry).mp present with ⟨published, notWithdrawn⟩
          exact ⟨Or.inl published, notWithdrawn, kept⟩
      · rcases (consistent.faithful table entry).mp present with ⟨published, notWithdrawn⟩
        exact ⟨Or.inl published, notWithdrawn, kept⟩
    · rintro ⟨published | added, notWithdrawn, kept⟩
      · exact Or.inr ⟨(consistent.faithful table entry).mpr ⟨published, notWithdrawn⟩, kept⟩
      · exact Or.inl (copy.keepsAdded table entry added kept)

theorem Consistent.faithful_step (consistent : system.Consistent origin)
    (undisturbed : system.Accepts i action → system.Undisturbed i)
    (outcome : Editor.Outcome system.object (system.editors i) action object editor) :
    Faithful origin ⟨object, Function.update system.editors i editor⟩ := by
  have active := outcome.active
  cases outcome with
  | @accepted manifest merged removals attempt version _ putting put =>
    rw [consistent.faithful_accepted_iff distinct putting put]
    have current := (VersionedObject.conditionalPut_eq_some_iff.mp put).1
    exact undisturbed ⟨manifest, removals, attempt, merged, rfl, by rw [current, putting]⟩
  | _ =>
    intro table entry
    rw [published_update_iff active, withdrawn_update_iff active]
    simpa [listed] using consistent.faithful table entry

theorem Lossless.step (lossless : system.Lossless origin)
    (admissible : system.Admissible origin i action)
    (outcome : Editor.Outcome system.object (system.editors i) action object editor) :
    Lossless origin ⟨object, Function.update system.editors i editor⟩ := by
  have active := outcome.active
  have grows : ∀ table entry, system.Published origin table entry →
      Published origin ⟨object, Function.update system.editors i editor⟩ table entry :=
    fun table entry published => (published_update_iff active).mpr (Or.inl published)
  have written : object = system.object ∨
      ∃ expected new, system.object.conditionalPut expected new = some object := by
    cases outcome with
    | accepted putting put => exact Or.inr ⟨_, _, put⟩
    | _ => exact Or.inl rfl
  refine ⟨?_, ?_, ?_, lossless.traced_step admissible outcome, fun j => ?_⟩
  · cases outcome with
    | @accepted manifest merged removals attempt version _ putting put =>
      rcases (lossless.sound i).merged manifest removals attempt merged version putting with
        ⟨seen, wasRead, rfl⟩
      intro table
      rw [listed_loadManifest_of_put put]
      refine mergedSave ?_ table
      rw [loadManifest, ← wasRead.value_eq put]
      exact lossless.distinct
    | _ => exact lossless.distinct
  · intro table entry present
    cases outcome with
    | @accepted manifest merged removals attempt version _ putting put =>
      rcases (lossless.mem_listed_accepted distinct putting put table entry).mp present with
        own | ⟨stored, _⟩
      · have copy := (lossless.sound i).copy manifest (by simp [putting, manifest?])
        exact (published_update_iff active).mpr
          ((copy.known table entry own).imp_right fun added => ⟨rfl, added⟩)
      · exact grows table entry (lossless.published table entry stored)
    | _ => exact grows table entry (lossless.published table entry present)
  · intro table entry published kept
    rw [published_update_iff active] at published
    rw [withdrawn_update_iff active, not_or] at kept
    have old := fun published => lossless.kept table entry published kept.1
    cases outcome with
    | @accepted manifest merged removals attempt version _ putting put =>
      have copy := (lossless.sound i).copy manifest (by simp [putting, manifest?])
      have notRemoved : ¬ (system.editors i).removed.Removes table entry.id :=
        fun removes => kept.2 ⟨rfl, removes⟩
      refine (lossless.mem_listed_accepted distinct putting put table entry).mpr ?_
      rcases published with published | ⟨_, added⟩
      · exact Or.inr ⟨old published, notRemoved⟩
      · exact Or.inl (copy.keepsAdded table entry added notRemoved)
    | _ => exact old (published.resolve_right (by simp [*]))
  · by_cases isEditor : j = i
    · subst isEditor
      simp only [update_self]
      exact ((lossless.sound j).outcome (lossless.allowed admissible) outcome).frame grows
        (Or.inl rfl)
    · simp only [update_of_ne isEditor]
      exact (lossless.sound j).frame grows written

theorem Consistent.step (consistent : system.Consistent origin)
    (stepped : system.CleanStep origin after) : after.Consistent origin := by
  rcases stepped with ⟨i, action, admissible, undisturbed, taken⟩
  rcases map_eq_some_iff.mp taken with ⟨⟨object, editor⟩, stepped, rfl⟩
  have outcome := Editor.outcome_of_step stepped
  exact { consistent.lossless.step distinct admissible outcome with
    faithful := consistent.faithful_step distinct undisturbed outcome }

end

/-- If no save brings back what was removed since its load, the manifest lists what was published
and not withdrawn. -/
theorem faithful_of_cleanSteps (distinct : (loadManifest origin).DistinctIds)
    (run : Relation.ReflTransGen (CleanStep origin) (start origin) system) :
    system.Faithful origin := by
  have consistent : system.Consistent origin := by
    induction run with
    | refl => exact consistent_start distinct
    | tail _ stepped ih => exact ih.step distinct stepped
  exact consistent.faithful

/-- In every run, stale saves included, the ids stay distinct, only published entries are listed,
and a published entry is listed unless a save removed it. -/
theorem nothing_lost_of_steps (distinct : (loadManifest origin).DistinctIds)
    (run : Relation.ReflTransGen (Step origin) (start origin) system) :
    (loadManifest system.object).DistinctIds ∧ ∀ table entry,
      (entry ∈ system.listed table → system.Published origin table entry) ∧
      (system.Published origin table entry → ¬ system.Withdrawn table entry.id →
        entry ∈ system.listed table) := by
  have lossless : system.Lossless origin := by
    induction run with
    | refl => exact (consistent_start distinct).lossless
    | tail _ stepped ih =>
      rcases stepped with ⟨i, action, admissible, taken⟩
      rcases map_eq_some_iff.mp taken with ⟨⟨object, editor⟩, stepped, rfl⟩
      exact ih.step distinct admissible (Editor.outcome_of_step stepped)
  exact ⟨lossless.distinct, fun table entry =>
    ⟨lossless.published table entry, lossless.kept table entry⟩⟩

end Step

instance (phase : Phase) : Decidable (phase = .saved) :=
  match phase with
  | .saved => isTrue rfl
  | .idle => isFalse nofun
  | .editing _ => isFalse nofun
  | .saving _ _ _ => isFalse nofun
  | .putting _ _ _ _ _ => isFalse nofun
  | .failed => isFalse nofun

instance [Fintype ι] (system : System ι) (table id : String) :
    Decidable (system.Withdrawn table id) :=
  inferInstanceAs (Decidable (∃ _, _))

instance [Fintype ι] (origin : VersionedObject Manifest) (system : System ι) (i : ι)
    (action : Action) : Decidable (system.Admissible origin i action) :=
  match action with
  | .add _ _ => inferInstanceAs (Decidable (_ ∧ _))
  | .remove _ _ => inferInstanceAs (Decidable (∀ _ ∈ _, _))
  | .load _ | .save _ | .reload _ | .put _ => isTrue trivial

theorem undisturbed_iff_entries : system.Undisturbed i ↔
    ∀ manifest ∈ (system.editors i).phase.manifest?, ∀ listed ∈ manifest.sstables.entries,
      ∀ entry ∈ listed.2, (listed.1, entry) ∈ (system.editors i).added ∨
        entry ∈ system.listed listed.1 := by
  refine forall₂_congr fun manifest _ => ⟨?_, ?_⟩
  · rintro undisturbed ⟨table, entries⟩ present entry isEntry
    apply undisturbed table entry
    rw [Manifest.listed, AList.mem_lookup_iff.mpr present]
    exact isEntry
  · intro undisturbed table entry isEntry
    rw [Manifest.listed] at isEntry
    cases found : manifest.sstables.lookup table with
    | none => simp [found] at isEntry
    | some entries =>
      rw [found] at isEntry
      exact undisturbed ⟨table, entries⟩ (AList.mem_lookup_iff.mp found) entry isEntry

instance (system : System ι) (i : ι) : Decidable (system.Undisturbed i) :=
  decidable_of_iff' _ undisturbed_iff_entries

section Checked

variable [DecidableEq ι] (check : System ι → ι → Action → Bool)

def runChecked : System ι → List (ι × Action) → Option (System ι)
  | system, [] => some system
  | system, (i, action) :: rest =>
    if check system i action then
      (system.step i action).bind fun next => runChecked next rest
    else none

variable {check}

theorem reaches_of_runChecked {related : System ι → System ι → Prop}
    (checked : ∀ {system i action next}, check system i action →
      system.step i action = some next → related system next)
    {events : List (ι × Action)} {system final : System ι}
    (ran : runChecked check system events = some final) :
    Relation.ReflTransGen related system final := by
  induction events generalizing system with
  | nil =>
    cases ran
    exact .refl
  | cons event rest ih =>
    rw [runChecked, ite_none_right_eq_some] at ran
    rcases bind_eq_some_iff.mp ran.2 with ⟨next, stepped, ranRest⟩
    exact .head (checked ran.1 stepped) (ih ranRest)

end Checked

end System

def sampleEntry (id : String) : ManifestEntry := ⟨id, 0, 0, 0, 0, 0⟩

def oneSstable : VersionedObject Manifest :=
  ⟨1, some (Manifest.new.addSstable "t" (sampleEntry "a"))⟩

def saveAdding (i : Bool) : List (Bool × Action) :=
  [(i, .add "t" (sampleEntry "b")), (i, .save true), (i, .reload true), (i, .put true)]

def saveRemoving (i : Bool) : List (Bool × Action) :=
  [(i, .load true), (i, .remove "t" ["a"]), (i, .save true), (i, .reload true), (i, .put true)]

def staleSave : Option (System Bool) :=
  System.runChecked (fun system i action => system.Admissible oneSstable i action)
    (.start oneSstable) ((false, .load true) :: (saveRemoving true ++ saveAdding false))

theorem distinctIds_oneSstable : (loadManifest oneSstable).DistinctIds :=
  @addSstable Manifest.new (sampleEntry "a") "t" fun _ => List.nodup_nil

set_option maxRecDepth 8000 in
/-- The entry that the second editor removed is listed again. -/
theorem not_faithful_staleSave : (loadManifest oneSstable).DistinctIds ∧ ∃ system : System Bool,
        Relation.ReflTransGen (System.Step oneSstable) (.start oneSstable) system ∧
          ¬ system.Faithful oneSstable := by
  have broken : (staleSave.map fun system => decide (sampleEntry "a" ∈ system.listed "t" ∧
      system.Withdrawn "t" "a")) = some true := by
    decide
  rcases map_eq_some_iff.mp broken with ⟨system, ran, present⟩
  rcases of_decide_eq_true present with ⟨listed, withdrawn⟩
  refine ⟨distinctIds_oneSstable, system, ?_, fun faithful => ?_⟩
  · exact System.reaches_of_runChecked
      (fun admits stepped => ⟨_, _, of_decide_eq_true admits, stepped⟩) ran
  · exact ((faithful "t" (sampleEntry "a")).mp listed).2 withdrawn

set_option maxRecDepth 8000 in
theorem nothing_lost_staleSave : ∃ system : System Bool, staleSave = some system ∧
      (loadManifest system.object).DistinctIds := by
  rcases isSome_iff_exists.mp (by decide : staleSave.isSome) with ⟨system, ran⟩
  refine ⟨system, ran, (System.nothing_lost_of_steps distinctIds_oneSstable ?_).1⟩
  exact System.reaches_of_runChecked
    (fun admits stepped => ⟨_, _, of_decide_eq_true admits, stepped⟩) ran

def serialSaves : Option (System Bool) :=
  System.runChecked
    (fun system i action => system.Admissible oneSstable i action ∧ system.Undisturbed i)
    (.start oneSstable) (saveRemoving true ++ (false, .load true) :: saveAdding false)

set_option maxRecDepth 8000 in
theorem faithful_serialSaves : ∃ system : System Bool, serialSaves = some system ∧
      (system.listed "t").map (·.id) = ["b"] ∧ system.Faithful oneSstable := by
  have listed : (serialSaves.map fun system => (system.listed "t").map (·.id)) = some ["b"] := by
    decide
  rcases map_eq_some_iff.mp listed with ⟨system, ran, isListed⟩
  refine ⟨system, ran, isListed, ?_⟩
  apply System.faithful_of_cleanSteps distinctIds_oneSstable
  refine System.reaches_of_runChecked (fun passes stepped => ?_) ran
  rcases of_decide_eq_true passes with ⟨admits, undisturbed⟩
  exact ⟨_, _, admits, fun _ => undisturbed, stepped⟩

end Ferrosa.ObjectStore
