import Ferrosa.Postgres.Mvcc

/-!
# What snapshots show

A snapshot shows the version in its own root, the absence a head remembers, or the row in
storage.  Publishing before-images and publishing commits both leave that as it was: the
first only adds images that everyone saw already, the second only changes heads.
-/

namespace Ferrosa.Postgres

open FiniteMap List Option State RowChange

variable {Value : Type} [DecidableEq Value]

variable (base : RowKey Value → Option (Row Value))

def runSerially (commits : List (Commit Value)) : RowKey Value → Option (Row Value) :=
  commits.foldl (fun rows commit => applyChanges commit.changes rows) base

/-- Every commit read what the commits before it left. -/
def SerialOrder (commits : List (Commit Value)) : Prop :=
  ∀ front commit back, commits = front ++ commit :: back →
    ∀ row, commit.reservation.Reads row → runSerially base front row = commit.shown row

def headRow (heads : LocalRows Value) (row : RowKey Value) : Option (Row Value) :=
  match heads.lookup row with
  | some head => head.row
  | none => base row

/-- The root of a snapshot and the heads together give the rows it was taken of. -/
def Shows (heads root : LocalRows Value) (shown : RowKey Value → Option (Row Value))
    (row : RowKey Value) : Prop :=
  match heads.lookup row with
  | none => root.lookup row = none ∧ shown row = base row
  | some head =>
    match root.lookup row with
    | some version => version.row = shown row
    | none => head.baselineAbsent = true ∧ shown row = none

variable {base}

variable {changes : List (RowChange Value)} {row : RowKey Value}
  {shown : RowKey Value → Option (Row Value)} {state : State Value} {heads : LocalRows Value}
  {head : LocalVersion Value}

theorem applyChanges_of_notMem {rows : RowKey Value → Option (Row Value)}
    (untouched : row ∉ changes.map rowKey) :
    applyChanges changes rows row = rows row := by
  unfold applyChanges
  induction changes generalizing rows with
  | nil => rfl
  | cons change changes ih =>
    simp only [map_cons, mem_cons, not_or] at untouched
    rw [foldl_cons, ih untouched.2, Function.update_of_ne untouched.1]

theorem SerialOrder.append {commits : List (Commit Value)} {commit : Commit Value}
    (order : SerialOrder base commits)
    (reads : ∀ row, commit.reservation.Reads row → runSerially base commits row = commit.shown row) :
    SerialOrder base (commits ++ [commit]) := by
  intro front other back split row read
  rcases eq_nil_or_concat back with rfl | ⟨initial, last, rfl⟩
  · rcases append_inj' split rfl with ⟨rfl, same⟩
    cases List.cons.inj same with
    | intro same _ =>
      subst same
      exact reads row read
  · rw [concat_eq_append, ← cons_append, ← append_assoc] at split
    rcases append_inj' split rfl with ⟨same, _⟩
    exact order front other initial same row read

variable {active : ActiveSnapshot Value} {key : RowKey Value} {readTables : Finset String}
  {snapshot : MvccSnapshot}

theorem visibleRow_eq_shown {stored : RowKey Value → Option (Row Value)}
    (shows : Shows base state.localRows active.localRows shown row)
    (untracked : state.localRows.lookup row = none → stored row = base row) :
    visibleRow state stored active row = shown row := by
  unfold Shows at shows
  unfold visibleRow
  cases head : state.localRows.lookup row with
  | none =>
    simp only [head] at shows
    simp [shows.1, untracked head, shows.2]
  | some head =>
    simp only [head] at shows
    cases version : active.localRows.lookup row with
    | none =>
      simp only [version] at shows
      simp [shows.1, shows.2]
    | some version =>
      simp only [version] at shows
      simp [shows]

structure Rebased (base : RowKey Value → Option (Row Value)) (before after : State Value) : Prop where
  commitSeq : after.commitSeq = before.commitSeq
  nextSnapshotId : after.nextSnapshotId = before.nextSnapshotId
  reservations : after.reservations = before.reservations
  tableEpochs : after.tableEpochs = before.tableEpochs
  kept : ∀ row version, before.localRows.lookup row = some version →
    after.localRows.lookup row = some version
  heads : ∀ row, headRow base after.localRows row = headRow base before.localRows row
  active : ∀ id root, after.activeSnapshots.lookup id = some root →
    ∃ former, before.activeSnapshots.lookup id = some former ∧ ∀ shown,
      (∀ row, Shows base before.localRows former.localRows shown row) →
      ∀ row, Shows base after.localRows root.localRows shown row
  stillActive : ∀ id former, before.activeSnapshots.lookup id = some former →
    ∃ root, after.activeSnapshots.lookup id = some root

namespace Rebased

theorem refl (state : State Value) : Rebased base state state where
  commitSeq := rfl
  nextSnapshotId := rfl
  reservations := rfl
  tableEpochs := rfl
  kept := fun _ _ found => found
  heads := fun _ => rfl
  active := fun _ root found => ⟨root, found, fun _ shows => shows⟩
  stillActive := fun _ former found => ⟨former, found⟩

theorem trans {first second third : State Value} (left : Rebased base first second)
    (right : Rebased base second third) : Rebased base first third where
  commitSeq := right.commitSeq.trans left.commitSeq
  nextSnapshotId := right.nextSnapshotId.trans left.nextSnapshotId
  reservations := right.reservations.trans left.reservations
  tableEpochs := right.tableEpochs.trans left.tableEpochs
  kept := fun row version found => right.kept row version (left.kept row version found)
  heads := fun row => (right.heads row).trans (left.heads row)
  active := by
    intro id root found
    rcases right.active id root found with ⟨middle, foundMiddle, later⟩
    rcases left.active id middle foundMiddle with ⟨former, foundFormer, earlier⟩
    exact ⟨former, foundFormer, fun shown shows => later shown (earlier shown shows)⟩
  stillActive := by
    intro id former found
    rcases left.stillActive id former found with ⟨middle, foundMiddle⟩
    exact right.stillActive id middle foundMiddle

end Rebased

theorem Rebased.untracked {before after : State Value} (rebased : Rebased base before after)
    (missing : after.localRows.lookup row = none) :
    before.localRows.lookup row = none := by
  cases found : before.localRows.lookup row with
  | none => rfl
  | some version =>
    have kept := rebased.kept row version found
    rw [missing] at kept
    cases kept

theorem Shows.insert_head {root after : LocalRows Value} (untracked : heads.lookup key = none)
    (shows : ∀ row, Shows base heads root shown row)
    (others : ∀ row, row ≠ key → after.lookup row = root.lookup row)
    (here : (∃ version, after.lookup key = some version ∧ version.row = base key) ∨
      (after.lookup key = none ∧ head.baselineAbsent = true ∧ base key = none)) (row : RowKey Value) :

    Shows base (heads.insert key head) after shown row := by
  have former := shows row
  unfold Shows at former ⊢
  rw [lookup_insert_ite]
  by_cases same : row = key
  · subst same
    simp only [untracked] at former
    rcases here with ⟨version, found, image⟩ | ⟨missing, absent, image⟩
    · simp [found, image, former.2]
    · simp [missing, absent, former.2, image]
  · simpa only [if_neg same, others row same] using former

theorem headRow_insert (untracked : heads.lookup key = none)
    (image : head.row = base key) (row : RowKey Value) :
    headRow base (heads.insert key head) row = headRow base heads row := by
  unfold headRow
  rw [lookup_insert_ite]
  by_cases same : row = key
  · subst same
    simp [untracked, image]
  · simp [same]

theorem lookup_insert_of_untracked {version : LocalVersion Value}
    (untracked : heads.lookup key = none) (found : heads.lookup row = some version) :
    (heads.insert key head).lookup row = some version := by
  rw [lookup_insert_ite]
  have other : row ≠ key := by
    rintro rfl
    simp [untracked] at found
  rw [if_neg other, found]

theorem rebased_publishBaseline {change : RowChange Value}
    (image : state.localRows.lookup change.rowKey = none → change.before = base change.rowKey) :
    Rebased base state (state.publishBaseline change) := by
  have unchanged : Rebased base state state := Rebased.refl state
  cases tracked : state.localRows.lookup change.rowKey with
  | some version =>
    have same : state.publishBaseline change = state := by simp [publishBaseline, tracked]
    rw [same]
    exact unchanged
  | none =>
    have before := image tracked
    cases absent : change.before.isNone with
    | true =>
      have noRow : base change.rowKey = none := by
        rw [← before]
        exact isNone_iff_eq_none.mp absent
      have after : state.publishBaseline change = { state with
            keys := state.keys.insert change.rowKey ()
            localRows := state.localRows.insert change.rowKey ⟨0, change.before, true⟩ } := by
        simp [publishBaseline, tracked, absent]
      rw [after]
      exact { unchanged with
          kept := fun row version found => lookup_insert_of_untracked tracked found
          heads := headRow_insert tracked before
          active := by
            intro id root found
            refine ⟨root, found, fun shown shows row => ?_⟩
            apply Shows.insert_head tracked shows (fun _ _ => rfl)
            right
            have former := shows change.rowKey
            simp only [Shows, tracked] at former
            exact ⟨former.1, rfl, noRow⟩ }
    | false =>
      have after : state.publishBaseline change = { state with
            keys := state.keys.insert change.rowKey ()
            localRows := state.localRows.insert change.rowKey ⟨0, change.before, false⟩
            activeSnapshots := mapValues state.activeSnapshots fun active =>
              { active with
                localRows := orInsert active.localRows change.rowKey
                  ⟨0, change.before, false⟩ } } := by
        simp [publishBaseline, tracked, absent]
      rw [after]
      exact { unchanged with
          kept := fun row version found => lookup_insert_of_untracked tracked found
          heads := headRow_insert tracked before
          active := by
            intro id root found
            simp only [lookup_mapValues, map_eq_some_iff] at found
            rcases found with ⟨former, found, rfl⟩
            refine ⟨former, found, fun shown shows row => ?_⟩
            apply Shows.insert_head tracked shows
            · intro other differs
              simp only [lookup_orInsert, if_neg differs]
            · left
              have formerly := shows change.rowKey
              simp only [Shows, tracked] at formerly
              simp [lookup_orInsert, formerly.1, before]
          stillActive := by
            intro id former found
            simp only [lookup_mapValues, found, map_some]
            exact ⟨_, rfl⟩ }

theorem rebased_publishBaselines
    (images : ∀ change ∈ changes, state.localRows.lookup change.rowKey = none →
      change.before = base change.rowKey) :
    Rebased base state (changes.foldl publishBaseline state) := by
  induction changes generalizing state with
  | nil => exact Rebased.refl state
  | cons change changes ih =>
    rcases forall_mem_cons.mp images with ⟨image, images⟩
    have first := rebased_publishBaseline image
    apply first.trans
    apply ih
    intro later member untracked
    exact images later member (first.untracked untracked)

theorem tracked_publishBaselines (state : State Value) (changes : List (RowChange Value))
    (row : RowKey Value) :
    ((changes.foldl publishBaseline state).localRows.lookup row).isSome =
      ((state.localRows.lookup row).isSome || decide (row ∈ changes.map rowKey)) := by
  induction changes generalizing state with
  | nil => simp
  | cons change changes ih =>
    rw [foldl_cons, ih]
    have single : ((state.publishBaseline change).localRows.lookup row).isSome =
        ((state.localRows.lookup row).isSome || decide (row = change.rowKey)) := by
      unfold publishBaseline
      split_ifs with tracked absent
      · by_cases same : row = change.rowKey
        · simp [same ▸ tracked]
        · simp [same]
      · simp only [lookup_insert_ite]
        by_cases same : row = change.rowKey <;> simp [same]
      · simp only [lookup_insert_ite]
        by_cases same : row = change.rowKey <;> simp [same]
    rw [single]
    simp [Bool.or_assoc]

theorem Shows.of_heads {after root : LocalRows Value}
    (same : (after.lookup row).map (·.baselineAbsent) = (heads.lookup row).map (·.baselineAbsent))
    (shows : Shows base heads root shown row) : Shows base after root shown row := by
  unfold Shows at shows ⊢
  cases former : heads.lookup row with
  | none =>
    rw [former, map_none, map_eq_none_iff] at same
    simpa only [same, former] using shows
  | some head =>
    rw [former, map_some, map_eq_some_iff] at same
    rcases same with ⟨newer, found, flag⟩
    simpa only [found, former, flag] using shows

section Publication

variable {state : State Value} {changes : List (RowChange Value)} {seq : ℕ}

theorem lookup_publishVersion (change : RowChange Value) (row : RowKey Value) :
    (state.publishVersion seq change).localRows.lookup row =
      if row = change.rowKey then
        (state.localRows.lookup change.rowKey).map fun version =>
          { version with seq, row := change.after }
      else state.localRows.lookup row :=
  lookup_modify _ _ _ _

variable {row : RowKey Value}

theorem lookup_publishVersions_of_notMem (untouched : row ∉ changes.map rowKey) :
    (changes.foldl (publishVersion seq) state).localRows.lookup row =
      state.localRows.lookup row := by
  induction changes generalizing state with
  | nil => rfl
  | cons change changes ih =>
    simp only [map_cons, mem_cons, not_or] at untouched
    rw [foldl_cons, ih untouched.2, lookup_publishVersion, if_neg untouched.1]

theorem baselineAbsent_publishVersions (state : State Value) (changes : List (RowChange Value))
    (seq : ℕ) (row : RowKey Value) :
    ((changes.foldl (publishVersion seq) state).localRows.lookup row).map (·.baselineAbsent) =
      (state.localRows.lookup row).map (·.baselineAbsent) := by
  induction changes generalizing state with
  | nil => rfl
  | cons change changes ih =>
    rw [foldl_cons, ih, lookup_publishVersion]
    split_ifs with same
    · rw [same, Option.map_map]
      rfl
    · rfl

theorem seq_publishVersions (touched : row ∈ changes.map rowKey)
    (tracked : (state.localRows.lookup row).isSome) :
    ∃ version, (changes.foldl (publishVersion seq) state).localRows.lookup row =
      some version ∧ version.seq = seq := by
  induction changes generalizing state with
  | nil => simp at touched
  | cons change changes ih =>
    have stillTracked : ((state.publishVersion seq change).localRows.lookup row).isSome := by
      rw [lookup_publishVersion]
      split_ifs with same
      · rw [isSome_map, ← same, tracked]
      · exact tracked
    rw [foldl_cons]
    by_cases later : row ∈ changes.map rowKey
    · exact ih later stillTracked
    · have last : row = change.rowKey := by simpa [later] using touched
      rw [lookup_publishVersions_of_notMem later, lookup_publishVersion, if_pos last, ← last]
      rcases isSome_iff_exists.mp tracked with ⟨version, found⟩
      exact ⟨_, by rw [found, map_some], rfl⟩

theorem headRow_publishVersions
    (tracked : ∀ change ∈ changes, (state.localRows.lookup change.rowKey).isSome) :
    headRow base (changes.foldl (publishVersion seq) state).localRows =
      applyChanges changes (headRow base state.localRows) := by
  induction changes generalizing state with
  | nil => rfl
  | cons change changes ih =>
    rcases forall_mem_cons.mp tracked with ⟨first, others⟩
    have single : headRow base (state.publishVersion seq change).localRows =
        Function.update (headRow base state.localRows) change.rowKey change.after := by
      funext row
      unfold headRow
      rw [lookup_publishVersion]
      rcases isSome_iff_exists.mp first with ⟨version, found⟩
      by_cases same : row = change.rowKey
      · subst same
        simp [found]
      · simp [same]
    rw [foldl_cons, ih]
    · rw [single]
      rfl
    · intro other member
      rw [lookup_publishVersion]
      split_ifs with same
      · simp [first]
      · exact others other member

theorem tableEpochs_publishVersions (relation : RelationId) :
    (changes.foldl (publishVersion seq) state).tableEpochs.lookup relation =
      if relation ∈ changes.map (fun change => (change.table, change.tableId)) then some seq
      else state.tableEpochs.lookup relation := by
  induction changes generalizing state with
  | nil => simp
  | cons change changes ih =>
    rw [foldl_cons, ih]
    simp only [map_cons, mem_cons]
    have single : (state.publishVersion seq change).tableEpochs.lookup relation =
        if relation = (change.table, change.tableId) then some seq
        else state.tableEpochs.lookup relation := lookup_insert_ite _ _ _ _
    rw [single]
    by_cases later : relation ∈ changes.map fun change => (change.table, change.tableId)
    · rw [if_pos later, if_pos (Or.inr later)]
    · by_cases here : relation = (change.table, change.tableId)
      · rw [if_neg later, if_pos here, if_pos (Or.inl here)]
      · rw [if_neg later, if_neg here, if_neg (by simp [here, later])]

end Publication

structure Validated (state : State Value) (snapshot : MvccSnapshot) (readTables : Finset String)
    (changes : List (RowChange Value)) (active : ActiveSnapshot Value) : Prop where
  found : state.activeSnapshots.lookup snapshot.id = some active
  rows : ∀ row ∈ active.reads, state.rowChanged snapshot row = false
  tables : ∀ table ∈ readTables, ∀ epoch,
    state.tableEpochs.lookup (table, active.boundId table) = some epoch → epoch ≤ snapshot.readTs
  apart : ∀ id other, state.reservations.lookup id = some other →
    reservationsConflict (State.requestOf active readTables changes) other = false

theorem validateSnapshot_ok {expired : Bool}
    (valid : state.validateSnapshot expired snapshot readTables = .ok active) :
    state.activeSnapshots.lookup snapshot.id = some active ∧
      (∀ row ∈ active.reads, state.rowChanged snapshot row = false) ∧
      ∀ table ∈ readTables, ∀ epoch,
        state.tableEpochs.lookup (table, active.boundId table) = some epoch →
          epoch ≤ snapshot.readTs := by
  unfold validateSnapshot at valid
  split_ifs at valid
  cases found : state.activeSnapshots.lookup snapshot.id with
  | none => simp [found] at valid
  | some root =>
    simp only [found] at valid
    split_ifs at valid with conflict
    cases valid
    simp only [not_or, not_exists, not_and] at conflict
    refine ⟨rfl, fun row member => by simpa using conflict.1 row member, ?_⟩
    intro table member epoch foundEpoch
    have later := conflict.2.1 table member
    simp only [foundEpoch, any_some, decide_eq_true_iff] at later
    omega

theorem reserve_ok {after : State Value} {expired : Bool} {id : ℕ} {request : Reservation Value}
    (reserved : state.reserve expired snapshot readTables changes id = .ok (request, after)) :
    ∃ active, Validated state snapshot readTables changes active ∧
      request = requestOf active readTables changes ∧
      after = { changes.foldl publishBaseline state with
        reservations :=
          (changes.foldl publishBaseline state).reservations.insert id request } := by
  unfold reserve at reserved
  cases valid : state.validateSnapshot expired snapshot readTables with
  | error error => simp [valid] at reserved
  | ok active =>
    simp only [valid] at reserved
    split_ifs at reserved with changed conflict
    simp only [Except.ok.injEq, Prod.mk.injEq] at reserved
    rcases reserved with ⟨rfl, rfl⟩
    rcases validateSnapshot_ok valid with ⟨found, rows, tables⟩
    refine ⟨active, ⟨found, rows, tables, ?_⟩, rfl, rfl⟩
    intro other reservation foundOther
    have none := any_eq_false.mp (Bool.eq_false_iff.mpr conflict) ⟨other, reservation⟩
      (AList.mem_lookup_iff.mp foundOther)
    simpa using none

/-- Reservations that do not conflict do not write what the other reads. -/
theorem apart_of_reservationsConflict {first second : Reservation Value}
    (compatible : reservationsConflict first second = false) :
    (∀ row ∈ first.writes, ¬ second.Reads row) ∧ ∀ row ∈ second.writes, ¬ first.Reads row := by
  simp only [reservationsConflict, Bool.or_eq_false_iff, decide_eq_false_iff_not, not_exists,
    not_and, not_or] at compatible
  refine ⟨fun row member reads => ?_, fun row member reads => ?_⟩
  · have clear := compatible.1 row member
    exact reads.elim clear.2.1 clear.2.2
  · have clear := compatible.2 row member
    exact reads.elim clear.1 clear.2

end Ferrosa.Postgres
