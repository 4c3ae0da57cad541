import Ferrosa.Postgres.Serializability

/-!
# Local snapshots are stable

A table view answers for the rows that its snapshot has in its own root, and for the rows
that a head knows to have been absent; for all others the reader falls back to storage.
What a reader gets this way does not change while the snapshot is active.  The keys of all
rows with a head are enumerated by `rows`, each row being resolved only when the iterator
reaches it; the rows in which the snapshot differs from storage are among them.
-/

namespace Ferrosa.Postgres

open Option FiniteMap

variable {Value : Type} [DecidableEq Value]

namespace State

variable (state : State Value) (schema : Option (String → TableId)) (snapshot : MvccSnapshot)

/-- The view's table is still the incarnation in the catalogue, if there is one, and its snapshot
is registered. -/
def ensureActive (relation : RelationId) : Except MvccCommitError (ActiveSnapshot Value) :=
  if schema.any fun catalogue => catalogue relation.1 ≠ relation.2 then
    .error .serializationFailure
  else
    match state.activeSnapshots.lookup snapshot.id with
    | none => .error .snapshotExpired
    | some active => .ok active

/-- `MvccTableView::row`: the version in the root, or the absence that the head remembers. -/
def viewRow (row : RowKey Value) : Except MvccCommitError (Option (Option (Row Value))) :=
  match state.ensureActive schema snapshot row.relation with
  | .error error => .error error
  | .ok active =>
    match active.localRows.lookup row with
    | some version => .ok (some version.row)
    | none =>
      if (state.localRows.lookup row).any (·.baselineAbsent) then .ok (some none)
      else .ok none

def keysOf (relation : RelationId) : List (RowKey Value) :=
  state.keys.keys.filter fun row => row.relation = relation

def resolve (row : RowKey Value) :
    Option (Except MvccCommitError (RowKey Value × Option (Row Value))) :=
  match state.viewRow schema snapshot row with
  | .ok (some image) => some (.ok (row, image))
  | .ok none => none
  | .error error => some (.error error)

/-- `MvccTableView::rows`.  The keys are those of the call, each row is resolved in the state at
the time it is reached. -/
def viewRows (relation : RelationId) (reached : RowKey Value → State Value) :
    Except MvccCommitError (List (Except MvccCommitError (RowKey Value × Option (Row Value)))) :=
  match state.ensureActive schema snapshot relation with
  | .error error => .error error
  | .ok _ =>
    .ok ((state.keysOf relation).filterMap fun row => (reached row).resolve schema snapshot row)

end State

namespace System

/-- The value of a row for a snapshot: the view's answer, or else the row in storage. -/
def valueFor (system : System Value) (schema : Option (String → TableId))
    (snapshot : MvccSnapshot) (row : RowKey Value) : Option (Row Value) :=
  match system.state.viewRow schema snapshot row with
  | .ok (some image) => image
  | _ => system.stored row

def IsActive (system : System Value) (snapshot : MvccSnapshot) : Prop :=
  (system.state.activeSnapshots.lookup snapshot.id).isSome

def takeSnapshot (system : System Value) : System Value :=
  { system with
    state := system.state.snapshotAt.2
    taken := ⟨system.state.snapshotAt.1,
      visibleRow system.state.snapshotAt.2 system.stored ⟨system.state.localRows, ∅, ∅⟩⟩
        :: system.taken }

end System

def Enumerated (state : State Value) : Prop :=
  ∀ row, (state.keys.lookup row).isSome = (state.localRows.lookup row).isSome

namespace Enumerated

variable {state : State Value}

theorem publishBaseline (enumerated : Enumerated state)
    (change : RowChange Value) : Enumerated (state.publishBaseline change) := by
  intro row
  unfold State.publishBaseline
  split_ifs with tracked absent
  · exact enumerated row
  · simp only [lookup_insert_ite]
    split_ifs
    · rfl
    · exact enumerated row
  · simp only [lookup_insert_ite]
    split_ifs
    · rfl
    · exact enumerated row

theorem bindRelation {after : State Value} (enumerated : Enumerated state)
    {snapshot : MvccSnapshot} {table : String} {id : TableId}
    (bound : state.bindRelation snapshot table id = .ok after) : Enumerated after := by
  unfold State.bindRelation at bound
  cases found : state.activeSnapshots.lookup snapshot.id with
  | none => simp [found] at bound
  | some active =>
    simp only [found] at bound
    split_ifs at bound
    · cases bound
      exact enumerated
    · cases bound
      intro row
      simp only [lookup_retain]
      split_ifs
      · exact enumerated row
      · rfl

theorem publish (enumerated : Enumerated state)
    (changes : List (RowChange Value)) (id : ℕ) : Enumerated (state.publish changes id) := by
  intro row
  rcases Invariant.publish_eq state changes id with ⟨_, _, _, _, _, _, keys⟩
  rw [Invariant.isSome_publish, keys]
  exact enumerated row

variable {catalogue : String → TableId}

theorem step {system after : System Value}
    (enumerated : Enumerated system.state) (taken : System.Step catalogue system after) :
    Enumerated after.state := by
  cases taken with
  | snapshot => exact enumerated
  | recordPointRead snapshot row => exact enumerated
  | bindRelation snapshot table state bound => exact enumerated.bindRelation bound
  | removeSnapshots ids => exact enumerated
  | readImage row => exact enumerated
  | reserve taken expired readTables changes request state handedOut current beforeImages reserved =>
    rcases reserve_ok reserved with ⟨active, _, _, rfl⟩
    exact List.foldlRecOn changes _ enumerated fun _ kept change _ => kept.publishBaseline change
  | apply id commit pending => exact enumerated
  | abort id commit stored pending partly => exact enumerated
  | publish id commit applied => exact enumerated.publish commit.changes id

theorem of_run {base : RowKey Value → Option (Row Value)} {system : System Value}
    (run : Relation.ReflTransGen (System.Step catalogue) (System.new base) system) :
    Enumerated system.state := by
  induction run with
  | refl => exact fun _ => rfl
  | tail _ taken ih => exact ih.step taken

end Enumerated

section Answers

variable {state : State Value} {schema : Option (String → TableId)} {snapshot : MvccSnapshot}
  {row : RowKey Value} {root : ActiveSnapshot Value} {system : System Value}

theorem System.valueFor_of_ensureActive
    (registered : system.state.ensureActive schema snapshot row.relation = .ok root) :
    system.valueFor schema snapshot row = visibleRow system.state system.stored root row := by
  unfold System.valueFor State.viewRow visibleRow
  simp only [registered]
  cases root.localRows.lookup row with
  | some version => rfl
  | none =>
    by_cases absent : (system.state.localRows.lookup row).any (·.baselineAbsent)
    · simp [absent]
    · simp [absent]

theorem State.ensureActive_eq (found : state.activeSnapshots.lookup snapshot.id = some root) :
    state.ensureActive schema snapshot row.relation =
      if schema.any (fun names => names row.table ≠ row.tableId) then .error .serializationFailure
      else .ok root := by
  unfold State.ensureActive
  simp only [found]
  rfl

theorem State.viewRow_eq_of_ne_stored
    (differs : system.valueFor schema snapshot row ≠ system.stored row) :
    system.state.viewRow schema snapshot row =
      .ok (some (system.valueFor schema snapshot row)) := by
  unfold System.valueFor at differs ⊢
  cases answer : system.state.viewRow schema snapshot row with
  | error error => simp [answer] at differs
  | ok image =>
    cases image with
    | none => simp [answer] at differs
    | some image => rfl

end Answers

namespace Invariant

variable {base : RowKey Value → Option (Row Value)} {catalogue : String → TableId}
  {system : System Value} {schema : Option (String → TableId)}

section

variable (invariant : Invariant catalogue base system)

include invariant

variable {taken : Taken Value} {row : RowKey Value} {after : System Value}

theorem valueFor_eq_shown (current : ∀ names ∈ schema, names = catalogue)
    (handedOut : taken ∈ system.taken) (active : system.IsActive taken.snapshot)
    (row : RowKey Value) : system.valueFor schema taken.snapshot row = taken.shown row := by
  rcases isSome_iff_exists.mp active with ⟨root, found⟩
  have visible := visibleRow_eq_shown (invariant.shows taken handedOut root found row)
    (invariant.stored row)
  have registered := @State.ensureActive_eq _ _ _ schema _ row _ found
  by_cases retired : schema.any (fun names => names row.table ≠ row.tableId)
  · -- No version belongs to an incarnation that the catalogue does not have.
    have untracked : system.state.localRows.lookup row = none := by
      rw [any_eq_true] at retired
      rcases retired with ⟨names, isSchema, other⟩
      rw [← not_isSome_iff_eq_none]
      intro tracked
      rw [current names isSchema, decide_eq_true_eq] at other
      exact other (invariant.heads row tracked).symm
    have shows_ := invariant.shows taken handedOut root found row
    simp only [Shows, untracked] at shows_
    rw [if_pos retired] at registered
    rw [shows_.2, ← invariant.stored row untracked]
    unfold System.valueFor State.viewRow
    simp only [registered]
  · rw [if_neg retired] at registered
    rw [System.valueFor_of_ensureActive registered, visible]

theorem viewRow_eq (handedOut : taken ∈ system.taken) {root : ActiveSnapshot Value}
    (found : system.state.activeSnapshots.lookup taken.snapshot.id = some root)
    (bound : ¬schema.any (fun names => names row.table ≠ row.tableId)) :
    system.state.viewRow schema taken.snapshot row =
      if (system.state.localRows.lookup row).isSome then
        .ok (some (system.valueFor schema taken.snapshot row))
      else .ok none := by
  have registered := @State.ensureActive_eq _ _ _ schema _ row _ found
  rw [if_neg bound] at registered
  have shows_ := invariant.shows taken handedOut root found row
  rw [System.valueFor_of_ensureActive registered]
  unfold State.viewRow visibleRow
  simp only [registered]
  unfold Shows at shows_
  cases head : system.state.localRows.lookup row with
  | none =>
    simp only [head] at shows_
    simp [shows_.1]
  | some head =>
    simp only [head] at shows_
    cases version : root.localRows.lookup row with
    | some version => simp
    | none =>
      simp only [version] at shows_
      simp [shows_.1]

theorem tracked_step (taken : System.Step catalogue system after)
    (tracked : (system.state.localRows.lookup row).isSome) :
    (after.state.localRows.lookup row).isSome := by
  cases taken with
  | snapshot => exact tracked
  | recordPointRead snapshot row => exact tracked
  | bindRelation snapshot table state bound =>
    rw [(invariant.bindRelation bound).2]
    exact tracked
  | removeSnapshots ids => exact tracked
  | readImage row => exact tracked
  | reserve taken expired readTables changes request state handedOut current beforeImages reserved =>
    rcases reserve_ok reserved with ⟨active, _, _, rfl⟩
    simp only [tracked_publishBaselines, tracked, Bool.true_or]
  | apply id commit pending => exact tracked
  | abort id commit stored pending partly => exact tracked
  | publish id commit applied =>
    rw [isSome_publish]
    exact tracked

theorem persists (run : Relation.ReflTransGen (System.Step catalogue) system after) :
    Invariant catalogue base after ∧ (∀ taken ∈ system.taken, taken ∈ after.taken) ∧
      ∀ row, (system.state.localRows.lookup row).isSome →
        (after.state.localRows.lookup row).isSome := by
  induction run with
  | refl => exact ⟨invariant, fun _ member => member, fun _ tracked => tracked⟩
  | tail _ taken ih =>
    rcases ih with ⟨former, handedOut, tracked⟩
    refine ⟨former.step taken, ?_, fun row present => former.tracked_step taken (tracked row present)⟩
    intro other member
    have before := handedOut other member
    cases taken with
    | snapshot => exact List.mem_cons_of_mem _ before
    | _ => exact before

end

end Invariant

end Ferrosa.Postgres
