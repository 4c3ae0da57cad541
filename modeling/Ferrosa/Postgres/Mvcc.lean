import Ferrosa.Lib.FiniteMap
import Ferrosa.Lib.MachineOrder

/-!
# PostgreSQL snapshots and optimistic commits

The metadata of `MvccManager`: the newest version of every row that a local commit has
touched, the keys of these rows, the roots and read sets of the active snapshots, the
reservations of the commits that are being applied, and the epoch of every table.  A commit
reads its before-images from storage, validates and reserves in one atomic step, applies to
storage outside of it, and publishes in a second one.
Sequence numbers and ids are natural numbers.
-/

namespace Ferrosa.Postgres

abbrev TableId := Fin (2 ^ 128)

abbrev RelationId := String × TableId

section

variable (Value : Type)

abbrev Row := List Value

structure RowKey where
  table : String
  tableId : TableId
  key : List Value
deriving DecidableEq

structure RowChange where
  table : String
  tableId : TableId
  key : List Value
  before : Option (Row Value)
  after : Option (Row Value)
deriving DecidableEq

/-- A root without this key predates a first image that was absent, which `baselineAbsent` keeps
across later updates. -/
structure LocalVersion where
  seq : ℕ
  row : Option (Row Value)
  baselineAbsent : Bool
deriving DecidableEq

abbrev LocalRows [DecidableEq Value] := FiniteMap (RowKey Value) (LocalVersion Value)

inductive MvccCommitError where
  | snapshotExpired
  | serializationFailure
deriving DecidableEq, Repr

end

variable {Value : Type} [DecidableEq Value]

def RowKey.relation (row : RowKey Value) : RelationId := (row.table, row.tableId)

def RowChange.rowKey (change : RowChange Value) : RowKey Value :=
  ⟨change.table, change.tableId, change.key⟩

variable (Value) in
structure ActiveSnapshot where
  localRows : LocalRows Value
  reads : Finset (RowKey Value)
  relations : FiniteMap String TableId

/-- The incarnation of a table that the snapshot is bound to, the nil UUID without a binding. -/
def ActiveSnapshot.boundId (active : ActiveSnapshot Value) (table : String) : TableId :=
  (active.relations.lookup table).getD 0

variable (Value) in
structure Reservation where
  writes : Finset (RowKey Value)
  reads : Finset (RowKey Value)
  tables : Finset RelationId

def Reservation.Reads (reservation : Reservation Value) (row : RowKey Value) : Prop :=
  row ∈ reservation.reads ∨ row.relation ∈ reservation.tables

structure MvccSnapshot where
  id : ℕ
  readTs : ℕ
deriving DecidableEq, Repr

variable (Value) in
structure State where
  commitSeq : ℕ
  nextSnapshotId : ℕ
  activeSnapshots : FiniteMap ℕ (ActiveSnapshot Value)
  localRows : LocalRows Value
  reservations : FiniteMap ℕ (Reservation Value)
  tableEpochs : FiniteMap RelationId ℕ
  keys : FiniteMap (RowKey Value) Unit

namespace State

def new : State Value := ⟨0, 0, ∅, ∅, ∅, ∅, ∅⟩

variable (state : State Value)

def snapshotAt : MvccSnapshot × State Value :=
  let id := max (state.nextSnapshotId + 1) 1
  (⟨id, state.commitSeq⟩, { state with
      nextSnapshotId := id
      activeSnapshots := state.activeSnapshots.insert id ⟨state.localRows, ∅, ∅⟩ })

def recordPointRead (snapshot : MvccSnapshot) (row : RowKey Value) : State Value :=
  { state with
    activeSnapshots := FiniteMap.modify state.activeSnapshots snapshot.id fun active =>
      { active with reads := insert row active.reads } }

/-- Bind a table name for the rest of the transaction, and drop the versions of its earlier
incarnations. -/
def bindRelation (snapshot : MvccSnapshot) (table : String) (id : TableId) :
    Except MvccCommitError (State Value) :=
  match state.activeSnapshots.lookup snapshot.id with
  | none => .error .snapshotExpired
  | some active =>
    if active.relations.lookup table = some id then .ok state
    else if (active.relations.lookup table).any (· ≠ id) then .error .serializationFailure
    else
      .ok { state with
          activeSnapshots := state.activeSnapshots.insert snapshot.id
            { active with relations := active.relations.insert table id }
          localRows := FiniteMap.retain state.localRows fun row =>
            !(row.table = table && row.tableId ≠ id)
          tableEpochs := FiniteMap.retain state.tableEpochs fun relation =>
            !(relation.1 = table && relation.2 ≠ id)
          keys := FiniteMap.retain state.keys fun row =>
            !(row.table = table && row.tableId ≠ id) }

def removeSnapshots (ids : List ℕ) : State Value :=
  { state with activeSnapshots := FiniteMap.eraseAll state.activeSnapshots ids }

def rowChanged (snapshot : MvccSnapshot) (row : RowKey Value) : Bool :=
  (state.localRows.lookup row).any fun version => snapshot.readTs < version.seq

/-- `expired` is the deadline of the snapshot's lifetime. -/
def validateSnapshot (expired : Bool) (snapshot : MvccSnapshot) (tables : Finset String) :
    Except MvccCommitError (ActiveSnapshot Value) :=
  if expired then .error .snapshotExpired
  else
    match state.activeSnapshots.lookup snapshot.id with
    | none => .error .snapshotExpired
    | some active =>
      if (∃ row ∈ active.reads, state.rowChanged snapshot row) ∨
          (∃ table ∈ tables, (state.tableEpochs.lookup (table, active.boundId table)).any
            fun epoch => snapshot.readTs < epoch) ∨
          state.reservations.entries.any (fun other => decide (∃ row ∈ other.2.writes,
            row ∈ active.reads ∨ (row.table ∈ tables ∧ active.boundId row.table = row.tableId)))
      then .error .serializationFailure
      else .ok active

end State

def reservationsConflict (first second : Reservation Value) : Bool :=
  decide (∃ row ∈ first.writes,
    row ∈ second.writes ∨ row ∈ second.reads ∨ row.relation ∈ second.tables) ||
  decide (∃ row ∈ second.writes, row ∈ first.reads ∨ row.relation ∈ first.tables)

namespace State

def publishBaseline (state : State Value) (change : RowChange Value) : State Value :=
  if (state.localRows.lookup change.rowKey).isSome then state
  else
    let published : State Value :=
      { state with
        keys := state.keys.insert change.rowKey ()
        localRows := state.localRows.insert change.rowKey ⟨0, change.before, change.before.isNone⟩ }
    if change.before.isNone then published
    else
      { published with
        activeSnapshots := FiniteMap.mapValues published.activeSnapshots fun active =>
          { active with
            localRows := FiniteMap.orInsert active.localRows change.rowKey
              ⟨0, change.before, false⟩ } }

def requestOf (active : ActiveSnapshot Value) (readTables : Finset String)
    (changes : List (RowChange Value)) : Reservation Value :=
  { writes := (changes.map RowChange.rowKey).toFinset
    reads := active.reads
    tables := readTables.image fun table => (table, active.boundId table) }

def reserve (state : State Value) (expired : Bool) (snapshot : MvccSnapshot)
    (readTables : Finset String) (changes : List (RowChange Value)) (id : ℕ) :
    Except MvccCommitError (Reservation Value × State Value) :=
  match state.validateSnapshot expired snapshot readTables with
  | .error error => .error error
  | .ok active =>
    let request := requestOf active readTables changes
    if changes.any fun change => state.rowChanged snapshot change.rowKey then
      .error .serializationFailure
    else if state.reservations.entries.any fun other => reservationsConflict request other.2 then
      .error .serializationFailure
    else
      let published := changes.foldl publishBaseline state
      .ok (request, { published with reservations := published.reservations.insert id request })

/-- The version was published by the reservation step. -/
def publishVersion (seq : ℕ) (state : State Value) (change : RowChange Value) : State Value :=
  { state with
    localRows := FiniteMap.modify state.localRows change.rowKey fun version =>
      { version with seq, row := change.after }
    tableEpochs := state.tableEpochs.insert (change.table, change.tableId) seq }

def releaseReservation (state : State Value) (id : ℕ) : State Value :=
  { state with reservations := state.reservations.erase id }

def publish (state : State Value) (changes : List (RowChange Value)) (id : ℕ) : State Value :=
  if changes.isEmpty then state.releaseReservation id
  else
    let seq := state.commitSeq + 1
    (changes.foldl (publishVersion seq) { state with commitSeq := seq }).releaseReservation id

end State

variable (Value) in
structure Taken where
  snapshot : MvccSnapshot
  shown : RowKey Value → Option (Row Value)

variable (Value) in
structure Commit where
  shown : RowKey Value → Option (Row Value)
  reservation : Reservation Value
  changes : List (RowChange Value)

variable (Value) in
/-- The commits in flight come with whether storage has them, those that returned in the order of
their publication; `images` are the before-images that commits have read. -/
structure System where
  state : State Value
  nextReservation : ℕ
  stored : RowKey Value → Option (Row Value)
  taken : List (Taken Value)
  images : List (RowKey Value × Option (Row Value))
  inFlight : FiniteMap ℕ (Commit Value × Bool)
  published : List (Commit Value)

/-- What a snapshot shows of a row: its own version, the absence a head remembers, or else the
row in storage. -/
def visibleRow (state : State Value) (stored : RowKey Value → Option (Row Value))
    (active : ActiveSnapshot Value) (row : RowKey Value) : Option (Row Value) :=
  match active.localRows.lookup row with
  | some version => version.row
  | none =>
    if (state.localRows.lookup row).any (·.baselineAbsent) then none else stored row

def applyChanges (changes : List (RowChange Value)) (rows : RowKey Value → Option (Row Value)) :
    RowKey Value → Option (Row Value) :=
  changes.foldl (fun rows change => Function.update rows change.rowKey change.after) rows

namespace System

def new (stored : RowKey Value → Option (Row Value)) : System Value :=
  ⟨State.new, 1, stored, [], [], ∅, []⟩

/-- The atomic steps of any number of transactions; the catalogue gives table names their
incarnations. -/
inductive Step (catalogue : String → TableId) : System Value → System Value → Prop where
  | snapshot (system : System Value) :
      Step catalogue system { system with
          state := system.state.snapshotAt.2
          taken := ⟨system.state.snapshotAt.1,
            visibleRow system.state.snapshotAt.2 system.stored ⟨system.state.localRows, ∅, ∅⟩⟩
              :: system.taken }
  | recordPointRead (system : System Value) (snapshot : MvccSnapshot) (row : RowKey Value) :
      Step catalogue system { system with state := system.state.recordPointRead snapshot row }
  | bindRelation (system : System Value) (snapshot : MvccSnapshot) (table : String)
      (state : State Value)
      (bound : system.state.bindRelation snapshot table (catalogue table) = .ok state) :
      Step catalogue system { system with state }
  | removeSnapshots (system : System Value) (ids : List ℕ) :
      Step catalogue system { system with state := system.state.removeSnapshots ids }
  | readImage (system : System Value) (row : RowKey Value) :
      Step catalogue system { system with images := (row, system.stored row) :: system.images }
  | reserve (system : System Value) (taken : Taken Value) (expired : Bool)
      (readTables : Finset String) (changes : List (RowChange Value))
      (request : Reservation Value) (state : State Value) (handedOut : taken ∈ system.taken)
      (current : ∀ change ∈ changes, change.tableId = catalogue change.table)
      (beforeImages : ∀ change ∈ changes, change.before = taken.shown change.rowKey ∨
        (change.rowKey, change.before) ∈ system.images)
      (reserved : system.state.reserve expired taken.snapshot readTables changes
        system.nextReservation = .ok (request, state)) :
      Step catalogue system { system with
          state
          nextReservation := system.nextReservation + 1
          inFlight := system.inFlight.insert system.nextReservation
            (⟨taken.shown, request, changes⟩, false) }
  | apply (system : System Value) (id : ℕ) (commit : Commit Value)
      (pending : system.inFlight.lookup id = some (commit, false)) :
      Step catalogue system { system with
          stored := applyChanges commit.changes system.stored
          inFlight := system.inFlight.insert id (commit, true) }
  | abort (system : System Value) (id : ℕ) (commit : Commit Value)
      (stored : RowKey Value → Option (Row Value))
      (pending : system.inFlight.lookup id = some (commit, false))
      (partly : ∀ row, row ∉ commit.reservation.writes → stored row = system.stored row) :
      Step catalogue system { system with
          stored
          state := system.state.releaseReservation id
          inFlight := system.inFlight.erase id }
  | publish (system : System Value) (id : ℕ) (commit : Commit Value)
      (applied : system.inFlight.lookup id = some (commit, true)) :
      Step catalogue system { system with
          state := system.state.publish commit.changes id
          inFlight := system.inFlight.erase id
          published := system.published ++ [commit] }

end System

end Ferrosa.Postgres
