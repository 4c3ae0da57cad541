import Ferrosa.Postgres.SnapshotViews

/-!
# Local commits are serializable

Running the commits that returned one after another, in the order of their publication
steps, every commit reads what its snapshot showed, and the newest versions are what that
run leaves.  The invariant relates every snapshot to the newest versions: what it shows
never changes, and a row that differs from it carries a sequence number and a table epoch
behind the snapshot.  The scopes of the commits in flight keep each other's reads in place
between reservation and publication.
-/

namespace Ferrosa.Postgres

open FiniteMap State List RowChange Option

variable {Value : Type} [DecidableEq Value] {base : RowKey Value → Option (Row Value)}

/-- Both conflict tests see that a row was committed after a snapshot. -/
def Newer (state : State Value) (readTs : ℕ) (row : RowKey Value) : Prop :=
  (∃ version, state.localRows.lookup row = some version ∧ readTs < version.seq) ∧
    ∃ epoch, state.tableEpochs.lookup row.relation = some epoch ∧ readTs < epoch

structure Invariant (catalogue : String → TableId) (base : RowKey Value → Option (Row Value))
    (system : System Value) : Prop where
  ids : ∀ taken ∈ system.taken, taken.snapshot.id ≤ system.state.nextSnapshotId
  readTs : ∀ taken ∈ system.taken, taken.snapshot.readTs ≤ system.state.commitSeq
  shows : ∀ taken ∈ system.taken, ∀ active,
    system.state.activeSnapshots.lookup taken.snapshot.id = some active →
    ∀ row, Shows base system.state.localRows active.localRows taken.shown row
  newer : ∀ taken ∈ system.taken, ∀ row, headRow base system.state.localRows row ≠ taken.shown row →
    Newer system.state taken.snapshot.readTs row
  stored : ∀ row, system.state.localRows.lookup row = none → system.stored row = base row
  images : ∀ image ∈ system.images,
    system.state.localRows.lookup image.1 = none → image.2 = base image.1
  heads : ∀ row, (system.state.localRows.lookup row).isSome → row.tableId = catalogue row.table
  epochs : ∀ relation, (system.state.tableEpochs.lookup relation).isSome →
    relation.2 = catalogue relation.1
  reserved : ∀ id, system.state.reservations.lookup id =
    (system.inFlight.lookup id).map (·.1.reservation)
  reservationIds : ∀ id, (system.inFlight.lookup id).isSome → id < system.nextReservation
  writes : ∀ id flight, system.inFlight.lookup id = some flight →
    flight.1.reservation.writes = (flight.1.changes.map RowChange.rowKey).toFinset
  tracked : ∀ id flight, system.inFlight.lookup id = some flight →
    ∀ change ∈ flight.1.changes, (system.state.localRows.lookup change.rowKey).isSome ∧
      change.tableId = catalogue change.table
  reads : ∀ id flight, system.inFlight.lookup id = some flight →
    ∀ row, flight.1.reservation.Reads row →
      headRow base system.state.localRows row = flight.1.shown row
  apart : ∀ id other flight rival, id ≠ other → system.inFlight.lookup id = some flight →
    system.inFlight.lookup other = some rival →
    ∀ row ∈ flight.1.reservation.writes, ¬ rival.1.reservation.Reads row
  serial : headRow base system.state.localRows = runSerially base system.published
  order : SerialOrder base system.published

namespace Invariant

variable {catalogue : String → TableId} {system : System Value}

theorem new (catalogue : String → TableId) (base : RowKey Value → Option (Row Value)) :
    Invariant catalogue base (System.new base) where
  ids := by simp [System.new]
  readTs := by simp [System.new]
  shows := by simp [System.new]
  newer := by simp [System.new]
  stored := fun _ _ => rfl
  images := by simp [System.new]
  heads := by simp [System.new, State.new]
  epochs := by simp [System.new, State.new]
  reserved := by simp [System.new, State.new]
  reservationIds := by simp [System.new]
  writes := by simp [System.new]
  tracked := by simp [System.new]
  reads := by simp [System.new]
  apart := by simp [System.new]
  serial := by
    funext row
    simp [headRow, System.new, State.new, runSerially]
  order := by simp [SerialOrder, System.new]

variable {state : State Value} {id : ℕ} {commit : Commit Value}

section

variable (invariant : Invariant catalogue base system)

include invariant

theorem of_roots {activeSnapshots : FiniteMap ℕ (ActiveSnapshot Value)}
    {keys : FiniteMap (RowKey Value) Unit}
    (roots : ∀ id active, activeSnapshots.lookup id = some active →
      ∃ former, system.state.activeSnapshots.lookup id = some former ∧
        active.localRows = former.localRows) :
    Invariant catalogue base { system with
        state := { system.state with activeSnapshots, keys } } :=
  { invariant with
    shows := by
      intro taken member active found row
      rcases roots _ active found with ⟨former, foundFormer, same⟩
      rw [same]
      exact invariant.shows taken member former foundFormer row }

theorem recordPointRead (snapshot : MvccSnapshot) (row : RowKey Value) :
    Invariant catalogue base { system with state := system.state.recordPointRead snapshot row } := by
  refine invariant.of_roots fun id active found => ?_
  rw [lookup_modify] at found
  split_ifs at found with same
  · rcases map_eq_some_iff.mp found with ⟨former, foundFormer, rfl⟩
    exact ⟨former, same ▸ foundFormer, rfl⟩
  · exact ⟨active, found, rfl⟩

theorem removeSnapshots (ids : List ℕ) :
    Invariant catalogue base { system with state := system.state.removeSnapshots ids } := by
  refine invariant.of_roots fun id active found => ?_
  rw [lookup_eraseAll] at found
  split_ifs at found
  exact ⟨active, found, rfl⟩

theorem bindRelation {snapshot : MvccSnapshot} {table : String}
    (bound : system.state.bindRelation snapshot table (catalogue table) = .ok state) :
    Invariant catalogue base { system with state } ∧ state.localRows = system.state.localRows := by
  have current : ∀ name id, id = catalogue name →
      (!(name = table && id ≠ catalogue table)) = true := by
    rintro name _ rfl
    by_cases same : name = table <;> simp [same]
  have rows : retain system.state.localRows (fun row =>
      !(row.table = table && row.tableId ≠ catalogue table)) = system.state.localRows :=
    retain_eq_self fun row present => current _ _ (invariant.heads row present)
  have epochs : retain system.state.tableEpochs (fun relation =>
      !(relation.1 = table && relation.2 ≠ catalogue table)) = system.state.tableEpochs :=
    retain_eq_self fun relation present =>
      current _ _ (invariant.epochs relation present)
  unfold State.bindRelation at bound
  cases found : system.state.activeSnapshots.lookup snapshot.id with
  | none => simp [found] at bound
  | some active =>
    simp only [found] at bound
    split_ifs at bound
    · cases bound
      exact ⟨invariant, rfl⟩
    · cases bound
      rw [rows, epochs]
      refine ⟨invariant.of_roots fun id other foundOther => ?_, rfl⟩
      rw [lookup_insert_ite] at foundOther
      split_ifs at foundOther with same
      · cases foundOther
        exact ⟨active, same ▸ found, rfl⟩
      · exact ⟨other, foundOther, rfl⟩

theorem visibleRow_heads (same : state.localRows = system.state.localRows) :
    visibleRow state system.stored ⟨system.state.localRows, ∅, ∅⟩ =
      headRow base system.state.localRows := by
  funext row
  unfold visibleRow headRow
  cases head : system.state.localRows.lookup row with
  | none => simp [same, head, invariant.stored row head]
  | some head => rfl

theorem snapshot : Invariant catalogue base { system with
        state := system.state.snapshotAt.2
        taken := ⟨system.state.snapshotAt.1,
          visibleRow system.state.snapshotAt.2 system.stored ⟨system.state.localRows, ∅, ∅⟩⟩
            :: system.taken } :=
  { invariant with
    ids := by
      intro taken member
      rcases mem_cons.mp member with rfl | former
      · exact Nat.le_refl _
      · have below := invariant.ids taken former
        simp only [snapshotAt]
        omega
    readTs := by
      intro taken member
      rcases mem_cons.mp member with rfl | former
      · exact Nat.le_refl _
      · exact invariant.readTs taken former
    shows := by
      intro taken member active found row
      simp only [snapshotAt, lookup_insert_ite] at found
      rcases mem_cons.mp member with rfl | former
      · simp only [snapshotAt, if_true, Option.some.injEq] at found
        subst found
        have shown : visibleRow system.state.snapshotAt.2 system.stored
            ⟨system.state.localRows, ∅, ∅⟩ = headRow base system.state.localRows :=
          invariant.visibleRow_heads rfl
        rw [shown]
        unfold Shows headRow
        cases head : system.state.localRows.lookup row <;> simp [snapshotAt, head]
      · have below := invariant.ids taken former
        rw [if_neg (by omega)] at found
        exact invariant.shows taken former active found row
    newer := by
      intro taken member row differs
      rcases mem_cons.mp member with rfl | former
      · exact absurd (congrFun (invariant.visibleRow_heads rfl).symm row) differs
      · exact invariant.newer taken former row differs }

theorem readImage (row : RowKey Value) : Invariant catalogue base
      { system with images := (row, system.stored row) :: system.images } :=
  { invariant with
    images := by
      intro image member untracked
      rcases mem_cons.mp member with rfl | former
      · exact invariant.stored row untracked
      · exact invariant.images image former untracked }

variable {row : RowKey Value} {readTables : Finset String} {changes : List (RowChange Value)}
  {taken : Taken Value}

theorem notMem_of_untracked {flight : Commit Value × Bool}
    (pending : system.inFlight.lookup id = some flight)
    (untracked : system.state.localRows.lookup row = none) :
    row ∉ flight.1.changes.map rowKey := by
  intro member
  rcases mem_map.mp member with ⟨change, inChanges, rfl⟩
  have tracked := (invariant.tracked id flight pending change inChanges).1
  simp [untracked] at tracked

theorem of_flights {inFlight : FiniteMap ℕ (Commit Value × Bool)}
    {reservations : FiniteMap ℕ (Reservation Value)}
    (reserved : ∀ id, reservations.lookup id = (inFlight.lookup id).map (·.1.reservation))
    (formerly : ∀ id flight, inFlight.lookup id = some flight →
      ∃ former, system.inFlight.lookup id = some former ∧ former.1 = flight.1) :
    Invariant catalogue base
      { system with state := { system.state with reservations }, inFlight } :=
  { invariant with
    reserved
    reservationIds := by
      intro id present
      apply invariant.reservationIds
      rcases isSome_iff_exists.mp present with ⟨flight, found⟩
      rcases formerly id flight found with ⟨former, foundFormer, _⟩
      simp [foundFormer]
    writes := by
      intro id flight found
      rcases formerly id flight found with ⟨former, foundFormer, same⟩
      exact same ▸ invariant.writes id former foundFormer
    tracked := by
      intro id flight found
      rcases formerly id flight found with ⟨former, foundFormer, same⟩
      exact same ▸ invariant.tracked id former foundFormer
    reads := by
      intro id flight found
      rcases formerly id flight found with ⟨former, foundFormer, same⟩
      exact same ▸ invariant.reads id former foundFormer
    apart := by
      intro first second flight rival distinct found foundRival
      rcases formerly first flight found with ⟨former, foundFormer, same⟩
      rcases formerly second rival foundRival with ⟨formerRival, foundFormerRival, sameRival⟩
      exact same ▸ sameRival ▸
        invariant.apart first second former formerRival distinct foundFormer foundFormerRival }

theorem erase (id : ℕ) : Invariant catalogue base { system with
        state := system.state.releaseReservation id
        inFlight := system.inFlight.erase id } := by
  apply invariant.of_flights
  · intro other
    simp only [lookup_erase_ite, invariant.reserved]
    split_ifs <;> rfl
  · intro other flight found
    rw [lookup_erase_ite] at found
    split_ifs at found
    exact ⟨flight, found, rfl⟩

theorem apply (pending : system.inFlight.lookup id = some (commit, false)) :
    Invariant catalogue base { system with
        stored := applyChanges commit.changes system.stored
        inFlight := system.inFlight.insert id (commit, true) } := by
  have kept := @of_flights _ _ _ _ _ invariant (system.inFlight.insert id (commit, true))
    system.state.reservations ?_ ?_
  · exact { kept with
        stored := by
          intro row untracked
          have untouched := invariant.notMem_of_untracked pending untracked
          exact (applyChanges_of_notMem untouched).trans (invariant.stored row untracked) }
  · intro other
    rw [lookup_insert_ite, invariant.reserved]
    split_ifs with same
    · rw [same, pending]
      rfl
    · rfl
  · intro other flight found
    rw [lookup_insert_ite] at found
    split_ifs at found with same
    · cases found
      exact ⟨(commit, false), same ▸ pending, rfl⟩
    · exact ⟨flight, found, rfl⟩

theorem abort {stored : RowKey Value → Option (Row Value)}
    (pending : system.inFlight.lookup id = some (commit, false))
    (partly : ∀ row, row ∉ commit.reservation.writes → stored row = system.stored row) :
    Invariant catalogue base { system with
        stored
        state := system.state.releaseReservation id
        inFlight := system.inFlight.erase id } :=
  { invariant.erase id with
    stored := by
      intro row untracked
      have untouched : row ∉ commit.reservation.writes := by
        rw [invariant.writes id _ pending, List.mem_toFinset]
        exact invariant.notMem_of_untracked pending untracked
      exact (partly row untouched).trans (invariant.stored row untracked) }

theorem headRow_eq_shown {active : ActiveSnapshot Value} (handedOut : taken ∈ system.taken)
    (valid : Validated system.state taken.snapshot readTables changes active)
    (read : (State.requestOf active readTables changes).Reads row) :
    headRow base system.state.localRows row = taken.shown row := by
  by_contra differs
  rcases invariant.newer taken handedOut row differs with
    ⟨⟨version, found, later⟩, epoch, foundEpoch, laterEpoch⟩
  rcases read with byKey | byTable
  · have unchanged := valid.rows row byKey
    simp only [rowChanged, found, any_some, decide_eq_false_iff_not] at unchanged
    exact unchanged later
  · rcases Finset.mem_image.mp byTable with ⟨table, member, same⟩
    have bounded := valid.tables table member epoch (by rw [same]; exact foundEpoch)
    omega

theorem reserve {expired : Bool} {request : Reservation Value} (handedOut : taken ∈ system.taken)
    (current : ∀ change ∈ changes, change.tableId = catalogue change.table)
    (beforeImages : ∀ change ∈ changes, change.before = taken.shown change.rowKey ∨
      (change.rowKey, change.before) ∈ system.images)
    (reserved : system.state.reserve expired taken.snapshot readTables changes
      system.nextReservation = .ok (request, state)) :
    Invariant catalogue base { system with
        state
        nextReservation := system.nextReservation + 1
        inFlight := system.inFlight.insert system.nextReservation
          (⟨taken.shown, request, changes⟩, false) } := by
  rcases reserve_ok reserved with ⟨active, valid, rfl, rfl⟩
  have rebased : Rebased base system.state (changes.foldl publishBaseline system.state) := by
    apply rebased_publishBaselines
    intro change member untracked
    rcases beforeImages change member with image | image
    · have formerly := invariant.shows taken handedOut active valid.found change.rowKey
      simp only [Shows, untracked] at formerly
      exact image.trans formerly.2
    · exact invariant.images _ image untracked
  have keysTracked : ∀ change ∈ changes, ((changes.foldl publishBaseline
      system.state).localRows.lookup change.rowKey).isSome := by
    intro change member
    simp only [tracked_publishBaselines, Bool.or_eq_true, decide_eq_true_iff]
    exact Or.inr (mem_map_of_mem member)
  exact
    { ids := by simpa only [rebased.nextSnapshotId] using invariant.ids
      readTs := by simpa only [rebased.commitSeq] using invariant.readTs
      shows := by
        intro taken member root found
        rcases rebased.active _ root found with ⟨former, foundFormer, still⟩
        exact still taken.shown (invariant.shows taken member former foundFormer)
      newer := by
        intro taken member row differs
        rw [rebased.heads] at differs
        rcases invariant.newer taken member row differs with ⟨⟨version, found, later⟩, epochs⟩
        refine ⟨⟨version, rebased.kept row version found, later⟩, ?_⟩
        rw [rebased.tableEpochs]
        exact epochs
      stored := by
        intro row untracked
        exact invariant.stored row (rebased.untracked untracked)
      images := by
        intro image member untracked
        exact invariant.images image member (rebased.untracked untracked)
      heads := by
        intro row present
        simp only [tracked_publishBaselines, Bool.or_eq_true, decide_eq_true_iff] at present
        rcases present with former | written
        · exact invariant.heads row former
        · rcases mem_map.mp written with ⟨change, member, rfl⟩
          exact current change member
      epochs := by simpa only [rebased.tableEpochs] using invariant.epochs
      reserved := by
        intro id
        simp only [lookup_insert_ite, rebased.reservations, invariant.reserved]
        split_ifs <;> rfl
      reservationIds := by
        intro id present
        simp only [lookup_insert_ite] at present
        split_ifs at present with same
        · exact Nat.lt_succ_of_le (Nat.le_of_eq same)
        · exact Nat.lt_succ_of_lt (invariant.reservationIds id present)
      writes := by
        intro id flight found
        simp only [lookup_insert_ite] at found
        split_ifs at found
        · cases found
          rfl
        · exact invariant.writes id flight found
      tracked := by
        intro id flight found change member
        simp only [lookup_insert_ite] at found
        split_ifs at found
        · cases found
          exact ⟨keysTracked change member, current change member⟩
        · rcases invariant.tracked id flight found change member with ⟨present, bound⟩
          rcases isSome_iff_exists.mp present with ⟨version, foundVersion⟩
          exact ⟨by simp [rebased.kept _ version foundVersion], bound⟩
      reads := by
        intro id flight found row read
        rw [rebased.heads]
        simp only [lookup_insert_ite] at found
        split_ifs at found
        · cases found
          exact invariant.headRow_eq_shown handedOut valid read
        · exact invariant.reads id flight found row read
      apart := by
        intro first second flight rival distinct found foundRival row written read
        simp only [lookup_insert_ite] at found foundRival
        split_ifs at found foundRival with isFirst isSecond isSecond
        · exact distinct (isFirst.trans isSecond.symm)
        · cases found
          have compatible := valid.apart second rival.1.reservation
            (by rw [invariant.reserved, foundRival]; rfl)
          exact (apart_of_reservationsConflict compatible).1 row written read
        · cases foundRival
          have compatible := valid.apart first flight.1.reservation
            (by rw [invariant.reserved, found]; rfl)
          exact (apart_of_reservationsConflict compatible).2 row written read
        · exact invariant.apart first second flight rival distinct found foundRival row written read
      serial := by
        rw [← invariant.serial]
        exact funext rebased.heads
      order := invariant.order }

end

theorem publish_eq (state : State Value) (changes : List (RowChange Value)) (id : ℕ) :
    (state.publish changes id).localRows = (changes.foldl
        (State.publishVersion (state.commitSeq + 1)) state).localRows ∧
      (state.publish changes id).tableEpochs = (changes.foldl
        (State.publishVersion (state.commitSeq + 1)) state).tableEpochs ∧
      (state.publish changes id).activeSnapshots = state.activeSnapshots ∧
      (state.publish changes id).nextSnapshotId = state.nextSnapshotId ∧
      (state.publish changes id).reservations = state.reservations.erase id ∧
      state.commitSeq ≤ (state.publish changes id).commitSeq ∧
      (state.publish changes id).keys = state.keys := by
  have changed : ∀ seq, ∃ localRows tableEpochs, ∀ commitSeq,
      changes.foldl (publishVersion seq) { state with commitSeq } =
        { state with commitSeq, localRows, tableEpochs } := by
    intro seq
    induction changes generalizing state with
    | nil => exact ⟨_, _, fun _ => rfl⟩
    | cons change changes ih => exact ih (state.publishVersion seq change)
  rcases changed (state.commitSeq + 1) with ⟨localRows, tableEpochs, counted⟩
  unfold State.publish
  split_ifs with empty
  · rw [isEmpty_iff.mp empty]
    exact ⟨rfl, rfl, rfl, rfl, rfl, Nat.le_refl _, rfl⟩
  · simp [counted, releaseReservation]

theorem isSome_publish (state : State Value) (changes : List (RowChange Value)) (id : ℕ)
    (row : RowKey Value) : ((state.publish changes id).localRows.lookup row).isSome =
      (state.localRows.lookup row).isSome := by
  have same := congrArg Option.isSome
    (baselineAbsent_publishVersions state changes (state.commitSeq + 1) row)
  simpa only [(publish_eq state changes id).1, isSome_map] using same

theorem publish (invariant : Invariant catalogue base system)
    (applied : system.inFlight.lookup id = some (commit, true)) :
    Invariant catalogue base { system with
        state := system.state.publish commit.changes id
        inFlight := system.inFlight.erase id
        published := system.published ++ [commit] } := by
  rcases publish_eq system.state commit.changes id with
    ⟨localRows, tableEpochs, activeSnapshots, nextSnapshotId, reservations, commitSeq, _⟩
  have released := invariant.erase id
  have tracked := fun change member =>
    (invariant.tracked id _ applied change member).1
  have heads : headRow base (system.state.publish commit.changes id).localRows =
      applyChanges commit.changes (headRow base system.state.localRows) := by
    rw [localRows]
    exact headRow_publishVersions tracked
  have present := isSome_publish system.state commit.changes id
  have formerly : ∀ row, (system.state.publish commit.changes id).localRows.lookup row = none →
      system.state.localRows.lookup row = none := by
    intro row untracked
    have same := present row
    simp only [untracked] at same
    simpa using same.symm
  have readNext : ∀ row, commit.reservation.Reads row →
      runSerially base system.published row = commit.shown row := by
    intro row read
    rw [← invariant.serial]
    exact invariant.reads id _ applied row read
  exact
    { released with
      ids := by simpa only [nextSnapshotId] using invariant.ids
      readTs := fun taken member => (invariant.readTs taken member).trans commitSeq
      shows := by
        intro taken member active found row
        rw [activeSnapshots] at found
        apply Shows.of_heads _ (invariant.shows taken member active found row)
        rw [localRows]
        exact baselineAbsent_publishVersions _ _ _ row
      newer := by
        intro taken member row differs
        have behind := invariant.readTs taken member
        rw [Newer, localRows, tableEpochs, tableEpochs_publishVersions]
        by_cases written : row ∈ commit.changes.map rowKey
        · rcases mem_map.mp written with ⟨change, inChanges, same⟩
          rcases seq_publishVersions written (same ▸ tracked change inChanges) with
            ⟨version, found, seq⟩
          have relation : row.relation ∈
              commit.changes.map fun change => (change.table, change.tableId) :=
            mem_map.mpr ⟨change, inChanges, by rw [← same]; rfl⟩
          refine ⟨⟨version, found, by omega⟩, ⟨system.state.commitSeq + 1, ?_, by omega⟩⟩
          rw [if_pos relation]
        · rw [heads, applyChanges_of_notMem written] at differs
          rcases invariant.newer taken member row differs with
            ⟨⟨version, found, later⟩, epoch, foundEpoch, laterEpoch⟩
          refine ⟨⟨version, ?_, later⟩, ?_⟩
          · rw [lookup_publishVersions_of_notMem written, found]
          · split_ifs
            · exact ⟨system.state.commitSeq + 1, rfl, by omega⟩
            · exact ⟨epoch, foundEpoch, laterEpoch⟩
      stored := fun row untracked => invariant.stored row (formerly row untracked)
      images := fun image member untracked =>
        invariant.images image member (formerly image.1 untracked)
      heads := by simpa only [present] using invariant.heads
      epochs := by
        intro relation there
        rw [tableEpochs, tableEpochs_publishVersions] at there
        split_ifs at there with written
        · rcases mem_map.mp written with ⟨change, member, rfl⟩
          exact (invariant.tracked id _ applied change member).2
        · exact invariant.epochs relation there
      reserved := by simpa only [reservations, releaseReservation] using released.reserved
      tracked := by simpa only [present, releaseReservation] using released.tracked
      reads := by
        intro other flight found row read
        have unchanged := released.reads other flight found row read
        rw [lookup_erase_ite] at found
        split_ifs at found with distinct
        have untouched : row ∉ commit.changes.map rowKey := by
          intro written
          apply invariant.apart id other _ flight (Ne.symm distinct) applied found row _ read
          rw [invariant.writes id _ applied, List.mem_toFinset]
          exact written
        rw [heads, applyChanges_of_notMem untouched]
        exact unchanged
      serial := by
        rw [heads, invariant.serial]
        simp [runSerially]
      order := invariant.order.append readNext }

variable {after : System Value}

theorem step (invariant : Invariant catalogue base system)
    (taken : System.Step catalogue system after) : Invariant catalogue base after := by
  cases taken with
  | snapshot => exact invariant.snapshot
  | recordPointRead snapshot row => exact invariant.recordPointRead snapshot row
  | bindRelation snapshot table state bound => exact (invariant.bindRelation bound).1
  | removeSnapshots ids => exact invariant.removeSnapshots ids
  | readImage row => exact invariant.readImage row
  | reserve taken expired readTables changes request state handedOut current beforeImages reserved =>
    exact invariant.reserve handedOut current beforeImages reserved
  | apply id commit pending => exact invariant.apply pending
  | abort id commit stored pending partly => exact invariant.abort pending partly
  | publish id commit applied => exact invariant.publish applied

theorem of_run (base : RowKey Value → Option (Row Value))
    (run : Relation.ReflTransGen (System.Step catalogue) (System.new base) after) :
    Invariant catalogue base after := by
  induction run with
  | refl => exact Invariant.new catalogue base
  | tail _ taken ih => exact ih.step taken

end Invariant

/-- Between the reservation of a commit and its publication, what it read stays as it was read,
and no other commit in flight writes any of it. -/
theorem in_flight_isolated (catalogue : String → TableId)
    (base : RowKey Value → Option (Row Value)) {system : System Value}
    (run : Relation.ReflTransGen (System.Step catalogue) (System.new base) system) :
    ∀ id flight, system.inFlight.lookup id = some flight →
      ∀ row, flight.1.reservation.Reads row →
        headRow base system.state.localRows row = flight.1.shown row ∧
        ∀ other rival, other ≠ id → system.inFlight.lookup other = some rival →
          row ∉ rival.1.reservation.writes := by
  have invariant := Invariant.of_run base run
  intro id flight found row reads
  refine ⟨invariant.reads id flight found row reads, ?_⟩
  intro other rival different foundRival written
  exact invariant.apart other id rival flight different foundRival found row written reads

theorem in_flight_isolated_insert : ∃ (system : System ℕ) (commit : Commit ℕ),
    system.inFlight.lookup 1 = some (commit, false) ∧
      headRow (fun _ => none) system.state.localRows ⟨"ks.t", 7, [1]⟩ =
        commit.shown ⟨"ks.t", 7, [1]⟩ := by
  let row : RowKey ℕ := ⟨"ks.t", 7, [1]⟩
  let change : RowChange ℕ := ⟨"ks.t", 7, [1], none, some [1, 2]⟩
  have run : Relation.ReflTransGen (System.Step fun _ => 7) (System.new fun _ => none) _ :=
    ((((Relation.ReflTransGen.refl.tail (System.Step.snapshot _)).tail
      (System.Step.readImage _ row)).tail (System.Step.recordPointRead _ ⟨1, 0⟩ row)).tail
      (System.Step.reserve _ _ false ∅ [change] _ _ mem_cons_self (by simp [change])
        (by simp [change, row, rowKey, System.new]) rfl))
  exact ⟨_, _, rfl, (in_flight_isolated _ _ run 1 _ rfl row (Or.inl (by decide))).1⟩

end Ferrosa.Postgres
