import Ferrosa.Lib.SortedMap

/-!
# The Raft log store

Two trees of an embedded database: the log, keyed by index, and the metadata with the vote, the
committed id and the purge point.  Every operation of the store is the sequence of writes that
it issues.  A batch is one write.
-/

namespace Ferrosa.Raft

open SortedMap Option
open List hiding map_map

structure LogId where
  term : UInt64
  nodeId : UInt64
  index : ℕ
deriving DecidableEq, Repr

structure Entry (D : Type) where
  logId : LogId
  payload : D
deriving DecidableEq, Repr

structure Vote where
  term : UInt64
  nodeId : UInt64
  committed : Bool
deriving DecidableEq, Repr

variable {D : Type}

structure LogTree (D : Type) where
  stored : SortedMap ℕ (Entry D)
  keyed : ∀ index entry, stored.get? index = some entry → entry.logId.index = index

inductive Change (D : Type) where
  | insert (entry : Entry D)
  | remove (index : ℕ)
deriving DecidableEq

namespace LogTree

def empty : LogTree D := ⟨.empty, by simp [SortedMap.empty, SortedMap.get?]⟩

variable (log : LogTree D)

def get? (index : ℕ) : Option (Entry D) := log.stored.get? index

def keys : List ℕ := log.stored.keys

def insert (entry : Entry D) : LogTree D where
  stored := log.stored.insert entry.logId.index entry
  keyed := by
    intro index other found
    rw [SortedMap.get?_insert] at found
    split_ifs at found with same
    · rw [← Option.some.inj found, same]
    · exact log.keyed index other found

def remove (removed : ℕ) : LogTree D where
  stored := log.stored.erase removed
  keyed := by
    intro index entry found
    rw [SortedMap.get?_erase] at found
    split_ifs at found
    exact log.keyed index entry found

def change : Change D → LogTree D
  | .insert entry => log.insert entry
  | .remove index => log.remove index

def applyBatch (changes : List (Change D)) : LogTree D := changes.foldl change log

def lastEntryLogId : Option LogId := log.stored.values.getLast?.map (·.logId)

end LogTree

structure Trees (D : Type) where
  log : LogTree D
  vote : Option Vote
  committed : Option (Option LogId)
  lastPurged : Option LogId

inductive Write (D : Type) where
  | logBatch (changes : List (Change D))
  | vote (vote : Vote)
  | committed (committed : Option LogId)
  | lastPurged (logId : LogId)

inductive Bound where
  | included (index : ℕ)
  | excluded (index : ℕ)
  | unbounded
deriving DecidableEq, Repr

namespace Bound

def index? : Bound → Option ℕ
  | included index => some index
  | excluded index => some index
  | unbounded => none

def Below : Bound → ℕ → Prop
  | included low, index => low ≤ index
  | excluded low, index => low < index
  | unbounded, _ => True

def Above : Bound → ℕ → Prop
  | included high, index => index ≤ high
  | excluded high, index => index < high
  | unbounded, _ => True

instance (bound : Bound) (index : ℕ) : Decidable (bound.Below index) :=
  match bound with
  | included low => Nat.decLe low index
  | excluded low => Nat.decLt low index
  | unbounded => isTrue trivial

instance (bound : Bound) (index : ℕ) : Decidable (bound.Above index) :=
  match bound with
  | included high => Nat.decLe index high
  | excluded high => Nat.decLt index high
  | unbounded => isTrue trivial

def reversed (start stop : Bound) : Bool :=
  match start.index?, stop.index? with
  | some low, some high => low > high
  | _, _ => false

end Bound

namespace Trees

def empty : Trees D := ⟨.empty, none, none, none⟩

variable (trees : Trees D)

def apply : Write D → Trees D
  | .logBatch changes => { trees with log := trees.log.applyBatch changes }
  | .vote vote => { trees with vote := some vote }
  | .committed committed => { trees with committed := some committed }
  | .lastPurged logId => { trees with lastPurged := some logId }

def applyAll (writes : List (Write D)) : Trees D := writes.foldl apply trees

def logIdAt (index : ℕ) : Option LogId := (trees.log.get? index).map (·.logId)

/-- `last_log_id` of the log state. -/
def lastLogId : Option LogId := trees.log.lastEntryLogId.or trees.lastPurged

def readVote : Option Vote := trees.vote

def readCommitted : Option LogId := trees.committed.getD none

/-- A reversed range is refused. -/
def tryGetLogEntries (start stop : Bound) : Option (List (Entry D)) :=
  if Bound.reversed start stop then none
  else some ((trees.log.stored.entries.filter fun stored =>
    start.Below stored.1 ∧ stop.Above stored.1).map (·.2))

end Trees

def gapFrom (purgePoint : Option ℕ) : Option ℕ → List ℕ → Option (ℕ × ℕ)
  | _, [] => none
  | none, index :: rest =>
    match purgePoint.filter fun purged => index > purged + 1 with
    | some purged => some (purged + 1, index - 1)
    | none => gapFrom purgePoint (some index) rest
  | some previous, index :: rest =>
    if index ≠ previous + 1 then some (previous + 1, index - 1)
    else gapFrom purgePoint (some index) rest

def Trees.logGap (trees : Trees D) : Option (ℕ × ℕ) :=
  gapFrom (trees.lastPurged.map (·.index)) none trees.log.keys

inductive PurgeDecision where
  | purge (through : ℕ)
  | clamp (through requested : ℕ)
  | skip (requested : ℕ)
deriving DecidableEq, Repr

def purgeCeiling (requested : ℕ) : Option ℕ → PurgeDecision
  | none => .skip requested
  | some 0 => .skip requested
  | some applied =>
    if requested ≤ applied then .purge requested else .clamp applied requested

/-- What the recovery quarantine answers at the start of a purge and at its publication. -/
structure RecoveryAdmission where
  admits : Bool
  publishes : Bool
deriving DecidableEq, Repr

namespace Trees

variable (trees : Trees D)

/-- The id up to which a purge may delete; `none` if it is skipped. -/
def purgePoint (durable : ℕ) (logId : LogId) : Option LogId :=
  match purgeCeiling logId.index (some durable) with
  | .purge _ => some logId
  | .clamp through _ => trees.logIdAt through
  | .skip _ => none

def purgedThrough (admission : RecoveryAdmission) (durable : ℕ) (logId : LogId) :
    Option LogId :=
  if admission.admits then
    (trees.purgePoint durable logId).filter fun _ => admission.publishes
  else none

def removals (keep : ℕ → Bool) : Write D :=
  .logBatch ((trees.log.keys.filter fun index => !keep index).map Change.remove)

def truncateWrites (logId : LogId) : List (Write D) :=
  [trees.removals fun index => index < logId.index]

def purgeWrites (admission : RecoveryAdmission) (durable : ℕ) (logId : LogId) : List (Write D) :=
  match trees.purgedThrough admission durable logId with
  | some point => [.lastPurged point, trees.removals fun index => point.index < index]
  | none => []

end Trees

def appendWrites (entries : List (Entry D)) : List (Write D) :=
  [.logBatch (entries.map Change.insert)]

namespace LogTree

variable (log : LogTree D)

theorem get?_insert (entry : Entry D) (index : ℕ) : (log.insert entry).get? index =
      if index = entry.logId.index then some entry else log.get? index :=
  SortedMap.get?_insert log.stored entry.logId.index index entry

theorem get?_remove (removed index : ℕ) :
    (log.remove removed).get? index = if index = removed then none else log.get? index :=
  get?_erase log.stored removed index

theorem get?_applyBatch_remove (removed : List ℕ) (index : ℕ) :
    (log.applyBatch (removed.map Change.remove)).get? index =
      if index ∈ removed then none else log.get? index := by
  induction removed generalizing log with
  | nil => rfl
  | cons first rest ih =>
    have later := ih (log.remove first)
    rw [get?_remove] at later
    by_cases same : index = first <;> simpa [applyBatch, change, same] using later

theorem get?_applyBatch_insert (entries : List (Entry D)) (index : ℕ) :
    (log.applyBatch (entries.map Change.insert)).get? index =
      (entries.reverse.find? fun entry => entry.logId.index = index).or (log.get? index) := by
  induction entries generalizing log with
  | nil => rfl
  | cons first rest ih =>
    have later := ih (log.insert first)
    rw [get?_insert] at later
    simp only [reverse_cons, find?_append, Option.or_assoc]
    by_cases same : index = first.logId.index
    · simpa [applyBatch, change, same] using later
    · simpa [applyBatch, change, same, Ne.symm same] using later

theorem isSome_get?_applyBatch_insert (entries : List (Entry D)) (index : ℕ) :
    ((log.applyBatch (entries.map Change.insert)).get? index).isSome ↔
      index ∈ entries.map (·.logId.index) ∨ (log.get? index).isSome := by
  simp [get?_applyBatch_insert, isSome_or]

theorem mem_keys_iff {index : ℕ} : index ∈ log.keys ↔ (log.get? index).isSome :=
  SortedMap.mem_keys_iff

theorem lastEntryLogId_eq_none_iff :
    log.lastEntryLogId = none ↔ ∀ index, log.get? index = none := by
  simp only [lastEntryLogId, values, map_eq_none_iff, getLast?_eq_none_iff,
    map_eq_nil_iff]
  rw [eq_nil_iff_forall_not_mem]
  constructor
  · intro absent index
    apply eq_none_iff_forall_ne_some.mpr
    intro entry found
    exact absent (index, entry) (mem_entries_iff.mpr found)
  · rintro absent ⟨index, entry⟩ present
    exact eq_none_iff_forall_ne_some.mp (absent index) entry (mem_entries_iff.mp present)

theorem lastEntryLogId_eq_some {logId : LogId} (last : log.lastEntryLogId = some logId) :
    (∃ entry, log.get? logId.index = some entry ∧ entry.logId = logId) ∧
      ∀ index, (log.get? index).isSome → index ≤ logId.index := by
  simp only [lastEntryLogId, values, getLast?_map, map_map, map_eq_some_iff] at last
  rcases last with ⟨⟨key, entry⟩, isLast, rfl⟩
  have found := mem_entries_iff.mp (mem_of_getLast? isLast)
  have atKey : entry.logId.index = key := log.keyed key entry found
  refine ⟨⟨entry, ?_, rfl⟩, ?_⟩
  · exact atKey ▸ found
  · intro index isStored
    rcases isSome_iff_exists.mp isStored with ⟨other, otherFound⟩
    have present := mem_entries_iff.mpr otherFound
    rcases getLast?_eq_some_iff.mp isLast with ⟨init, split⟩
    have sorted := log.stored.sorted
    rw [split] at sorted present
    rcases mem_append.mp present with earlier | final
    · have below := (pairwise_append.mp sorted).2.2 _ earlier _ (mem_singleton_self _)
      simp only [Function.comp_apply, atKey]
      exact below.le
    · rcases mem_singleton.mp final with _ | _
      exact atKey.ge

end LogTree

namespace Trees

variable (trees : Trees D)

theorem get?_apply_removals (keep : ℕ → Bool) (index : ℕ) :
    (trees.apply (trees.removals keep)).log.get? index =
      if keep index then trees.log.get? index else none := by
  have removed := trees.log.get?_applyBatch_remove
    (trees.log.keys.filter fun index => !keep index) index
  simp only [mem_filter, LogTree.mem_keys_iff] at removed
  rw [removals, apply, removed]
  cases keep index <;> cases trees.log.get? index <;> simp

end Trees

/-- Nothing keeps a purge from being carried out as asked. -/
def PurgedInFull (admission : RecoveryAdmission) (durable : ℕ) (logId : LogId) : Prop :=
  admission.admits ∧ admission.publishes ∧ 0 < durable ∧ logId.index ≤ durable
  deriving Decidable

namespace Trees

variable {trees : Trees D} {admission : RecoveryAdmission} {durable : ℕ} {logId point : LogId}

theorem purgedThrough_eq_some (purged : trees.purgedThrough admission durable logId = some point) :
    PurgedInFull admission durable logId ∧ point = logId ∨
      ¬ PurgedInFull admission durable logId ∧ point.index = durable ∧ durable < logId.index ∧
        (trees.log.get? durable).isSome := by
  simp only [purgedThrough] at purged
  split_ifs at purged with admits
  rcases filter_eq_some_iff.mp purged with ⟨chosen, publishes⟩
  cases durable with
  | zero => simp [purgePoint, purgeCeiling] at chosen
  | succ durable =>
    by_cases requested : logId.index ≤ durable + 1
    · left
      simp only [purgePoint, purgeCeiling, requested, if_true, Option.some.injEq] at chosen
      exact ⟨⟨admits, publishes, by omega, requested⟩, chosen.symm⟩
    · right
      simp only [purgePoint, purgeCeiling, requested, if_false, logIdAt, map_eq_some_iff] at chosen
      rcases chosen with ⟨entry, found, rfl⟩
      refine ⟨fun inFull => requested inFull.2.2.2, ?_, by omega, ?_⟩
      · exact trees.log.keyed _ _ found
      · simp [found]

theorem PurgedInFull.purgedThrough (inFull : PurgedInFull admission durable logId) :
    trees.purgedThrough admission durable logId = some logId := by
  rcases inFull with ⟨admits, publishes, positive, requested⟩
  cases durable with
  | zero => omega
  | succ durable =>
    simp [Trees.purgedThrough, purgePoint, purgeCeiling, admits, publishes, requested]

theorem purge_of_none (refused : trees.purgedThrough admission durable logId = none) :
    trees.applyAll (trees.purgeWrites admission durable logId) = trees := by
  simp [purgeWrites, refused, applyAll]

theorem lastPurged_purge (purged : trees.purgedThrough admission durable logId = some point) :
    (trees.applyAll (trees.purgeWrites admission durable logId)).lastPurged = some point := by
  simp [purgeWrites, purged, applyAll, apply, removals]

theorem get?_purge (purged : trees.purgedThrough admission durable logId = some point) (index : ℕ) :
    (trees.applyAll (trees.purgeWrites admission durable logId)).log.get? index =
      if point.index < index then trees.log.get? index else none := by
  have removed := trees.get?_apply_removals (fun index => point.index < index) index
  simpa [purgeWrites, purged, applyAll, apply, removals] using removed

end Trees

end Ferrosa.Raft
