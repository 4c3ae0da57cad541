import Ferrosa.Storage.Merge

/-!
# Tombstone purge

Compaction drops deletion markers from its merged output once their grace period
is over, provided that no data outside the compaction can be older than them: the
overlap guard `maxPurgeableTimestamp` is a lower bound of every timestamp outside.
-/

namespace Ferrosa.Storage

open KeyedFold

structure PurgePolicy where
  gcBefore : Int64
  maxPurgeableTimestamp : Int64
  deriving DecidableEq, Repr

namespace PurgePolicy

def purgeable (policy : PurgePolicy) (timestamp localDeletionTime : Int64) : Bool :=
  decide (localDeletionTime < policy.gcBefore) &&
    decide (timestamp < policy.maxPurgeableTimestamp)

def purgeableDeletion (policy : PurgePolicy) (deletion : DeletionTime) : Bool :=
  !deletion.isLive &&
    policy.purgeable deletion.markedForDeleteAt deletion.localDeletionTime.toUInt64.toInt64

theorem lt_of_purgeableDeletion {policy : PurgePolicy} {deletion : DeletionTime}
    (purgeable : policy.purgeableDeletion deletion) :
    ¬deletion.isLive ∧ deletion.markedForDeleteAt < policy.maxPurgeableTimestamp := by
  simp only [purgeableDeletion, PurgePolicy.purgeable, Bool.and_eq_true, decide_eq_true_eq,
    Bool.not_eq_true'] at purgeable
  exact ⟨by simp [purgeable.1], purgeable.2.2⟩

end PurgePolicy

structure PurgeStats where
  partitionDeletions : Nat
  rowDeletions : Nat
  cellTombstones : Nat
  rowsRemoved : Nat
  deriving DecidableEq, Repr

namespace PurgeStats

def zero : PurgeStats := ⟨0, 0, 0, 0⟩

def markers (stats : PurgeStats) : Nat :=
  stats.partitionDeletions + stats.rowDeletions + stats.cellTombstones

end PurgeStats

namespace Row

def isVacant (row : Row) : Bool :=
  row.cells.isEmpty && row.deletion.isLive && !row.primaryKeyLiveness.hasTimestamp

def dropDeletion (row : Row) : Row :=
  { row with
    deletion := .live
    primaryKeyLiveness :=
      if row.primaryKeyLiveness.hasTimestamp &&
          decide (row.primaryKeyLiveness.timestamp < row.deletion.markedForDeleteAt) then .none
      else row.primaryKeyLiveness }

/-- A purgeable cell tombstone, unless it has no path and its column has elements in the row. -/
def droppable (policy : PurgePolicy) (row : Row) (cell : Cell) : Bool :=
  cell.2.isTombstone && policy.purgeable cell.2.timestamp cell.2.localDeletionTime.toInt64 &&
    !(cell.2.path.isNone && row.cells.any (fun other => other.1 == cell.1 && other.2.path.isSome))

end Row

def purgeRow (policy : PurgePolicy) (row : Row) (stats : PurgeStats) : Bool × Row × PurgeStats :=
  let before := stats.markers
  let (row, stats) :=
    if policy.purgeableDeletion row.deletion then
      (row.dropDeletion, { stats with rowDeletions := stats.rowDeletions + 1 })
    else (row, stats)
  let kept := row.cells.filter (fun cell => !row.droppable policy cell)
  let stats := { stats with
    cellTombstones := stats.cellTombstones + (row.cells.length - kept.length) }
  (stats.markers != before, { row with cells := kept }, stats)

def purgeStaticRow (policy : PurgePolicy) (staticRow : Option Row) (stats : PurgeStats) :
    Option Row × PurgeStats :=
  match staticRow with
  | none => (none, stats)
  | some row =>
    let (changed, row, stats) := purgeRow policy row stats
    (if changed && row.cells.isEmpty then none else some row, stats)

def purgeRows (policy : PurgePolicy) : List Row → PurgeStats → List Row × PurgeStats
  | [], stats => ([], stats)
  | row :: rest, stats =>
    let (changed, row, stats) := purgeRow policy row stats
    let (rows, stats) := purgeRows policy rest stats
    (if changed && row.isVacant then rows else row :: rows, stats)

def purgePartition (partition : Partition) (policy : PurgePolicy) : Partition × PurgeStats :=
  let (deletion, stats) :=
    if policy.purgeableDeletion partition.deletion then
      (DeletionTime.live, { PurgeStats.zero with partitionDeletions := 1 })
    else (partition.deletion, PurgeStats.zero)
  let (staticRow, stats) := purgeStaticRow policy partition.staticRow stats
  let (rows, stats) := purgeRows policy partition.rows stats
  ({ partition with deletion, staticRow, rows },
    { stats with rowsRemoved := stats.rowsRemoved + (partition.rows.length - rows.length) })

namespace Row

variable (policy : PurgePolicy) (row : Row)

def keptCells : List Cell := row.cells.filter (fun cell => !row.droppable policy cell)

def purged : Row :=
  { (if policy.purgeableDeletion row.deletion then row.dropDeletion else row) with
    cells := row.keptCells policy }

def purgeChanges : Bool :=
  policy.purgeableDeletion row.deletion || row.cells.any (row.droppable policy)

def afterPurge : Option Row :=
  if row.purgeChanges policy && (row.purged policy).isVacant then none
  else some (row.purged policy)

end Row

theorem purgeRow_eq (policy : PurgePolicy) (row : Row) (stats : PurgeStats) :
    ∃ after, purgeRow policy row stats = (row.purgeChanges policy, row.purged policy, after) := by
  have sameDroppable : ∀ cell, row.dropDeletion.droppable policy cell =
      row.droppable policy cell := fun _ => rfl
  have dropsSome : row.cells.length - (row.keptCells policy).length ≠ 0 ↔
      row.cells.any (row.droppable policy) = true := by
    have shorter := @List.length_filter_lt_length_iff_exists _
      (fun cell => !row.droppable policy cell) row.cells
    rw [List.any_eq_true]
    constructor
    · intro dropped
      rcases shorter.mp (by rw [Row.keptCells] at dropped; omega) with ⟨cell, cellMem, isDropped⟩
      exact ⟨cell, cellMem, by simpa using isDropped⟩
    · rintro ⟨cell, cellMem, isDropped⟩
      have fewer := shorter.mpr ⟨cell, cellMem, by simpa using isDropped⟩
      rw [Row.keptCells]
      omega
  by_cases purgeable : policy.purgeableDeletion row.deletion
  · refine ⟨_, Prod.ext ?_ (Prod.ext ?_ rfl)⟩
    · simp only [purgeRow, purgeable, if_true, PurgeStats.markers, Row.purgeChanges, Bool.true_or,
        bne_iff_ne, ne_eq]
      omega
    · simp only [purgeRow, purgeable, if_true, sameDroppable, Row.purged]
      rfl
  · refine ⟨_, Prod.ext ?_ (Prod.ext ?_ rfl)⟩
    · simp only [purgeRow, purgeable, PurgeStats.markers, Row.purgeChanges, Bool.false_or]
      rw [Bool.eq_iff_iff, ← dropsSome]
      simp [Row.keptCells]
    · simp only [purgeRow, purgeable, Row.purged]
      rfl

theorem purgeRows_fst (policy : PurgePolicy) (rows : List Row) (stats : PurgeStats) :
    (purgeRows policy rows stats).1 = rows.filterMap (Row.afterPurge policy) := by
  induction rows generalizing stats with
  | nil => rfl
  | cons row rest ih =>
    rcases purgeRow_eq policy row stats with ⟨after, rowEq⟩
    simp only [purgeRows, rowEq, ih, List.filterMap_cons, Row.afterPurge]
    by_cases gone : (row.purgeChanges policy && (row.purged policy).isVacant) = true
    · simp [gone]
    · simp [gone]

section PurgePartition

variable (partition : Partition) (policy : PurgePolicy)

theorem purgePartition_deletion : (purgePartition partition policy).1.deletion =
      if policy.purgeableDeletion partition.deletion then .live else partition.deletion := by
  simp only [purgePartition]
  split <;> rfl

theorem purgePartition_rows : (purgePartition partition policy).1.rows =
      partition.rows.filterMap (Row.afterPurge policy) :=
  purgeRows_fst policy partition.rows _

theorem purgePartition_staticRow : (purgePartition partition policy).1.staticRow =
      partition.staticRow.bind (fun row =>
        if row.purgeChanges policy && (row.keptCells policy).isEmpty then none
        else some (row.purged policy)) := by
  simp only [purgePartition]
  cases partition.staticRow with
  | none => rfl
  | some row =>
    simp only [purgeStaticRow]
    rcases purgeRow_eq policy row (if policy.purgeableDeletion partition.deletion then
      (DeletionTime.live, { PurgeStats.zero with partitionDeletions := 1 })
      else (partition.deletion, PurgeStats.zero)).2 with ⟨after, rowEq⟩
    simp only [rowEq]
    rfl

end PurgePartition

end Ferrosa.Storage
