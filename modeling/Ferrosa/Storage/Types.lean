import Ferrosa.Lib.KeyedFold
import Ferrosa.Lib.MachineOrder

/-!
# Cells, rows and partitions

The storage data model shared by the memtable, the read path and compaction.
Timestamps are `i64` microseconds, with the least value as the "no deletion" and
"no liveness" sentinel.  The reconciliation order on cells is total, so it is
registered as the linear order of `CellValue`.
-/

namespace Ferrosa.Storage

open KeyedFold

abbrev Bytes := List UInt8

/-- Rust's order on `Option`: `None` comes before every `Some`. -/
def optionRank (bytes : Option Bytes) : WithBot Bytes := bytes

theorem optionRank_injective : Function.Injective optionRank := fun _ _ same => same

structure DeletionTime where
  markedForDeleteAt : Int64
  localDeletionTime : UInt32
  deriving DecidableEq, Repr

namespace DeletionTime

/-- Sentinel of live (not deleted) partitions and rows. -/
def live : DeletionTime := ⟨Int64.minValue, 4294967295⟩

def isLive (deletion : DeletionTime) : Bool :=
  deletion.markedForDeleteAt == Int64.minValue && deletion.localDeletionTime == 4294967295

variable {deletion : DeletionTime}

theorem markedForDeleteAt_of_isLive (isLive : deletion.isLive) :
    deletion.markedForDeleteAt = Int64.minValue := by
  simp only [DeletionTime.isLive, Bool.and_eq_true, beq_iff_eq] at isLive
  exact isLive.1

theorem isLive_iff : deletion.isLive ↔ deletion = live := by
  rcases deletion with ⟨marked, local_⟩
  simp [isLive, live]

theorem le_of_isLive (isLive : deletion.isLive) (timestamp : Int64) :
    deletion.markedForDeleteAt ≤ timestamp := by
  rw [markedForDeleteAt_of_isLive isLive]
  exact Int64.minValue_le timestamp

theorem not_isLive_of_lt {timestamp : Int64}
    (below : timestamp < deletion.markedForDeleteAt) : ¬deletion.isLive :=
  fun isLive => absurd (le_of_isLive isLive timestamp) (not_le.mpr below)

end DeletionTime

structure LivenessInfo where
  timestamp : Int64
  ttl : Int32
  localDeletionTime : Int32
  deriving DecidableEq, Repr

namespace LivenessInfo

def none : LivenessInfo := ⟨Int64.minValue, 0, Int32.maxValue⟩

def withTimestamp (timestamp : Int64) : LivenessInfo := ⟨timestamp, 0, Int32.maxValue⟩

def hasTimestamp (liveness : LivenessInfo) : Bool := liveness.timestamp != Int64.minValue

def hasTtl (liveness : LivenessInfo) : Bool := liveness.ttl != 0

end LivenessInfo

structure CellValue where
  value : Option Bytes
  timestamp : Int64
  ttl : Int32
  localDeletionTime : Int32
  path : Option Bytes
  deriving DecidableEq, Repr

namespace CellValue

def live (value : Bytes) (timestamp : Int64) : CellValue :=
  ⟨some value, timestamp, 0, Int32.maxValue, none⟩

def tombstone (timestamp : Int64) (localDeletionTime : Int32) : CellValue :=
  ⟨none, timestamp, 0, localDeletionTime, none⟩

def isTombstone (cell : CellValue) : Bool := cell.value.isNone

def isExpiring (cell : CellValue) : Bool := cell.value.isSome && cell.ttl != 0

/-- Shared by memtable, read and compaction merges: timestamp first, a deletion wins a tie. -/
def reconcileCmp (a b : CellValue) : Ordering :=
  (cmp a.timestamp b.timestamp).then <| (cmp a.isTombstone b.isTombstone).then <|
      (cmp (optionRank a.value) (optionRank b.value)).then <| (cmp a.ttl b.ttl).then <|
          (cmp a.localDeletionTime b.localDeletionTime).then <|
            cmp (optionRank a.path) (optionRank b.path)

/-- The winner of two candidates for one cell; the second one on exact equality. -/
def reconcileRef (a b : CellValue) : CellValue :=
  if reconcileCmp a b = .gt then a else b

def supersedes (candidate current : CellValue) : Bool := reconcileCmp candidate current = .gt

/-- The fields that `reconcileCmp` compares, in its order. -/
def reconcileKey (cell : CellValue) :
    Int64 ×ₗ Bool ×ₗ WithBot Bytes ×ₗ Int32 ×ₗ Int32 ×ₗ WithBot Bytes :=
  toLex (cell.timestamp, toLex (cell.isTombstone, toLex (optionRank cell.value,
    toLex (cell.ttl, toLex (cell.localDeletionTime, optionRank cell.path)))))

theorem reconcileKey_injective : Function.Injective reconcileKey := by
  rintro ⟨value, timestamp, ttl, localTime, path⟩ ⟨value', timestamp', ttl', localTime', path'⟩
  simp [reconcileKey, optionRank_injective.eq_iff]
  tauto

instance : LinearOrder CellValue := LinearOrder.lift' reconcileKey reconcileKey_injective

theorem reconcileCmp_eq_gt_iff (a b : CellValue) : reconcileCmp a b = .gt ↔ b < a := by
  change _ ↔ reconcileKey b < reconcileKey a
  simp only [reconcileCmp, reconcileKey, Ordering.then_eq_gt, cmp_eq_gt_iff_lt,
    cmp_eq_eq_iff_eq, Prod.Lex.toLex_lt_toLex]
  simp only [eq_comm]

theorem timestamp_le_of_le {a b : CellValue} (below : a ≤ b) : a.timestamp ≤ b.timestamp := by
  have keyBelow : reconcileKey a ≤ reconcileKey b := below
  simp only [reconcileKey, Prod.Lex.toLex_le_toLex] at keyBelow
  rcases keyBelow with lower | same
  · exact lower.le
  · exact same.1.le

theorem reconcileRef_eq_max (a b : CellValue) : reconcileRef a b = max a b := by
  simp only [reconcileRef, reconcileCmp_eq_gt_iff]
  split <;> rename_i above
  · exact (max_eq_left above.le).symm
  · exact (max_eq_right (not_lt.mp above)).symm

theorem supersedes_iff (candidate current : CellValue) :
    candidate.supersedes current ↔ current < candidate := by
  simp [supersedes, reconcileCmp_eq_gt_iff]

end CellValue

abbrev Cell := UInt16 × CellValue

def cellKey (cell : Cell) : UInt16 ×ₗ WithBot Bytes := toLex (cell.1, optionRank cell.2.path)

theorem cellKey_eq_iff {a b : Cell} : cellKey a = cellKey b ↔ a.1 = b.1 ∧ a.2.path = b.2.path := by
  simp [cellKey, optionRank_injective.eq_iff]

@[ext]
structure Row where
  clustering : Bytes
  cells : List Cell
  deletion : DeletionTime
  primaryKeyLiveness : LivenessInfo
  deriving DecidableEq, Repr

namespace Row

/-- `expired` in `is_visible_at`: the local deletion time is set and has been reached. -/
def expired (nowSecs localDeletionTime : Int32) : Bool :=
  localDeletionTime != Int32.maxValue && decide (localDeletionTime ≤ nowSecs)

def liveCell (nowSecs : Int32) (cell : CellValue) : Bool :=
  !(cell.isTombstone || cell.isExpiring && expired nowSecs cell.localDeletionTime)

/-- Logical visibility shared by row projection and liveness-only counts. -/
def isVisibleAt (row : Row) (nowSecs : Int32) : Bool :=
  if row.primaryKeyLiveness.hasTtl && expired nowSecs row.primaryKeyLiveness.localDeletionTime
      && !row.cells.any (fun cell => liveCell nowSecs cell.2) then
    false
  else
    row.deletion.isLive
      || decide (row.deletion.markedForDeleteAt < row.primaryKeyLiveness.timestamp)
      || row.cells.any (fun cell => decide (row.deletion.markedForDeleteAt < cell.2.timestamp))

def CellsSorted (row : Row) : Prop := StrictlySorted cellKey row.cells
  deriving Decidable

end Row

structure DecoratedKey where
  token : Int64
  key : Bytes
  deriving DecidableEq, Repr

namespace DecoratedKey

def orderKey (decorated : DecoratedKey) : Int64 ×ₗ Bytes := toLex (decorated.token, decorated.key)

theorem orderKey_injective : Function.Injective orderKey := by
  rintro ⟨token, key⟩ ⟨token', key'⟩ same
  simpa [orderKey] using same

instance : LinearOrder DecoratedKey := LinearOrder.lift' orderKey orderKey_injective

end DecoratedKey

@[ext]
structure Partition where
  key : DecoratedKey
  deletion : DeletionTime
  staticRow : Option Row
  rows : List Row
  deriving DecidableEq, Repr

namespace Partition

/-- Rows are strictly sorted by clustering, and the cells of every row, the static row
included, by column and path. -/
@[mk_iff]
structure Sorted (partition : Partition) : Prop where
  rows : StrictlySorted Row.clustering partition.rows
  cells : ∀ row ∈ partition.rows, row.CellsSorted
  static : ∀ row ∈ partition.staticRow, row.CellsSorted

instance (partition : Partition) : Decidable partition.Sorted :=
  decidable_of_iff' _ (sorted_iff partition)

end Partition

end Ferrosa.Storage
