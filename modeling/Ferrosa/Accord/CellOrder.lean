import Ferrosa.Accord.Apply
import Ferrosa.Storage.Merge

/-!
# Cells of transactions

An apply stamps the cells of a transaction with the microseconds of its execution timestamp, and
the storage keeps the cell that reconciles highest.  The stamps of two transactions can be equal,
or in the other order.
-/

namespace Ferrosa.Accord

open KeyedFold Storage CellValue
open Storage (Row CellValue cellKey mergeRows optionRank)

def restampRow (row : Row) (cellTs : Int64) : Row where
  clustering := row.clustering
  cells := row.cells.map fun cell => (cell.1, { cell.2 with timestamp := cellTs })
  deletion :=
    if row.deletion.isLive then row.deletion
    else { row.deletion with markedForDeleteAt := cellTs }
  primaryKeyLiveness :=
    if row.primaryKeyLiveness.hasTimestamp then
      { row.primaryKeyLiveness with timestamp := cellTs }
    else row.primaryKeyLiveness

/-- What decides between two cells with one timestamp and path. -/
def tieRank (cell : CellValue) : Bool ×ₗ WithBot Storage.Bytes ×ₗ Int32 ×ₗ Int32 :=
  toLex (cell.isTombstone, toLex (optionRank cell.value, toLex (cell.ttl, cell.localDeletionTime)))

theorem restamped_le_iff {a b : CellValue} (samePath : a.path = b.path) {early late : Int64} :
    { a with timestamp := early } ≤ { b with timestamp := late } ↔
      early < late ∨ early = late ∧ tieRank a ≤ tieRank b := by
  change reconcileKey _ ≤ reconcileKey _ ↔ _
  simp only [reconcileKey, tieRank, Prod.Lex.toLex_le_toLex, samePath,
    isTombstone, le_refl, and_true, ← le_iff_lt_or_eq]

theorem cellsSorted_restampRow {row : Row} (sorted : row.CellsSorted) (cellTs : Int64) :
    (restampRow row cellTs).CellsSorted :=
  StrictlySorted.map sorted fun _ => rfl

theorem eq_of_mem_restampRow {row : Row} (sorted : row.CellsSorted) {column : UInt16}
    {cell : CellValue} {cellTs : Int64} (listed : (column, cell) ∈ row.cells)
    {other : Storage.Cell} (isOther : other ∈ (restampRow row cellTs).cells)
    (sameKey : cellKey other = cellKey (column, cell)) :
    other = (column, { cell with timestamp := cellTs }) := by
  rcases List.mem_map.mp isOther with ⟨original, present, rfl⟩
  rw [StrictlySorted.eq_of_key_eq sorted present listed sameKey]

/-- The second transaction's cell survives every merge exactly if its stamp is later, or equal and
the cell wins the tie. -/
theorem survives_iff {first second : Row} {t1 t2 : Timestamp} {column : UInt16} {c1 c2 : CellValue}
    (sortedFirst : first.CellsSorted) (sortedSecond : second.CellsSorted)
    (inFirst : (column, c1) ∈ first.cells) (inSecond : (column, c2) ∈ second.cells)
    (samePath : c1.path = c2.path) {versions : List Row}
    (applied : ∀ row, row ∈ versions ↔ row = restampRow first (accordCellTimestamp t1) ∨
      row = restampRow second (accordCellTimestamp t2))
    {merged : Row} (isMerged : reduce mergeRows versions = some merged) :
    lookup cellKey (cellKey (column, c2)) merged.cells =
        some (column, { c2 with timestamp := accordCellTimestamp t2 }) ↔
      accordCellTimestamp t1 < accordCellTimestamp t2 ∨
        accordCellTimestamp t1 = accordCellTimestamp t2 ∧ tieRank c1 ≤ tieRank c2 := by
  have sorted : ∀ row ∈ versions, row.CellsSorted := by
    intro row listed
    rcases (applied row).mp listed with rfl | rfl
    · exact cellsSorted_restampRow sortedFirst _
    · exact cellsSorted_restampRow sortedSecond _
  have sameKey : cellKey (column, c1) = cellKey (column, c2) :=
    cellKey_eq_iff.mpr ⟨rfl, samePath⟩
  have mergedSorted :=
    reduce_mergeRows_cellsSorted (head_cellsSorted sorted) isMerged
  rcases exists_le_of_mem_reduce_mergeRows sorted isMerged ((applied _).mpr (Or.inl rfl))
    (List.mem_map_of_mem inFirst) with ⟨winner, inMerged, keyFirst, aboveFirst⟩
  rcases exists_le_of_mem_reduce_mergeRows sorted isMerged ((applied _).mpr (Or.inr rfl))
    (List.mem_map_of_mem inSecond) with ⟨other, inMerged', keySecond, aboveSecond⟩
  have same : other = winner :=
    mergedSorted.eq_of_key_eq inMerged' inMerged
      (keySecond.trans (sameKey.symm.trans keyFirst.symm))
  subst same
  rw [← restamped_le_iff samePath, mergedSorted.lookup_eq_some_iff]
  constructor
  · rintro ⟨survives, _⟩
    have isOther := mergedSorted.eq_of_key_eq inMerged' survives keySecond
    rw [isOther] at aboveFirst
    exact aboveFirst
  · intro below
    rcases mem_of_mem_reduce_mergeRows sorted isMerged inMerged with ⟨row, listed, inRow⟩
    refine ⟨?_, rfl⟩
    rcases (applied row).mp listed with rfl | rfl
    · have isFirst := eq_of_mem_restampRow sortedFirst inFirst inRow keyFirst
      rw [isFirst] at aboveSecond
      rwa [← le_antisymm below aboveSecond, ← isFirst]
    · rwa [← eq_of_mem_restampRow sortedSecond inSecond inRow keySecond]

def writtenRow (value : UInt8) : Row :=
  ⟨[], [(0, .live [value] 0)], .live, .none⟩

theorem survives_iff_laterMicrosecond : lookup cellKey (cellKey (0, .live [1] 0)) (mergeRows
        (restampRow (writtenRow 2) (accordCellTimestamp ⟨0, 1000, 0, 1⟩))
        (restampRow (writtenRow 1) (accordCellTimestamp ⟨0, 2000, 0, 1⟩))).cells =
      some (0, .live [1] (accordCellTimestamp ⟨0, 2000, 0, 1⟩)) :=
  (@survives_iff (writtenRow 2) (writtenRow 1) ⟨0, 1000, 0, 1⟩ ⟨0, 2000, 0, 1⟩ 0 (.live [2] 0)
    (.live [1] 0) (by decide) (by decide) (by decide) (by decide) rfl
    [restampRow (writtenRow 2) (accordCellTimestamp ⟨0, 1000, 0, 1⟩),
      restampRow (writtenRow 1) (accordCellTimestamp ⟨0, 2000, 0, 1⟩)] (by simp) _ rfl).mpr
    (Or.inl (by decide))

/-- A timestamp that was bumped past another keeps its microsecond, and the larger value stays. -/
theorem survives_bumped_over : (⟨0, 1000, 0, 1⟩ : Timestamp) < ⟨0, 1000, 1, 2⟩ ∧
      lookup cellKey (cellKey (0, .live [1] 0)) (mergeRows
        (restampRow (writtenRow 2) (accordCellTimestamp ⟨0, 1000, 0, 1⟩))
        (restampRow (writtenRow 1) (accordCellTimestamp ⟨0, 1000, 1, 2⟩))).cells =
      some (0, .live [2] (accordCellTimestamp ⟨0, 1000, 0, 1⟩)) := by
  decide

end Ferrosa.Accord
