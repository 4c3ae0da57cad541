import Ferrosa.Storage.PurgeSafety
import Ferrosa.Storage.ReadRows

/-!
# What a read shows, independent of the order of its sources

Of two markers with one timestamp a read returns the first it meets, so its
records depend on the order of the sources.  The rows, cells and static cells it
shows do not: they are described here by predicates that only ask which versions
there are.
-/

namespace Ferrosa.Storage

open KeyedFold Option StrictlySorted CellValue

theorem CellValue.le_of_timestamp_lt {a b : CellValue} (older : a.timestamp < b.timestamp) :
    a ≤ b := by
  by_contra above
  exact absurd (timestamp_le_of_le (not_le.mp above).le) (not_le.mpr older)

/-- The cell is written, no version of the row supersedes it and no row tombstone is newer. -/
def ShowsCell (versions : List Row) (cell : Cell) : Prop :=
  (∃ version ∈ versions, cell ∈ version.cells) ∧
    (∀ version ∈ versions, ∀ other ∈ version.cells, cellKey other = cellKey cell →
      other.2 ≤ cell.2) ∧
    ∀ version ∈ versions, version.deletion.markedForDeleteAt ≤ cell.2.timestamp

/-- A row tombstone of the versions is not older than the timestamp. -/
def Covered (versions : List Row) (timestamp : Int64) : Prop :=
  ∃ version ∈ versions, timestamp ≤ version.deletion.markedForDeleteAt
  deriving Decidable

/-- A row tombstone hides the row: no liveness and no cell of any version is newer. -/
def Entombed (versions : List Row) : Prop :=
  (∃ version ∈ versions, Int64.minValue < version.deletion.markedForDeleteAt) ∧
    ∀ version ∈ versions, Covered versions version.primaryKeyLiveness.timestamp ∧
      ∀ cell ∈ version.cells, Covered versions cell.2.timestamp
  deriving Decidable

structure Summarises (row : Row) (versions : List Row) : Prop where
  sorted : row.CellsSorted
  cells : ∀ cell, cell ∈ row.cells ↔ ShowsCell versions cell
  deletionLe : ∀ version ∈ versions,
    version.deletion.markedForDeleteAt ≤ row.deletion.markedForDeleteAt
  deletionMem : ∃ version ∈ versions, version.deletion = row.deletion
  livenessLe : ∀ version ∈ versions,
    version.primaryKeyLiveness.timestamp ≤ row.primaryKeyLiveness.timestamp
  livenessMem : ∃ version ∈ versions, version.primaryKeyLiveness = row.primaryKeyLiveness
  dominates : ∀ version ∈ versions, ∀ cell ∈ version.cells,
    cell.2.timestamp < row.deletion.markedForDeleteAt ∨
      ∃ winner ∈ row.cells, cellKey winner = cellKey cell ∧ cell.2 ≤ winner.2

variable {versions : List Row} {folded : Row} {cell : Cell} {tableDelete : DeletionTime}
  {versions' : List Row} {partition : Partition}

theorem showsCell_congr (same : ∀ version, version ∈ versions ↔ version ∈ versions') (cell : Cell) :
    ShowsCell versions cell ↔ ShowsCell versions' cell := by
  simp only [ShowsCell, same]

theorem entombed_congr (same : ∀ version, version ∈ versions ↔ version ∈ versions') :
    Entombed versions ↔ Entombed versions' := by
  simp only [Entombed, Covered, same]

theorem Covered.mono {earlier later : Int64}
    (covered : Covered versions later) (below : earlier ≤ later) : Covered versions earlier := by
  rcases covered with ⟨version, versionMem, notOlder⟩
  exact ⟨version, versionMem, below.trans notOlder⟩

theorem mem_reduce_mergeRows_iff {rows : List Row} (sorted : ∀ row ∈ rows, row.CellsSorted)
    (found : reduce mergeRows rows = some folded) :
    cell ∈ folded.cells ↔ (∃ row ∈ rows, cell ∈ row.cells) ∧
      ∀ row ∈ rows, ∀ other ∈ row.cells, cellKey other = cellKey cell → other.2 ≤ cell.2 := by
  have foldedSorted := reduce_mergeRows_cellsSorted (head_cellsSorted sorted) found
  constructor
  · intro present
    refine ⟨mem_of_mem_reduce_mergeRows sorted found present, ?_⟩
    intro row rowMem other otherMem sameKey
    rcases exists_le_of_mem_reduce_mergeRows sorted found rowMem otherMem with
      ⟨winner, winnerMem, winnerKey, winnerLe⟩
    have isCell : winner = cell :=
      eq_of_key_eq foldedSorted winnerMem present (winnerKey.trans sameKey)
    rw [← isCell]
    exact winnerLe
  · rintro ⟨⟨row, rowMem, inRow⟩, newest⟩
    rcases exists_le_of_mem_reduce_mergeRows sorted found rowMem inRow with
      ⟨winner, winnerMem, winnerKey, winnerLe⟩
    rcases mem_of_mem_reduce_mergeRows sorted found winnerMem with ⟨source, sourceMem, inSource⟩
    have isCell : winner = cell := Prod.ext (cellKey_eq_iff.mp winnerKey).1
      (le_antisymm (newest source sourceMem winner inSource winnerKey) winnerLe)
    rwa [← isCell]

theorem summarises_of_reduce (sorted : ∀ version ∈ versions, version.CellsSorted)
    (found : reduce mergeRows versions = some folded) :
    Summarises folded.applyRowDeletion versions := by
  have foldedSorted := reduce_mergeRows_cellsSorted (head_cellsSorted sorted) found
  have liveness := le_reduce_mergeRows_liveness found
  have deletionLe : ∀ version ∈ versions,
      version.deletion.markedForDeleteAt ≤ folded.deletion.markedForDeleteAt :=
    fun version versionMem => le_reduce_mergeRows_deletion found versionMem
  have deletionMem := reduce_mergeRows_deletion_mem found
  have dominates : ∀ version ∈ versions, ∀ cell ∈ version.cells,
      cell.2.timestamp < folded.deletion.markedForDeleteAt ∨
        ∃ winner ∈ (folded.retainCells folded.deletion.markedForDeleteAt).cells,
          cellKey winner = cellKey cell ∧ cell.2 ≤ winner.2 := by
    intro version versionMem cell cellMem
    rcases exists_le_of_mem_reduce_mergeRows sorted found versionMem cellMem with
      ⟨winner, winnerMem, winnerKey, winnerLe⟩
    rcases lt_or_ge winner.2.timestamp folded.deletion.markedForDeleteAt with older | notOlder
    · exact Or.inl ((timestamp_le_of_le winnerLe).trans_lt older)
    · refine Or.inr ⟨winner, ?_, winnerKey, winnerLe⟩
      simpa [Row.retainCells, winnerMem] using notOlder
  rw [Row.applyRowDeletion_eq]
  refine ⟨filter foldedSorted _, ?_, deletionLe, deletionMem, liveness.1, liveness.2, dominates⟩
  intro cell
  change cell ∈ folded.cells.filter _ ↔ _
  rw [List.mem_filter, decide_eq_true_eq, mem_reduce_mergeRows_iff sorted found, ShowsCell,
    and_assoc]
  have notDeletedIff : folded.deletion.markedForDeleteAt ≤ cell.2.timestamp ↔
      ∀ version ∈ versions, version.deletion.markedForDeleteAt ≤ cell.2.timestamp := by
    constructor
    · intro notOlder version versionMem
      exact (deletionLe version versionMem).trans notOlder
    · intro notDeleted
      rcases deletionMem with ⟨source, sourceMem, same⟩
      rw [← same]
      exact notDeleted source sourceMem
  rw [notDeletedIff]

/-- `after` are the versions `rest` together with a summary of `folded`, `before` the same with
`folded` itself. -/
structure Replaces (folded rest : List Row) (summary : Row) (before after : List Row) : Prop where
  summarises : Summarises summary folded
  memBefore : ∀ version, version ∈ before ↔ version ∈ rest ∨ version ∈ folded
  memAfter : ∀ version, version ∈ after ↔ version ∈ rest ∨ version = summary

variable {folded rest before after : List Row} {summary : Row}

section

variable (replaces : Replaces folded rest summary before after)

include replaces

theorem Replaces.showsCell_iff (cell : Cell) : ShowsCell after cell ↔ ShowsCell before cell := by
  have summarises := replaces.summarises
  simp only [ShowsCell, replaces.memBefore, replaces.memAfter]
  constructor
  · rintro ⟨⟨version, versionMem, inVersion⟩, newest, notDeleted⟩
    have atSummary := notDeleted summary (Or.inr rfl)
    refine ⟨?_, ?_, ?_⟩
    · rcases versionMem with inRest | rfl
      · exact ⟨version, Or.inl inRest, inVersion⟩
      · rcases ((summarises.cells cell).mp inVersion).1 with ⟨source, sourceMem, inSource⟩
        exact ⟨source, Or.inr sourceMem, inSource⟩
    · rintro source (inRest | inFolded) other otherMem sameKey
      · exact newest source (Or.inl inRest) other otherMem sameKey
      · rcases summarises.dominates source inFolded other otherMem with older | carried
        · exact CellValue.le_of_timestamp_lt (older.trans_le atSummary)
        · rcases carried with ⟨winner, winnerMem, winnerKey, below⟩
          exact below.trans (newest summary (Or.inr rfl) winner winnerMem (winnerKey.trans sameKey))
    · rintro source (inRest | inFolded)
      · exact notDeleted source (Or.inl inRest)
      · exact (summarises.deletionLe source inFolded).trans atSummary
  · rintro ⟨⟨version, versionMem, inVersion⟩, newest, notDeleted⟩
    refine ⟨?_, ?_, ?_⟩
    · rcases versionMem with inRest | inFolded
      · exact ⟨version, Or.inl inRest, inVersion⟩
      · refine ⟨summary, Or.inr rfl, (summarises.cells cell).mpr ⟨?_, ?_, ?_⟩⟩
        · exact ⟨version, inFolded, inVersion⟩
        · exact fun source sourceMem => newest source (Or.inr sourceMem)
        · exact fun source sourceMem => notDeleted source (Or.inr sourceMem)
    · rintro source (inRest | rfl) other otherMem sameKey
      · exact newest source (Or.inl inRest) other otherMem sameKey
      · rcases ((summarises.cells other).mp otherMem).1 with ⟨origin, originMem, inOrigin⟩
        exact newest origin (Or.inr originMem) other inOrigin sameKey
    · rintro source (inRest | rfl)
      · exact notDeleted source (Or.inl inRest)
      · rcases summarises.deletionMem with ⟨origin, originMem, same⟩
        rw [← same]
        exact notDeleted origin (Or.inr originMem)

theorem Replaces.exists_deletion_iff {P : Int64 → Prop}
    (upward : ∀ earlier later, earlier ≤ later → P earlier → P later) :
    (∃ version ∈ after, P version.deletion.markedForDeleteAt) ↔
      ∃ version ∈ before, P version.deletion.markedForDeleteAt := by
  simp only [replaces.memBefore, replaces.memAfter]
  constructor
  · rintro ⟨version, inRest | rfl, holds⟩
    · exact ⟨version, Or.inl inRest, holds⟩
    · rcases replaces.summarises.deletionMem with ⟨origin, originMem, same⟩
      exact ⟨origin, Or.inr originMem, same ▸ holds⟩
  · rintro ⟨version, inRest | inFolded, holds⟩
    · exact ⟨version, Or.inl inRest, holds⟩
    · refine ⟨summary, Or.inr rfl, upward _ _ ?_ holds⟩
      exact replaces.summarises.deletionLe version inFolded

theorem Replaces.covered_iff (timestamp : Int64) :
    Covered after timestamp ↔ Covered before timestamp :=
  replaces.exists_deletion_iff fun _ _ below covered => covered.trans below

theorem Replaces.entombed_iff : Entombed after ↔ Entombed before := by
  have summarises := replaces.summarises
  have buried : (∃ version ∈ after, Int64.minValue < version.deletion.markedForDeleteAt) ↔
      ∃ version ∈ before, Int64.minValue < version.deletion.markedForDeleteAt :=
    replaces.exists_deletion_iff fun _ _ below (above : _ < _) => above.trans_le below
  rw [Entombed, Entombed, buried]
  simp only [replaces.covered_iff, replaces.memAfter]
  constructor
  · rintro ⟨someTombstone, allCovered⟩
    refine ⟨someTombstone, ?_⟩
    intro version versionMem
    rcases (replaces.memBefore version).mp versionMem with inRest | inFolded
    · exact allCovered version (Or.inl inRest)
    · rcases allCovered summary (Or.inr rfl) with ⟨livenessCovered, cellsCovered⟩
      refine ⟨livenessCovered.mono (summarises.livenessLe version inFolded), ?_⟩
      intro cell cellMem
      rcases summarises.dominates version inFolded cell cellMem with older | carried
      · rw [← replaces.covered_iff]
        exact ⟨summary, (replaces.memAfter summary).mpr (Or.inr rfl), older.le⟩
      · rcases carried with ⟨winner, winnerMem, _, below⟩
        exact (cellsCovered winner winnerMem).mono (timestamp_le_of_le below)
  · rintro ⟨someTombstone, allCovered⟩
    refine ⟨someTombstone, ?_⟩
    rintro version (inRest | rfl)
    · exact allCovered version ((replaces.memBefore version).mpr (Or.inl inRest))
    · constructor
      · rcases summarises.livenessMem with ⟨origin, originMem, same⟩
        rw [← same]
        exact (allCovered origin ((replaces.memBefore origin).mpr (Or.inr originMem))).1
      · intro cell cellMem
        rcases ((summarises.cells cell).mp cellMem).1 with ⟨origin, originMem, inOrigin⟩
        exact (allCovered origin ((replaces.memBefore origin).mpr (Or.inr originMem))).2 cell
          inOrigin

end

/-- Some version of the row is not older than any partition deletion and the table tombstone. -/
def RowSurvives (tableDelete : DeletionTime) (sources : List Partition) (clustering : Bytes) :
    Prop :=
  ∃ version ∈ versionsAt clustering sources, Survives tableDelete sources version
  deriving Decidable

def ShowsRow (tableDelete : DeletionTime) (sources : List Partition) (clustering : Bytes) : Prop :=
  RowSurvives tableDelete sources clustering ∧ ¬Entombed (versionsAt clustering sources)

/-- The static cell is written, not superseded, and no deletion is newer. -/
def ShowsStaticCell (tableDelete : DeletionTime) (sources : List Partition) (cell : Cell) : Prop :=
  (∃ version ∈ sources.filterMap Partition.staticRow, cell ∈ version.cells) ∧
    (∀ version ∈ sources.filterMap Partition.staticRow, ∀ other ∈ version.cells,
      cellKey other = cellKey cell → other.2 ≤ cell.2) ∧
    tableDelete.markedForDeleteAt ≤ cell.2.timestamp ∧
    ∀ source ∈ sources, source.deletion.markedForDeleteAt ≤ cell.2.timestamp

/-- The row's own tombstone hides it: `is_visible_at` while nothing has expired. -/
def Row.entombed (row : Row) : Bool :=
  decide (Int64.minValue < row.deletion.markedForDeleteAt) &&
    decide (row.primaryKeyLiveness.timestamp ≤ row.deletion.markedForDeleteAt) &&
    row.cells.all (fun cell => decide (cell.2.timestamp ≤ row.deletion.markedForDeleteAt))

def readUnder (tableDelete : DeletionTime) (sources : List Partition) : Option Partition :=
  (mergePartitions sources).map (applyTableDeletion tableDelete)

def staticCellsOf (partition : Option Partition) : List Cell :=
  (partition.bind Partition.staticRow).elim [] Row.cells

def shownUnder (now : Int32) (tableDelete : DeletionTime) (sources : List Partition) : View where
  rows := ((rowsOf (readUnder tableDelete sources)).filter (fun row => !row.entombed)).map
    (fun row => (row.clustering, row.liveCells now))
  static := (staticCellsOf (readUnder tableDelete sources)).filter
    (fun cell => Row.liveCell now cell.2)

theorem exists_visibleRow {sources : List Partition} {clustering : Bytes}
    (survives : RowSurvives tableDelete sources clustering) :
    ∃ row, visibleRow tableDelete sources clustering = some row := by
  rcases survives with ⟨version, versionMem, notOlder⟩
  rcases exists_reduce_of_mem versionMem with ⟨folded, found⟩
  have newest := (le_reduce_mergeRows_liveness found).1 version versionMem
  refine ⟨folded.applyRowDeletion, ?_⟩
  have foldedSurvives : Survives tableDelete sources folded :=
    ⟨notOlder.1.trans newest, fun source sourceMem => (notOlder.2 source sourceMem).trans newest⟩
  simp [visibleRow, found, filter_some, foldedSurvives]

theorem Summarises.entombed_iff {row : Row} (summarises : Summarises row versions) :
    row.entombed ↔ Entombed versions := by
  have replaces : Replaces versions [] row versions [row] := by
    refine ⟨summarises, ?_, ?_⟩ <;> simp
  rw [← replaces.entombed_iff]
  simp [Row.entombed, Entombed, Covered, and_assoc]

section Read

variable {now : Int32} {tableDelete : DeletionTime} {sources : List Partition}
  (sorted : ∀ source ∈ sources, source.Sorted)

include sorted

theorem readRows_readUnder :
    ReadRows tableDelete sources (rowsOf (readUnder tableDelete sources)) :=
  readRows_merge tableDelete fun source sourceMem => (sorted source sourceMem).rows

variable {clustering : Bytes}

theorem summarises_of_visibleRow {row : Row}
    (visible : visibleRow tableDelete sources clustering = some row) :
    RowSurvives tableDelete sources clustering ∧ row.clustering = clustering ∧
      Summarises row (versionsAt clustering sources) := by
  rw [visibleRow, map_eq_some_iff] at visible
  rcases visible with ⟨folded, kept, rfl⟩
  rw [filter_eq_some_iff, decide_eq_true_eq] at kept
  rcases kept with ⟨found, survives⟩
  have summarises := summarises_of_reduce (cellsSorted_of_mem_versionsAt sorted) found
  refine ⟨?_, ?_, summarises⟩
  · rcases (le_reduce_mergeRows_liveness found).2 with ⟨version, versionMem, same⟩
    refine ⟨version, versionMem, ?_⟩
    rw [Survives, same]
    exact survives
  · rw [Row.applyRowDeletion_clustering]
    exact clustering_of_reduce (fun row rowMem => (mem_withKey.mp rowMem).2) found

theorem mem_shownUnder_rows {cells : List Cell} :
    (clustering, cells) ∈ (shownUnder now tableDelete sources).rows ↔
      ShowsRow tableDelete sources clustering ∧ StrictlySorted cellKey cells ∧
        ∀ cell, cell ∈ cells ↔
          ShowsCell (versionsAt clustering sources) cell ∧ Row.liveCell now cell.2 := by
  have reads := @readRows_readUnder tableDelete _ sorted
  have memLive : ∀ (row : Row) (cell : Cell), cell ∈ row.liveCells now ↔
      cell ∈ row.cells ∧ Row.liveCell now cell.2 := by
    intro row cell
    simp [Row.liveCells]
  simp only [shownUnder, List.mem_map, List.mem_filter, Prod.mk.injEq]
  constructor
  · rintro ⟨row, ⟨rowMem, notEntombed⟩, rfl, rfl⟩
    have visible := reads.sorted.lookup_of_mem rowMem
    rw [reads.rowAt] at visible
    rcases summarises_of_visibleRow sorted visible with ⟨survives, _, summarises⟩
    refine ⟨⟨survives, ?_⟩, filter summarises.sorted _, ?_⟩
    · rw [← summarises.entombed_iff]
      simpa using notEntombed
    · intro cell
      rw [memLive, summarises.cells]
  · rintro ⟨⟨survives, notEntombed⟩, cellsSorted, sameCells⟩
    rcases exists_visibleRow survives with ⟨row, visible⟩
    rcases summarises_of_visibleRow sorted visible with ⟨_, rfl, summarises⟩
    have rowMem := (mem_of_lookup ((reads.rowAt _).trans visible)).1
    rw [← summarises.entombed_iff] at notEntombed
    refine ⟨row, ⟨rowMem, by simpa using notEntombed⟩, rfl, ?_⟩
    apply (filter summarises.sorted _).ext_mem cellsSorted
    intro cell
    rw [sameCells, ← summarises.cells]
    exact memLive row cell

theorem shownUnder_rows_sorted :
    StrictlySorted Prod.fst (shownUnder now tableDelete sources).rows := by
  have rowsSorted := (@readRows_readUnder tableDelete _ sorted).sorted
  exact (rowsSorted.filter _).map fun _ => rfl

theorem exists_mem_shownUnder_rows (shows_ : ShowsRow tableDelete sources clustering) :
    ∃ cells, (clustering, cells) ∈ (shownUnder now tableDelete sources).rows := by
  rcases exists_visibleRow shows_.1 with ⟨row, visible⟩
  rcases summarises_of_visibleRow sorted visible with ⟨_, _, summarises⟩
  refine ⟨row.liveCells now, (mem_shownUnder_rows sorted).mpr ⟨shows_, ?_, ?_⟩⟩
  · exact filter summarises.sorted _
  · intro cell
    rw [← summarises.cells]
    simp [Row.liveCells]

end Read

theorem shownUnder_rows_eq_iff {now : Int32} {sources sources' : List Partition}
    (sorted : ∀ source ∈ sources, source.Sorted) (sorted' : ∀ source ∈ sources', source.Sorted) :
    (shownUnder now tableDelete sources).rows = (shownUnder now tableDelete sources').rows ↔
      ∀ clustering, (ShowsRow tableDelete sources clustering ↔
          ShowsRow tableDelete sources' clustering) ∧
        (ShowsRow tableDelete sources clustering → ∀ cell, Row.liveCell now cell.2 →
          (ShowsCell (versionsAt clustering sources) cell ↔
            ShowsCell (versionsAt clustering sources') cell)) := by
  constructor
  · intro same clustering
    refine ⟨⟨?_, ?_⟩, ?_⟩
    · intro shows_
      rcases @exists_mem_shownUnder_rows now _ _ sorted _ shows_ with ⟨cells, present⟩
      rw [same, mem_shownUnder_rows sorted'] at present
      exact present.1
    · intro shows_
      rcases @exists_mem_shownUnder_rows now _ _ sorted' _ shows_ with ⟨cells, present⟩
      rw [← same, mem_shownUnder_rows sorted] at present
      exact present.1
    · intro shows_ cell live
      rcases @exists_mem_shownUnder_rows now _ _ sorted _ shows_ with ⟨cells, present⟩
      have present' := present
      rw [same, mem_shownUnder_rows sorted'] at present'
      rw [mem_shownUnder_rows sorted] at present
      have sameCells := (present.2.2 cell).symm.trans (present'.2.2 cell)
      simpa [live] using sameCells
  · intro same
    apply (shownUnder_rows_sorted sorted).ext_mem (shownUnder_rows_sorted sorted')
    rintro ⟨clustering, cells⟩
    rw [mem_shownUnder_rows sorted, mem_shownUnder_rows sorted']
    rcases same clustering with ⟨sameRow, sameCells⟩
    rw [← sameRow]
    apply and_congr_right
    intro shows_
    apply and_congr_right
    intro _
    apply forall_congr'
    intro cell
    have sameCell : (ShowsCell (versionsAt clustering sources) cell ∧ Row.liveCell now cell.2) ↔
          ShowsCell (versionsAt clustering sources') cell ∧ Row.liveCell now cell.2 :=
      and_congr_left (sameCells shows_ cell)
    rw [sameCell]

theorem mem_staticCells_applyDeletions : cell ∈ staticCellsOf (some (applyDeletions partition)) ↔
      cell ∈ staticCellsOf (some partition) ∧
        partition.deletion.markedForDeleteAt ≤ cell.2.timestamp := by
  simp only [staticCellsOf, bind_some, applyDeletions_staticRow_eq_filter]
  cases partition.staticRow with
  | none => simp
  | some row =>
    have memRetain : cell ∈ (row.retainCells partition.deletion.markedForDeleteAt).cells ↔
        cell ∈ row.cells ∧ partition.deletion.markedForDeleteAt ≤ cell.2.timestamp := by
      simp [Row.retainCells]
    simp only [map_some, filter_some, elim_some, ← memRetain]
    split_ifs with kept
    · rfl
    · simp only [Bool.or_eq_true, Bool.not_eq_true', not_or, Bool.not_eq_false,
        List.isEmpty_iff] at kept
      simp [kept.2]

section Static

variable {tableDelete : DeletionTime} {sources : List Partition}
  (sorted : ∀ source ∈ sources, source.Sorted)

include sorted

theorem mem_staticCells_mergePartitions {cell : Cell} :
    cell ∈ staticCellsOf (mergePartitions sources) ↔
      (∃ version ∈ sources.filterMap Partition.staticRow, cell ∈ version.cells) ∧
        (∀ version ∈ sources.filterMap Partition.staticRow, ∀ other ∈ version.cells,
          cellKey other = cellKey cell → other.2 ≤ cell.2) ∧
        ∀ source ∈ sources, source.deletion.markedForDeleteAt ≤ cell.2.timestamp := by
  by_cases nonempty : sources = []
  · subst nonempty
    simp [staticCellsOf, mergePartitions, mergePartitionMetadata]
  · rcases exists_mergedFrom nonempty (fun source mem => (sorted source mem).rows) with
      ⟨raw, isMerge, from_⟩
    rw [mergePartitions_eq_map, isMerge, map_some, mem_staticCells_applyDeletions,
      newestDeletion_le_iff from_.deletion, ← and_assoc]
    apply and_congr_left'
    rw [staticCellsOf, bind_some, from_.staticRow]
    cases found : reduce mergeRows (sources.filterMap Partition.staticRow) with
    | none => simp [reduce_eq_none_iff.mp found]
    | some folded => exact mem_reduce_mergeRows_iff (cellsSorted_of_mem_staticRows sorted) found

theorem mem_staticCells_readUnder {cell : Cell} :
    cell ∈ staticCellsOf (readUnder tableDelete sources) ↔
      ShowsStaticCell tableDelete sources cell := by
  have inMerge := @mem_staticCells_mergePartitions _ sorted cell
  by_cases nonempty : sources = []
  · subst nonempty
    simp [staticCellsOf, readUnder, ShowsStaticCell, mergePartitions, mergePartitionMetadata]
  · rcases exists_mergedView nonempty (fun source mem => (sorted source mem).rows) with
      ⟨merged, isMerge, view⟩
    rcases applyTableDeletion_eq tableDelete merged with ⟨adopted, newest, same⟩
    rw [isMerge] at inMerge
    change cell ∈ staticCellsOf (some { merged with deletion := adopted }) ↔ _ at inMerge
    rw [readUnder, isMerge, map_some, same, mem_staticCells_applyDeletions, inMerge, newest,
      max_le_iff, newestDeletion_le_iff view.deletion, ShowsStaticCell]
    constructor
    · rintro ⟨⟨written, newest, notDeleted⟩, _, notTruncated⟩
      exact ⟨written, newest, notTruncated, notDeleted⟩
    · rintro ⟨written, newest, notTruncated, notDeleted⟩
      exact ⟨⟨written, newest, notDeleted⟩, notDeleted, notTruncated⟩

theorem staticCells_readUnder_sorted :
    StrictlySorted cellKey (staticCellsOf (readUnder tableDelete sources)) := by
  cases isMerge : mergePartitions sources with
  | none => simp [readUnder, isMerge, staticCellsOf, StrictlySorted]
  | some merged =>
    have mergedSorted := IsMerged.sorted ⟨sources, sorted, isMerge⟩
    rcases applyTableDeletion_eq tableDelete merged with ⟨adopted, _, same⟩
    have readSorted : (applyDeletions { merged with deletion := adopted }).Sorted :=
      applyDeletions_sorted { mergedSorted with }
    rw [readUnder, isMerge, map_some, same, staticCellsOf, bind_some]
    cases isStatic : (applyDeletions { merged with deletion := adopted }).staticRow with
    | none => simp [StrictlySorted]
    | some row => exact readSorted.static row isStatic

end Static

end Ferrosa.Storage
