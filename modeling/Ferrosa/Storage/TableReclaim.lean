import Ferrosa.Storage.ShownRows

/-!
# Reclaiming truncated data

A compaction whose purge policy carries a table tombstone drops the rows and
static cells that it takes to be covered.  It decides row by row, from the newest
liveness among the versions it merges, while a read decides after merging with
the fragments outside.  A row that outside fragments keep alive is dropped with
everything its compacted versions hold: their cells, which the read would show,
and their tombstones, which hide cells outside.
-/

namespace Ferrosa.Storage

open KeyedFold List CellValue DeletionTime
open Option hiding filter_filter filter_map

variable (tableDelete : DeletionTime) (partition : Partition)

/-- Drop the rows and static cells a table tombstone covers, without adopting it. -/
def reclaimCoversTable : Partition :=
  if tableDelete.isLive then partition
  else { partition with
    rows := partition.rows.filter
      (fun row => tableDelete.markedForDeleteAt ≤ row.primaryKeyLiveness.timestamp)
    staticRow := partition.staticRow.bind
      (Row.applyPartitionDeletion tableDelete.markedForDeleteAt) }

def Row.predates (row : Row) (deletion : DeletionTime) : Bool :=
  !deletion.isLive && decide (row.primaryKeyLiveness.timestamp < deletion.markedForDeleteAt)

/-- A compaction under a table tombstone writes the header with the static row, then the merged
rows. -/
def compactPartition (sources : List Partition) : Option Partition :=
  (mergeProjectionMetadata sources).map fun merged =>
    let header := reclaimCoversTable tableDelete (applyDeletions { merged with rows := [] })
    { header with
      rows := (merged.rows.filter (fun row =>
        !(row.predates merged.deletion || row.predates tableDelete))).map Row.applyRowDeletion }

variable {row : Row} {sources : List Partition}

theorem Row.predates_eq_false_iff {deletion : DeletionTime} : row.predates deletion = false ↔
      deletion.markedForDeleteAt ≤ row.primaryKeyLiveness.timestamp := by
  rw [Row.predates]
  by_cases isLive : deletion.isLive
  · simp [isLive, le_of_isLive isLive]
  · simp [isLive]

theorem reclaimCoversTable_rows : (reclaimCoversTable tableDelete partition).rows =
      partition.rows.filter (fun row => !row.predates tableDelete) := by
  unfold reclaimCoversTable
  split_ifs with isLive
  · simp [Row.predates, isLive]
  · apply filter_congr
    intro row _
    rw [Bool.eq_iff_iff]
    simp [Row.predates_eq_false_iff]

@[simp] theorem reclaimCoversTable_deletion :
    (reclaimCoversTable tableDelete partition).deletion = partition.deletion := by
  unfold reclaimCoversTable
  split_ifs <;> rfl

@[simp] theorem reclaimCoversTable_key :
    (reclaimCoversTable tableDelete partition).key = partition.key := by
  unfold reclaimCoversTable
  split_ifs <;> rfl

theorem Row.predates_applyRowDeletion (row : Row) (deletion : DeletionTime) :
    row.applyRowDeletion.predates deletion = row.predates deletion := by
  simp [Row.predates]

theorem compactPartition_eq (sources : List Partition) : compactPartition tableDelete sources =
      (mergePartitions sources).map (reclaimCoversTable tableDelete) := by
  rw [mergePartitions_eq_map, Option.map_map, compactPartition]
  congr 1
  funext merged
  apply Partition.ext
  · simp
  · simp
  · unfold reclaimCoversTable
    split_ifs <;> simp [applyDeletions_staticRow, *]
  · change _ = (reclaimCoversTable tableDelete (applyDeletions merged)).rows
    rw [reclaimCoversTable_rows, applyDeletions_rows, filter_map, filter_filter]
    apply congrArg (List.map _)
    apply filter_congr
    intro row _
    simp only [Function.comp_apply, Row.predates_applyRowDeletion, Bool.not_or]
    rw [Bool.and_comm, Bool.eq_iff_iff]
    simp [Row.predates_eq_false_iff]

theorem rowsOf_compactPartition (sources : List Partition) :
    rowsOf (compactPartition tableDelete sources) = rowsOf (readUnder tableDelete sources) := by
  rw [compactPartition_eq, readUnder]
  cases isMerge : mergePartitions sources with
  | none => rfl
  | some merged =>
    change (reclaimCoversTable tableDelete merged).rows =
      (applyTableDeletion tableDelete merged).rows
    rw [mergePartitions_eq_map, map_eq_some_iff] at isMerge
    rcases isMerge with ⟨raw, _, rfl⟩
    rw [reclaimCoversTable_rows, applyTableDeletion_rows, applyDeletions_rows, filter_map,
      filter_map, filter_filter, filter_filter, List.map_map]
    have sameMap : Row.applyRowDeletion ∘ Row.applyRowDeletion = Row.applyRowDeletion :=
      funext applyRowDeletion_idem
    rw [sameMap]
    apply congrArg (List.map _)
    apply filter_congr
    intro row _
    rw [Bool.eq_iff_iff]
    simp only [Function.comp_apply, Row.predates_applyRowDeletion, Row.applyRowDeletion_liveness,
      applyDeletions_deletion, max_le_iff, Bool.and_eq_true, Bool.not_eq_true',
      Row.predates_eq_false_iff, decide_eq_true_eq]
    tauto

variable {tableDelete}

theorem mem_staticCells_reclaimCoversTable {partition : Partition}
    {cell : Cell} : cell ∈ staticCellsOf (some (reclaimCoversTable tableDelete partition)) ↔
      cell ∈ staticCellsOf (some partition) ∧ tableDelete.markedForDeleteAt ≤ cell.2.timestamp := by
  unfold reclaimCoversTable
  split_ifs with isLive
  · simp [le_of_isLive isLive]
  · simp only [staticCellsOf, bind_some]
    cases partition.staticRow with
    | none => simp
    | some row =>
      simp only [bind_some, Row.applyPartitionDeletion]
      split_ifs with empty
      · rw [List.isEmpty_iff, List.filter_eq_nil_iff] at empty
        simpa using empty cell
      · simp

section Output

variable {tableDelete : DeletionTime} {sources : List Partition}
  (sorted : ∀ source ∈ sources, source.Sorted)

include sorted

theorem mem_staticCells_compactPartition {cell : Cell} :
    cell ∈ staticCellsOf (compactPartition tableDelete sources) ↔
      ShowsStaticCell tableDelete sources cell := by
  have inMerge := @mem_staticCells_mergePartitions _ sorted cell
  rw [compactPartition_eq, ShowsStaticCell]
  cases isMerge : mergePartitions sources with
  | none =>
    rw [isMerge] at inMerge
    constructor
    · intro present
      exact absurd present not_mem_nil
    · rintro ⟨written, newest, _, notDeleted⟩
      exact inMerge.mpr ⟨written, newest, notDeleted⟩
  | some merged =>
    rw [map_some, mem_staticCells_reclaimCoversTable, ← isMerge, inMerge]
    tauto

theorem dominated_by_staticCells_compactPartition {version : Row}
    (versionMem : version ∈ sources.filterMap Partition.staticRow) {cell : Cell}
    (cellMem : cell ∈ version.cells)
    (notTruncated : tableDelete.markedForDeleteAt ≤ cell.2.timestamp)
    (notDeleted : ∀ source ∈ sources, source.deletion.markedForDeleteAt ≤ cell.2.timestamp) :
    ∃ winner ∈ staticCellsOf (compactPartition tableDelete sources),
      cellKey winner = cellKey cell ∧ cell.2 ≤ winner.2 := by
  have staticSorted := cellsSorted_of_mem_staticRows sorted
  rcases exists_reduce_of_mem versionMem with ⟨folded, found⟩
  rcases exists_le_of_mem_reduce_mergeRows staticSorted found versionMem cellMem with
    ⟨winner, winnerMem, winnerKey, winnerLe⟩
  have newer := timestamp_le_of_le winnerLe
  have isNewest := (mem_reduce_mergeRows_iff staticSorted found).mp winnerMem
  refine ⟨winner, (mem_staticCells_compactPartition sorted).mpr ?_, winnerKey, winnerLe⟩
  exact ⟨isNewest.1, isNewest.2, notTruncated.trans newer,
    fun source sourceMem => (notDeleted source sourceMem).trans newer⟩

variable {output : Partition}

theorem sorted_of_compactPartition (isOutput : compactPartition tableDelete sources = some output) :
    output.Sorted := by
  rw [compactPartition_eq, map_eq_some_iff] at isOutput
  rcases isOutput with ⟨merged, isMerge, rfl⟩
  have mergedSorted := IsMerged.sorted ⟨sources, sorted, isMerge⟩
  refine ⟨?_, ?_, ?_⟩
  · rw [reclaimCoversTable_rows]
    exact mergedSorted.rows.filter _
  · intro row rowMem
    rw [reclaimCoversTable_rows] at rowMem
    exact mergedSorted.cells row (mem_filter.mp rowMem).1
  · intro row isStatic
    unfold reclaimCoversTable at isStatic
    split_ifs at isStatic
    · exact mergedSorted.static row isStatic
    · rcases mem_bind_iff.mp isStatic with ⟨original, originalMem, retained⟩
      rw [Row.applyPartitionDeletion] at retained
      split_ifs at retained
      · simp at retained
      · rw [mem_def, Option.some.injEq] at retained
        rw [← retained]
        exact StrictlySorted.filter (mergedSorted.static original originalMem) _

theorem deletion_compactPartition_le_iff
    (isOutput : compactPartition tableDelete sources = some output) (timestamp : Int64) :
    output.deletion.markedForDeleteAt ≤ timestamp ↔
      ∀ source ∈ sources, source.deletion.markedForDeleteAt ≤ timestamp := by
  rw [compactPartition_eq, map_eq_some_iff] at isOutput
  rcases isOutput with ⟨merged, isMerge, rfl⟩
  have nonempty : sources ≠ [] := by
    rintro rfl
    simp [mergePartitions, mergePartitionMetadata] at isMerge
  rcases exists_mergedView nonempty (fun source mem => (sorted source mem).rows) with
    ⟨viewed, isView, view⟩
  rw [isMerge, Option.some.injEq] at isView
  rw [reclaimCoversTable_deletion, isView, newestDeletion_le_iff view.deletion]

theorem mem_rowsOf_compactPartition {row : Row} :
    row ∈ rowsOf (compactPartition tableDelete sources) ↔
      visibleRow tableDelete sources row.clustering = some row := by
  have reads := @readRows_readUnder tableDelete _ sorted
  rw [rowsOf_compactPartition, ← reads.rowAt, reads.sorted.lookup_eq_some_iff]
  simp

end Output

section Replaced

variable {tableDelete : DeletionTime} {fragments remaining compacted after : List Partition}
  (sorted : ∀ source ∈ fragments, source.Sorted)
  (split : fragments.Perm (remaining ++ compacted))
  (replaced : after.Perm (remaining ++ (compactPartition tableDelete compacted).toList))

theorem mem_versionsAt_split_iff (split : fragments.Perm (remaining ++ compacted))
    (clustering : Bytes) (version : Row) :
    version ∈ versionsAt clustering fragments ↔
      version ∈ versionsAt clustering remaining ∨ version ∈ versionsAt clustering compacted := by
  simp only [mem_versionsAt, split.mem_iff, mem_append, or_and_right, exists_or]

include sorted split

theorem sorted_compacted : ∀ source ∈ compacted, source.Sorted :=
  fun source sourceMem => sorted source (split.mem_iff.mpr (mem_append_right _ sourceMem))

include replaced

theorem sorted_replaced : ∀ source ∈ after, source.Sorted := by
  intro source sourceMem
  rcases mem_append.mp (replaced.mem_iff.mp sourceMem) with remains | isOutput
  · exact sorted source (split.mem_iff.mpr (mem_append_left _ remains))
  · exact sorted_of_compactPartition (sorted_compacted sorted split) (by simpa using isOutput)

theorem deletions_replaced_le_iff (timestamp : Int64) :
    (∀ source ∈ after, source.deletion.markedForDeleteAt ≤ timestamp) ↔
      ∀ source ∈ fragments, source.deletion.markedForDeleteAt ≤ timestamp := by
  simp only [replaced.mem_iff, split.mem_iff, forall_mem_append]
  apply and_congr_right
  intro _
  cases isOutput : compactPartition tableDelete compacted with
  | none =>
    have noneCompacted : compacted = [] := by
      by_contra nonempty
      rcases exists_mergedView nonempty (fun source mem =>
        (sorted_compacted sorted split source mem).rows) with ⟨merged, isMerge, _⟩
      simp [compactPartition_eq, isMerge] at isOutput
    simp [noneCompacted]
  | some output =>
    simp [deletion_compactPartition_le_iff (sorted_compacted sorted split) isOutput]

theorem mem_versionsAt_replaced {clustering : Bytes} {version : Row} :
    version ∈ versionsAt clustering after ↔ version ∈ versionsAt clustering remaining ∨
        visibleRow tableDelete compacted clustering = some version := by
  have compactedSorted := sorted_compacted sorted split
  have inOutput : (∃ source ∈ (compactPartition tableDelete compacted).toList,
      version ∈ source.rows) ↔ version ∈ rowsOf (compactPartition tableDelete compacted) := by
    cases compactPartition tableDelete compacted <;> simp [rowsOf]
  have atClustering : visibleRow tableDelete compacted clustering = some version →
      version.clustering = clustering :=
    fun visible => (summarises_of_visibleRow compactedSorted visible).2.1
  simp only [mem_versionsAt, replaced.mem_iff, mem_append, or_and_right, exists_or, inOutput,
    mem_rowsOf_compactPartition compactedSorted]
  apply or_congr_right
  constructor
  · rintro ⟨visible, rfl⟩
    exact visible
  · intro visible
    have same := atClustering visible
    exact ⟨same ▸ visible, same⟩

theorem rowSurvives_replaced_iff (clustering : Bytes) :
    RowSurvives tableDelete after clustering ↔ RowSurvives tableDelete fragments clustering := by
  have compactedSorted := sorted_compacted sorted split
  simp only [RowSurvives, Survives, deletions_replaced_le_iff sorted split replaced,
    mem_versionsAt_replaced sorted split replaced]
  constructor
  · rintro ⟨version, remains | visible, survives⟩
    · exact ⟨version, (mem_versionsAt_split_iff split _ _).mpr (Or.inl remains), survives⟩
    · rcases (summarises_of_visibleRow compactedSorted visible).2.2.livenessMem with
        ⟨origin, originMem, same⟩
      exact ⟨origin, (mem_versionsAt_split_iff split _ _).mpr (Or.inr originMem), same ▸ survives⟩
  · rintro ⟨version, versionMem, survives⟩
    rcases (mem_versionsAt_split_iff split _ _).mp versionMem with remains | inCompacted
    · exact ⟨version, Or.inl remains, survives⟩
    · have survivesThere : Survives tableDelete compacted version :=
        ⟨survives.1, fun source sourceMem => survives.2 source
          (split.mem_iff.mpr (mem_append_right _ sourceMem))⟩
      rcases exists_visibleRow ⟨version, inCompacted, survivesThere⟩ with ⟨row, visible⟩
      have newer := (summarises_of_visibleRow compactedSorted visible).2.2.livenessLe version
        inCompacted
      exact ⟨row, Or.inr visible, survives.1.trans newer,
        fun source sourceMem => (survives.2 source sourceMem).trans newer⟩

theorem staticWritten_replaced_iff (cell : Cell) :
    (∃ version ∈ after.filterMap Partition.staticRow, cell ∈ version.cells) ↔
      (∃ version ∈ remaining.filterMap Partition.staticRow, cell ∈ version.cells) ∨
        ShowsStaticCell tableDelete compacted cell := by
  rw [← mem_staticCells_compactPartition (sorted_compacted sorted split)]
  simp only [(replaced.filterMap _).mem_iff, filterMap_append, mem_append, or_and_right, exists_or]
  apply or_congr_right
  cases compactPartition tableDelete compacted with
  | none => simp [staticCellsOf]
  | some output => cases isStatic : output.staticRow <;> simp [staticCellsOf, isStatic]

theorem showsStaticCell_replaced_iff (cell : Cell) :
    ShowsStaticCell tableDelete after cell ↔ ShowsStaticCell tableDelete fragments cell := by
  have compactedSorted := sorted_compacted sorted split
  have written := staticWritten_replaced_iff sorted split replaced
  have writtenBefore : ∀ cell : Cell,
      (∃ version ∈ fragments.filterMap Partition.staticRow, cell ∈ version.cells) ↔
        (∃ version ∈ remaining.filterMap Partition.staticRow, cell ∈ version.cells) ∨
          ∃ version ∈ compacted.filterMap Partition.staticRow, cell ∈ version.cells := by
    intro cell
    simp only [(split.filterMap _).mem_iff, filterMap_append, mem_append, or_and_right, exists_or]
  have newestOf {versions : List Row} (newest : ∀ version ∈ versions, ∀ other ∈ version.cells,
      cellKey other = cellKey cell → other.2 ≤ cell.2) (other : Cell)
      (isWritten : ∃ version ∈ versions, other ∈ version.cells) :
      cellKey other = cellKey cell → other.2 ≤ cell.2 := by
    rcases isWritten with ⟨version, versionMem, inVersion⟩
    exact newest version versionMem other inVersion
  rw [ShowsStaticCell, ShowsStaticCell, deletions_replaced_le_iff sorted split replaced]
  constructor
  · rintro ⟨isWritten, newest, notTruncated, notDeleted⟩
    refine ⟨?_, ?_, notTruncated, notDeleted⟩
    · rw [writtenBefore]
      rcases (written cell).mp isWritten with remains | shows_
      · exact Or.inl remains
      · exact Or.inr shows_.1
    · intro version versionMem other otherMem sameKey
      rcases (writtenBefore other).mp ⟨version, versionMem, otherMem⟩ with remains | inCompacted
      · exact newestOf newest other ((written other).mpr (Or.inl remains)) sameKey
      · rcases lt_or_ge other.2.timestamp cell.2.timestamp with older | notOlder
        · exact le_of_timestamp_lt older
        · rcases inCompacted with ⟨source, sourceMem, inSource⟩
          rcases dominated_by_staticCells_compactPartition compactedSorted sourceMem inSource
            (notTruncated.trans notOlder) (fun fragment fragmentMem => (notDeleted fragment
              (split.mem_iff.mpr (mem_append_right _ fragmentMem))).trans notOlder) with
            ⟨winner, winnerMem, winnerKey, below⟩
          rw [mem_staticCells_compactPartition compactedSorted] at winnerMem
          exact below.trans (newestOf newest winner ((written winner).mpr (Or.inr winnerMem))
            (winnerKey.trans sameKey))
  · rintro ⟨isWritten, newest, notTruncated, notDeleted⟩
    refine ⟨?_, ?_, notTruncated, notDeleted⟩
    · rw [written]
      rcases (writtenBefore cell).mp isWritten with remains | inCompacted
      · exact Or.inl remains
      · refine Or.inr ⟨inCompacted, ?_, notTruncated, ?_⟩
        · intro version versionMem other otherMem
          exact newestOf newest other
            ((writtenBefore other).mpr (Or.inr ⟨version, versionMem, otherMem⟩))
        · exact fun source sourceMem => notDeleted source
            (split.mem_iff.mpr (mem_append_right _ sourceMem))
    · intro version versionMem other otherMem
      apply newestOf newest
      rw [writtenBefore]
      rcases (written other).mp ⟨version, versionMem, otherMem⟩ with remains | shows_
      · exact Or.inl remains
      · exact Or.inr shows_.1

end Replaced

/-- Every live cell that is shown is in a kept version, and no dropped version supersedes or deletes
a live cell that the kept ones show. -/
structure Expendable (now : Int32) (dropped kept : List Row) : Prop where
  cells : ∀ version ∈ dropped, ∀ cell ∈ version.cells, Row.liveCell now cell.2 →
    ShowsCell (kept ++ dropped) cell → ∃ other ∈ kept, cell ∈ other.cells
  shadows : ∀ version ∈ kept, ∀ cell ∈ version.cells, Row.liveCell now cell.2 →
    ShowsCell kept cell → ∀ other ∈ dropped, other.deletion.markedForDeleteAt ≤ cell.2.timestamp ∧
        ∀ newer ∈ other.cells, cellKey newer = cellKey cell → newer.2 ≤ cell.2

/-- Versions that a compaction drops of a surviving row neither hide nor reveal it, and unless it is
hidden they are expendable. -/
def RowUnharmed (now : Int32) (tableDelete : DeletionTime) (remaining compacted : List Partition)
    (clustering : Bytes) : Prop :=
  RowSurvives tableDelete (remaining ++ compacted) clustering →
  ¬RowSurvives tableDelete compacted clustering →
    let kept := versionsAt clustering remaining
    let dropped := versionsAt clustering compacted
    (Entombed (kept ++ dropped) ↔ Entombed kept) ∧
      (¬Entombed (kept ++ dropped) → Expendable now dropped kept)

theorem expendable_iff {now : Int32} {dropped kept : List Row} :
    Expendable now dropped kept ↔ ∀ cell, Row.liveCell now cell.2 →
      (ShowsCell kept cell ↔ ShowsCell (kept ++ dropped) cell) := by
  constructor
  · rintro ⟨cells, shadows⟩ cell live
    constructor
    · intro shows_
      rcases shows_.1 with ⟨version, versionMem, inVersion⟩
      have unshadowed := shadows version versionMem cell inVersion live shows_
      refine ⟨⟨version, mem_append_left _ versionMem, inVersion⟩, ?_, ?_⟩
      · exact forall_mem_append.mpr
          ⟨shows_.2.1, fun other inDropped => (unshadowed other inDropped).2⟩
      · exact forall_mem_append.mpr
          ⟨shows_.2.2, fun other inDropped => (unshadowed other inDropped).1⟩
    · intro shows_
      refine ⟨?_, ?_, ?_⟩
      · rcases shows_.1 with ⟨version, versionMem, inVersion⟩
        rcases mem_append.mp versionMem with inKept | inDropped
        · exact ⟨version, inKept, inVersion⟩
        · exact cells version inDropped cell inVersion live shows_
      · exact fun other inKept => shows_.2.1 other (mem_append_left _ inKept)
      · exact fun other inKept => shows_.2.2 other (mem_append_left _ inKept)
  · intro same
    constructor
    · intro version _ cell _ live shows_
      exact ((same cell live).mpr shows_).1
    · intro version _ cell _ live shows_ other otherMem
      have shownByAll := (same cell live).mp shows_
      have inAll := mem_append_right kept otherMem
      exact ⟨shownByAll.2.2 other inAll, shownByAll.2.1 other inAll⟩

section Reclaim

variable {now : Int32} {tableDelete : DeletionTime}
  {fragments remaining compacted after : List Partition}
  (sorted : ∀ source ∈ fragments, source.Sorted)
  (split : fragments.Perm (remaining ++ compacted))
  (replaced : after.Perm (remaining ++ (compactPartition tableDelete compacted).toList))

include sorted split replaced

variable {clustering : Bytes}

theorem replaces_of_rowSurvives (survives : RowSurvives tableDelete compacted clustering) :
    ∃ summary, Replaces (versionsAt clustering compacted) (versionsAt clustering remaining) summary
      (versionsAt clustering fragments) (versionsAt clustering after) := by
  rcases exists_visibleRow survives with ⟨row, visible⟩
  refine ⟨row, ?_, mem_versionsAt_split_iff split clustering, ?_⟩
  · exact (summarises_of_visibleRow (sorted_compacted sorted split) visible).2.2
  · intro version
    rw [mem_versionsAt_replaced sorted split replaced, visible, Option.some.injEq, eq_comm]

theorem mem_versionsAt_of_dropped (dropped : ¬RowSurvives tableDelete compacted clustering)
    (version : Row) :
    version ∈ versionsAt clustering after ↔ version ∈ versionsAt clustering remaining := by
  rw [mem_versionsAt_replaced sorted split replaced]
  constructor
  · rintro (remains | visible)
    · exact remains
    · exact absurd (summarises_of_visibleRow (sorted_compacted sorted split) visible).1 dropped
  · exact Or.inl

theorem rowUnharmed_iff (clustering : Bytes) :
    RowUnharmed now tableDelete remaining compacted clustering ↔
      (ShowsRow tableDelete after clustering ↔ ShowsRow tableDelete fragments clustering) ∧
        (ShowsRow tableDelete after clustering → ∀ cell, Row.liveCell now cell.2 →
          (ShowsCell (versionsAt clustering after) cell ↔
            ShowsCell (versionsAt clustering fragments) cell)) := by
  have survivesIff := rowSurvives_replaced_iff sorted split replaced clustering
  have survivesSplit : RowSurvives tableDelete (remaining ++ compacted) clustering ↔
      RowSurvives tableDelete fragments clustering := by
    simp only [RowSurvives, Survives, mem_versionsAt, split.mem_iff]
  rw [RowUnharmed, survivesSplit, ShowsRow, ShowsRow, survivesIff]
  by_cases keepsRow : RowSurvives tableDelete compacted clustering
  · rcases replaces_of_rowSurvives sorted split replaced keepsRow with ⟨summary, replaces⟩
    simp [keepsRow, replaces.entombed_iff, replaces.showsCell_iff]
  · have memAfter := mem_versionsAt_of_dropped sorted split replaced keepsRow
    have memBefore : ∀ version, version ∈ versionsAt clustering fragments ↔
        version ∈ versionsAt clustering remaining ++ versionsAt clustering compacted := by
      intro version
      rw [mem_versionsAt_split_iff split, mem_append]
    simp only [entombed_congr memAfter, entombed_congr memBefore, showsCell_congr memAfter,
      showsCell_congr memBefore, ← expendable_iff, keepsRow]
    by_cases survives : RowSurvives tableDelete fragments clustering
    · simp only [survives, not_false_eq_true, true_and, forall_const]
      rw [not_iff_not]
      tauto
    · simp [survives]

end Reclaim

/-- No row tombstone, cell or static cell newer than the table tombstone is missing from the
output that would be there without it. -/
structure KeepsNewer (tableDelete : DeletionTime) (compacted : List Partition) : Prop where
  rows : ∀ row ∈ rowsOf (compactPartition .live compacted),
    (tableDelete.markedForDeleteAt < row.deletion.markedForDeleteAt ∨
      ∃ cell ∈ row.cells, tableDelete.markedForDeleteAt < cell.2.timestamp) →
    row ∈ rowsOf (compactPartition tableDelete compacted)
  static : ∀ cell ∈ staticCellsOf (compactPartition .live compacted),
    tableDelete.markedForDeleteAt < cell.2.timestamp →
    cell ∈ staticCellsOf (compactPartition tableDelete compacted)

/-- A row that is dropped for the table tombstone alone has nothing newer in any version. -/
def NothingNewerDropped (tableDelete : DeletionTime) (compacted : List Partition) : Prop :=
  ∀ clustering, RowSurvives .live compacted clustering →
    ¬RowSurvives tableDelete compacted clustering →
    ∀ version ∈ versionsAt clustering compacted,
      version.deletion.markedForDeleteAt ≤ tableDelete.markedForDeleteAt ∧
        ∀ cell ∈ version.cells, cell.2.timestamp ≤ tableDelete.markedForDeleteAt

theorem visibleRow_live_of_rowSurvives {clustering : Bytes}
    (survives : RowSurvives tableDelete sources clustering) :
    visibleRow .live sources clustering = visibleRow tableDelete sources clustering := by
  rcases exists_visibleRow survives with ⟨row, visible⟩
  rw [visible]
  rw [visibleRow, map_eq_some_iff] at visible ⊢
  rcases visible with ⟨folded, kept, isRow⟩
  rw [filter_eq_some_iff, decide_eq_true_eq] at kept
  refine ⟨folded, ?_, isRow⟩
  rw [filter_eq_some_iff, decide_eq_true_eq]
  exact ⟨kept.1, le_of_isLive rfl _, kept.2.2⟩

theorem Summarises.newer_of_version {versions : List Row}
    (summarises : Summarises row versions) {timestamp : Int64} {version : Row}
    (versionMem : version ∈ versions)
    (newer : timestamp < version.deletion.markedForDeleteAt ∨
      ∃ cell ∈ version.cells, timestamp < cell.2.timestamp) :
    timestamp < row.deletion.markedForDeleteAt ∨
      ∃ cell ∈ row.cells, timestamp < cell.2.timestamp := by
  rcases newer with deletion | ⟨cell, cellMem, cellNewer⟩
  · exact Or.inl (deletion.trans_le (summarises.deletionLe version versionMem))
  · rcases summarises.dominates version versionMem cell cellMem with older | carried
    · exact Or.inl (cellNewer.trans older)
    · rcases carried with ⟨winner, winnerMem, _, below⟩
      exact Or.inr ⟨winner, winnerMem, cellNewer.trans_le (timestamp_le_of_le below)⟩

theorem keepsNewer_iff {compacted : List Partition} (sorted : ∀ source ∈ compacted, source.Sorted) :
    KeepsNewer tableDelete compacted ↔ NothingNewerDropped tableDelete compacted := by
  constructor
  · intro keeps clustering survives dropped version versionMem
    rcases exists_visibleRow survives with ⟨row, visible⟩
    rcases summarises_of_visibleRow sorted visible with ⟨_, rfl, summarises⟩
    have nothingNewer : ¬(tableDelete.markedForDeleteAt < version.deletion.markedForDeleteAt ∨
        ∃ cell ∈ version.cells, tableDelete.markedForDeleteAt < cell.2.timestamp) := by
      intro newer
      have kept := keeps.rows row ((mem_rowsOf_compactPartition sorted).mpr visible)
        (summarises.newer_of_version versionMem newer)
      rw [mem_rowsOf_compactPartition sorted] at kept
      exact dropped (summarises_of_visibleRow sorted kept).1
    simpa using nothingNewer
  · intro nothingNewer
    constructor
    · intro row rowMem newer
      rw [mem_rowsOf_compactPartition sorted] at rowMem ⊢
      rcases summarises_of_visibleRow sorted rowMem with ⟨survives, _, summarises⟩
      by_cases keepsRow : RowSurvives tableDelete compacted row.clustering
      · rw [← visibleRow_live_of_rowSurvives keepsRow]
        exact rowMem
      · have older := nothingNewer row.clustering survives keepsRow
        rcases newer with deletion | ⟨cell, cellMem, cellNewer⟩
        · rcases summarises.deletionMem with ⟨version, versionMem, same⟩
          rw [← same] at deletion
          exact absurd (older version versionMem).1 (not_le.mpr deletion)
        · rcases ((summarises.cells cell).mp cellMem).1 with ⟨version, versionMem, inVersion⟩
          exact absurd ((older version versionMem).2 cell inVersion) (not_le.mpr cellNewer)
    · intro cell cellMem newer
      rw [mem_staticCells_compactPartition sorted] at cellMem ⊢
      exact ⟨cellMem.1, cellMem.2.1, newer.le, cellMem.2.2.2⟩

def truncatedAt10 : DeletionTime := ⟨10, 0⟩

def insertedAt15 : Partition :=
  ⟨⟨0, [1]⟩, .live, none, [⟨[1], [(0, .live [7] 15)], .live, .withTimestamp 15⟩]⟩

def updatedAt20 : Partition :=
  ⟨⟨0, [1]⟩, .live, none, [⟨[1], [(0, .live [9] 20)], .live, .none⟩]⟩

def writtenAt5 : Partition :=
  ⟨⟨0, [1]⟩, .live, none, [⟨[1], [(1, .live [5] 5)], .live, .withTimestamp 5⟩]⟩

end Ferrosa.Storage
