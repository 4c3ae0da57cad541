import Ferrosa.Storage.LimitedReads

/-!
# Partitions that have been read

What a read returns has been suppressed already: merging it alone changes nothing, and neither
does merging a second copy of it after the first.
-/

namespace Ferrosa.Storage

open KeyedFold List Option

/-- Suppression has nothing left to remove from the rows. -/
structure Partition.Settled (partition : Partition) : Prop where
  sorted : partition.Sorted
  survives : ∀ row ∈ partition.rows,
    partition.deletion.markedForDeleteAt ≤ row.primaryKeyLiveness.timestamp
  suppressed : ∀ row ∈ partition.rows, row.applyRowDeletion = row

variable {partition : Partition}

theorem settled_applyDeletions (sorted : partition.Sorted) :
    (applyDeletions partition).Settled := by
  constructor
  · exact applyDeletions_sorted sorted
  · intro row present
    rw [applyDeletions_rows] at present
    rcases mem_map.mp present with ⟨source, kept, rfl⟩
    simpa using (mem_filter.mp kept).2
  · intro row present
    rw [applyDeletions_rows] at present
    rcases mem_map.mp present with ⟨source, _, rfl⟩
    exact applyRowDeletion_idem source

namespace Partition.Settled

variable {partition : Partition} (settled : partition.Settled)

include settled

theorem of_sublist {rows : List Row} (sublist : rows.Sublist partition.rows) :
    Settled { partition with rows } := by
  constructor
  · exact ⟨settled.sorted.rows.sublist sublist,
      fun row present => settled.sorted.cells row (sublist.subset present),
      settled.sorted.static⟩
  · exact fun row present => settled.survives row (sublist.subset present)
  · exact fun row present => settled.suppressed row (sublist.subset present)

theorem applyDeletions_rows_eq : (applyDeletions partition).rows = partition.rows := by
  have keepsAll : partition.rows.filter (fun row =>
      partition.deletion.markedForDeleteAt ≤ row.primaryKeyLiveness.timestamp) =
        partition.rows := by
    rw [filter_eq_self]
    exact fun row present => decide_eq_true (settled.survives row present)
  rw [applyDeletions_rows, keepsAll]
  exact (map_congr_left settled.suppressed).trans (map_id _)

end Partition.Settled

theorem applyTableDeletion_live (partition : Partition) :
    applyTableDeletion .live partition = applyDeletions partition := rfl

theorem readRows_mergePartitions {sources : List Partition}
    (sorted : ∀ source ∈ sources, StrictlySorted Row.clustering source.rows) :
    ReadRows .live sources (rowsOf (mergePartitions sources)) := by
  have read := readRows_merge .live sorted
  rw [mergePartitions_eq_map] at read ⊢
  cases merged : mergeProjectionMetadata sources with
  | none =>
    rw [merged] at read
    exact read
  | some raw =>
    rw [merged] at read
    simpa only [map_some, rowsOf, elim_some, applyTableDeletion_live,
      applyDeletions_applyDeletions_rows] using read

theorem Partition.Settled.readRows (settled : partition.Settled) :
    ReadRows .live [partition] partition.rows := by
  have sorted : ∀ source ∈ [partition], StrictlySorted Row.clustering source.rows := by
    intro source present
    rw [mem_singleton.mp present]
    exact settled.sorted.rows
  have read := readRows_mergePartitions sorted
  change ReadRows .live [partition] (applyDeletions partition).rows at read
  rwa [settled.applyDeletions_rows_eq] at read

structure Row.Absorbs (row version : Row) : Prop where
  sorted : row.CellsSorted
  deletion : version.deletion.markedForDeleteAt ≤ row.deletion.markedForDeleteAt
  liveness : version.primaryKeyLiveness.timestamp ≤ row.primaryKeyLiveness.timestamp
  cells : ∀ cell ∈ version.cells, ∃ own ∈ row.cells, cellKey own = cellKey cell ∧ cell.2 ≤ own.2

namespace Row.Absorbs

variable {row version : Row}

theorem refl (sorted : version.CellsSorted) : version.Absorbs version :=
  ⟨sorted, le_rfl, le_rfl, fun cell present => ⟨cell, present, rfl, le_rfl⟩⟩

theorem mergeRows (absorbs : row.Absorbs version) {other : Row} (sorted : other.CellsSorted) :
    (mergeRows row other).Absorbs version := by
  have found : reduce Storage.mergeRows [row, other] = some (Storage.mergeRows row other) := rfl
  have bothSorted : ∀ either ∈ [row, other], either.CellsSorted := by
    intro either present
    rcases mem_pair.mp present with rfl | rfl
    · exact absorbs.sorted
    · exact sorted
  refine ⟨mergeCells_sorted row.cells other.cells, ?_, ?_, ?_⟩
  · exact absorbs.deletion.trans (le_reduce_mergeRows_deletion found mem_cons_self)
  · apply absorbs.liveness.trans
    apply @liveness_le_of_subset [row] [row, other] _ _ _ rfl found
    simp
  · intro cell present
    rcases absorbs.cells cell present with ⟨own, ownPresent, sameKey, below⟩
    rcases exists_le_of_mem_reduce_mergeRows bothSorted found mem_cons_self ownPresent with
      ⟨winner, winnerPresent, winnerKey, winnerAbove⟩
    exact ⟨winner, winnerPresent, winnerKey.trans sameKey, below.trans winnerAbove⟩

theorem foldl (absorbs : row.Absorbs version) {others : List Row}
    (sorted : ∀ other ∈ others, other.CellsSorted) :
    (others.foldl Storage.mergeRows row).Absorbs version := by
  induction others generalizing row with
  | nil => exact absorbs
  | cons other rest ih =>
    apply ih (absorbs.mergeRows (sorted other mem_cons_self))
    exact fun later present => sorted later (mem_cons_of_mem _ present)

end Row.Absorbs

section Copies

variable {first : Partition} {rest : List Partition}
  {clustering : Bytes} {tableDelete : DeletionTime}

theorem versionsAt_filter_ne (absent : withKey Row.clustering clustering first.rows = []) :
    versionsAt clustering (rest.filter (· ≠ first)) = versionsAt clustering rest := by
  induction rest with
  | nil => rfl
  | cons source rest ih =>
    by_cases copy : source = first
    · rw [filter_cons_of_neg (by simpa using copy), versionsAt_cons, copy, absent, ih]
      rfl
    · rw [filter_cons_of_pos (by simpa using copy), versionsAt_cons, versionsAt_cons, ih]

theorem foldl_versionsAt_filter_ne {version row : Row}
    (present : withKey Row.clustering clustering first.rows = [version])
    (sortedVersion : version.CellsSorted) (sorted : ∀ source ∈ rest, source.Sorted)
    (absorbs : row.Absorbs version) :
    (versionsAt clustering (rest.filter (· ≠ first))).foldl mergeRows row =
      (versionsAt clustering rest).foldl mergeRows row := by
  induction rest generalizing row with
  | nil => rfl
  | cons source rest ih =>
    have sortedRest : ∀ later ∈ rest, later.Sorted :=
      fun later inRest => sorted later (mem_cons_of_mem _ inRest)
    rw [versionsAt_cons, foldl_append]
    by_cases copy : source = first
    · rw [filter_cons_of_neg (by simpa using copy), copy, present, foldl_cons,
        foldl_nil, mergeRows_eq_left absorbs.sorted sortedVersion absorbs.deletion
          absorbs.liveness absorbs.cells]
      exact ih sortedRest absorbs
    · rw [filter_cons_of_pos (by simpa using copy), versionsAt_cons, foldl_append]
      apply ih sortedRest
      apply absorbs.foldl
      exact fun other inSource =>
        (sorted source mem_cons_self).cells other (mem_withKey.mp inSource).1

theorem reduce_versionsAt_filter_ne (clustering : Bytes) (sortedFirst : first.Sorted)
    (sorted : ∀ source ∈ rest, source.Sorted) :
    reduce mergeRows (versionsAt clustering (first :: rest.filter (· ≠ first))) =
      reduce mergeRows (versionsAt clustering (first :: rest)) := by
  rw [versionsAt_cons, versionsAt_cons]
  have atMostOne := sortedFirst.rows.withKey_eq clustering
  cases found : lookup Row.clustering clustering first.rows with
  | none =>
    rw [found] at atMostOne
    rw [versionsAt_filter_ne atMostOne]
  | some version =>
    rw [found] at atMostOne
    have sortedVersion := sortedFirst.cells version (mem_of_lookup found).1
    rw [atMostOne]
    exact congrArg some (foldl_versionsAt_filter_ne atMostOne sortedVersion sorted
      (Row.Absorbs.refl sortedVersion))

theorem readRows_filter_ne_iff {rows : List Row} (sortedFirst : first.Sorted)
    (sorted : ∀ source ∈ rest, source.Sorted) :
    ReadRows tableDelete (first :: rest.filter (· ≠ first)) rows ↔
      ReadRows tableDelete (first :: rest) rows := by
  have sameSources : ∀ source, source ∈ first :: rest.filter (· ≠ first) ↔
      source ∈ first :: rest := by
    intro source
    by_cases copy : source = first <;> simp [copy]
  have sameRow : visibleRow tableDelete (first :: rest.filter (· ≠ first)) =
      visibleRow tableDelete (first :: rest) := by
    funext clustering
    rw [visibleRow, visibleRow, reduce_versionsAt_filter_ne clustering sortedFirst sorted]
    congr 2
    funext row
    exact decide_eq_decide.mpr (by simp only [Survives, sameSources])
  constructor
  · exact fun read => ⟨read.sorted, fun clustering => by rw [read.rowAt, sameRow]⟩
  · exact fun read => ⟨read.sorted, fun clustering => by rw [read.rowAt, sameRow]⟩

theorem readRows_filterMap_iff {α : Type} {data : Option Partition} {items : List α}
    {contents : α → Option Partition} {keep : α → Bool}
    (copies : ∀ item ∈ items, keep item = false → contents item = data)
    (sortedData : ∀ source ∈ data, source.Sorted)
    (sorted : ∀ item ∈ items, ∀ source ∈ contents item, source.Sorted) {rows : List Row} :
    ReadRows tableDelete (data.toList ++ (items.filter keep).filterMap contents) rows ↔
      ReadRows tableDelete (data.toList ++ items.filterMap contents) rows := by
  have sortedItems : ∀ source ∈ items.filterMap contents, source.Sorted := by
    intro source present
    rcases mem_filterMap.mp present with ⟨item, inItems, isContents⟩
    exact sorted item inItems source isContents
  have sortedKept : ∀ source ∈ (items.filter keep).filterMap contents, source.Sorted :=
    fun source present => sortedItems source ((filter_sublist.filterMap _).subset present)
  cases data with
  | none =>
    have same : (items.filter keep).filterMap contents = items.filterMap contents := by
      rw [filterMap_filter]
      apply filterMap_congr
      intro item present
      cases kept : keep item with
      | true => rfl
      | false => simpa using (copies item present kept).symm
    rw [same]
  | some first =>
    have same : ((items.filter keep).filterMap contents).filter (· ≠ first) =
        (items.filterMap contents).filter (· ≠ first) := by
      rw [filterMap_filter, filter_filterMap, filter_filterMap]
      apply filterMap_congr
      intro item present
      cases kept : keep item with
      | true => rfl
      | false => simp [copies item present kept, filter_some]
    change ReadRows tableDelete (first :: (items.filter keep).filterMap contents) rows ↔
      ReadRows tableDelete (first :: items.filterMap contents) rows
    rw [← readRows_filter_ne_iff (sortedData first rfl) sortedKept, same,
      readRows_filter_ne_iff (sortedData first rfl) sortedItems]

end Copies

namespace StoreView

variable {token : Bytes → Int64} {view : StoreView} {key : DecoratedKey}

theorem settled_read (sorted : ∀ source ∈ view.readSources key 0 none, source.Sorted)
    {partition : Partition} (found : view.read token key = some partition) :
    partition.Settled := by
  rcases map_eq_some_iff.mp found with ⟨merged, isMerge, rfl⟩
  have nonempty : view.readSources key 0 none ≠ [] := by
    intro empty
    rw [empty] at isMerge
    simp [mergePartitions, mergePartitionMetadata] at isMerge
  rcases exists_mergedFrom nonempty fun source present => (sorted source present).rows with
    ⟨raw, isRaw, from_⟩
  rw [mergePartitions_eq_map, isRaw, map_some, Option.some.injEq] at isMerge
  have sortedMerged : merged.Sorted := isMerge ▸ applyDeletions_sorted (from_.sorted sorted)
  apply settled_applyDeletions
  split_ifs
  · exact { sortedMerged with }
  · exact sortedMerged

end StoreView

end Ferrosa.Storage
