import Ferrosa.Storage.PointReads

/-!
# The static row of a read

A read folds the static rows of its sources and drops the cells that are older than the newest
deletion it sees.  There is none left exactly if no source had one, or if a deletion is newer
than every static cell.
-/

namespace Ferrosa.Storage

open KeyedFold Option

/-- The deletion that suppresses in a read: the newest one of its sources, or the table
tombstone if that is newer. -/
def readDeletion (tableDelete : DeletionTime) (sources : List Partition) : DeletionTime :=
  let own := ((sources.map Partition.deletion).argmax DeletionTime.markedForDeleteAt).getD .live
  if !tableDelete.isLive ∧ tableDelete.markedForDeleteAt > own.markedForDeleteAt then tableDelete
  else own

/-- No source has a static row, or all static cells are older than a deletion. -/
def StaticHidden (tableDelete : DeletionTime) (sources : List Partition) : Prop :=
  (∀ source ∈ sources, source.staticRow = none) ∨
    ((readDeletion tableDelete sources).isLive = false ∧
      ∀ source ∈ sources, ∀ row ∈ source.staticRow, ∀ cell ∈ row.cells,
        cell.2.timestamp < (readDeletion tableDelete sources).markedForDeleteAt)

theorem reduce_mergeRows_cells_eq_nil_iff {rows : List Row} {folded : Row}
    (found : reduce mergeRows rows = some folded) :
    folded.cells = [] ↔ ∀ row ∈ rows, row.cells = [] := by
  refine reduce_rec (motive := fun rows folded =>
    folded.cells = [] ↔ ∀ row ∈ rows, row.cells = []) ?_ ?_ found
  · simp
  · intro init last initFolded _ ih
    rw [mergeRows_cells, mergeCells_eq_nil_iff, ih, List.forall_mem_append,
      List.forall_mem_singleton]

variable {deletion : DeletionTime} {versions : List Row} {sources : List Partition}
  {merged : Partition}

theorem survivingStatic_eq_none_iff : survivingStatic deletion versions = none ↔
      versions = [] ∨ (deletion.isLive = false ∧ ∀ row ∈ versions, ∀ cell ∈ row.cells,
          cell.2.timestamp < deletion.markedForDeleteAt) := by
  have retained := map_reduce (Row.retainCells_mergeRows deletion.markedForDeleteAt) versions
  rw [survivingStatic, retained]
  cases folded : reduce mergeRows (versions.map (Row.retainCells deletion.markedForDeleteAt)) with
  | none =>
    have empty : versions = [] := by simpa using reduce_eq_none_iff.mp folded
    simp [empty]
  | some row =>
    have nonempty : versions ≠ [] := by
      rintro rfl
      simp at folded
    have cells := reduce_mergeRows_cells_eq_nil_iff folded
    simp only [List.forall_mem_map, Row.retainCells, List.filter_eq_nil_iff, decide_eq_true_eq,
      not_le] at cells
    rw [filter_some, ← cells]
    simp [nonempty]

theorem filter_retainCells_survivingStatic {older newer : DeletionTime}
    (order : older.markedForDeleteAt ≤ newer.markedForDeleteAt)
    (staysDead : older.isLive = false → newer.isLive = false) :
    ((survivingStatic older versions).map (Row.retainCells newer.markedForDeleteAt)).filter
        (fun row => newer.isLive || !row.cells.isEmpty) =
      survivingStatic newer versions := by
  unfold survivingStatic
  cases reduce mergeRows versions with
  | none => rfl
  | some row =>
    by_cases kept : older.isLive || !(row.retainCells older.markedForDeleteAt).cells.isEmpty
    · simp [filter_some, kept, Row.retainCells_retainCells order]
    · simp only [Bool.or_eq_true, Bool.not_eq_true', not_or, Bool.not_eq_true,
        Bool.not_eq_false, List.isEmpty_iff] at kept
      have empty : (row.retainCells newer.markedForDeleteAt).cells = [] := by
        rw [← Row.retainCells_retainCells order]
        change (row.retainCells older.markedForDeleteAt).cells.filter _ = []
        rw [kept.2]
        rfl
      simp [filter_some, kept, empty, staysDead kept.1]

theorem mergePartitions_static (isMerge : mergePartitions sources = some merged) :
    (sources.map Partition.deletion).argmax DeletionTime.markedForDeleteAt = some merged.deletion ∧
      merged.staticRow =
        survivingStatic merged.deletion (sources.filterMap Partition.staticRow) := by
  match sources with
  | [] => cases isMerge
  | [only] =>
    obtain rfl : applyDeletions only = merged := Option.some.inj isMerge
    rw [applyDeletions_staticRow_eq_filter, applyDeletions_deletion]
    refine ⟨rfl, ?_⟩
    cases isStatic : only.staticRow <;> simp [isStatic, survivingStatic]
  | first :: second :: rest =>
    rcases exists_mergedView_of_two first second rest with ⟨other, isOther, view⟩
    obtain rfl := Option.some.inj (isMerge.symm.trans isOther)
    exact ⟨view.deletion, view.staticRow⟩

theorem applyDeletions_static {partition : Partition}
    (order : deletion.markedForDeleteAt ≤ partition.deletion.markedForDeleteAt)
    (staysDead : deletion.isLive = false → partition.deletion.isLive = false)
    (isStatic : partition.staticRow = survivingStatic deletion versions) :
    (applyDeletions partition).staticRow = survivingStatic partition.deletion versions := by
  rw [applyDeletions_staticRow_eq_filter, isStatic]
  exact filter_retainCells_survivingStatic order staysDead

theorem mergePartitions_eq_none_iff : mergePartitions sources = none ↔ sources = [] := by
  match sources with
  | [] => exact ⟨fun _ => rfl, fun _ => rfl⟩
  | [_] => simp [mergePartitions, mergePartitionMetadata]
  | _ :: _ :: _ => simp [mergePartitions, mergePartitionMetadata]

theorem applyTableDeletion_static (tableDelete : DeletionTime)
    (newest : (sources.map Partition.deletion).argmax DeletionTime.markedForDeleteAt =
      some merged.deletion) (isStatic : merged.staticRow =
      survivingStatic merged.deletion (sources.filterMap Partition.staticRow)) :
    (applyTableDeletion tableDelete merged).deletion = readDeletion tableDelete sources ∧
      (applyTableDeletion tableDelete merged).staticRow =
        survivingStatic (readDeletion tableDelete sources)
          (sources.filterMap Partition.staticRow) := by
  rw [applyTableDeletion, applyDeletions_deletion, readDeletion, newest, getD_some]
  split_ifs with adopts
  · exact ⟨rfl, @applyDeletions_static _ _ { merged with deletion := tableDelete } adopts.2.le
      (fun _ => by simpa using adopts.1) isStatic⟩
  · exact ⟨rfl, applyDeletions_static le_rfl id isStatic⟩

theorem survivingStatic_filterMap_eq_none_iff {tableDelete : DeletionTime} :
    survivingStatic (readDeletion tableDelete sources)
        (sources.filterMap Partition.staticRow) = none ↔
      StaticHidden tableDelete sources := by
  rw [survivingStatic_eq_none_iff, StaticHidden, List.filterMap_eq_nil_iff]
  constructor
  · rintro (noStatic | ⟨notLive, older⟩)
    · exact Or.inl noStatic
    · exact Or.inr ⟨notLive, fun source present row isStatic =>
        older row (List.mem_filterMap.mpr ⟨source, present, isStatic⟩)⟩
  · rintro (noStatic | ⟨notLive, older⟩)
    · exact Or.inl noStatic
    · refine Or.inr ⟨notLive, fun row isStatic => ?_⟩
      rcases List.mem_filterMap.mp isStatic with ⟨source, present, isRow⟩
      exact older source present row isRow

namespace StoreView

variable (token : Bytes → Int64) (view : StoreView) (key : DecoratedKey)

theorem staticRow_readWithView (n : ℕ) (start : Option Bytes) :
    (view.readWithView token key n start).bind Partition.staticRow =
      survivingStatic (readDeletion (view.tableDeletion token) (view.readSources key n start))
        ((view.readSources key n start).filterMap Partition.staticRow) := by
  rw [readWithView]
  generalize view.readSources key n start = sources
  generalize view.tableDeletion token = tableDelete
  cases isMerge : mergePartitions sources with
  | none =>
    rw [mergePartitions_eq_none_iff.mp isMerge]
    rfl
  | some merged =>
    rcases mergePartitions_static isMerge with ⟨newest, isStatic⟩
    rcases applyTableDeletion_static tableDelete newest isStatic with ⟨deletion, suppressed⟩
    simp only [map_some, bind_some]
    generalize applyTableDeletion tableDelete merged = partition at deletion suppressed
    rw [← deletion] at suppressed ⊢
    split_ifs
    · exact applyDeletions_static le_rfl id suppressed
    · exact suppressed

theorem staticRow_eq_none_iff (n : ℕ) (start : Option Bytes) :
    (view.readWithView token key n start).bind Partition.staticRow = none ↔
      StaticHidden (view.tableDeletion token) (view.readSources key n start) := by
  rw [staticRow_readWithView, survivingStatic_filterMap_eq_none_iff]

theorem staticRow_readClusteringRow_eq_none_iff (clustering : Bytes) :
    (view.readClusteringRow token key clustering).bind Partition.staticRow = none ↔
      visibleRow (view.tableDeletion token) (view.pointSources key clustering) clustering = none ∨
        StaticHidden (view.tableDeletion token) (view.pointSources key clustering) := by
  have rows := readRows_merge (view.tableDeletion token)
    (fun source => view.sorted_of_mem_pointSources key clustering)
  rw [← rows.rowAt clustering, lookup_rowsOf, readClusteringRow]
  generalize view.pointSources key clustering = sources
  generalize view.tableDeletion token = tableDelete
  cases isMerge : mergePartitions sources with
  | none => simp
  | some merged =>
    rcases mergePartitions_static isMerge with ⟨newest, isStatic⟩
    rcases applyTableDeletion_static tableDelete newest isStatic with ⟨_, suppressed⟩
    simp only [map_some, bind_some]
    split_ifs with absent
    · rw [List.isEmpty_iff] at absent
      have missing : lookup Row.clustering clustering (applyTableDeletion tableDelete merged).rows
          = none := by
        rw [← lookup_withKey, absent, lookup_nil]
      simp [missing]
    · have found : lookup Row.clustering clustering (applyTableDeletion tableDelete merged).rows
          ≠ none := by
        rw [Ne, lookup_eq_none_iff]
        simpa [withKey] using absent
      rw [bind_some, suppressed, survivingStatic_filterMap_eq_none_iff]
      simp [found]

end StoreView

end Ferrosa.Storage
