import Ferrosa.Storage.ReadView

/-!
# The rows a read returns

Whatever its sources are, a read returns at every clustering the fold of the
versions its sources have there, provided the newest liveness among them is not
older than any deletion the read has seen.
-/

namespace Ferrosa.Storage

open KeyedFold
open List hiding lookup_cons lookup_eq_none_iff

namespace SSTable

theorem probe_eq (sstable : SSTable) (key : DecoratedKey) :
    sstable.probe key = sstable.get key := by
  unfold probe
  split_ifs with outside rejected
  · rw [PartitionTable.get, eq_comm, lookup_eq_none_iff]
    rintro partition present rfl
    rcases sstable.inBounds partition present with ⟨lower, upper⟩
    rcases outside with below | above
    · exact absurd below (not_lt.mpr lower)
    · exact absurd above (not_lt.mpr upper)
  · rw [PartitionTable.get, eq_comm, lookup_eq_none_iff]
    rintro partition present rfl
    simp [sstable.noFalseNegative partition present] at rejected
  · rfl

theorem collectRows_eq (wanted : Row → Bool) {rowLimit : ℕ} {collected : List Row}
    (room : collected.length < rowLimit) (rows : List Row) :
    collectRows wanted rowLimit collected rows =
      collected ++ (rows.filter wanted).take (rowLimit - collected.length) := by
  induction rows generalizing collected with
  | nil => simp [collectRows]
  | cons row rest ih =>
    have positive : rowLimit - collected.length = rowLimit - (collected.length + 1) + 1 := by
      omega
    unfold collectRows
    by_cases wants : wanted row
    · rw [if_pos wants, filter_cons_of_pos wants, positive, take_succ_cons]
      split_ifs with full
      · simp only [length_append, length_singleton, ge_iff_le] at full
        have done : rowLimit - (collected.length + 1) = 0 := by omega
        simp [done]
      · simp only [length_append, length_singleton, ge_iff_le, not_le] at full
        rw [ih (by simpa using full)]
        simp
    · rw [if_neg wants, filter_cons_of_neg wants, ih room]

theorem scanForClustering_eq {rows : List Row} (sorted : StrictlySorted Row.clustering rows)
    (clustering : Bytes) :
    scanForClustering clustering rows = lookup Row.clustering clustering rows := by
  induction rows with
  | nil => rfl
  | cons row rest ih =>
    rw [scanForClustering, lookup_cons]
    by_cases below : row.clustering < clustering
    · rw [if_pos below, if_neg below.ne, ih sorted.tail]
    · rw [if_neg below]
      split_ifs with same
      · rfl
      · have above : clustering < row.clustering :=
          lt_of_le_of_ne (not_lt.mp below) (Ne.symm same)
        rw [eq_comm, lookup_eq_none_iff]
        intro later present
        exact (above.trans (sorted.head_lt present)).ne'

theorem getClusteringRow_eq (sstable : SSTable) (key : DecoratedKey) (clustering : Bytes) :
    sstable.getClusteringRow key clustering = (sstable.get key).bind (fun partition =>
        (lookup Row.clustering clustering partition.rows).map
          (fun row => { partition with rows := [row] })) := by
  rw [getClusteringRow, probe_eq]
  cases found : sstable.get key with
  | none => rfl
  | some partition =>
    rcases mem_of_lookup found with ⟨present, rfl⟩
    have sorted := sstable.rowsSorted partition present
    simp only [Option.bind_some]
    congr 1
    cases indexed : sstable.rowIndex partition.key with
    | none => exact scanForClustering_eq sorted clustering
    | some index =>
      apply Option.ext
      intro row
      rw [sorted.lookup_eq_some_iff, Option.filter_eq_some_iff, Option.bind_eq_some_iff,
        decide_eq_true_eq]
      constructor
      · rintro ⟨⟨position, _, atPosition⟩, same⟩
        exact ⟨mem_of_getElem? atPosition, same⟩
      · rintro ⟨inRows, rfl⟩
        rcases mem_iff_getElem?.mp inRows with ⟨position, atPosition⟩
        exact ⟨⟨position, sstable.indexed partition present index indexed position row
          atPosition, atPosition⟩, rfl⟩

end SSTable

theorem applyRowDeletion_idem (row : Row) :
    row.applyRowDeletion.applyRowDeletion = row.applyRowDeletion := by
  rw [Row.applyRowDeletion_eq row.applyRowDeletion, Row.applyRowDeletion_deletion,
    Row.applyRowDeletion_eq row, Row.retainCells_retainCells (le_refl _)]

theorem applyDeletions_applyDeletions_rows (partition : Partition) :
    (applyDeletions (applyDeletions partition)).rows = (applyDeletions partition).rows := by
  rw [applyDeletions_rows (applyDeletions partition), applyDeletions_deletion, applyDeletions_rows,
    filter_map, filter_filter, map_map]
  have sameMap : Row.applyRowDeletion ∘ Row.applyRowDeletion = Row.applyRowDeletion :=
    funext applyRowDeletion_idem
  simp [sameMap]

variable (tableDelete : DeletionTime)

theorem applyTableDeletion_eq (partition : Partition) : ∃ adopted : DeletionTime,
      adopted.markedForDeleteAt =
        max partition.deletion.markedForDeleteAt tableDelete.markedForDeleteAt ∧
      applyTableDeletion tableDelete partition =
        applyDeletions { partition with deletion := adopted } := by
  unfold applyTableDeletion
  split_ifs with newer
  · exact ⟨tableDelete, (max_eq_right (le_of_lt newer.2)).symm, rfl⟩
  · refine ⟨partition.deletion, (max_eq_left ?_).symm, rfl⟩
    by_contra above
    rw [not_le] at above
    exact newer ⟨by simpa using DeletionTime.not_isLive_of_lt above, above⟩

theorem applyTableDeletion_rows (partition : Partition) :
    (applyTableDeletion tableDelete partition).rows = (partition.rows.filter (fun row =>
        max partition.deletion.markedForDeleteAt tableDelete.markedForDeleteAt ≤
          row.primaryKeyLiveness.timestamp)).map Row.applyRowDeletion := by
  rcases applyTableDeletion_eq tableDelete partition with ⟨adopted, newest, same⟩
  rw [same, applyDeletions_rows, newest]

def rowsOf (partition : Option Partition) : List Row := partition.elim [] Partition.rows

/-- No deletion among the sources and not the table tombstone is newer than the row. -/
def Survives (sources : List Partition) (row : Row) : Prop :=
  tableDelete.markedForDeleteAt ≤ row.primaryKeyLiveness.timestamp ∧
    ∀ source ∈ sources, source.deletion.markedForDeleteAt ≤ row.primaryKeyLiveness.timestamp
  deriving Decidable

def visibleRow (sources : List Partition) (clustering : Bytes) : Option Row :=
  ((reduce mergeRows (versionsAt clustering sources)).filter
    (fun row => Survives tableDelete sources row)).map Row.applyRowDeletion

/-- `rows` are the visible rows of the sources in clustering order. -/
structure ReadRows (tableDelete : DeletionTime) (sources : List Partition) (rows : List Row) :
    Prop where
  sorted : StrictlySorted Row.clustering rows
  rowAt : ∀ clustering, lookup Row.clustering clustering rows =
    visibleRow tableDelete sources clustering

variable {sources : List Partition}

theorem survivingRow_filter {merged : Partition} (view : MergedView sources merged)
    (clustering : Bytes) :
    ((survivingRow merged.deletion.markedForDeleteAt (versionsAt clustering sources)).filter
        (fun row => max merged.deletion.markedForDeleteAt tableDelete.markedForDeleteAt ≤
          row.primaryKeyLiveness.timestamp)).map Row.applyRowDeletion =
      visibleRow tableDelete sources clustering := by
  have newest := newestDeletion_le_iff view.deletion
  unfold survivingRow visibleRow
  cases reduce mergeRows (versionsAt clustering sources) with
  | none => rfl
  | some folded =>
    simp only [Option.filter_some, decide_eq_true_eq, Survives,
      ← newest folded.primaryKeyLiveness.timestamp]
    by_cases own : merged.deletion.markedForDeleteAt ≤ folded.primaryKeyLiveness.timestamp
    · by_cases table : tableDelete.markedForDeleteAt ≤ folded.primaryKeyLiveness.timestamp <;>
        simp [own, table, Option.filter_some, applyRowDeletion_idem]
    · simp [own]

theorem readRows_merge (sorted : ∀ source ∈ sources, StrictlySorted Row.clustering source.rows) :
    ReadRows tableDelete sources
      (rowsOf ((mergePartitions sources).map (applyTableDeletion tableDelete))) := by
  by_cases nonempty : sources = []
  · subst nonempty
    exact ⟨List.Pairwise.nil, fun clustering => rfl⟩
  · rcases exists_mergedView nonempty sorted with ⟨merged, isMerge, view⟩
    rw [isMerge]
    constructor
    · change StrictlySorted Row.clustering (applyTableDeletion tableDelete merged).rows
      rw [applyTableDeletion_rows]
      exact (view.sorted.filter _).map Row.applyRowDeletion_clustering
    · intro clustering
      change lookup Row.clustering clustering (applyTableDeletion tableDelete merged).rows = _
      rw [applyTableDeletion_rows, lookup_map Row.applyRowDeletion_clustering,
        view.sorted.lookup_filter, view.rowAt, survivingRow_filter tableDelete view]

end Ferrosa.Storage
