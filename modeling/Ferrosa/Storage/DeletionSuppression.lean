import Ferrosa.Storage.Merge

/-!
# What deletion suppression keeps and removes

Suppression is exact when nothing a deletion covers survives it and everything
newer than every covering deletion does.  `applyDeletions` decides whole rows by
their primary-key liveness and cells by their row's deletion only, so exactness
is a condition on how liveness, cells and deletions of a row relate.
-/

namespace Ferrosa.Storage

open KeyedFold Option List DeletionTime

def DeletionTime.Covers (deletion : DeletionTime) (timestamp : Int64) : Prop :=
  ¬deletion.isLive ∧ timestamp ≤ deletion.markedForDeleteAt
  deriving Decidable

theorem DeletionTime.le_of_not_covers {deletion : DeletionTime} {timestamp : Int64}
    (notCovered : ¬deletion.Covers timestamp) : deletion.markedForDeleteAt ≤ timestamp := by
  by_cases isLive : deletion.isLive
  · exact le_of_isLive isLive _
  · simp only [Covers, not_and, not_le] at notCovered
    exact (notCovered isLive).le

namespace Row

def Uncovered (partitionDeletion : DeletionTime) (row : Row) (timestamp : Int64) : Prop :=
  ¬partitionDeletion.Covers timestamp ∧ ¬row.deletion.Covers timestamp
  deriving Decidable

structure Unshadowed (partitionDeletion : DeletionTime) (row : Row) : Prop where
  cells : ∀ cell ∈ row.cells, row.Uncovered partitionDeletion cell.2.timestamp
  liveness : row.primaryKeyLiveness.hasTimestamp →
    row.Uncovered partitionDeletion row.primaryKeyLiveness.timestamp

/-- Everything of the row that is newer than the deletions covering it is in `output`. -/
structure Retained (partitionDeletion : DeletionTime) (row : Row) (output : List Row) :
    Prop where
  cells : ∀ cell ∈ row.cells, row.Uncovered partitionDeletion cell.2.timestamp →
    ∃ kept ∈ output, kept.clustering = row.clustering ∧ cell ∈ kept.cells
  deletion : ¬row.deletion.isLive → ¬partitionDeletion.Covers row.deletion.markedForDeleteAt →
    ∃ kept ∈ output, kept.clustering = row.clustering ∧ kept.deletion = row.deletion
  liveness : row.primaryKeyLiveness.hasTimestamp →
    row.Uncovered partitionDeletion row.primaryKeyLiveness.timestamp →
    ∃ kept ∈ output, kept.clustering = row.clustering ∧
      kept.primaryKeyLiveness = row.primaryKeyLiveness

end Row

/-- Suppression removes what deletions cover and nothing else, in the rows and in the static
row. -/
structure SuppressionExact (partition : Partition) : Prop where
  rowsSound : ∀ row ∈ (applyDeletions partition).rows, row.Unshadowed partition.deletion
  staticSound : ∀ row ∈ (applyDeletions partition).staticRow, row.Unshadowed partition.deletion
  rowsComplete : ∀ row ∈ partition.rows,
    row.Retained partition.deletion (applyDeletions partition).rows
  staticComplete : ∀ row ∈ partition.staticRow,
    row.Retained partition.deletion (applyDeletions partition).staticRow.toList

namespace Row

variable (partitionDeletion : DeletionTime)

/-- A row older than the partition deletion holds nothing newer; any other row is above both
deletions, and so is every cell that the row deletion leaves. -/
def SuppressedExactly (row : Row) : Prop :=
  (row.primaryKeyLiveness.timestamp < partitionDeletion.markedForDeleteAt →
    row.deletion.markedForDeleteAt ≤ partitionDeletion.markedForDeleteAt ∧
      ∀ cell ∈ row.cells, cell.2.timestamp ≤ partitionDeletion.markedForDeleteAt) ∧
  (partitionDeletion.markedForDeleteAt ≤ row.primaryKeyLiveness.timestamp →
    (∀ cell ∈ row.cells, row.deletion.markedForDeleteAt ≤ cell.2.timestamp →
      row.Uncovered partitionDeletion cell.2.timestamp) ∧
    (row.primaryKeyLiveness.hasTimestamp →
      row.Uncovered partitionDeletion row.primaryKeyLiveness.timestamp))
  deriving Decidable

def StaticSuppressed (row : Row) : Prop :=
  ¬partitionDeletion.isLive ∧
    ∀ cell ∈ row.cells, cell.2.timestamp < partitionDeletion.markedForDeleteAt
  deriving Decidable

/-- The static row is judged by its cells instead of its liveness, and its own deletion is
never applied. -/
def StaticSuppressedExactly (row : Row) : Prop :=
  (row.StaticSuppressed partitionDeletion →
    row.deletion.markedForDeleteAt ≤ partitionDeletion.markedForDeleteAt ∧
      row.primaryKeyLiveness.timestamp ≤ partitionDeletion.markedForDeleteAt) ∧
  (¬row.StaticSuppressed partitionDeletion →
    (∀ cell ∈ row.cells, partitionDeletion.markedForDeleteAt ≤ cell.2.timestamp →
      row.Uncovered partitionDeletion cell.2.timestamp) ∧
    (row.primaryKeyLiveness.hasTimestamp →
      row.Uncovered partitionDeletion row.primaryKeyLiveness.timestamp))
  deriving Decidable

end Row

namespace Row

variable {row : Row} {output : List Row}

theorem mem_applyDeletions_rows {partition : Partition} : row ∈ (applyDeletions partition).rows ↔
      ∃ source ∈ partition.rows,
        partition.deletion.markedForDeleteAt ≤ source.primaryKeyLiveness.timestamp ∧
          source.applyRowDeletion = row := by
  simp [applyDeletions_rows, and_assoc]

variable {partitionDeletion : DeletionTime}

theorem unshadowed_retainCells_iff {bound : Int64} :
    (row.retainCells bound).Unshadowed partitionDeletion ↔
      (∀ cell ∈ row.cells, bound ≤ cell.2.timestamp →
        row.Uncovered partitionDeletion cell.2.timestamp) ∧
      (row.primaryKeyLiveness.hasTimestamp →
        row.Uncovered partitionDeletion row.primaryKeyLiveness.timestamp) := by
  constructor
  · intro unshadowed
    refine ⟨?_, unshadowed.liveness⟩
    intro cell cellMem notOlder
    apply unshadowed.cells cell
    rw [retainCells, mem_filter]
    exact ⟨cellMem, decide_eq_true notOlder⟩
  · rintro ⟨cellsUncovered, livenessUncovered⟩
    refine ⟨?_, livenessUncovered⟩
    intro cell keptMem
    rw [retainCells, mem_filter, decide_eq_true_eq] at keptMem
    exact cellsUncovered cell keptMem.1 keptMem.2

theorem retained_of_kept {deletion : DeletionTime}
    (isOne : deletion = partitionDeletion ∨ deletion = row.deletion)
    (keptMem : row.retainCells deletion.markedForDeleteAt ∈ output) :
    row.Retained partitionDeletion output := by
  constructor
  · intro cell cellMem uncovered
    refine ⟨_, keptMem, rfl, ?_⟩
    rw [retainCells, mem_filter, decide_eq_true_eq]
    refine ⟨cellMem, DeletionTime.le_of_not_covers ?_⟩
    rcases isOne with rfl | rfl
    · exact uncovered.1
    · exact uncovered.2
  · intro _ _
    exact ⟨_, keptMem, rfl, rfl⟩
  · intro _ _
    exact ⟨_, keptMem, rfl, rfl⟩

theorem retained_of_absent_iff (absent : ∀ kept ∈ output, kept.clustering ≠ row.clustering)
    (notLive : ¬partitionDeletion.isLive) :
    row.Retained partitionDeletion output ↔
      row.deletion.markedForDeleteAt ≤ partitionDeletion.markedForDeleteAt ∧
        (∀ cell ∈ row.cells, cell.2.timestamp ≤ partitionDeletion.markedForDeleteAt) ∧
        row.primaryKeyLiveness.timestamp ≤ partitionDeletion.markedForDeleteAt := by
  constructor
  · intro retained
    have deletionOlder : row.deletion.markedForDeleteAt ≤ partitionDeletion.markedForDeleteAt := by
      by_contra newerDeletion
      have rowNotLive : ¬row.deletion.isLive :=
        not_isLive_of_lt (not_le.mp newerDeletion)
      rcases retained.deletion rowNotLive (fun covers => newerDeletion covers.2) with
        ⟨kept, keptMem, sameClustering, _⟩
      exact absent kept keptMem sameClustering
    have uncovered : ∀ timestamp, ¬timestamp ≤ partitionDeletion.markedForDeleteAt →
        row.Uncovered partitionDeletion timestamp := fun timestamp newer =>
      ⟨fun covers => newer covers.2, fun covers => newer (covers.2.trans deletionOlder)⟩
    refine ⟨deletionOlder, ?_, ?_⟩
    · intro cell cellMem
      by_contra newerCell
      rcases retained.cells cell cellMem (uncovered _ newerCell) with
        ⟨kept, keptMem, sameClustering, _⟩
      exact absent kept keptMem sameClustering
    · by_contra newerLiveness
      have hasTimestamp : row.primaryKeyLiveness.hasTimestamp := by
        rw [LivenessInfo.hasTimestamp, bne_iff_ne]
        intro least
        exact newerLiveness (least ▸ Int64.minValue_le _)
      rcases retained.liveness hasTimestamp (uncovered _ newerLiveness) with
        ⟨kept, keptMem, sameClustering, _⟩
      exact absent kept keptMem sameClustering
  · rintro ⟨deletionOlder, cellsOlder, livenessOlder⟩
    constructor
    · intro cell cellMem uncovered
      exact absurd ⟨notLive, cellsOlder cell cellMem⟩ uncovered.1
    · intro _ notCovered
      exact absurd ⟨notLive, deletionOlder⟩ notCovered
    · intro _ uncovered
      exact absurd ⟨notLive, livenessOlder⟩ uncovered.1

end Row

namespace Row

variable {row : Row} {partitionDeletion : DeletionTime}

theorem retainCells_isEmpty_iff {bound : Int64} :
    (row.retainCells bound).cells.isEmpty ↔ ∀ cell ∈ row.cells, cell.2.timestamp < bound := by
  simp [retainCells]

variable {partition : Partition}

theorem applyDeletions_staticRow_of_suppressed (isStatic : partition.staticRow = some row)
    (suppressed : row.StaticSuppressed partition.deletion) :
    (applyDeletions partition).staticRow = none := by
  rw [applyDeletions_staticRow_eq_filter, isStatic, map_some, filter_some]
  simp [suppressed.1, retainCells_isEmpty_iff.mpr suppressed.2]

theorem applyDeletions_staticRow_of_not_suppressed (isStatic : partition.staticRow = some row)
    (notSuppressed : ¬row.StaticSuppressed partition.deletion) :
    (applyDeletions partition).staticRow =
      some (row.retainCells partition.deletion.markedForDeleteAt) := by
  rw [applyDeletions_staticRow_eq_filter, isStatic, map_some, filter_some]
  by_cases isLive : partition.deletion.isLive
  · simp [isLive]
  · have remains : ¬(row.retainCells partition.deletion.markedForDeleteAt).cells.isEmpty := by
      intro empty
      exact notSuppressed ⟨isLive, retainCells_isEmpty_iff.mp empty⟩
    simp [remains]

end Row

variable {partition : Partition}

theorem rows_suppressedExactly_iff (sorted : StrictlySorted Row.clustering partition.rows) :
    (∀ row ∈ partition.rows, row.SuppressedExactly partition.deletion) ↔
      (∀ row ∈ (applyDeletions partition).rows, row.Unshadowed partition.deletion) ∧
      ∀ row ∈ partition.rows, row.Retained partition.deletion (applyDeletions partition).rows := by
  have absent : ∀ row ∈ partition.rows,
      row.primaryKeyLiveness.timestamp < partition.deletion.markedForDeleteAt →
      ∀ kept ∈ (applyDeletions partition).rows, kept.clustering ≠ row.clustering := by
    intro row rowMem older kept keptMem sameClustering
    rcases Row.mem_applyDeletions_rows.mp keptMem with ⟨source, sourceMem, notOlder, rfl⟩
    rw [Row.applyRowDeletion_clustering] at sameClustering
    have sameRow := sorted.eq_of_key_eq sourceMem rowMem sameClustering
    exact absurd (sameRow ▸ notOlder) (not_le.mpr older)
  constructor
  · intro exact_
    constructor
    · intro kept keptMem
      rcases Row.mem_applyDeletions_rows.mp keptMem with ⟨row, rowMem, notOlder, rfl⟩
      rw [Row.applyRowDeletion_eq]
      exact Row.unshadowed_retainCells_iff.mpr ((exact_ row rowMem).2 notOlder)
    · intro row rowMem
      rcases lt_or_ge row.primaryKeyLiveness.timestamp partition.deletion.markedForDeleteAt with
        older | notOlder
      · rcases (exact_ row rowMem).1 older with ⟨deletionOlder, cellsOlder⟩
        exact (Row.retained_of_absent_iff (absent row rowMem older)
          (not_isLive_of_lt older)).mpr ⟨deletionOlder, cellsOlder, older.le⟩
      · exact Row.retained_of_kept (.inr rfl)
          (Row.mem_applyDeletions_rows.mpr ⟨row, rowMem, notOlder, row.applyRowDeletion_eq⟩)
  · rintro ⟨sound, complete⟩ row rowMem
    constructor
    · intro older
      rcases (Row.retained_of_absent_iff (absent row rowMem older)
        (not_isLive_of_lt older)).mp (complete row rowMem) with
        ⟨deletionOlder, cellsOlder, _⟩
      exact ⟨deletionOlder, cellsOlder⟩
    · intro notOlder
      have kept := Row.mem_applyDeletions_rows.mpr ⟨row, rowMem, notOlder, row.applyRowDeletion_eq⟩
      exact Row.unshadowed_retainCells_iff.mp (sound _ kept)

theorem static_suppressedExactly_iff :
    (∀ row ∈ partition.staticRow, row.StaticSuppressedExactly partition.deletion) ↔
      (∀ row ∈ (applyDeletions partition).staticRow, row.Unshadowed partition.deletion) ∧
      ∀ row ∈ partition.staticRow,
        row.Retained partition.deletion (applyDeletions partition).staticRow.toList := by
  cases isStatic : partition.staticRow with
  | none =>
    have noOutput : (applyDeletions partition).staticRow = none := by
      simp [applyDeletions_staticRow, isStatic]
    simp [noOutput]
  | some row =>
    by_cases suppressed : row.StaticSuppressed partition.deletion
    · have nothing : row.Retained partition.deletion [] ↔ _ :=
        Row.retained_of_absent_iff (by simp) suppressed.1
      have cellsOlder : ∀ cell ∈ row.cells, cell.2.timestamp ≤ _ :=
        fun cell cellMem => (suppressed.2 cell cellMem).le
      rw [and_iff_right cellsOlder] at nothing
      rw [Row.applyDeletions_staticRow_of_suppressed isStatic suppressed]
      simp [Row.StaticSuppressedExactly, suppressed, nothing]
    · have retained : row.Retained partition.deletion _ :=
        Row.retained_of_kept (.inl rfl) (mem_singleton_self _)
      rw [Row.applyDeletions_staticRow_of_not_suppressed isStatic suppressed]
      simp [Row.StaticSuppressedExactly, suppressed, Row.unshadowed_retainCells_iff, retained]

/-- Suppression is exact precisely on the partitions whose rows and static row are suppressed
exactly. -/
theorem suppressionExact_iff (partition : Partition) (sorted : partition.Sorted) :
    SuppressionExact partition ↔
      (∀ row ∈ partition.rows, row.SuppressedExactly partition.deletion) ∧
      ∀ row ∈ partition.staticRow, row.StaticSuppressedExactly partition.deletion := by
  rw [rows_suppressedExactly_iff sorted.rows, static_suppressedExactly_iff]
  constructor
  · intro exact_
    exact ⟨⟨exact_.rowsSound, exact_.rowsComplete⟩, exact_.staticSound, exact_.staticComplete⟩
  · rintro ⟨⟨rowsSound, rowsComplete⟩, staticSound, staticComplete⟩
    exact ⟨rowsSound, staticSound, rowsComplete, staticComplete⟩

def reinsertedPartition : Partition where
  key := ⟨0, [1]⟩
  deletion := ⟨10, 0⟩
  staticRow := none
  rows := [⟨[1], [(0, .live [7] 20)], .live, .withTimestamp 20⟩]

theorem suppressionExact_reinsertedPartition : SuppressionExact reinsertedPartition :=
  (suppressionExact_iff reinsertedPartition (by decide)).mpr (by decide)

def updatedPartition : Partition where
  key := ⟨0, [1]⟩
  deletion := ⟨10, 0⟩
  staticRow := none
  rows := [⟨[1], [(0, .live [7] 20)], .live, .none⟩]

theorem not_suppressionExact_updatedPartition :
    updatedPartition.Sorted ∧ ¬SuppressionExact updatedPartition := by
  refine ⟨by decide, ?_⟩
  intro exact_
  have emptied : (applyDeletions updatedPartition).rows = [] := by decide
  have complete := exact_.rowsComplete _ mem_cons_self
  rw [emptied] at complete
  rcases complete.cells (0, .live [7] 20) (by decide) (by decide) with ⟨kept, keptMem, _⟩
  exact absurd keptMem not_mem_nil

end Ferrosa.Storage
