import Ferrosa.Storage.MergedRows
import Ferrosa.Storage.Purge

/-!
# Purging and visibility

A purge is safe when no partition outside the compaction can tell, through the
read-path merge, that the markers are gone: the visible rows and live cells stay
the same.  Markers matter in more ways than by shadowing older data.  Dropping a
partition deletion shows newer rows without liveness that the deletion used to
hide; dropping a row deletion shows a row whose liveness ties with it; dropping
the tombstones or the liveness of a row hides or shows the row itself.  This file
lists these cases and proves that there are no others.
-/

namespace Ferrosa.Storage

open KeyedFold List DeletionTime PurgePolicy StrictlySorted CellValue
open Option hiding filter_filter mem_map or_assoc

def Row.liveCells (now : Int32) (row : Row) : List Cell :=
  row.cells.filter (fun cell => Row.liveCell now cell.2)

def visibleRows (now : Int32) (partition : Partition) : List (Bytes × List Cell) :=
  (partition.rows.filter (fun row => row.isVisibleAt now)).map
    (fun row => (row.clustering, row.liveCells now))

def visibleStatic (now : Int32) (partition : Partition) : List Cell :=
  (partition.staticRow.map (Row.liveCells now)).getD []

structure View where
  rows : List (Bytes × List Cell)
  static : List Cell
  deriving DecidableEq, Repr

def view (now : Int32) (partition : Partition) : View :=
  ⟨visibleRows now partition, visibleStatic now partition⟩

structure Row.NotBelow (bound : Int64) (row : Row) : Prop where
  cells : ∀ cell ∈ row.cells, bound ≤ cell.2.timestamp
  deletion : ¬row.deletion.isLive → bound ≤ row.deletion.markedForDeleteAt
  liveness : row.primaryKeyLiveness.hasTimestamp → bound ≤ row.primaryKeyLiveness.timestamp

/-- The overlap guard permits the partition outside the compaction. -/
structure Partition.NotBelow (bound : Int64) (partition : Partition) : Prop where
  deletion : ¬partition.deletion.isLive → bound ≤ partition.deletion.markedForDeleteAt
  rows : ∀ row ∈ partition.rows, row.NotBelow bound
  static : ∀ row ∈ partition.staticRow, row.NotBelow bound

def IsMerged (partition : Partition) : Prop :=
  ∃ sources : List Partition, (∀ source ∈ sources, source.Sorted) ∧
    mergePartitions sources = some partition

/-- No partition outside the compaction lets a reader tell that the partition was purged. -/
def PurgeSafe (policy : PurgePolicy) (now : Int32) (partition : Partition) : Prop :=
  ∀ outside : Partition, outside.Sorted → outside.key = partition.key →
    outside.NotBelow policy.maxPurgeableTimestamp →
    (mergePartitions [(purgePartition partition policy).1, outside]).map (view now) =
      (mergePartitions [partition, outside]).map (view now)

namespace Row

def livenessExpired (now : Int32) (row : Row) : Bool :=
  row.primaryKeyLiveness.hasTtl && expired now row.primaryKeyLiveness.localDeletionTime

def Lapsed (now : Int32) (row : Row) : Prop :=
  row.livenessExpired now ∧ row.liveCells now = []
  deriving Decidable

def HasNewerCell (row : Row) : Prop :=
  ∃ cell ∈ row.cells, row.deletion.markedForDeleteAt < cell.2.timestamp
  deriving Decidable

/-- A row whose deletion stays keeps a liveness or a cell, or under a deletion a cell that shows it.
-/
def KeptDeletionSafe (policy : PurgePolicy) (now : Int32) (row : Row) : Prop :=
  (row.deletion.isLive →
    row.primaryKeyLiveness.hasTimestamp ∨ row.cells = [] ∨ row.keptCells policy ≠ []) ∧
  (¬row.deletion.isLive → row.Lapsed now ∨
    row.deletion.markedForDeleteAt < row.primaryKeyLiveness.timestamp ∨
    (row.HasNewerCell →
      ∃ cell ∈ row.keptCells policy, row.deletion.markedForDeleteAt < cell.2.timestamp))
  deriving Decidable

/-- A row whose deletion is dropped has a newer liveness, or is lapsed or shown by a newer cell, and
leaves something. -/
def DroppedDeletionSafe (policy : PurgePolicy) (now : Int32) (partitionDeletion : DeletionTime)
    (row : Row) : Prop :=
  row.deletion.markedForDeleteAt < row.primaryKeyLiveness.timestamp ∨
  (row.primaryKeyLiveness.hasTimestamp ∧
    row.primaryKeyLiveness.timestamp = row.deletion.markedForDeleteAt ∧
    (row.Lapsed now ∨ row.HasNewerCell)) ∨
  (row.primaryKeyLiveness.hasTimestamp ∧
    row.primaryKeyLiveness.timestamp < row.deletion.markedForDeleteAt ∧
    partitionDeletion.markedForDeleteAt = Int64.minValue ∧ ¬row.livenessExpired now ∧
    row.HasNewerCell ∧ row.keptCells policy ≠ []) ∨
  (¬row.primaryKeyLiveness.hasTimestamp ∧ row.keptCells policy ≠ [] ∧
    (row.Lapsed now ∨ row.HasNewerCell))
  deriving Decidable

def PurgesSafely (policy : PurgePolicy) (now : Int32) (partitionDeletion : DeletionTime)
    (row : Row) : Prop :=
  (¬policy.purgeableDeletion row.deletion → row.KeptDeletionSafe policy now) ∧
  (policy.purgeableDeletion row.deletion → row.DroppedDeletionSafe policy now partitionDeletion)
  deriving Decidable

end Row

namespace Row

def surviving (now : Int32) (row : Row) : List Cell := row.applyRowDeletion.liveCells now

@[mk_iff]
structure Shows (now : Int32) (deleteAt : Int64) (row : Row) : Prop where
  kept : deleteAt ≤ row.primaryKeyLiveness.timestamp
  notLapsed : row.livenessExpired now → row.surviving now ≠ []
  notDeleted : row.deletion.isLive ∨
    row.deletion.markedForDeleteAt < row.primaryKeyLiveness.timestamp ∨ row.HasNewerCell

def NotDeleted (row : Row) : Prop :=
  row.deletion.isLive ∨ row.deletion.markedForDeleteAt < row.primaryKeyLiveness.timestamp ∨
    row.HasNewerCell

theorem hasNewerCell_applyRowDeletion (row : Row) :
    row.applyRowDeletion.HasNewerCell ↔ row.HasNewerCell := by
  simp only [HasNewerCell, applyRowDeletion_deletion, applyRowDeletion_cells, mem_filter,
    decide_eq_true_eq]
  constructor
  · rintro ⟨cell, ⟨cellMem, _⟩, newer⟩
    exact ⟨cell, cellMem, newer⟩
  · rintro ⟨cell, cellMem, newer⟩
    exact ⟨cell, ⟨cellMem, newer.le⟩, newer⟩

theorem isVisibleAt_iff (now : Int32) (row : Row) :
    row.isVisibleAt now = true ↔ ¬row.Lapsed now ∧ row.NotDeleted := by
  have lapsed : row.Lapsed now ↔ (row.primaryKeyLiveness.hasTtl &&
      expired now row.primaryKeyLiveness.localDeletionTime &&
      !row.cells.any (fun cell => liveCell now cell.2)) = true := by
    simp [Lapsed, livenessExpired, liveCells, filter_eq_nil_iff]
  rw [isVisibleAt, lapsed]
  split
  · rename_i isLapsed
    simp [isLapsed]
  · rename_i notLapsed
    simp [notLapsed, NotDeleted, HasNewerCell, or_assoc]

theorem isVisibleAt_applyRowDeletion_iff (now : Int32) (deleteAt : Int64) (row : Row) :
    (deleteAt ≤ row.primaryKeyLiveness.timestamp ∧ row.applyRowDeletion.isVisibleAt now = true) ↔
      row.Shows now deleteAt := by
  rw [isVisibleAt_iff, NotDeleted, hasNewerCell_applyRowDeletion, applyRowDeletion_deletion,
    applyRowDeletion_liveness]
  have lapsed : row.applyRowDeletion.Lapsed now ↔
      row.livenessExpired now ∧ row.surviving now = [] := by
    rw [Lapsed, livenessExpired, applyRowDeletion_liveness]
    rfl
  rw [lapsed, not_and, shows_iff]

end Row

def shown (now : Int32) (deleteAt : Int64) (row : Option Row) : Option (List Cell) :=
  (row.filter (fun row => decide (deleteAt ≤ row.primaryKeyLiveness.timestamp) &&
    row.applyRowDeletion.isVisibleAt now)).map (Row.surviving now)

variable {now : Int32} {deleteAt : Int64} {row : Row} {policy : PurgePolicy} {partition : Partition}

instance : Decidable (row.Shows now deleteAt) :=
  decidable_of_iff _ (row.isVisibleAt_applyRowDeletion_iff now deleteAt)

theorem shown_some : shown now deleteAt (some row) =
    if row.Shows now deleteAt then some (row.surviving now) else none := by
  simp only [shown, filter_some, Bool.and_eq_true, decide_eq_true_eq,
    Row.isVisibleAt_applyRowDeletion_iff]
  split_ifs <;> rfl

theorem MergedView.lookup_visibleRows {sources : List Partition} {merged : Partition}
    (merge : MergedView sources merged) (now : Int32) (clustering : Bytes) :
    lookup Prod.fst clustering (visibleRows now merged) =
      (shown now merged.deletion.markedForDeleteAt
        (reduce mergeRows (versionsAt clustering sources))).map (fun cells =>
          (clustering, cells)) := by
  have paired : ∀ rows : List Row, lookup Prod.fst clustering
      (rows.map (fun row => (row.clustering, row.liveCells now))) =
        (lookup Row.clustering clustering rows).map
          (fun row => (row.clustering, row.liveCells now)) :=
    lookup_map (fun _ => rfl) clustering
  rw [visibleRows, paired, merge.sorted.lookup_filter, merge.rowAt, survivingRow]
  cases found : reduce mergeRows (versionsAt clustering sources) with
  | none => rfl
  | some row =>
    have atClustering := clustering_of_reduce (fun row mem => (mem_withKey.mp mem).2) found
    by_cases kept : merged.deletion.markedForDeleteAt ≤ row.primaryKeyLiveness.timestamp
    · by_cases visible : row.applyRowDeletion.isVisibleAt now
      · simp [shown, filter_some, kept, visible, atClustering, Row.surviving]
      · simp [shown, filter_some, kept, visible]
    · simp [shown, filter_some, kept]

theorem mem_or_of_mem_mergeRows {p q : Row} (sortedP : p.CellsSorted) (sortedQ : q.CellsSorted)
    {cell : Cell} (cellMem : cell ∈ (mergeRows p q).cells) : cell ∈ p.cells ∨ cell ∈ q.cells := by
  have sorted : ∀ row ∈ [p, q], row.CellsSorted := by simp [sortedP, sortedQ]
  rcases mem_of_mem_reduce_mergeRows sorted rfl cellMem with ⟨row, rowMem, inRow⟩
  rcases (by simpa using rowMem : row = p ∨ row = q) with rfl | rfl
  · exact Or.inl inRow
  · exact Or.inr inRow

def Row.HasCellAbove (bound : Int64) (row : Row) : Prop :=
  ∃ cell ∈ row.cells, bound < cell.2.timestamp

theorem hasCellAbove_mergeRows_iff {p q : Row} (sortedP : p.CellsSorted) (sortedQ : q.CellsSorted)
    {bound : Int64} :
    (mergeRows p q).HasCellAbove bound ↔ p.HasCellAbove bound ∨ q.HasCellAbove bound := by
  have sorted : ∀ row ∈ [p, q], row.CellsSorted := by simp [sortedP, sortedQ]
  have found : reduce mergeRows [p, q] = some (mergeRows p q) := rfl
  constructor
  · rintro ⟨cell, cellMem, above⟩
    rcases mem_or_of_mem_mergeRows sortedP sortedQ cellMem with inP | inQ
    · exact Or.inl ⟨cell, inP, above⟩
    · exact Or.inr ⟨cell, inQ, above⟩
  · have lifts : ∀ row ∈ [p, q], ∀ cell ∈ row.cells, bound < cell.2.timestamp →
        (mergeRows p q).HasCellAbove bound := by
      intro row rowMem cell cellMem above
      rcases exists_le_of_mem_reduce_mergeRows sorted found rowMem cellMem with
        ⟨winner, winnerMem, _, below⟩
      exact ⟨winner, winnerMem, above.trans_le (timestamp_le_of_le below)⟩
    rintro (⟨cell, cellMem, above⟩ | ⟨cell, cellMem, above⟩)
    · exact lifts p (by simp) cell cellMem above
    · exact lifts q (by simp) cell cellMem above

/-- A row of a merged partition: suppression has nothing left to do on it. -/
structure Row.Settled (partitionDeletion : DeletionTime) (row : Row) : Prop where
  sorted : row.CellsSorted
  cells : ∀ cell ∈ row.cells, row.deletion.markedForDeleteAt ≤ cell.2.timestamp
  kept : partitionDeletion.markedForDeleteAt ≤ row.primaryKeyLiveness.timestamp

theorem LivenessInfo.hasTimestamp_of_lt {liveness : LivenessInfo} {bound : Int64}
    (newer : bound < liveness.timestamp) : liveness.hasTimestamp := by
  rw [hasTimestamp, bne_iff_ne]
  exact ((Int64.minValue_le _).trans_lt newer).ne'

theorem Row.lt_of_droppable {cell : Cell} (drops : row.droppable policy cell) :
    cell.2.isTombstone ∧ cell.2.timestamp < policy.maxPurgeableTimestamp := by
  simp only [droppable, PurgePolicy.purgeable, Bool.and_eq_true, decide_eq_true_eq] at drops
  exact ⟨drops.1.1, drops.1.2.2⟩

section MergePurged

variable {policy : PurgePolicy} {now : Int32} {partitionDeletion : DeletionTime} {p q : Row}

theorem Row.purged_deletion (policy : PurgePolicy) (row : Row) : (row.purged policy).deletion =
      if policy.purgeableDeletion row.deletion then .live else row.deletion := by
  unfold Row.purged
  split <;> rfl

@[simp] theorem Row.purged_cells (policy : PurgePolicy) (row : Row) :
    (row.purged policy).cells = row.keptCells policy := rfl

theorem Row.purged_cellsSorted (sorted : p.CellsSorted) : (p.purged policy).CellsSorted :=
  filter sorted _

@[simp] theorem Row.purged_clustering (policy : PurgePolicy) (row : Row) :
    (row.purged policy).clustering = row.clustering := by
  unfold Row.purged
  split <;> rfl

theorem Row.purged_liveness (policy : PurgePolicy) (row : Row) :
    (row.purged policy).primaryKeyLiveness =
      if policy.purgeableDeletion row.deletion ∧ row.primaryKeyLiveness.hasTimestamp ∧
          row.primaryKeyLiveness.timestamp < row.deletion.markedForDeleteAt then .none
      else row.primaryKeyLiveness := by
  unfold Row.purged
  by_cases purgeable : policy.purgeableDeletion row.deletion
  · simp [purgeable, Row.dropDeletion]
  · simp [purgeable]

theorem Row.surviving_eq (now : Int32) (row : Row) :
    row.surviving now = row.cells.filter (fun cell =>
      decide (row.deletion.markedForDeleteAt ≤ cell.2.timestamp) && liveCell now cell.2) := by
  rw [surviving, liveCells, applyRowDeletion_cells, filter_filter]
  apply filter_congr
  intro cell _
  exact Bool.and_comm _ _

theorem mergeCell_eq_right {x y : Cell} (sameKey : cellKey x = cellKey y)
    (older : x.2.timestamp < y.2.timestamp) : mergeCell x y = y := by
  have supersedes : y.2.supersedes x.2 := by
    rw [supersedes_iff]
    exact lt_of_not_ge fun below => absurd (timestamp_le_of_le below) (not_le.mpr older)
  rw [mergeCell, if_pos supersedes, (cellKey_eq_iff.mp sameKey).1]

theorem filter_mergeCells_keptCells (sortedP : p.CellsSorted) {cells : List Cell}
    (sortedQ : StrictlySorted cellKey cells)
    (guarded : ∀ cell ∈ cells, policy.maxPurgeableTimestamp ≤ cell.2.timestamp)
    {reads : Cell → Bool} (ignores : ∀ cell : Cell, cell.2.isTombstone → reads cell = false) :
    (mergeCells (p.keptCells policy) cells).filter reads =
      (mergeCells p.cells cells).filter reads := by
  have mergedSorted := mergeCells_sorted p.cells cells
  have purgedSorted := mergeCells_sorted (p.keptCells policy) cells
  refine (purgedSorted.filter _).ext_lookup (mergedSorted.filter _) fun k => ?_
  rw [purgedSorted.lookup_filter, mergedSorted.lookup_filter,
    lookup_mergeCells_of_sorted sortedP sortedQ, Row.keptCells,
    lookup_mergeCells_of_sorted (filter sortedP _) sortedQ,
    lookup_filter sortedP]
  cases foundP : lookup cellKey k p.cells with
  | none => rw [filter_none]
  | some x =>
    by_cases drops : p.droppable policy x
    · rcases Row.lt_of_droppable drops with ⟨isTombstone, below⟩
      have dropped : (some x).filter (fun cell => !p.droppable policy cell) = none := by
        rw [filter_some, drops]
        rfl
      rw [dropped, merge_none_left]
      cases foundQ : lookup cellKey k cells with
      | none =>
        rw [merge_none_right, filter_none, filter_some, ignores x isTombstone]
        rfl
      | some y =>
        rcases mem_of_lookup foundP with ⟨_, xKey⟩
        rcases mem_of_lookup foundQ with ⟨yMem, yKey⟩
        have older := below.trans_le (guarded y yMem)
        rw [merge_some_some, mergeCell_eq_right (xKey.trans yKey.symm) older]
    · have stays : (some x).filter (fun cell => !p.droppable policy cell) = some x := by
        simp [filter_some, drops]
      rw [stays]

theorem mem_surviving_iff {now : Int32} {row : Row} {cell : Cell} :
    cell ∈ row.surviving now ↔ cell ∈ row.cells ∧
      row.deletion.markedForDeleteAt ≤ cell.2.timestamp ∧ Row.liveCell now cell.2 = true := by
  rw [Row.surviving_eq, mem_filter, Bool.and_eq_true, decide_eq_true_eq]

theorem le_mergeRows_liveness (p q : Row) :
    p.primaryKeyLiveness.timestamp ≤ (mergeRows p q).primaryKeyLiveness.timestamp := by
  rw [mergeRows_liveness, rank_newer LivenessInfo.timestamp]
  exact le_max_left _ _

theorem mergeRows_deletion_of_isLive (isLive : q.deletion.isLive) :
    (mergeRows p q).deletion = p.deletion := by
  rw [mergeRows_deletion, newer,
    if_neg (not_lt.mpr (le_of_isLive isLive p.deletion.markedForDeleteAt))]

section

variable (guarded : q.NotBelow policy.maxPurgeableTimestamp)
  (settled : p.Settled partitionDeletion) (sortedQ : q.CellsSorted)
  (safe : p.PurgesSafely policy now partitionDeletion)

include guarded

theorem mergeRows_purged_deletion (deleted : ¬q.deletion.isLive) :
    (mergeRows (p.purged policy) q).deletion = (mergeRows p q).deletion := by
  rw [mergeRows_deletion, mergeRows_deletion, Row.purged_deletion]
  split
  · rename_i purgeable
    have older : p.deletion.markedForDeleteAt < q.deletion.markedForDeleteAt :=
      (lt_of_purgeableDeletion purgeable).2.trans_le (guarded.deletion deleted)
    have liveOlder : live.markedForDeleteAt < q.deletion.markedForDeleteAt :=
      (Int64.minValue_le _).trans_lt older
    rw [newer, newer, if_pos older, if_pos liveOlder]
  · rfl

theorem mergeRows_purged_liveness :
    (mergeRows (p.purged policy) q).primaryKeyLiveness = (mergeRows p q).primaryKeyLiveness ∨
      (policy.purgeableDeletion p.deletion ∧ p.primaryKeyLiveness.hasTimestamp ∧
        p.primaryKeyLiveness.timestamp < p.deletion.markedForDeleteAt ∧
        (mergeRows (p.purged policy) q).primaryKeyLiveness = .none ∧
        (mergeRows p q).primaryKeyLiveness = p.primaryKeyLiveness) := by
  rw [mergeRows_liveness, mergeRows_liveness, Row.purged_liveness]
  split
  · rename_i dropped
    rcases dropped with ⟨purgeable, hasTimestamp, older⟩
    by_cases outside : q.primaryKeyLiveness.hasTimestamp
    · left
      have newerQ : p.primaryKeyLiveness.timestamp < q.primaryKeyLiveness.timestamp :=
        (older.trans (lt_of_purgeableDeletion purgeable).2).trans_le (guarded.liveness outside)
      have noneOlder : LivenessInfo.none.timestamp < q.primaryKeyLiveness.timestamp :=
        (Int64.minValue_le _).trans_lt newerQ
      rw [newer, newer, if_pos newerQ, if_pos noneOlder]
    · right
      have atMin : q.primaryKeyLiveness.timestamp = Int64.minValue := by
        simpa [LivenessInfo.hasTimestamp] using outside
      refine ⟨purgeable, hasTimestamp, older, ?_, ?_⟩
      · rw [newer, atMin, if_neg (not_lt.mpr (Int64.minValue_le _))]
      · rw [newer, atMin, if_neg (not_lt.mpr (Int64.minValue_le _))]
  · exact Or.inl rfl

theorem liveness_agrees (safe : p.PurgesSafely policy now partitionDeletion) {deleteAt : Int64}
    (deletedAbove : partitionDeletion.markedForDeleteAt = Int64.minValue →
      deleteAt = Int64.minValue ∨ policy.maxPurgeableTimestamp ≤ deleteAt) :
    (deleteAt ≤ (mergeRows (p.purged policy) q).primaryKeyLiveness.timestamp ↔
      deleteAt ≤ (mergeRows p q).primaryKeyLiveness.timestamp) ∧
    ((mergeRows (p.purged policy) q).livenessExpired now = (mergeRows p q).livenessExpired now) ∧
    ∀ bound : Int64, policy.maxPurgeableTimestamp ≤ bound →
      (bound < (mergeRows (p.purged policy) q).primaryKeyLiveness.timestamp ↔
        bound < (mergeRows p q).primaryKeyLiveness.timestamp) := by
  rw [Row.livenessExpired, Row.livenessExpired]
  rcases mergeRows_purged_liveness (p := p) guarded with
    same | ⟨purgeable, hasTimestamp, older, isNone, isP⟩
  · rw [same]
    exact ⟨Iff.rfl, rfl, fun _ _ => Iff.rfl⟩
  · have belowGuard : p.primaryKeyLiveness.timestamp < policy.maxPurgeableTimestamp :=
      older.trans (lt_of_purgeableDeletion purgeable).2
    rcases safe.2 purgeable with newer | ⟨_, tie, _⟩ | ⟨_, _, undeleted, fresh, _⟩ | ⟨noTimestamp, _⟩
    · exact absurd newer (not_lt.mpr older.le)
    · exact absurd tie older.ne
    · rw [isNone, isP]
      refine ⟨?_, ?_, ?_⟩
      · rcases deletedAbove undeleted with rfl | above
        · exact iff_of_true (Int64.minValue_le _) (Int64.minValue_le _)
        · refine iff_of_false (fun below => ?_) (fun below => ?_)
          · exact absurd (belowGuard.trans_le (above.trans below)) (not_lt.mpr (Int64.minValue_le _))
          · exact absurd (belowGuard.trans_le above) (not_lt.mpr below)
      · rw [Bool.not_eq_true, Row.livenessExpired] at fresh
        rw [fresh]
        rfl
      · intro bound above
        refine iff_of_false (fun below => ?_) (fun below => ?_)
        · exact absurd below (not_lt.mpr (Int64.minValue_le _))
        · exact absurd (belowGuard.trans_le above) (not_lt.mpr below.le)
    · exact absurd hasTimestamp noTimestamp

include settled

theorem le_merged_deletion_iff {cell : Cell} (cellMem : cell ∈ p.cells ∨ cell ∈ q.cells) :
    (mergeRows p q).deletion.markedForDeleteAt ≤ cell.2.timestamp ↔
      (mergeRows (p.purged policy) q).deletion.markedForDeleteAt ≤ cell.2.timestamp := by
  rw [mergeRows_deletion, mergeRows_deletion, Row.purged_deletion]
  split
  · rename_i purgeable
    rw [rank_newer markedForDeleteAt, rank_newer markedForDeleteAt, max_le_iff, max_le_iff]
    have notLive := lt_of_purgeableDeletion purgeable
    have above : p.deletion.markedForDeleteAt ≤ cell.2.timestamp := by
      rcases cellMem with inP | inQ
      · exact settled.cells cell inP
      · exact (notLive.2.trans_le (guarded.cells cell inQ)).le
    have liveBelow : live.markedForDeleteAt ≤ cell.2.timestamp :=
      Int64.minValue_le _
    simp [above, liveBelow]
  · rfl

include sortedQ

omit guarded in
theorem hasCellAbove_of_purged {bound : Int64}
    (above : (mergeRows (p.purged policy) q).HasCellAbove bound) :
    (mergeRows p q).HasCellAbove bound := by
  rw [hasCellAbove_mergeRows_iff (Row.purged_cellsSorted settled.sorted) sortedQ] at above
  rw [hasCellAbove_mergeRows_iff settled.sorted sortedQ]
  refine above.imp_left ?_
  rintro ⟨cell, cellMem, newer⟩
  exact ⟨cell, (mem_filter.mp cellMem).1, newer⟩

omit guarded in
theorem hasCellAbove_mergeRows_purged_iff {bound : Int64}
    (above : policy.maxPurgeableTimestamp ≤ bound) :
    (mergeRows (p.purged policy) q).HasCellAbove bound ↔ (mergeRows p q).HasCellAbove bound := by
  refine ⟨hasCellAbove_of_purged settled sortedQ, ?_⟩
  rw [hasCellAbove_mergeRows_iff (Row.purged_cellsSorted settled.sorted) sortedQ,
    hasCellAbove_mergeRows_iff settled.sorted sortedQ]
  apply Or.imp_left
  rintro ⟨cell, cellMem, newer⟩
  refine ⟨cell, mem_filter.mpr ⟨cellMem, ?_⟩, newer⟩
  rw [Bool.not_eq_true', Bool.eq_false_iff]
  intro drops
  exact absurd ((Row.lt_of_droppable drops).2.trans_le above) (not_lt.mpr newer.le)

theorem surviving_mergeRows_purged :
    (mergeRows (p.purged policy) q).surviving now = (mergeRows p q).surviving now := by
  rw [Row.surviving_eq, Row.surviving_eq, mergeRows_cells, Row.purged_cells,
    filter_mergeCells_keptCells settled.sorted sortedQ guarded.cells]
  · apply filter_congr
    intro cell cellMem
    rw [decide_eq_decide.mpr (le_merged_deletion_iff guarded settled
      (mem_or_of_mem_mergeRows settled.sorted sortedQ cellMem))]
  · intro cell isTombstone
    rw [Row.liveCell, isTombstone, Bool.true_or, Bool.not_true, Bool.and_false]

variable (notLapsed : (mergeRows p q).livenessExpired now → (mergeRows p q).surviving now ≠ [])

include notLapsed

theorem above_of_lapsed (lapsed : p.Lapsed now) {bound : Int64}
    (below : bound < policy.maxPurgeableTimestamp) :
    bound < (mergeRows p q).primaryKeyLiveness.timestamp ∨ q.HasCellAbove bound := by
  by_cases newerLiveness : p.primaryKeyLiveness.timestamp < q.primaryKeyLiveness.timestamp
  · left
    have isQ : (mergeRows p q).primaryKeyLiveness = q.primaryKeyLiveness := by
      rw [mergeRows_liveness, newer, if_pos newerLiveness]
    rw [isQ]
    exact below.trans_le (guarded.liveness (LivenessInfo.hasTimestamp_of_lt newerLiveness))
  · right
    have isP : (mergeRows p q).primaryKeyLiveness = p.primaryKeyLiveness := by
      rw [mergeRows_liveness, newer, if_neg newerLiveness]
    have isExpired : (mergeRows p q).livenessExpired now := by
      rw [Row.livenessExpired, isP]
      exact lapsed.1
    rcases exists_mem_of_ne_nil _ (notLapsed isExpired) with ⟨cell, survives⟩
    rcases mem_surviving_iff.mp survives with ⟨cellMem, _, isLive⟩
    rcases mem_or_of_mem_mergeRows settled.sorted sortedQ cellMem with inRow | inRow
    · have inLive : cell ∈ p.liveCells now := mem_filter.mpr ⟨inRow, isLive⟩
      rw [lapsed.2] at inLive
      exact absurd inLive not_mem_nil
    · exact ⟨cell, inRow, below.trans_le (guarded.cells cell inRow)⟩

/-- A safe row that its purgeable deletion does not hide shows without it, or only through data from
outside. -/
theorem notDeleted_of_dropped (purgeable : policy.purgeableDeletion p.deletion)
    (safe : p.DroppedDeletionSafe policy now partitionDeletion) :
    p.deletion.markedForDeleteAt < (mergeRows p q).primaryKeyLiveness.timestamp ∨
      (mergeRows p q).HasCellAbove p.deletion.markedForDeleteAt := by
  rw [hasCellAbove_mergeRows_iff settled.sorted sortedQ]
  have cases_ : p.deletion.markedForDeleteAt < p.primaryKeyLiveness.timestamp ∨
      p.Lapsed now ∨ p.HasNewerCell := by
    rcases safe with newer | ⟨_, _, shows⟩ | ⟨_, _, _, _, newer, _⟩ | ⟨_, _, shows⟩
    · exact Or.inl newer
    · exact Or.inr shows
    · exact Or.inr (Or.inr newer)
    · exact Or.inr shows
  rcases cases_ with newer | lapsed | newerCell
  · exact Or.inl (newer.trans_le (le_mergeRows_liveness p q))
  · have below := (lt_of_purgeableDeletion purgeable).2
    exact (above_of_lapsed guarded settled sortedQ notLapsed lapsed below).imp_right Or.inr
  · exact Or.inr (Or.inl newerCell)

theorem notDeleted_of_kept (deleted : ¬p.deletion.isLive) (safe : p.KeptDeletionSafe policy now)
    (newerCell : (mergeRows p q).HasCellAbove p.deletion.markedForDeleteAt) :
    p.deletion.markedForDeleteAt < (mergeRows p q).primaryKeyLiveness.timestamp ∨
      (mergeRows (p.purged policy) q).HasCellAbove p.deletion.markedForDeleteAt := by
  rw [hasCellAbove_mergeRows_iff (Row.purged_cellsSorted settled.sorted) sortedQ]
  rcases (hasCellAbove_mergeRows_iff settled.sorted sortedQ).mp newerCell with inP | inQ
  · rcases safe.2 deleted with lapsed | newer | kept
    · rcases inP with ⟨cell, cellMem, above⟩
      by_cases drops : p.droppable policy cell
      · have below := above.trans (Row.lt_of_droppable drops).2
        exact (above_of_lapsed guarded settled sortedQ notLapsed lapsed below).imp_right Or.inr
      · have keptMem : cell ∈ p.keptCells policy :=
          mem_filter.mpr ⟨cellMem, by simpa using drops⟩
        exact Or.inr (Or.inl ⟨cell, keptMem, above⟩)
    · exact Or.inl (newer.trans_le (le_mergeRows_liveness p q))
    · exact Or.inr (Or.inl (kept inP))
  · exact Or.inr (Or.inr inQ)

include safe

theorem notDeleted_iff (aboveIff : ∀ bound : Int64, policy.maxPurgeableTimestamp ≤ bound →
      (bound < (mergeRows (p.purged policy) q).primaryKeyLiveness.timestamp ↔
        bound < (mergeRows p q).primaryKeyLiveness.timestamp)) :
    (mergeRows (p.purged policy) q).NotDeleted ↔ (mergeRows p q).NotDeleted := by
  change (_ ∨ _ ∨ Row.HasCellAbove _ _) ↔ (_ ∨ _ ∨ Row.HasCellAbove _ _)
  by_cases outsideLive : q.deletion.isLive
  · rw [mergeRows_deletion_of_isLive outsideLive, mergeRows_deletion_of_isLive outsideLive,
      Row.purged_deletion]
    by_cases purgeable : policy.purgeableDeletion p.deletion
    · rw [if_pos purgeable]
      exact iff_of_true (Or.inl rfl) (Or.inr (notDeleted_of_dropped guarded settled sortedQ
        notLapsed purgeable (safe.2 purgeable)))
    · rw [if_neg purgeable]
      have sameLiveness : (mergeRows (p.purged policy) q).primaryKeyLiveness =
          (mergeRows p q).primaryKeyLiveness := by
        rcases mergeRows_purged_liveness (p := p) guarded with same | dropped
        · exact same
        · exact absurd dropped.1 purgeable
      rw [sameLiveness]
      by_cases undeleted : p.deletion.isLive
      · exact iff_of_true (Or.inl undeleted) (Or.inl undeleted)
      · constructor
        · exact Or.imp_right (Or.imp_right (hasCellAbove_of_purged settled sortedQ))
        · rintro (isLive | newer | newerCell)
          · exact Or.inl isLive
          · exact Or.inr (Or.inl newer)
          · exact Or.inr (notDeleted_of_kept guarded settled sortedQ notLapsed
              undeleted (safe.1 purgeable) newerCell)
  · have above : policy.maxPurgeableTimestamp ≤ (mergeRows p q).deletion.markedForDeleteAt := by
      rw [mergeRows_deletion, rank_newer markedForDeleteAt]
      exact (guarded.deletion outsideLive).trans (le_max_right _ _)
    rw [mergeRows_purged_deletion guarded outsideLive, aboveIff _ above,
      hasCellAbove_mergeRows_purged_iff settled sortedQ above]

omit notLapsed in
theorem shows_mergeRows_purged_iff {deleteAt : Int64}
    (deletedAbove : partitionDeletion.markedForDeleteAt = Int64.minValue →
      deleteAt = Int64.minValue ∨ policy.maxPurgeableTimestamp ≤ deleteAt) :
    (mergeRows (p.purged policy) q).Shows now deleteAt ↔ (mergeRows p q).Shows now deleteAt := by
  rcases liveness_agrees guarded safe deletedAbove with ⟨keptIff, sameExpired, aboveIff⟩
  have sameSurviving := @surviving_mergeRows_purged policy now _ _ _ guarded settled sortedQ
  have deletedIff := fun notLapsed =>
    notDeleted_iff guarded settled sortedQ safe notLapsed aboveIff
  constructor
  · rintro ⟨kept, notLapsed, notDeleted⟩
    rw [sameExpired, sameSurviving] at notLapsed
    exact ⟨keptIff.mp kept, notLapsed, (deletedIff notLapsed).mp notDeleted⟩
  · rintro ⟨kept, notLapsed, notDeleted⟩
    refine ⟨keptIff.mpr kept, ?_, (deletedIff notLapsed).mpr notDeleted⟩
    rw [sameExpired, sameSurviving]
    exact notLapsed

end

end MergePurged

theorem visibleRows_sorted (sorted : StrictlySorted Row.clustering partition.rows) :
    StrictlySorted Prod.fst (visibleRows now partition) :=
  (sorted.filter _).map (fun _ => rfl)

section MergePair

variable {a b merged : Partition} {now : Int32}

def shownAt (now : Int32) (a b : Partition) (clustering : Bytes) : Option (List Cell) :=
  shown now (max a.deletion.markedForDeleteAt b.deletion.markedForDeleteAt)
    (Option.merge mergeRows (lookup Row.clustering clustering a.rows)
      (lookup Row.clustering clustering b.rows))

def Partition.staticCells (partition : Partition) : List Cell :=
  (partition.staticRow.map Row.cells).getD []

def shownStatic (now : Int32) (a b : Partition) : List Cell :=
  (mergeCells a.staticCells b.staticCells).filter (fun cell =>
    decide (max a.deletion.markedForDeleteAt b.deletion.markedForDeleteAt ≤ cell.2.timestamp) &&
      Row.liveCell now cell.2)

theorem MergedView.deletion_pair (merge : MergedView [a, b] merged) :
    merged.deletion.markedForDeleteAt =
      max a.deletion.markedForDeleteAt b.deletion.markedForDeleteAt := by
  have isNewer := merge.deletion
  rw [← reduce_newer_eq_argmax] at isNewer
  rw [← Option.some.inj isNewer]
  exact rank_newer ..

theorem reduce_versionsAt_pair (sortedA : StrictlySorted Row.clustering a.rows)
    (sortedB : StrictlySorted Row.clustering b.rows) (clustering : Bytes) :
    reduce mergeRows (versionsAt clustering [a, b]) =
      Option.merge mergeRows (lookup Row.clustering clustering a.rows)
        (lookup Row.clustering clustering b.rows) := by
  rw [versionsAt, flatMap_cons, flatMap_singleton, withKey_append, reduce_append,
    sortedA.withKey_eq, sortedB.withKey_eq]
  cases lookup Row.clustering clustering a.rows <;>
    cases lookup Row.clustering clustering b.rows <;> rfl

variable {cells : List Cell}

theorem mergeCells_nil_right (sorted : StrictlySorted cellKey cells) :
    mergeCells cells [] = cells := by
  rw [mergeCells, append_nil]
  exact sortFold_of_sorted cellKey_mergeCell sorted

theorem staticCells_pair (sortedA : ∀ row ∈ a.staticRow, row.CellsSorted)
    (sortedB : ∀ row ∈ b.staticRow, row.CellsSorted) :
    ((reduce mergeRows ([a, b].filterMap Partition.staticRow)).map Row.cells).getD [] =
      mergeCells a.staticCells b.staticCells := by
  rw [Partition.staticCells, Partition.staticCells]
  cases isA : a.staticRow with
  | none =>
    cases isB : b.staticRow with
    | none => simp [isA, isB, @mergeCells_nil_right [] .nil]
    | some row =>
      have sorted : row.CellsSorted := sortedB row (by simp [isB])
      simp [isA, isB, mergeCells, sortFold_of_sorted cellKey_mergeCell sorted]
  | some row =>
    cases isB : b.staticRow with
    | none =>
      have sorted : row.CellsSorted := sortedA row (by simp [isA])
      simp [isA, isB, mergeCells_nil_right sorted]
    | some other => simp [isA, isB, reduce, mergeRows_cells]

theorem MergedView.visibleStatic_eq (merge : MergedView [a, b] merged)
    (sortedA : ∀ row ∈ a.staticRow, row.CellsSorted)
    (sortedB : ∀ row ∈ b.staticRow, row.CellsSorted) :
    visibleStatic now merged = shownStatic now a b := by
  rw [visibleStatic, shownStatic, ← staticCells_pair sortedA sortedB, ← merge.deletion_pair,
    merge.staticRow, survivingStatic]
  cases reduce mergeRows ([a, b].filterMap Partition.staticRow) with
  | none => rfl
  | some row =>
    have liveRetained : (row.retainCells merged.deletion.markedForDeleteAt).liveCells now =
        row.cells.filter (fun cell =>
          decide (merged.deletion.markedForDeleteAt ≤ cell.2.timestamp) &&
            Row.liveCell now cell.2) := by
      rw [Row.liveCells, Row.retainCells, filter_filter]
      exact filter_congr fun cell _ => Bool.and_comm _ _
    rw [map_some, map_some, getD_some, ← liveRetained, filter_some]
    split
    · rfl
    · rename_i dropped
      have noCells : (row.retainCells merged.deletion.markedForDeleteAt).cells = [] := by
        by_contra nonempty
        exact dropped (by simp [nonempty])
      rw [Row.liveCells, noCells]
      rfl

/-- A reader cannot tell two merges with one partition apart when the same shows at every
clustering and in the static row. -/
theorem map_view_eq_iff {a' : Partition} (sortedA : a.Sorted) (sortedA' : a'.Sorted)
    (sortedB : b.Sorted) :
    (mergePartitions [a', b]).map (view now) = (mergePartitions [a, b]).map (view now) ↔
      (∀ clustering, shownAt now a' b clustering = shownAt now a b clustering) ∧
        shownStatic now a' b = shownStatic now a b := by
  have rowsOf : ∀ {c merged : Partition}, c.Sorted → MergedView [c, b] merged → ∀ clustering,
      lookup Prod.fst clustering (visibleRows now merged) =
        (shownAt now c b clustering).map (fun cells => (clustering, cells)) := by
    intro c merged sortedC merge clustering
    rw [merge.lookup_visibleRows, reduce_versionsAt_pair sortedC.rows sortedB.rows,
      merge.deletion_pair, shownAt]
  rcases exists_mergedView_of_two a b [] with ⟨mergedA, isMergeA, mergeA⟩
  rcases exists_mergedView_of_two a' b [] with ⟨mergedA', isMergeA', mergeA'⟩
  rw [isMergeA, isMergeA', map_some, map_some, some_inj, view, view,
    View.mk.injEq, mergeA.visibleStatic_eq sortedA.static sortedB.static,
    mergeA'.visibleStatic_eq sortedA'.static sortedB.static]
  apply and_congr_left'
  constructor
  · intro same clustering
    have found := rowsOf sortedA' mergeA' clustering
    rw [same, rowsOf sortedA mergeA] at found
    exact (map_injective (fun _ _ pairs => (Prod.mk.inj pairs).2) found).symm
  · intro same
    refine (visibleRows_sorted mergeA'.sorted).ext_lookup (visibleRows_sorted mergeA.sorted)
      fun clustering => ?_
    rw [rowsOf sortedA' mergeA', rowsOf sortedA mergeA, same]

end MergePair

theorem IsMerged.sorted (merged : IsMerged partition) :
    partition.Sorted := by
  rcases merged with ⟨sources, sourcesSorted, isMerge⟩
  have nonempty : sources ≠ [] := by
    rintro rfl
    cases isMerge
  rcases exists_mergedFrom nonempty (fun source mem => (sourcesSorted source mem).rows) with
    ⟨raw, isRaw, from_⟩
  rw [mergePartitions_eq_map, isRaw, map_some, some_inj] at isMerge
  rw [← isMerge]
  exact applyDeletions_sorted (from_.sorted sourcesSorted)

theorem IsMerged.settled (merged : IsMerged partition) (rowMem : row ∈ partition.rows) :
    row.Settled partition.deletion := by
  have sorted := merged.sorted.cells row rowMem
  rcases merged with ⟨sources, _, isMerge⟩
  rw [mergePartitions_eq_map, map_eq_some_iff] at isMerge
  rcases isMerge with ⟨raw, _, rfl⟩
  rw [applyDeletions_rows, mem_map] at rowMem
  rcases rowMem with ⟨source, sourceMem, rfl⟩
  refine ⟨sorted, ?_, ?_⟩
  · intro cell cellMem
    rw [Row.applyRowDeletion_cells, mem_filter, decide_eq_true_eq] at cellMem
    rw [Row.applyRowDeletion_deletion]
    exact cellMem.2
  · rw [applyDeletions_deletion, Row.applyRowDeletion_liveness]
    exact of_decide_eq_true (mem_filter.mp sourceMem).2

def Row.vacant (clustering : Bytes) : Row := ⟨clustering, [], .live, .none⟩

theorem mergeRows_vacant {p : Row} (sorted : p.CellsSorted) (clustering : Bytes) :
    mergeRows p (.vacant clustering) = p := by
  refine Row.ext rfl ?_ ?_ ?_
  · exact mergeCells_nil_right sorted
  · exact if_neg (not_lt.mpr (Int64.minValue_le _))
  · exact if_neg (not_lt.mpr (Int64.minValue_le _))

theorem Row.vacant_notBelow (bound : Int64) (clustering : Bytes) :
    (Row.vacant clustering).NotBelow bound where
  cells := nofun
  deletion deleted := absurd rfl deleted
  liveness := nofun

theorem Row.afterPurge_of_safe {partitionDeletion : DeletionTime} {p : Row}
    (safe : p.PurgesSafely policy now partitionDeletion) :
    p.afterPurge policy = some (p.purged policy) := by
  rw [Row.afterPurge, if_neg]
  rw [Bool.and_eq_true, Row.isVacant, Bool.and_eq_true, Bool.and_eq_true, Bool.not_eq_true',
    List.isEmpty_iff]
  rintro ⟨changes, ⟨noCells, undeleted⟩, noTimestamp⟩
  rw [Row.purged_cells] at noCells
  rw [Row.purged_liveness] at noTimestamp
  by_cases purgeable : policy.purgeableDeletion p.deletion
  · have keepsLiveness : p.deletion.markedForDeleteAt ≤ p.primaryKeyLiveness.timestamp →
        p.primaryKeyLiveness.hasTimestamp → False := by
      intro notOlder hasTimestamp
      rw [if_neg (fun all => absurd all.2.2 (not_lt.mpr notOlder)), hasTimestamp] at noTimestamp
      cases noTimestamp
    rcases safe.2 purgeable with newer | ⟨hasTimestamp, tie, _⟩ | ⟨_, _, _, _, _, kept⟩ |
        ⟨_, kept, _⟩
    · exact keepsLiveness newer.le (LivenessInfo.hasTimestamp_of_lt newer)
    · exact keepsLiveness tie.ge hasTimestamp
    · exact kept noCells
    · exact kept noCells
  · rw [Row.purged_deletion, if_neg purgeable] at undeleted
    rw [if_neg (fun all => purgeable all.1)] at noTimestamp
    rcases (safe.1 purgeable).1 undeleted with hasTimestamp | empty | kept
    · rw [hasTimestamp] at noTimestamp
      cases noTimestamp
    · simp [Row.purgeChanges, purgeable, empty] at changes
    · exact kept noCells

theorem Row.eq_purged_of_mem_afterPurge {left : Row} (isLeft : left ∈ row.afterPurge policy) :
    left = row.purged policy := by
  rw [Row.afterPurge] at isLeft
  split at isLeft
  · cases isLeft
  · exact (Option.some.inj isLeft).symm

theorem Row.afterPurge_clustering (row : Row) :
    ∀ left ∈ row.afterPurge policy, left.clustering = row.clustering := by
  intro left leftMem
  rw [Row.eq_purged_of_mem_afterPurge leftMem, Row.purged_clustering]

theorem lookup_purgePartition_rows (sorted : StrictlySorted Row.clustering partition.rows)
    (clustering : Bytes) :
    lookup Row.clustering clustering (purgePartition partition policy).1.rows =
      (lookup Row.clustering clustering partition.rows).bind (Row.afterPurge policy) := by
  rw [purgePartition_rows, sorted.lookup_filterMap Row.afterPurge_clustering]

theorem purgePartition_sorted (sorted : partition.Sorted) :
    (purgePartition partition policy).1.Sorted := by
  refine ⟨?_, ?_, ?_⟩
  · rw [purgePartition_rows]
    exact sorted.rows.filterMap Row.afterPurge_clustering
  · intro left leftMem
    rw [purgePartition_rows, mem_filterMap] at leftMem
    rcases leftMem with ⟨row, rowMem, isLeft⟩
    rw [Row.eq_purged_of_mem_afterPurge isLeft]
    exact Row.purged_cellsSorted (sorted.cells row rowMem)
  · intro left leftMem
    rw [purgePartition_staticRow] at leftMem
    rcases mem_bind_iff.mp leftMem with ⟨row, rowMem, isLeft⟩
    split at isLeft
    · cases isLeft
    · rw [← Option.some.inj isLeft]
      exact Row.purged_cellsSorted (sorted.static row rowMem)

section Purge

variable {policy : PurgePolicy} {now : Int32} {partition outside : Partition}

theorem staticCells_purgePartition : (purgePartition partition policy).1.staticCells =
      (partition.staticRow.map (Row.keptCells policy)).getD [] := by
  rw [Partition.staticCells, purgePartition_staticRow]
  cases partition.staticRow with
  | none => rfl
  | some row =>
    rw [bind_some, map_some, getD_some]
    split
    · rename_i removed
      rw [Bool.and_eq_true, List.isEmpty_iff] at removed
      exact removed.2.symm
    · rfl

theorem deletedAbove (guarded : outside.NotBelow policy.maxPurgeableTimestamp)
    (undeleted : partition.deletion.markedForDeleteAt = Int64.minValue) :
    max partition.deletion.markedForDeleteAt outside.deletion.markedForDeleteAt = Int64.minValue ∨
      policy.maxPurgeableTimestamp ≤
        max partition.deletion.markedForDeleteAt outside.deletion.markedForDeleteAt := by
  by_cases isLive : outside.deletion.isLive
  · left
    rw [undeleted, markedForDeleteAt_of_isLive isLive, max_self]
  · right
    exact (guarded.deletion isLive).trans (le_max_right _ _)

variable (hidesNothing : policy.purgeableDeletion partition.deletion →
  partition.deletion.markedForDeleteAt = Int64.minValue)

include hidesNothing

theorem purgePartition_markedForDeleteAt :
    (purgePartition partition policy).1.deletion.markedForDeleteAt =
      partition.deletion.markedForDeleteAt := by
  rw [purgePartition_deletion]
  split_ifs with purgeable
  · exact (hidesNothing purgeable).symm
  · rfl

theorem shownStatic_purgePartition (sorted : partition.Sorted) (outsideSorted : outside.Sorted)
    (guarded : outside.NotBelow policy.maxPurgeableTimestamp) :
    shownStatic now (purgePartition partition policy).1 outside =
      shownStatic now partition outside := by
  have isStaticCells : partition.staticCells = (partition.staticRow.map Row.cells).getD [] := rfl
  rw [shownStatic, shownStatic, purgePartition_markedForDeleteAt hidesNothing,
    staticCells_purgePartition, isStaticCells]
  cases isStatic : partition.staticRow with
  | none => rfl
  | some row =>
    have rowSorted : row.CellsSorted := sorted.static row (by simp [isStatic])
    have outsideStatic : StrictlySorted cellKey outside.staticCells ∧
        ∀ cell ∈ outside.staticCells, policy.maxPurgeableTimestamp ≤ cell.2.timestamp := by
      rw [Partition.staticCells]
      cases isOutside : outside.staticRow with
      | none => exact ⟨List.Pairwise.nil, nofun⟩
      | some q => exact ⟨outsideSorted.static q isOutside, (guarded.static q isOutside).cells⟩
    apply filter_mergeCells_keptCells rowSorted outsideStatic.1 outsideStatic.2
    intro cell isTombstone
    rw [Row.liveCell, isTombstone, Bool.true_or, Bool.not_true, Bool.and_false]

/-- With a safe partition deletion, a purge shows only where some row of the partition meets a
row from outside, or none. -/
theorem shownAt_purgePartition (sorted : partition.Sorted) (clustering : Bytes) :
    shownAt now (purgePartition partition policy).1 outside clustering =
      shown now (max partition.deletion.markedForDeleteAt outside.deletion.markedForDeleteAt)
        (Option.merge mergeRows
          ((lookup Row.clustering clustering partition.rows).bind (Row.afterPurge policy))
          (lookup Row.clustering clustering outside.rows)) := by
  rw [shownAt, purgePartition_markedForDeleteAt hidesNothing,
    lookup_purgePartition_rows sorted.rows]

theorem purgeSafe_of_purgesSafely (merged : IsMerged partition)
    (rowsSafe : ∀ row ∈ partition.rows, row.PurgesSafely policy now partition.deletion) :
    PurgeSafe policy now partition := by
  intro outside outsideSorted _ guarded
  have sorted := merged.sorted
  rw [map_view_eq_iff sorted (purgePartition_sorted sorted) outsideSorted]
  refine ⟨?_, shownStatic_purgePartition hidesNothing sorted outsideSorted guarded⟩
  intro clustering
  rw [shownAt_purgePartition hidesNothing sorted, shownAt]
  cases isRow : lookup Row.clustering clustering partition.rows with
  | none => rfl
  | some p =>
    have rowMem := (mem_of_lookup isRow).1
    have settled := merged.settled rowMem
    have safe := rowsSafe p rowMem
    have agrees : ∀ q : Row, q.CellsSorted → q.NotBelow policy.maxPurgeableTimestamp →
        shown now (max partition.deletion.markedForDeleteAt outside.deletion.markedForDeleteAt)
          (some (mergeRows (p.purged policy) q)) =
        shown now (max partition.deletion.markedForDeleteAt outside.deletion.markedForDeleteAt)
          (some (mergeRows p q)) := by
      intro q sortedQ guardedQ
      rw [shown_some, shown_some, surviving_mergeRows_purged guardedQ settled sortedQ]
      simp only [shows_mergeRows_purged_iff guardedQ settled sortedQ safe (deletedAbove guarded)]
    rw [bind_some, Row.afterPurge_of_safe safe]
    cases isOutside : lookup Row.clustering clustering outside.rows with
    | none =>
      have vacant := agrees (.vacant clustering) List.Pairwise.nil (Row.vacant_notBelow _ _)
      rw [mergeRows_vacant (Row.purged_cellsSorted settled.sorted),
        mergeRows_vacant settled.sorted] at vacant
      rw [merge_none_right, merge_none_right, vacant]
    | some q =>
      have outsideMem := (mem_of_lookup isOutside).1
      rw [merge_some_some, merge_some_some]
      exact agrees q (outsideSorted.cells q outsideMem) (guarded.rows q outsideMem)

end Purge

end Ferrosa.Storage
