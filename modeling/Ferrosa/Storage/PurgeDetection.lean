import Ferrosa.Storage.PurgeSafety

/-!
# Telling a purge

Each way in which a purge can go wrong has a partition outside the compaction that
shows it: nothing at all, a row that carries nothing, a live cell under a fresh path,
or a row of tombstones over every cell.  Together with the sufficient condition this
makes the condition exact.
-/

namespace Ferrosa.Storage

open KeyedFold Option List.Pairwise
open List hiding lookup_cons lookup_eq_none_iff

section Rows

variable {policy : PurgePolicy} {now : Int32} {deleteAt : Int64} {p q : Row}

/-- No guarded version of the row from outside, and none at all, tells its purge. -/
def Row.PurgeUntold (policy : PurgePolicy) (now : Int32) (deleteAt : Int64) (p : Row) : Prop :=
  ∀ q : Option Row, (∀ row ∈ q, row.clustering = p.clustering ∧ row.CellsSorted ∧
    row.NotBelow policy.maxPurgeableTimestamp) →
    shown now deleteAt (Option.merge mergeRows (p.afterPurge policy) q) =
      shown now deleteAt (Option.merge mergeRows (some p) q)

theorem shown_ne_none_iff {row : Option Row} :
    shown now deleteAt row ≠ none ↔ ∃ found ∈ row, found.Shows now deleteAt := by
  cases row with
  | none => simp [shown]
  | some found =>
    rw [shown_some]
    split_ifs with shows <;> simp [shows]

theorem Row.PurgeUntold.shows_iff (untold : p.PurgeUntold policy now deleteAt) :
    (∃ left ∈ p.afterPurge policy, left.Shows now deleteAt) ↔ p.Shows now deleteAt := by
  have same := untold none (by simp)
  rw [merge_none_right, merge_none_right] at same
  rw [← shown_ne_none_iff, same, shown_ne_none_iff]
  simp

theorem Row.PurgeUntold.shows_merge_iff (untold : p.PurgeUntold policy now deleteAt)
    (atClustering : q.clustering = p.clustering) (sorted : q.CellsSorted)
    (guarded : q.NotBelow policy.maxPurgeableTimestamp) :
    (∃ left ∈ Option.merge mergeRows (p.afterPurge policy) (some q), left.Shows now deleteAt) ↔
      (mergeRows p q).Shows now deleteAt := by
  have same := untold (some q) (by simp [atClustering, sorted, guarded])
  rw [← shown_ne_none_iff, same, shown_ne_none_iff, merge_some_some]
  simp

variable {partitionDeletion : DeletionTime}

theorem Row.Settled.surviving_eq (settled : p.Settled partitionDeletion) :
    p.surviving now = p.liveCells now := by
  rw [Row.surviving_eq, Row.liveCells]
  apply filter_congr
  intro cell cellMem
  rw [decide_eq_true (settled.cells cell cellMem), Bool.true_and]

theorem Row.Settled.shows_iff (settled : p.Settled partitionDeletion) :
    p.Shows now partitionDeletion.markedForDeleteAt ↔ ¬p.Lapsed now ∧ p.NotDeleted := by
  constructor
  · rintro ⟨_, notLapsed, notDeleted⟩
    rw [settled.surviving_eq] at notLapsed
    exact ⟨fun lapsed => notLapsed lapsed.1 lapsed.2, notDeleted⟩
  · rintro ⟨notLapsed, notDeleted⟩
    refine ⟨settled.kept, ?_, notDeleted⟩
    rw [settled.surviving_eq]
    exact fun isExpired noCells => notLapsed ⟨isExpired, noCells⟩

theorem Row.Settled.minValue_of_noTimestamp (settled : p.Settled partitionDeletion)
    (noTimestamp : p.primaryKeyLiveness.hasTimestamp = false) :
    partitionDeletion.markedForDeleteAt = Int64.minValue := by
  have atMin : p.primaryKeyLiveness.timestamp = Int64.minValue := by
    simpa [LivenessInfo.hasTimestamp] using noTimestamp
  exact le_antisymm (settled.kept.trans atMin.le) (Int64.minValue_le _)

theorem shows_of_none_of_live {row : Row} (noLiveness : row.primaryKeyLiveness = .none)
    (undeleted : row.deletion = .live) :
    row.Shows now deleteAt ↔ deleteAt = Int64.minValue := by
  constructor
  · rintro ⟨kept, _, _⟩
    rw [noLiveness] at kept
    exact le_antisymm kept (Int64.minValue_le _)
  · rintro rfl
    refine ⟨Int64.minValue_le _, ?_, Or.inl ?_⟩
    · rw [Row.livenessExpired, noLiveness]
      intro isExpired
      cases isExpired
    · rw [undeleted]
      rfl

theorem surviving_purged (settled : p.Settled partitionDeletion) :
    (p.purged policy).surviving now = p.liveCells now := by
  have same := @surviving_mergeRows_purged policy now _ p (.vacant p.clustering)
    (Row.vacant_notBelow _ _) settled nil
  rw [mergeRows_vacant (Row.purged_cellsSorted settled.sorted), mergeRows_vacant settled.sorted,
    settled.surviving_eq] at same
  exact same

/-- A row that carries nothing tells that a row is gone. -/
theorem Row.PurgeUntold.afterPurge_eq (untold : p.PurgeUntold policy now deleteAt)
    (sorted : p.CellsSorted) (undeleted : deleteAt = Int64.minValue) :
    p.afterPurge policy = some (p.purged policy) := by
  cases isLeft : p.afterPurge policy with
  | none =>
    have shows := (untold.shows_merge_iff (q := .vacant p.clustering) rfl nil
      (Row.vacant_notBelow _ _)).mp
        ⟨.vacant p.clustering, by rw [isLeft]; rfl, (shows_of_none_of_live rfl rfl).mpr undeleted⟩
    rw [mergeRows_vacant sorted] at shows
    rcases untold.shows_iff.mpr shows with ⟨left, leftMem, _⟩
    rw [isLeft] at leftMem
    cases leftMem
  | some left => rw [Row.eq_purged_of_mem_afterPurge isLeft]

theorem Row.PurgeUntold.keptCells_ne_nil (untold : p.PurgeUntold policy now deleteAt)
    (sorted : p.CellsSorted) (isMin : deleteAt = Int64.minValue) (changes : p.purgeChanges policy)
    (undeleted : (p.purged policy).deletion = .live)
    (noTimestamp : (p.purged policy).primaryKeyLiveness.hasTimestamp = false) :
    p.keptCells policy ≠ [] := by
  intro noCells
  have isVacant : (p.purged policy).isVacant := by
    rw [Row.isVacant, Row.purged_cells, noCells, undeleted, noTimestamp]
    rfl
  have isLeft := untold.afterPurge_eq sorted isMin
  rw [Row.afterPurge, changes, isVacant] at isLeft
  cases isLeft

theorem exists_merge_of_dropped (purgeable : policy.purgeableDeletion p.deletion)
    (hasTimestamp : p.primaryKeyLiveness.hasTimestamp)
    (older : p.primaryKeyLiveness.timestamp < p.deletion.markedForDeleteAt)
    (noLiveness : q.primaryKeyLiveness = .none) (undeleted : q.deletion = .live) :
    ∃ left, Option.merge mergeRows (p.afterPurge policy) (some q) = some left ∧
      left.primaryKeyLiveness = .none ∧ left.deletion = .live := by
  cases isLeft : p.afterPurge policy with
  | none => exact ⟨q, rfl, noLiveness, undeleted⟩
  | some left =>
    rw [Row.eq_purged_of_mem_afterPurge isLeft]
    refine ⟨mergeRows (p.purged policy) q, rfl, ?_, ?_⟩
    · rw [mergeRows_liveness, Row.purged_liveness, if_pos ⟨purgeable, hasTimestamp, older⟩,
        noLiveness]
      rfl
    · rw [mergeRows_deletion, Row.purged_deletion, if_pos purgeable, undeleted]
      rfl

def buryCell (bound : Int64) (cell : Cell) : Cell :=
  (cell.1, ⟨none, max bound cell.2.timestamp, 0, Int32.maxValue, cell.2.path⟩)

def Row.bury (bound : Int64) (row : Row) : Row where
  clustering := row.clustering
  cells := row.cells.map (buryCell bound)
  deletion := .live
  primaryKeyLiveness := .none

def Row.touch (clustering path : Bytes) (timestamp : Int64) : Row where
  clustering := clustering
  cells := [(0, ⟨some [], timestamp, 0, Int32.maxValue, some path⟩)]
  deletion := .live
  primaryKeyLiveness := .none

theorem Row.bury_sorted (bound : Int64) (sorted : p.CellsSorted) : (p.bury bound).CellsSorted :=
  StrictlySorted.map sorted (fun _ => rfl)

theorem Row.bury_notBelow (bound : Int64) : (p.bury bound).NotBelow bound where
  cells cell cellMem := by
    rcases mem_map.mp cellMem with ⟨source, _, rfl⟩
    exact le_max_left _ _
  deletion := (Row.vacant_notBelow bound p.clustering).deletion
  liveness := (Row.vacant_notBelow bound p.clustering).liveness

theorem Row.touch_notBelow (clustering path : Bytes) (bound : Int64) :
    (Row.touch clustering path bound).NotBelow bound where
  cells cell cellMem := by rw [mem_singleton.mp cellMem]
  deletion := (Row.vacant_notBelow bound clustering).deletion
  liveness := (Row.vacant_notBelow bound clustering).liveness

theorem CellValue.isTombstone_of_le {a b : CellValue} (below : a ≤ b) (isTombstone : a.isTombstone)
    (notNewer : b.timestamp ≤ a.timestamp) : b.isTombstone := by
  have keyBelow : a.reconcileKey ≤ b.reconcileKey := below
  simp only [CellValue.reconcileKey, Prod.Lex.toLex_le_toLex, isTombstone] at keyBelow
  rcases keyBelow with lower | ⟨_, lower | ⟨same, _⟩⟩
  · exact absurd lower (not_lt.mpr notNewer)
  · exact absurd lower (not_lt.mpr (Bool.le_true _))
  · exact same.symm

theorem surviving_mergeRows_bury (sorted : p.CellsSorted) (bound : Int64) :
    (mergeRows p (p.bury bound)).surviving now = [] := by
  rw [eq_nil_iff_forall_not_mem]
  intro cell survives
  rcases mem_surviving_iff.mp survives with ⟨cellMem, _, isLive⟩
  have found := (mergeCells_sorted p.cells (p.bury bound).cells).lookup_of_mem cellMem
  have buried : lookup cellKey (cellKey cell) (p.bury bound).cells =
      (lookup cellKey (cellKey cell) p.cells).map (buryCell bound) := lookup_map (fun _ => rfl) _ _
  rw [lookup_mergeCells_of_sorted sorted (Row.bury_sorted bound sorted), buried] at found
  have isTombstone : cell.2.isTombstone := by
    cases isSource : lookup cellKey (cellKey cell) p.cells with
    | none =>
      rw [isSource] at found
      cases found
    | some source =>
      rw [isSource, map_some, merge_some_some, some_inj, mergeCell] at found
      split at found
      · rw [← found]
        rfl
      · rename_i notWins
        rw [CellValue.supersedes_iff, not_lt] at notWins
        rw [← found]
        exact CellValue.isTombstone_of_le notWins rfl (le_max_right _ _)
  rw [Row.liveCell, isTombstone] at isLive
  cases isLive

theorem mergeRows_liveness_of_none (noLiveness : q.primaryKeyLiveness = .none) :
    (mergeRows p q).primaryKeyLiveness = p.primaryKeyLiveness := by
  rw [mergeRows_liveness, noLiveness]
  exact if_neg (not_lt.mpr (Int64.minValue_le _))

theorem shows_mergeRows_touch (sorted : p.CellsSorted) {path : Bytes} {timestamp : Int64}
    (fresh : ∀ cell ∈ p.cells, cell.2.path ≠ some path)
    (newer : p.deletion.markedForDeleteAt < timestamp)
    (kept : deleteAt ≤ p.primaryKeyLiveness.timestamp) :
    (mergeRows p (.touch p.clustering path timestamp)).Shows now deleteAt := by
  let touched : Row := .touch p.clustering path timestamp
  let cell : Cell := (0, ⟨some [], timestamp, 0, Int32.maxValue, some path⟩)
  have touchedSorted : touched.CellsSorted := pairwise_singleton _ _
  have notInP : lookup cellKey (cellKey cell) p.cells = none := by
    rw [lookup_eq_none_iff]
    intro other otherMem same
    exact fresh other otherMem (cellKey_eq_iff.mp same).2
  have inTouched : lookup cellKey (cellKey cell) touched.cells = some cell := by
    rw [show touched.cells = [cell] from rfl, lookup_cons, if_pos rfl]
  have cellMem : cell ∈ (mergeRows p touched).cells := by
    have found := lookup_mergeCells_of_sorted sorted touchedSorted (cellKey cell)
    rw [notInP, inTouched, merge_none_left] at found
    exact (mem_of_lookup found).1
  have sameDeletion : (mergeRows p touched).deletion = p.deletion :=
    mergeRows_deletion_of_isLive rfl
  refine ⟨?_, ?_, Or.inr (Or.inr ⟨cell, cellMem, ?_⟩)⟩
  · rw [mergeRows_liveness_of_none rfl]
    exact kept
  · intro _
    have survives : cell ∈ (mergeRows p touched).surviving now := by
      rw [mem_surviving_iff, sameDeletion]
      exact ⟨cellMem, newer.le, rfl⟩
    exact ne_nil_of_mem survives
  · rw [sameDeletion]
    exact newer

variable {partitionDeletion : DeletionTime}

section

variable (settled : p.Settled partitionDeletion)
  (untold : p.PurgeUntold policy now partitionDeletion.markedForDeleteAt)

include settled untold

theorem lapsed_or_newer_of_untold (purgeable : policy.purgeableDeletion p.deletion)
    (notNewer : ¬p.deletion.markedForDeleteAt < p.primaryKeyLiveness.timestamp)
    (sameLiveness : (p.purged policy).primaryKeyLiveness = p.primaryKeyLiveness)
    (isLeft : p.afterPurge policy = some (p.purged policy)) :
    p.Lapsed now ∨ p.HasNewerCell := by
  by_contra neither
  rw [not_or] at neither
  have purgedShows : (p.purged policy).Shows now partitionDeletion.markedForDeleteAt := by
    refine ⟨?_, ?_, Or.inl ?_⟩
    · rw [sameLiveness]
      exact settled.kept
    · rw [surviving_purged settled, Row.livenessExpired, sameLiveness]
      exact fun isExpired noCells => neither.1 ⟨isExpired, noCells⟩
    · rw [Row.purged_deletion, if_pos purgeable]
      rfl
  have shows := untold.shows_iff.mp ⟨_, isLeft, purgedShows⟩
  rcases (settled.shows_iff.mp shows).2 with undeleted | newer | newerCell
  · exact (PurgePolicy.lt_of_purgeableDeletion purgeable).1 undeleted
  · exact notNewer newer
  · exact neither.2 newerCell

theorem keptDeletionSafe_of_untold (stays : ¬policy.purgeableDeletion p.deletion) :
    p.KeptDeletionSafe policy now := by
  have sameDeletion : (p.purged policy).deletion = p.deletion := by
    rw [Row.purged_deletion, if_neg stays]
  have sameLiveness : (p.purged policy).primaryKeyLiveness = p.primaryKeyLiveness := by
    rw [Row.purged_liveness, if_neg (fun all => stays all.1)]
  constructor
  · intro undeleted
    by_contra removed
    simp only [not_or, Bool.not_eq_true, ne_eq, not_not] at removed
    rcases removed with ⟨noTimestamp, hasCells, noCells⟩
    rcases exists_mem_of_ne_nil _ hasCells with ⟨cell, cellMem⟩
    have changes : p.purgeChanges policy := by
      rw [Row.purgeChanges, Bool.or_eq_true, List.any_eq_true]
      refine Or.inr ⟨cell, cellMem, ?_⟩
      by_contra keeps
      have keptMem : cell ∈ p.keptCells policy :=
        mem_filter.mpr ⟨cellMem, by simpa using keeps⟩
      rw [noCells] at keptMem
      cases keptMem
    exact untold.keptCells_ne_nil settled.sorted (settled.minValue_of_noTimestamp noTimestamp)
      changes (sameDeletion.trans (DeletionTime.isLive_iff.mp undeleted))
      (by rw [sameLiveness]; exact noTimestamp) noCells
  · intro deleted
    by_contra missed
    rw [not_or, not_or, Classical.not_imp] at missed
    rcases missed with ⟨notLapsed, notNewer, newerCell, noneKept⟩
    have shows := settled.shows_iff.mpr ⟨notLapsed, Or.inr (Or.inr newerCell)⟩
    rcases untold.shows_iff.mpr shows with ⟨left, leftMem, leftShows⟩
    rw [Row.eq_purged_of_mem_afterPurge leftMem] at leftShows
    have notDeleted := leftShows.notDeleted
    rw [Row.HasNewerCell, sameDeletion, sameLiveness] at notDeleted
    rcases notDeleted with undeleted | newer | keptCell
    · exact deleted undeleted
    · exact notNewer newer
    · exact noneKept keptCell

theorem droppedLiveness_of_untold (purgeable : policy.purgeableDeletion p.deletion)
    (hasTimestamp : p.primaryKeyLiveness.hasTimestamp)
    (older : p.primaryKeyLiveness.timestamp < p.deletion.markedForDeleteAt) :
    partitionDeletion.markedForDeleteAt = Int64.minValue ∧ ¬p.livenessExpired now ∧
      p.HasNewerCell ∧ p.keptCells policy ≠ [] := by
  rcases PurgePolicy.lt_of_purgeableDeletion purgeable with ⟨deleted, below⟩
  have undeleted : partitionDeletion.markedForDeleteAt = Int64.minValue := by
    rcases Infinite.exists_notMem_finset (p.cells.filterMap (fun cell => cell.2.path)).toFinset with
      ⟨path, notUsed⟩
    have fresh : ∀ cell ∈ p.cells, cell.2.path ≠ some path := by
      intro cell cellMem isPath
      exact notUsed (mem_toFinset.mpr (mem_filterMap.mpr ⟨cell, cellMem, isPath⟩))
    have shows := @shows_mergeRows_touch now _ _ settled.sorted _ _ fresh below settled.kept
    rw [← untold.shows_merge_iff (q := .touch p.clustering path policy.maxPurgeableTimestamp) rfl
      (pairwise_singleton _ _) (Row.touch_notBelow _ _ _)] at shows
    rcases shows with ⟨left, leftMem, leftShows⟩
    rcases @exists_merge_of_dropped _ _ (.touch p.clustering path policy.maxPurgeableTimestamp)
      purgeable hasTimestamp older rfl rfl with ⟨merged, isMerged, noLiveness, isLive⟩
    rw [isMerged] at leftMem
    cases leftMem
    exact (shows_of_none_of_live noLiveness isLive).mp leftShows
  -- with the liveness dropped, the purged row shows in every merge that brings none back
  have showsWith : ∀ q : Row, q.clustering = p.clustering → q.CellsSorted →
      q.NotBelow policy.maxPurgeableTimestamp → q.primaryKeyLiveness = .none →
      q.deletion = .live → (mergeRows p q).Shows now partitionDeletion.markedForDeleteAt := by
    intro q atClustering sorted guarded noLiveness isLive
    rcases exists_merge_of_dropped purgeable hasTimestamp older noLiveness isLive with
      ⟨merged, isMerged, noneLeft, liveLeft⟩
    rw [← untold.shows_merge_iff atClustering sorted guarded]
    exact ⟨merged, isMerged, (shows_of_none_of_live noneLeft liveLeft).mpr undeleted⟩
  refine ⟨undeleted, ?_, ?_, ?_⟩
  · intro isExpired
    have shows := showsWith (p.bury policy.maxPurgeableTimestamp) rfl
      (Row.bury_sorted _ settled.sorted) (Row.bury_notBelow _) rfl rfl
    refine shows.notLapsed ?_ (surviving_mergeRows_bury settled.sorted _)
    rw [Row.livenessExpired, mergeRows_liveness_of_none rfl]
    exact isExpired
  · have shows := showsWith (.vacant p.clustering) rfl nil (Row.vacant_notBelow _ _) rfl rfl
    rw [mergeRows_vacant settled.sorted] at shows
    rcases shows.notDeleted with isLive | newer | newerCell
    · exact absurd isLive deleted
    · exact absurd newer (not_lt.mpr older.le)
    · exact newerCell
  · exact untold.keptCells_ne_nil settled.sorted undeleted
      (by rw [Row.purgeChanges, purgeable, Bool.true_or])
      (by rw [Row.purged_deletion, if_pos purgeable])
      (by rw [Row.purged_liveness, if_pos ⟨purgeable, hasTimestamp, older⟩]; rfl)

theorem droppedDeletionSafe_of_untold (purgeable : policy.purgeableDeletion p.deletion) :
    p.DroppedDeletionSafe policy now partitionDeletion := by
  by_cases newer : p.deletion.markedForDeleteAt < p.primaryKeyLiveness.timestamp
  · exact Or.inl newer
  by_cases hasTimestamp : p.primaryKeyLiveness.hasTimestamp
  · rcases (not_lt.mp newer).lt_or_eq with older | tie
    · exact Or.inr (Or.inr (Or.inl ⟨hasTimestamp, older,
        droppedLiveness_of_untold settled untold purgeable hasTimestamp older⟩))
    · have sameLiveness : (p.purged policy).primaryKeyLiveness = p.primaryKeyLiveness := by
        rw [Row.purged_liveness, if_neg (fun all => all.2.2.ne tie)]
      have isLeft : p.afterPurge policy = some (p.purged policy) := by
        simp [Row.afterPurge, Row.isVacant, sameLiveness, hasTimestamp]
      exact Or.inr (Or.inl ⟨hasTimestamp, tie,
        lapsed_or_newer_of_untold settled untold purgeable newer sameLiveness isLeft⟩)
  · have noTimestamp : p.primaryKeyLiveness.hasTimestamp = false := by simpa using hasTimestamp
    have sameLiveness : (p.purged policy).primaryKeyLiveness = p.primaryKeyLiveness := by
      rw [Row.purged_liveness, if_neg (fun all => hasTimestamp all.2.1)]
    have isMin := settled.minValue_of_noTimestamp noTimestamp
    have isLeft := untold.afterPurge_eq settled.sorted isMin
    refine Or.inr (Or.inr (Or.inr ⟨hasTimestamp, ?_,
      lapsed_or_newer_of_untold settled untold purgeable newer sameLiveness isLeft⟩))
    exact untold.keptCells_ne_nil settled.sorted isMin
      (by rw [Row.purgeChanges, purgeable, Bool.true_or])
      (by rw [Row.purged_deletion, if_pos purgeable]) (by rw [sameLiveness]; exact noTimestamp)

end

end Rows

section Partitions

variable {policy : PurgePolicy} {now : Int32} {partition : Partition}

def Partition.outsideRow (partition : Partition) (row : Option Row) : Partition :=
  ⟨partition.key, .live, none, row.toList⟩

variable {row : Option Row}

theorem outsideRow_sorted (sorted : ∀ found ∈ row, found.CellsSorted) :
    (partition.outsideRow row).Sorted where
  rows := by
    cases row with
    | none => exact nil
    | some found => exact pairwise_singleton _ _
  cells found foundMem := sorted found (mem_toList.mp foundMem)
  static := nofun

theorem lookup_outsideRow {clustering : Bytes}
    (atClustering : ∀ found ∈ row, found.clustering = clustering) :
    lookup Row.clustering clustering (partition.outsideRow row).rows = row := by
  cases row with
  | none => rfl
  | some found =>
    rw [show (partition.outsideRow (some found)).rows = [found] from rfl, lookup_cons,
      if_pos (atClustering found rfl)]

section

variable (safe : PurgeSafe policy now partition) (sorted : partition.Sorted)

include safe sorted

theorem PurgeSafe.shownAt_eq (rowSorted : ∀ found ∈ row, found.CellsSorted)
    (guarded : ∀ found ∈ row, found.NotBelow policy.maxPurgeableTimestamp) (clustering : Bytes) :
    shownAt now (purgePartition partition policy).1 (partition.outsideRow row) clustering =
      shownAt now partition (partition.outsideRow row) clustering := by
  have outsideSorted := @outsideRow_sorted partition _ rowSorted
  exact ((map_view_eq_iff sorted (purgePartition_sorted sorted) outsideSorted).mp
    (safe _ outsideSorted rfl
      ⟨absurd rfl, fun found foundMem => guarded found (mem_toList.mp foundMem), nofun⟩)).1 clustering

theorem PurgeSafe.hidesNothing (purgeable : policy.purgeableDeletion partition.deletion) :
    partition.deletion.markedForDeleteAt = Int64.minValue := by
  rcases Infinite.exists_notMem_finset (partition.rows.map Row.clustering).toFinset with
    ⟨clustering, notUsed⟩
  have fresh : lookup Row.clustering clustering partition.rows = none := by
    rw [lookup_eq_none_iff]
    intro row rowMem same
    exact notUsed (mem_toFinset.mpr (same ▸ mem_map_of_mem rowMem))
  let update : Row := .touch clustering [] policy.maxPurgeableTimestamp
  have same : shownAt now (purgePartition partition policy).1
      (partition.outsideRow (some update)) clustering =
        shownAt now partition (partition.outsideRow (some update)) clustering := by
    apply safe.shownAt_eq sorted
    · rintro found ⟨⟩
      exact pairwise_singleton _ _
    · rintro found ⟨⟩
      exact Row.touch_notBelow _ _ _
  have isUpdate : lookup Row.clustering clustering (partition.outsideRow (some update)).rows =
      some update :=
    lookup_outsideRow (by intro found isUpdate; cases isUpdate; rfl)
  have bothMin : max DeletionTime.live.markedForDeleteAt
      (partition.outsideRow (some update)).deletion.markedForDeleteAt = Int64.minValue := rfl
  rw [shownAt, shownAt, lookup_purgePartition_rows sorted.rows, fresh, isUpdate, bind_none,
    merge_none_left, purgePartition_deletion, if_pos purgeable, bothMin,
    shown_some, if_pos ((shows_of_none_of_live rfl rfl).mpr rfl)] at same
  by_contra deleted
  have hidden : ¬update.Shows now (max partition.deletion.markedForDeleteAt
      (partition.outsideRow (some update)).deletion.markedForDeleteAt) := by
    rw [shows_of_none_of_live rfl rfl]
    intro atMin
    exact deleted (le_antisymm (atMin ▸ le_max_left _ _) (Int64.minValue_le _))
  rw [shown_some, if_neg hidden] at same
  cases same

theorem PurgeSafe.purgeUntold {p : Row} (rowMem : p ∈ partition.rows) :
    p.PurgeUntold policy now partition.deletion.markedForDeleteAt := by
  intro q guarded
  have same := safe.shownAt_eq sorted (fun row rowMem => (guarded row rowMem).2.1)
    (fun row rowMem => (guarded row rowMem).2.2) p.clustering
  have isOutside : lookup Row.clustering p.clustering (partition.outsideRow q).rows = q :=
    lookup_outsideRow (fun row rowMem => (guarded row rowMem).1)
  have sameMax : max partition.deletion.markedForDeleteAt
      (partition.outsideRow q).deletion.markedForDeleteAt =
        partition.deletion.markedForDeleteAt :=
    max_eq_left (Int64.minValue_le _)
  rw [shownAt_purgePartition (safe.hidesNothing sorted) sorted, shownAt, isOutside, sameMax,
    sorted.rows.lookup_of_mem rowMem, bind_some] at same
  exact same

end

/-- Exactly when no partition outside the compaction lets a reader tell a purge of a merged
partition. -/
theorem purgeSafe_iff (policy : PurgePolicy) (now : Int32) (partition : Partition)
    (merged : IsMerged partition) :
    PurgeSafe policy now partition ↔ (policy.purgeableDeletion partition.deletion →
        partition.deletion.markedForDeleteAt = Int64.minValue) ∧
      ∀ row ∈ partition.rows, row.PurgesSafely policy now partition.deletion := by
  constructor
  · intro safe
    refine ⟨safe.hidesNothing merged.sorted, ?_⟩
    intro row rowMem
    have settled := merged.settled rowMem
    have untold := safe.purgeUntold merged.sorted rowMem
    exact ⟨keptDeletionSafe_of_untold settled untold, droppedDeletionSafe_of_untold settled untold⟩
  · rintro ⟨hidesNothing, rowsSafe⟩
    exact purgeSafe_of_purgesSafely hidesNothing merged rowsSafe

def reinsertedRow : Row :=
  ⟨[1], [(0, .live [7] 10), (1, .tombstone 8 50)], ⟨5, 50⟩, .withTimestamp 10⟩

def tiedRow : Row := ⟨[1], [], ⟨10, 50⟩, .withTimestamp 10⟩

theorem purgeSafe_reinsertedRow :
    PurgeSafe ⟨1000, 100⟩ 60 ⟨⟨0, [1]⟩, .live, none, [reinsertedRow]⟩ ∧
      (purgePartition ⟨⟨0, [1]⟩, .live, none, [reinsertedRow]⟩ ⟨1000, 100⟩).1 =
        ⟨⟨0, [1]⟩, .live, none,
          [{ reinsertedRow with cells := [(0, .live [7] 10)], deletion := .live }]⟩ := by
  have merged : IsMerged ⟨⟨0, [1]⟩, .live, none, [reinsertedRow]⟩ :=
    ⟨[⟨⟨0, [1]⟩, .live, none, [reinsertedRow]⟩], by decide, by decide⟩
  exact ⟨(purgeSafe_iff _ _ _ merged).mpr (by decide), by decide⟩

/-- The deletion hides the row, but the purge drops it without the liveness it ties with, and
the row is back. -/
theorem not_purgeSafe_tiedRow : IsMerged ⟨⟨0, [1]⟩, .live, none, [tiedRow]⟩ ∧
      ¬PurgeSafe ⟨1000, 100⟩ 60 ⟨⟨0, [1]⟩, .live, none, [tiedRow]⟩ := by
  refine ⟨⟨[⟨⟨0, [1]⟩, .live, none, [tiedRow]⟩], by decide, by decide⟩, ?_⟩
  intro safe
  have same := safe ⟨⟨0, [1]⟩, .live, none, []⟩ (by decide) rfl ⟨by decide, by simp, by simp⟩
  exact absurd same (by decide)

end Partitions

end Ferrosa.Storage
