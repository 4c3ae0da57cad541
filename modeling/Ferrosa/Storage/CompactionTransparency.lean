import Ferrosa.Storage.MergedRows

/-!
# Compacting some versions of a partition first

Merging without suppression is associative, so compacting a group of versions
first would be invisible if suppression ran only once.  It also runs inside every
inner merge, where the deletion of a group discards rows and static rows that the
versions outside the group still need.  The merge of merges equals the merge of
everything exactly when whatever a group discards is dominated by what the
groups keep.
-/

namespace Ferrosa.Storage

open KeyedFold List DeletionTime
open Option hiding filter_map map_map

def keptVersionsAt (clustering : Bytes) (groups : List (List Partition)) : List Row :=
  (groups.filter (fun group => ¬DiscardsRow clustering group)).flatMap (versionsAt clustering)

/-- The groups keep the newest row deletion, and every cell they discard is older than a row
deletion or loses against a kept cell. -/
structure RowTransparent (groups : List (List Partition)) (clustering : Bytes) : Prop where
  deletion : ((keptVersionsAt clustering groups).map Row.deletion).argmax
        DeletionTime.markedForDeleteAt =
      ((versionsAt clustering groups.flatten).map Row.deletion).argmax
        DeletionTime.markedForDeleteAt
  cells : ∀ version ∈ versionsAt clustering groups.flatten, ∀ cell ∈ version.cells,
    (∃ other ∈ versionsAt clustering groups.flatten,
      cell.2.timestamp < other.deletion.markedForDeleteAt) ∨
    ∃ other ∈ keptVersionsAt clustering groups, ∃ kept ∈ other.cells,
      cellKey kept = cellKey cell ∧ cell.2 ≤ kept.2

def staticVersions (sources : List Partition) : List Row := sources.filterMap Partition.staticRow

/-- The newest partition deletion is set and newer than every static cell of the sources. -/
def DiscardsStatic (sources : List Partition) : Prop :=
  ∃ deletion ∈ (sources.map Partition.deletion).argmax DeletionTime.markedForDeleteAt,
    ¬deletion.isLive ∧ ∀ version ∈ staticVersions sources, ∀ cell ∈ version.cells,
      cell.2.timestamp < deletion.markedForDeleteAt
  deriving Decidable

def keptStaticVersions (groups : List (List Partition)) : List Row :=
  (groups.filter (fun group => ¬DiscardsStatic group)).flatMap staticVersions

/-- The static rows that the groups discard carry neither the first clustering nor the newest
deletion or liveness. -/
@[mk_iff staticTransparent_iff_and]
structure StaticTransparent (groups : List (List Partition)) : Prop where
  clustering : (keptStaticVersions groups).head?.map Row.clustering =
    (staticVersions groups.flatten).head?.map Row.clustering
  deletion : ((keptStaticVersions groups).map Row.deletion).argmax DeletionTime.markedForDeleteAt =
      ((staticVersions groups.flatten).map Row.deletion).argmax DeletionTime.markedForDeleteAt
  liveness :
    ((keptStaticVersions groups).map Row.primaryKeyLiveness).argmax LivenessInfo.timestamp =
      ((staticVersions groups.flatten).map Row.primaryKeyLiveness).argmax LivenessInfo.timestamp

abbrev GroupMerges (groups : List (List Partition)) (merges : List Partition) : Prop :=
  List.Forall₂ (fun group merged =>
    MergedFrom group merged ∧ ∀ source ∈ group, source.Sorted) groups merges

variable {groups : List (List Partition)} {clustering : Bytes} {version : Row} {bound : Int64}
  {newest : DeletionTime} {group merges sources : List Partition} {merged : Partition}

theorem exists_groupMerges (nonempty : [] ∉ groups)
    (sorted : ∀ group ∈ groups, ∀ source ∈ group, source.Sorted) :
    ∃ merges, GroupMerges groups merges ∧
      groups.mapM mergePartitions = some (merges.map applyDeletions) := by
  induction groups with
  | nil => exact ⟨[], List.Forall₂.nil, rfl⟩
  | cons group rest ih =>
    have restNonempty : [] ∉ rest := fun mem => nonempty (mem_cons_of_mem _ mem)
    have groupNonempty : group ≠ [] := by
      intro empty
      exact nonempty (empty ▸ mem_cons_self)
    rcases ih restNonempty (fun other mem => sorted other (mem_cons_of_mem _ mem)) with
      ⟨merges, restMerges, restEq⟩
    rcases exists_mergedFrom groupNonempty
      (fun source mem => (sorted group mem_cons_self source mem).rows) with
      ⟨merged, mergedEq, mergedFrom⟩
    refine ⟨merged :: merges,
      List.Forall₂.cons ⟨mergedFrom, sorted group mem_cons_self⟩ restMerges, ?_⟩
    rw [mapM_cons, restEq, mergePartitions_eq_map, mergedEq]
    rfl

namespace GroupMerges

variable {groups : List (List Partition)} {merges : List Partition}

section

variable (merges_ : GroupMerges groups merges)

include merges_

theorem filterMap_eq {β : Type}
    {fromGroup : List Partition → Option β} {fromMerge : Partition → Option β}
    (agree : ∀ group, ∀ merged ∈ merges, MergedFrom group merged →
      (∀ source ∈ group, source.Sorted) → fromMerge merged = fromGroup group) :
    merges.filterMap fromMerge = groups.filterMap fromGroup := by
  induction merges_ with
  | nil => rfl
  | cons mergedFrom _ ih =>
    have restEq := ih (fun group merged mem => agree group merged (mem_cons_of_mem _ mem))
    rw [filterMap_cons, filterMap_cons, restEq, agree _ _ mem_cons_self mergedFrom.1 mergedFrom.2]

theorem rows_sorted :
    ∀ source ∈ merges.map applyDeletions, StrictlySorted Row.clustering source.rows := by
  intro source sourceMem
  rcases mem_map.mp sourceMem with ⟨merged, mergedMem, rfl⟩
  induction merges_ with
  | nil => simp at mergedMem
  | cons mergedFrom _ ih =>
    rcases mem_cons.mp mergedMem with rfl | inRest
    · exact mergedFrom.1.mergedView.sorted
    · exact ih inRest (mem_map_of_mem inRest)

theorem deletion_eq : (merges.map Partition.deletion).argmax markedForDeleteAt =
      (groups.flatten.map Partition.deletion).argmax markedForDeleteAt := by
  rw [← reduce_newer_eq_argmax, ← reduce_newer_eq_argmax, map_flatten, ← flatMap_def,
    reduce_flatMap]
  congr 1
  refine (congrFun filterMap_eq_map merges).symm.trans (merges_.filterMap_eq ?_)
  intro group merged _ mergedFrom _
  rw [reduce_newer_eq_argmax, mergedFrom.deletion]
  rfl

theorem key_eq (nonempty : [] ∉ groups) :
    merges.head?.map Partition.key = groups.flatten.head?.map Partition.key := by
  cases groups with
  | nil =>
    rw [forall₂_nil_left_iff.mp merges_]
    rfl
  | cons group rest =>
    rcases forall₂_cons_left_iff.mp merges_ with ⟨merged, _, mergedFrom, _, rfl⟩
    have keyEq := mergedFrom.1.key
    cases group with
    | nil => exact absurd mem_cons_self nonempty
    | cons first others => simpa using keyEq.symm

end

end GroupMerges

theorem MergedFrom.lookup_applyDeletions (mergedFrom : MergedFrom group merged)
    (clustering : Bytes) :
    lookup Row.clustering clustering (applyDeletions merged).rows =
      if DiscardsRow clustering group then none
      else (reduce mergeRows (versionsAt clustering group)).map Row.applyRowDeletion := by
  rw [mergedFrom.mergedView.rowAt, survivingRow, applyDeletions_deletion]
  cases found : reduce mergeRows (versionsAt clustering group) with
  | none => simp
  | some folded =>
    have discards := mergedFrom.discardsRow_iff found
    by_cases discarded : DiscardsRow clustering group
    · simp [filter_some, discarded, discards.mpr discarded]
    · have notOlder := not_lt.mp (fun older => discarded (discards.mp older))
      simp [filter_some, discarded, notOlder]

theorem survivingRow_map_applyRowDeletion (bound : Int64) (rows : List Row) :
    survivingRow bound (rows.map Row.applyRowDeletion) = survivingRow bound rows := by
  unfold survivingRow
  cases whole : reduce mergeRows rows with
  | none =>
    rw [reduce_eq_none_iff] at whole
    simp [whole]
  | some folded =>
    have sameRetained : (reduce mergeRows (rows.map Row.applyRowDeletion)).map
            (Row.retainCells folded.deletion.markedForDeleteAt) =
          some (folded.retainCells folded.deletion.markedForDeleteAt) := by
      rw [← map_some, ← whole, map_reduce (Row.retainCells_mergeRows _),
        map_reduce (Row.retainCells_mergeRows _), map_map]
      congr 1
      refine map_congr_left fun row rowMem => ?_
      rw [Function.comp_apply, Row.applyRowDeletion_eq]
      exact Row.retainCells_retainCells (le_reduce_mergeRows_deletion whole rowMem) row
    rcases map_eq_some_iff.mp sameRetained with ⟨suppressed, parts, same⟩
    have sameDeletion : suppressed.deletion = folded.deletion := (congrArg Row.deletion same :)
    have sameLiveness : suppressed.primaryKeyLiveness = folded.primaryKeyLiveness :=
      (congrArg Row.primaryKeyLiveness same :)
    rw [parts]
    by_cases keeps : bound ≤ folded.primaryKeyLiveness.timestamp
    · simp only [filter_some, sameLiveness, keeps, decide_true, if_true, map_some]
      rw [Row.applyRowDeletion_eq, Row.applyRowDeletion_eq, sameDeletion, same]
    · simp [filter_some, sameLiveness, keeps]

theorem filterMap_kept (discards : List Partition → Prop) [DecidablePred discards]
    (fold : List Partition → Option Row) (change : Row → Row) :
    groups.filterMap (fun group => if discards group then none else (fold group).map change) =
      ((groups.filter (fun group => ¬discards group)).filterMap fold).map change := by
  rw [map_filterMap, filterMap_filter]
  refine filterMap_congr fun group _ => ?_
  by_cases discarded : discards group <;> simp [discarded]

theorem GroupMerges.survivingRow_eq (merges_ : GroupMerges groups merges) (clustering : Bytes)
    (bound : Int64) :
    survivingRow bound (versionsAt clustering (merges.map applyDeletions)) =
      survivingRow bound (keptVersionsAt clustering groups) := by
  have perGroup : merges.filterMap (fun merged =>
      reduce mergeRows (withKey Row.clustering clustering (applyDeletions merged).rows)) =
        groups.filterMap (fun group => if DiscardsRow clustering group then none
          else (reduce mergeRows (versionsAt clustering group)).map Row.applyRowDeletion) := by
    refine merges_.filterMap_eq ?_
    intro group merged _ mergedFrom _
    rw [mergedFrom.mergedView.sorted.withKey_eq, ← mergedFrom.lookup_applyDeletions]
    cases lookup Row.clustering clustering (applyDeletions merged).rows <;> rfl
  have parts := survivingRow_map_applyRowDeletion bound
    ((groups.filter (fun group => ¬DiscardsRow clustering group)).filterMap
      fun group => reduce mergeRows (versionsAt clustering group))
  rw [← filterMap_kept, ← perGroup] at parts
  simp only [survivingRow, keptVersionsAt, reduce_flatMap, versionsAt_eq_flatMap clustering
    (merges.map applyDeletions), filterMap_map] at parts ⊢
  exact parts

theorem versionsAt_flatten (clustering : Bytes) (groups : List (List Partition)) :
    versionsAt clustering groups.flatten = groups.flatMap (versionsAt clustering) := by
  induction groups with
  | nil => rfl
  | cons group rest ih =>
    rw [flatten_cons, flatMap_cons, ← ih]
    simp [versionsAt]

theorem mem_versionsAt_of_kept (kept : version ∈ keptVersionsAt clustering groups) :
    version ∈ versionsAt clustering groups.flatten := by
  rw [versionsAt_flatten, mem_flatMap]
  rcases mem_flatMap.mp kept with ⟨group, groupMem, versionMem⟩
  exact ⟨group, (mem_filter.mp groupMem).1, versionMem⟩

theorem deletion_le_newest (isNewest : (groups.flatten.map Partition.deletion).argmax
      markedForDeleteAt = some newest) : ∀ group ∈ groups, ∀ source ∈ group,
    source.deletion.markedForDeleteAt ≤ newest.markedForDeleteAt := by
  intro group groupMem source sourceMem
  exact le_of_mem_argmax (mem_map_of_mem (mem_flatten.mpr ⟨group, groupMem, sourceMem⟩)) isNewest

theorem headers_of_reduce {rows : List Row} {folded : Row}
    (found : reduce mergeRows rows = some folded) :
    rows.head?.map Row.clustering = some folded.clustering ∧
      (rows.map Row.deletion).argmax markedForDeleteAt = some folded.deletion ∧
      (rows.map Row.primaryKeyLiveness).argmax LivenessInfo.timestamp =
        some folded.primaryKeyLiveness := by
  rw [← reduce_mergeRows_clustering, ← reduce_mergeRows_deletion, ← reduce_mergeRows_liveness,
    found]
  exact ⟨rfl, rfl, rfl⟩

theorem survivingRow_eq_none {rows : List Row}
    (older : ∀ row ∈ rows, row.primaryKeyLiveness.timestamp < bound) :
    survivingRow bound rows = none := by
  unfold survivingRow
  cases found : reduce mergeRows rows with
  | none => rfl
  | some folded =>
    have foldedOlder := (reduce_mergeRows_liveness_lt_iff found bound).mpr older
    simpa [filter_some] using foldedOlder

theorem filter_reduce_liveness (bound : Int64) (rows : List Row) :
    ((reduce mergeRows rows).map Row.primaryKeyLiveness).filter
        (fun liveness => bound ≤ liveness.timestamp) =
      reduce (newer LivenessInfo.timestamp) ((rows.filter (fun row =>
        bound ≤ row.primaryKeyLiveness.timestamp)).map Row.primaryKeyLiveness) := by
  rw [map_reduce mergeRows_liveness, filter_reduce_newer, filter_map]
  rfl

section

variable (below : ∀ group ∈ groups, ∀ source ∈ group, source.deletion.markedForDeleteAt ≤ bound)

include below

theorem filter_keptVersionsAt : (keptVersionsAt clustering groups).filter
        (fun row => bound ≤ row.primaryKeyLiveness.timestamp) =
      (versionsAt clustering groups.flatten).filter
        (fun row => bound ≤ row.primaryKeyLiveness.timestamp) := by
  rw [versionsAt_flatten]
  induction groups with
  | nil => rfl
  | cons group rest ih =>
    have restEq := ih (fun other mem => below other (mem_cons_of_mem _ mem))
    rw [flatMap_cons, filter_append, ← restEq]
    by_cases discarded : DiscardsRow clustering group
    · have emptied : (versionsAt clustering group).filter
          (fun row => bound ≤ row.primaryKeyLiveness.timestamp) = [] := by
        rcases discarded with ⟨source, sourceMem, allOlder⟩
        rw [filter_eq_nil_iff]
        intro version versionMem
        have older := (allOlder version versionMem).trans_le
          (below group mem_cons_self source sourceMem)
        simpa using older
      simp [keptVersionsAt, discarded, emptied]
    · simp [keptVersionsAt, discarded]

theorem exists_reduce_keptVersionsAt {foldedAll : Row}
    (foundAll : reduce mergeRows (versionsAt clustering groups.flatten) = some foldedAll)
    (survives : bound ≤ foldedAll.primaryKeyLiveness.timestamp) :
    ∃ foldedKept, reduce mergeRows (keptVersionsAt clustering groups) = some foldedKept ∧
      foldedKept.primaryKeyLiveness = foldedAll.primaryKeyLiveness := by
  have filtered : ((reduce mergeRows (keptVersionsAt clustering groups)).map
      Row.primaryKeyLiveness).filter (fun liveness => bound ≤ liveness.timestamp) =
        some foldedAll.primaryKeyLiveness := by
    rw [filter_reduce_liveness, filter_keptVersionsAt below, ← filter_reduce_liveness, foundAll]
    simp [filter_some, survives]
  exact map_eq_some_iff.mp (filter_eq_some_iff.mp filtered).1

end

/-- Compacting groups first leaves the row alone exactly when they discard nothing that matters. -/
theorem rowTransparent_iff (sorted : ∀ source ∈ groups.flatten, source.Sorted)
    (isNewest : (groups.flatten.map Partition.deletion).argmax
      markedForDeleteAt = some newest) (clustering : Bytes) :
    survivingRow newest.markedForDeleteAt (keptVersionsAt clustering groups) =
      survivingRow newest.markedForDeleteAt (versionsAt clustering groups.flatten) ↔
      (¬DiscardsRow clustering groups.flatten → RowTransparent groups clustering) := by
  by_cases discarded : DiscardsRow clustering groups.flatten
  · have allOlder := (discardsRow_iff_lt isNewest).mp discarded
    rw [survivingRow_eq_none allOlder, survivingRow_eq_none
      (fun version kept => allOlder version (mem_versionsAt_of_kept kept))]
    simp [discarded]
  rw [forall_prop_of_true discarded]
  rw [discardsRow_iff_lt isNewest] at discarded
  cases foundAll : reduce mergeRows (versionsAt clustering groups.flatten) with
  | none =>
    rw [reduce_eq_none_iff.mp foundAll] at discarded
    exact absurd (forall_mem_nil _) discarded
  | some foldedAll =>
    rw [← reduce_mergeRows_liveness_lt_iff foundAll, not_lt] at discarded
    rcases exists_reduce_keptVersionsAt (deletion_le_newest isNewest) foundAll discarded with
      ⟨foldedKept, foundKept, sameLiveness⟩
    have sameClustering : foldedKept.clustering = foldedAll.clustering := by
      rw [clustering_of_reduce (fun row mem => (mem_withKey.mp mem).2) foundAll]
      exact clustering_of_reduce
        (fun row mem => (mem_withKey.mp (mem_versionsAt_of_kept mem)).2) foundKept
    have deletionIff : foldedKept.deletion = foldedAll.deletion ↔
        ((keptVersionsAt clustering groups).map Row.deletion).argmax markedForDeleteAt =
          ((versionsAt clustering groups.flatten).map Row.deletion).argmax
            markedForDeleteAt := by
      rw [(headers_of_reduce foundKept).2.1, (headers_of_reduce foundAll).2.1, Option.some.injEq]
    have cellsIff := retainCells_cells_eq_iff (fun version kept => mem_versionsAt_of_kept kept)
      (cellsSorted_of_mem_versionsAt sorted) foundKept foundAll
      foldedAll.deletion.markedForDeleteAt
    have olderIff : ∀ cell : Cell, cell.2.timestamp < foldedAll.deletion.markedForDeleteAt ↔
        ∃ other ∈ versionsAt clustering groups.flatten,
          cell.2.timestamp < other.deletion.markedForDeleteAt := by
      intro cell
      constructor
      · intro older
        rcases reduce_mergeRows_deletion_mem foundAll with ⟨other, otherMem, sameDeletion⟩
        exact ⟨other, otherMem, sameDeletion ▸ older⟩
      · rintro ⟨other, otherMem, older⟩
        exact older.trans_le (le_reduce_mergeRows_deletion foundAll otherMem)
    simp only [olderIff] at cellsIff
    rw [survivingRow, survivingRow, foundKept, foundAll]
    simp only [filter_some, sameLiveness, discarded, decide_true, if_true,
      map_some, Option.some.injEq]
    constructor
    · intro sameRows
      have sameDeletion : foldedKept.deletion = foldedAll.deletion := by
        simpa using congrArg Row.deletion sameRows
      rw [Row.applyRowDeletion_eq, Row.applyRowDeletion_eq, sameDeletion] at sameRows
      exact ⟨deletionIff.mp sameDeletion, cellsIff.mp (congrArg Row.cells sameRows)⟩
    · intro transparent
      have sameDeletion := deletionIff.mpr transparent.deletion
      rw [Row.applyRowDeletion_eq, Row.applyRowDeletion_eq, sameDeletion]
      exact Row.ext sameClustering (cellsIff.mpr transparent.cells) sameDeletion sameLiveness

theorem discardsStatic_iff (isNewest : (sources.map Partition.deletion).argmax markedForDeleteAt =
      some newest) :
    DiscardsStatic sources ↔ ¬newest.isLive ∧
      ∀ version ∈ staticVersions sources, ∀ cell ∈ version.cells,
        cell.2.timestamp < newest.markedForDeleteAt := by
  rw [DiscardsStatic, isNewest]
  simp

theorem staticVersions_flatten (groups : List (List Partition)) :
    staticVersions groups.flatten = groups.flatMap staticVersions := by
  rw [staticVersions, filterMap_flatten, List.flatMap]
  rfl

theorem mem_staticVersions_of_kept (kept : version ∈ keptStaticVersions groups) :
    version ∈ staticVersions groups.flatten := by
  rw [staticVersions_flatten, mem_flatMap]
  rcases mem_flatMap.mp kept with ⟨group, groupMem, versionMem⟩
  exact ⟨group, (mem_filter.mp groupMem).1, versionMem⟩

theorem mem_keptStaticVersions
    (newest : ∀ group ∈ groups, ∀ source ∈ group, source.deletion.markedForDeleteAt ≤ bound)
    (versionMem : version ∈ staticVersions groups.flatten) {cell : Cell}
    (cellMem : cell ∈ version.cells) (notOlder : bound ≤ cell.2.timestamp) :
    version ∈ keptStaticVersions groups := by
  rw [staticVersions_flatten, mem_flatMap] at versionMem
  rcases versionMem with ⟨group, groupMem, inGroup⟩
  have keeps : ¬DiscardsStatic group := by
    rintro ⟨deletion, isMax, _, allOlder⟩
    rcases mem_map.mp (argmax_mem isMax) with ⟨source, sourceMem, rfl⟩
    have older := (allOlder version inGroup cell cellMem).trans_le
      (newest group groupMem source sourceMem)
    exact absurd notOlder (not_le.mpr older)
  refine mem_flatMap.mpr ⟨group, ?_, inGroup⟩
  simp [groupMem, keeps]

/-- A folded static row is discarded when the deletion is set and newer than all its cells. -/
theorem survivingStatic_eq {rows : List Row} (sorted : ∀ row ∈ rows, row.CellsSorted)
    {folded : Row} (found : reduce mergeRows rows = some folded) (deletion : DeletionTime) :
    survivingStatic deletion rows =
      if ¬deletion.isLive ∧ ∀ row ∈ rows, ∀ cell ∈ row.cells,
          cell.2.timestamp < deletion.markedForDeleteAt then none
      else some (folded.retainCells deletion.markedForDeleteAt) := by
  have emptyIff : (folded.retainCells deletion.markedForDeleteAt).cells.isEmpty ↔
      ∀ row ∈ rows, ∀ cell ∈ row.cells, cell.2.timestamp < deletion.markedForDeleteAt := by
    simp only [Row.retainCells, List.isEmpty_iff, List.filter_eq_nil_iff, decide_eq_true_eq, not_le]
    constructor
    · intro foldedOlder row rowMem cell cellMem
      rcases exists_le_of_mem_reduce_mergeRows sorted found rowMem cellMem with
        ⟨winner, winnerMem, _, winnerLe⟩
      exact (CellValue.timestamp_le_of_le winnerLe).trans_lt (foldedOlder winner winnerMem)
    · intro allOlder cell cellMem
      rcases mem_of_mem_reduce_mergeRows sorted found cellMem with ⟨row, rowMem, inRow⟩
      exact allOlder row rowMem cell inRow
  rw [survivingStatic, found, map_some, filter_some]
  simp only [← emptyIff]
  cases deletion.isLive <;>
    cases (folded.retainCells deletion.markedForDeleteAt).cells.isEmpty <;> rfl

theorem MergedFrom.staticRow_applyDeletions (mergedFrom : MergedFrom group merged)
    (sorted : ∀ source ∈ group, source.Sorted) (below : merged.deletion.markedForDeleteAt ≤ bound) :
    (applyDeletions merged).staticRow.map (Row.retainCells bound) =
      if DiscardsStatic group then none
      else (reduce mergeRows (staticVersions group)).map (Row.retainCells bound) := by
  rw [mergedFrom.mergedView.staticRow, applyDeletions_deletion]
  change (survivingStatic merged.deletion (staticVersions group)).map _ = _
  cases found : reduce mergeRows (staticVersions group) with
  | none => simp [survivingStatic, found]
  | some folded =>
    rw [@survivingStatic_eq (staticVersions group) (cellsSorted_of_mem_staticRows sorted) _ found]
    simp only [discardsStatic_iff mergedFrom.deletion]
    split_ifs
    · rfl
    · exact congrArg some (Row.retainCells_retainCells below folded)

theorem GroupMerges.survivingStatic_eq (merges_ : GroupMerges groups merges)
    (below : ∀ merged ∈ merges, merged.deletion.markedForDeleteAt ≤ newest.markedForDeleteAt) :
    survivingStatic newest (staticVersions (merges.map applyDeletions)) =
      survivingStatic newest (keptStaticVersions groups) := by
  have perGroup := merges_.filterMap_eq fun group merged mergedMem mergedFrom sorted =>
    mergedFrom.staticRow_applyDeletions sorted (below merged mergedMem)
  rw [filterMap_kept] at perGroup
  rw [survivingStatic, survivingStatic, keptStaticVersions, reduce_flatMap,
    map_reduce (Row.retainCells_mergeRows _), map_reduce (Row.retainCells_mergeRows _),
    staticVersions, filterMap_map, map_filterMap, ← perGroup]
  rfl

theorem staticTransparent_iff_headers {foldedKept foldedAll : Row}
    (foundKept : reduce mergeRows (keptStaticVersions groups) = some foldedKept)
    (foundAll : reduce mergeRows (staticVersions groups.flatten) = some foldedAll) :
    StaticTransparent groups ↔ foldedKept.clustering = foldedAll.clustering ∧
      foldedKept.deletion = foldedAll.deletion ∧
      foldedKept.primaryKeyLiveness = foldedAll.primaryKeyLiveness := by
  rcases headers_of_reduce foundKept with ⟨clusteringKept, deletionKept, livenessKept⟩
  rcases headers_of_reduce foundAll with ⟨clusteringAll, deletionAll, livenessAll⟩
  rw [staticTransparent_iff_and, clusteringKept, clusteringAll, deletionKept, deletionAll,
    livenessKept, livenessAll, Option.some.injEq, Option.some.injEq, Option.some.injEq]

/-- Compacting the groups first leaves the static row alone exactly when the groups discard
nothing of it that matters. -/
theorem staticTransparent_iff (sorted : ∀ source ∈ groups.flatten, source.Sorted)
    (isNewest : (groups.flatten.map Partition.deletion).argmax markedForDeleteAt = some newest) :
    survivingStatic newest (keptStaticVersions groups) =
      survivingStatic newest (staticVersions groups.flatten) ↔
      (¬DiscardsStatic groups.flatten → StaticTransparent groups) := by
  have sortedAll : ∀ version ∈ staticVersions groups.flatten, version.CellsSorted :=
    cellsSorted_of_mem_staticRows sorted
  have sortedKept : ∀ version ∈ keptStaticVersions groups, version.CellsSorted :=
    fun version kept => sortedAll version (mem_staticVersions_of_kept kept)
  have discards := discardsStatic_iff isNewest
  cases foundAll : reduce mergeRows (staticVersions groups.flatten) with
  | none =>
    have noVersions := reduce_eq_none_iff.mp foundAll
    have noKept : keptStaticVersions groups = [] := by
      refine eq_nil_iff_forall_not_mem.mpr fun version kept => ?_
      exact absurd (noVersions ▸ mem_staticVersions_of_kept kept) not_mem_nil
    rw [noKept, noVersions]
    refine iff_of_true rfl fun _ => ?_
    constructor <;> rw [noKept, noVersions]
  | some foldedAll =>
    rw [survivingStatic_eq sortedAll foundAll]
    simp only [← discards]
    by_cases discarded : DiscardsStatic groups.flatten
    · rw [if_pos discarded]
      refine iff_of_true ?_ (absurd discarded)
      cases foundKept : reduce mergeRows (keptStaticVersions groups) with
      | none => simp [survivingStatic, foundKept]
      | some foldedKept =>
        rw [survivingStatic_eq sortedKept foundKept, if_pos]
        have suppressed := discards.mp discarded
        exact ⟨suppressed.1, fun version kept =>
          suppressed.2 version (mem_staticVersions_of_kept kept)⟩
    · simp only [discarded, if_false, not_false_eq_true, forall_const]
      cases foundKept : reduce mergeRows (keptStaticVersions groups) with
      | none =>
        refine iff_of_false (by simp [survivingStatic, foundKept]) fun transparent => ?_
        have sameFirst := transparent.clustering
        rw [reduce_eq_none_iff.mp foundKept, (headers_of_reduce foundAll).1] at sameFirst
        simp at sameFirst
      | some foldedKept =>
        have bounded := deletion_le_newest isNewest
        have sameCells : (foldedKept.retainCells newest.markedForDeleteAt).cells =
            (foldedAll.retainCells newest.markedForDeleteAt).cells := by
          apply (retainCells_cells_eq_iff (fun version kept => mem_staticVersions_of_kept kept)
            sortedAll foundKept foundAll _).mpr
          intro version versionMem cell cellMem
          rcases lt_or_ge cell.2.timestamp newest.markedForDeleteAt with older | notOlder
          · exact Or.inl older
          · right
            exact ⟨version, mem_keptStaticVersions bounded versionMem cellMem notOlder, cell,
              cellMem, rfl, le_rfl⟩
        rw [survivingStatic_eq sortedKept foundKept, if_neg, Option.some.injEq,
          staticTransparent_iff_headers foundKept foundAll]
        · constructor
          · intro sameRows
            have sameClustering := congrArg Row.clustering sameRows
            have sameDeletion := congrArg Row.deletion sameRows
            have sameLiveness := congrArg Row.primaryKeyLiveness sameRows
            exact ⟨sameClustering, sameDeletion, sameLiveness⟩
          · rintro ⟨sameClustering, sameDeletion, sameLiveness⟩
            exact Row.ext sameClustering sameCells sameDeletion sameLiveness
        · rintro ⟨isSet, keptOlder⟩
          refine discarded (discards.mpr ⟨isSet, fun version versionMem cell cellMem => ?_⟩)
          by_contra notOlder
          have kept := mem_keptStaticVersions bounded versionMem cellMem (not_lt.mp notOlder)
          exact notOlder (keptOlder version kept cell cellMem)

def deletedVersion : Partition := ⟨⟨0, [1]⟩, ⟨10, 0⟩, none, []⟩

def updatedVersion : Partition :=
  ⟨⟨0, [1]⟩, .live, none, [⟨[1], [(0, .live [7] 20)], .live, .none⟩]⟩

def insertedVersion : Partition :=
  ⟨⟨0, [1]⟩, .live, none, [⟨[1], [], .live, .withTimestamp 30⟩]⟩

end Ferrosa.Storage
