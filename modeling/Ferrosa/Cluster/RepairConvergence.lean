import Ferrosa.Cluster.RepairPlan

/-!
# When repair converges

After both plans are applied, the two sides should hold the merge of their
original copies and have nothing left to exchange.  The merge lets its first
source win ties between deletions and between livenesses, and the row digest does
not cover the path, the expiry and the local deletion time of a cell.  Repair
converges exactly when neither matters for what survives.
-/

namespace Ferrosa.Cluster

open Storage KeyedFold List

section Rows

variable {x y : Row}

/-- The rows that survive a deletion do not tie, and with one digest they keep the same cells. -/
def RowsReconcile (deleteAt : Int64) (x y : Row) : Prop :=
  deleteAt ≤ max x.primaryKeyLiveness.timestamp y.primaryKeyLiveness.timestamp → NoTie x y ∧
      (rowContentHash x = rowContentHash y → x.applyRowDeletion = y.applyRowDeletion)
  deriving Decidable

theorem survivingRow_singleton (deleteAt : Int64) (x : Row) : survivingRow deleteAt [x] =
      if deleteAt ≤ x.primaryKeyLiveness.timestamp then some x.applyRowDeletion else none := by
  simp only [survivingRow, reduce_singleton, Option.filter_some, decide_eq_true_eq]
  split_ifs <;> rfl

theorem survivingRow_pair (deleteAt : Int64) (x y : Row) :
    survivingRow deleteAt [x, y] = survivingRow deleteAt [mergeRows x y] := rfl

theorem mergeRows_liveness_timestamp (x y : Row) : (mergeRows x y).primaryKeyLiveness.timestamp =
      max x.primaryKeyLiveness.timestamp y.primaryKeyLiveness.timestamp := by
  rw [mergeRows_liveness]
  exact rank_newer LivenessInfo.timestamp _ _

theorem survivingRow_pair_comm_iff (sortedX : x.CellsSorted) (sortedY : y.CellsSorted)
    (sameClustering : x.clustering = y.clustering) (deleteAt : Int64) :
    survivingRow deleteAt [y, x] = survivingRow deleteAt [x, y] ↔
      (deleteAt ≤ max x.primaryKeyLiveness.timestamp y.primaryKeyLiveness.timestamp →
        NoTie x y) := by
  rw [survivingRow_pair, survivingRow_pair, survivingRow_singleton, survivingRow_singleton,
    mergeRows_liveness_timestamp, mergeRows_liveness_timestamp,
    max_comm y.primaryKeyLiveness.timestamp]
  split_ifs with survives
  · simp only [Option.some.injEq, survives, forall_const]
    constructor
    · intro same
      constructor
      · apply newer_comm_iff.mp
        simpa [mergeRows_deletion] using congrArg Row.deletion same
      · apply newer_comm_iff.mp
        simpa [mergeRows_liveness] using congrArg Row.primaryKeyLiveness same
    · intro noTie
      rw [(mergeRows_comm_iff sortedX sortedY).mpr ⟨sameClustering, noTie⟩]
  · simp [survives]

theorem applyRowDeletion_mergeRows_of_eq (sortedX : x.CellsSorted)
    (same : x.applyRowDeletion = y.applyRowDeletion) :
    (mergeRows x y).applyRowDeletion = x.applyRowDeletion := by
  have sameDeletion : x.deletion = y.deletion := by
    simpa using congrArg Row.deletion same
  have mergedDeletion : (mergeRows x y).deletion = x.deletion := by
    rw [mergeRows_deletion, ← sameDeletion, newer_self]
  have retainedSorted : (x.retainCells x.deletion.markedForDeleteAt).CellsSorted :=
    StrictlySorted.filter sortedX _
  rw [Row.applyRowDeletion_eq, Row.applyRowDeletion_eq] at same
  rw [Row.applyRowDeletion_eq, Row.applyRowDeletion_eq, mergedDeletion, Row.retainCells_mergeRows,
    sameDeletion, ← same, ← sameDeletion, mergeRows_self retainedSorted]

variable (sortedX : x.CellsSorted) (sortedY : y.CellsSorted)

include sortedX sortedY

theorem survivingRow_sentToA (differ : rowContentHash x ≠ rowContentHash y) (deleteAt : Int64) :
    survivingRow deleteAt (x :: sentToA x (some y)) = survivingRow deleteAt [x, y] := by
  simp only [sentToA, reconcileRow, if_neg differ]
  split_ifs with contributes
  · rfl
  · rw [survivingRow_pair, mergeRows_eq_of_not_contributesTo sortedY sortedX contributes]

theorem survivingRow_sentToB (differ : rowContentHash x ≠ rowContentHash y) (deleteAt : Int64) :
    survivingRow deleteAt (y :: sentToB x (some y)) = survivingRow deleteAt [y, x] := by
  simp only [sentToB, reconcileRow, if_neg differ]
  split_ifs with contributes
  · rfl
  · rw [survivingRow_pair, mergeRows_eq_of_not_contributesTo sortedX sortedY contributes]

theorem survivingRow_sides_iff (sameClustering : x.clustering = y.clustering) (deleteAt : Int64) :
    (survivingRow deleteAt (x :: sentToA x (some y)) = survivingRow deleteAt [x, y] ∧
        survivingRow deleteAt (y :: sentToB x (some y)) = survivingRow deleteAt [x, y]) ↔
      RowsReconcile deleteAt x y := by
  by_cases sameHash : rowContentHash x = rowContentHash y
  · have sameDeletion : x.deletion = y.deletion := congrArg RowContent.deletion sameHash
    have sameLiveness : x.primaryKeyLiveness = y.primaryKeyLiveness :=
      congrArg RowContent.primaryKeyLiveness sameHash
    have noTie : NoTie x y := ⟨fun _ => sameDeletion, fun _ => sameLiveness⟩
    simp only [sentToA, sentToB, reconcileRow, if_pos sameHash, survivingRow_pair,
      survivingRow_singleton, mergeRows_liveness_timestamp, sameLiveness, max_self, RowsReconcile]
    split_ifs with survives
    · simp only [Option.some.injEq, survives, forall_const, noTie, true_and]
      constructor
      · rintro ⟨keptX, keptY⟩ _
        rw [keptX, keptY]
      · intro same
        have merged := applyRowDeletion_mergeRows_of_eq sortedX (same sameHash)
        exact ⟨merged.symm, (same sameHash).symm.trans merged.symm⟩
    · simp [survives]
  · rw [survivingRow_sentToA sortedX sortedY sameHash, survivingRow_sentToB sortedX sortedY sameHash,
      survivingRow_pair_comm_iff sortedX sortedY sameClustering]
    simp [RowsReconcile, sameHash]

end Rows

/-- Two static rows reconcile if the merged one is discarded or they do not tie. -/
def StaticsReconcile (deletion : DeletionTime) (x y : Row) : Prop :=
  (deletion.isLive ∨ ∃ cell ∈ x.cells ++ y.cells, deletion.markedForDeleteAt ≤ cell.2.timestamp) →
    x.clustering = y.clustering ∧ NoTie x y
  deriving Decidable

theorem retainCells_mergeRows_cells_eq_nil_iff {bound : Int64} {x y : Row} :
    ((mergeRows x y).retainCells bound).cells = [] ↔
      ¬∃ cell ∈ x.cells ++ y.cells, bound ≤ cell.2.timestamp := by
  rw [Row.retainCells_mergeRows, mergeRows_cells, mergeCells_eq_nil_iff]
  simp only [Row.retainCells, filter_eq_nil_iff, decide_eq_true_eq, not_exists, not_and, mem_append]
  constructor
  · rintro ⟨oldX, oldY⟩ cell (inX | inY)
    · exact oldX cell inX
    · exact oldY cell inY
  · intro old
    exact ⟨fun cell present => old cell (Or.inl present), fun cell present =>
      old cell (Or.inr present)⟩

theorem survivingStatic_pair (deletion : DeletionTime) (x y : Row) :
    survivingStatic deletion [x, y] =
      if deletion.isLive ∨
          ∃ cell ∈ x.cells ++ y.cells, deletion.markedForDeleteAt ≤ cell.2.timestamp then
        some ((mergeRows x y).retainCells deletion.markedForDeleteAt)
      else none := by
  have kept : (deletion.isLive ||
      !((mergeRows x y).retainCells deletion.markedForDeleteAt).cells.isEmpty) = true ↔
        (deletion.isLive ∨
          ∃ cell ∈ x.cells ++ y.cells, deletion.markedForDeleteAt ≤ cell.2.timestamp) := by
    rw [Bool.or_eq_true, Bool.not_eq_true', ← Bool.not_eq_true, List.isEmpty_iff,
      retainCells_mergeRows_cells_eq_nil_iff, not_not]
  change (some ((mergeRows x y).retainCells deletion.markedForDeleteAt)).filter _ = _
  rw [Option.filter_some]
  simp only [kept]

theorem survivingStatic_pair_comm_iff {x y : Row} (sortedX : x.CellsSorted)
    (sortedY : y.CellsSorted) (deletion : DeletionTime) :
    survivingStatic deletion [y, x] = survivingStatic deletion [x, y] ↔
      StaticsReconcile deletion x y := by
  have sameCells : (∃ cell ∈ y.cells ++ x.cells, deletion.markedForDeleteAt ≤ cell.2.timestamp) ↔
      ∃ cell ∈ x.cells ++ y.cells, deletion.markedForDeleteAt ≤ cell.2.timestamp := by
    simp only [mem_append, or_comm]
  rw [survivingStatic_pair, survivingStatic_pair, StaticsReconcile]
  simp only [sameCells]
  split_ifs with survives
  · simp only [Option.some.injEq, survives, forall_const]
    constructor
    · intro same
      refine ⟨(congrArg Row.clustering same).symm, ?_, ?_⟩
      · exact newer_comm_iff.mp (congrArg Row.deletion same)
      · exact newer_comm_iff.mp (congrArg Row.primaryKeyLiveness same)
    · intro noTie
      rw [(mergeRows_comm_iff sortedX sortedY).mpr noTie]
  · exact ⟨fun _ kept => absurd kept survives, fun _ => rfl⟩

def mergedDeletion (a b : Partition) : DeletionTime :=
  newer DeletionTime.markedForDeleteAt a.deletion b.deletion

/-- What survives depends neither on which copy is merged first nor on what the row digest omits. -/
@[mk_iff]
structure Reconcilable (a b : Partition) : Prop where
  deletion : a.deletion.markedForDeleteAt = b.deletion.markedForDeleteAt → a.deletion = b.deletion
  staticRow : ∀ x ∈ a.staticRow, ∀ y ∈ b.staticRow, StaticsReconcile (mergedDeletion a b) x y
  rows : ∀ x ∈ a.rows, ∀ y ∈ b.rows, x.clustering = y.clustering →
    RowsReconcile (mergedDeletion a b).markedForDeleteAt x y

variable {a : Partition}

instance (a b : Partition) : Decidable (Reconcilable a b) :=
  decidable_of_iff' _ (reconcilable_iff a b)

theorem deletion_of_mergedView {b merged : Partition} (view : MergedView [a, b] merged) :
    merged.deletion = mergedDeletion a b := by
  have isMax := view.deletion
  rw [← reduce_newer_eq_argmax] at isMax
  exact (Option.some.inj isMax).symm

section Pair

variable {a b : Partition} (sortedA : a.Sorted) (sortedB : b.Sorted)

include sortedA sortedB

theorem survivingStatic_swap_iff (deletion : DeletionTime) :
    survivingStatic deletion ([b, a].filterMap Partition.staticRow) =
        survivingStatic deletion ([a, b].filterMap Partition.staticRow) ↔
      ∀ x ∈ a.staticRow, ∀ y ∈ b.staticRow, StaticsReconcile deletion x y := by
  cases staticA : a.staticRow with
  | none => cases staticB : b.staticRow <;> simp [staticA, staticB]
  | some x =>
    cases staticB : b.staticRow with
    | none => simp [staticA, staticB]
    | some y =>
      have swap := survivingStatic_pair_comm_iff (sortedA.static x staticA)
        (sortedB.static y staticB) deletion
      simpa [staticA, staticB] using swap

theorem survivingRows_sides_iff (deleteAt : Int64) : (∀ clustering,
        survivingRow deleteAt (versionsAt clustering
            [a, partitionWithRows b (mergePartitionRows a b).toA]) =
          survivingRow deleteAt (versionsAt clustering [a, b]) ∧
        survivingRow deleteAt (versionsAt clustering
            [b, partitionWithRows a (mergePartitionRows a b).toB]) =
          survivingRow deleteAt (versionsAt clustering [a, b])) ↔
      ∀ x ∈ a.rows, ∀ y ∈ b.rows, x.clustering = y.clustering → RowsReconcile deleteAt x y := by
  simp only [versionsAt_sideA sortedA.rows sortedB.rows,
    versionsAt_sideB sortedA.rows sortedB.rows, versionsAt_cons, versionsAt_nil, append_nil,
    sortedA.rows.withKey_eq, sortedB.rows.withKey_eq]
  constructor
  · intro agree x inA y inB sameClustering
    have atX := agree x.clustering
    have foundB : lookup Row.clustering x.clustering b.rows = some y := by
      rw [sameClustering]
      exact sortedB.rows.lookup_of_mem inB
    rw [sortedA.rows.lookup_of_mem inA, foundB] at atX
    exact (survivingRow_sides_iff (sortedA.cells x inA) (sortedB.cells y inB) sameClustering
      deleteAt).mp atX
  · intro reconcile clustering
    cases foundA : lookup Row.clustering clustering a.rows with
    | none => cases lookup Row.clustering clustering b.rows <;> exact ⟨rfl, rfl⟩
    | some x =>
      cases foundB : lookup Row.clustering clustering b.rows with
      | none => exact ⟨rfl, rfl⟩
      | some y =>
        rcases mem_of_lookup foundA with ⟨inA, atX⟩
        rcases mem_of_lookup foundB with ⟨inB, atY⟩
        have sameClustering := atX.trans atY.symm
        exact (survivingRow_sides_iff (sortedA.cells x inA) (sortedB.cells y inB)
          sameClustering deleteAt).mpr (reconcile x inA y inB sameClustering)

theorem mergePartitions_sides_iff (sameKey : a.key = b.key) :
    (mergePartitions [a, partitionWithRows b (mergePartitionRows a b).toA] =
          mergePartitions [a, b] ∧
        mergePartitions [b, partitionWithRows a (mergePartitionRows a b).toB] =
          mergePartitions [a, b]) ↔ Reconcilable a b := by
  rcases exists_mergedView_of_two a b [] with ⟨both, isBoth, view⟩
  rcases exists_mergedView_of_two a (partitionWithRows b (mergePartitionRows a b).toA) []
    with ⟨sideA, isSideA, viewA⟩
  rcases exists_mergedView_of_two b (partitionWithRows a (mergePartitionRows a b).toB) []
    with ⟨sideB, isSideB, viewB⟩
  have keyBoth : a.key = both.key := Option.some.inj view.key
  have keyA : a.key = sideA.key := Option.some.inj viewA.key
  have keyB : b.key = sideB.key := Option.some.inj viewB.key
  have deletionBoth : both.deletion = mergedDeletion a b := deletion_of_mergedView view
  have deletionA : sideA.deletion = mergedDeletion a b := (deletion_of_mergedView viewA).trans rfl
  have deletionB : sideB.deletion = mergedDeletion b a := (deletion_of_mergedView viewB).trans rfl
  have staticA : sideA.staticRow = both.staticRow := by
    rw [viewA.staticRow, view.staticRow, deletionA, deletionBoth]
    rfl
  have staticB : sideB.staticRow =
      survivingStatic (mergedDeletion b a) ([b, a].filterMap Partition.staticRow) := by
    rw [viewB.staticRow, deletionB]
    rfl
  rw [isBoth, isSideA, isSideB, Option.some.injEq, Option.some.injEq,
    viewA.eq_iff view (keyA.symm.trans keyBoth),
    viewB.eq_iff view (keyB.symm.trans (sameKey.symm.trans keyBoth)),
    deletionA, deletionB, deletionBoth, staticA, staticB, view.staticRow, deletionBoth]
  constructor
  · rintro ⟨⟨_, _, rowsA⟩, sameDeletion, sameStatic, rowsB⟩
    rw [sameDeletion] at sameStatic rowsB
    refine ⟨newer_comm_iff.mp sameDeletion, ?_, ?_⟩
    · exact (survivingStatic_swap_iff sortedA sortedB _).mp sameStatic
    · exact (survivingRows_sides_iff sortedA sortedB _).mp
        (fun clustering => ⟨rowsA clustering, rowsB clustering⟩)
  · intro reconcilable
    have sameDeletion : mergedDeletion b a = mergedDeletion a b :=
      newer_comm_iff.mpr reconcilable.deletion
    have rows := (survivingRows_sides_iff sortedA sortedB _).mpr reconcilable.rows
    rw [sameDeletion]
    refine ⟨⟨rfl, rfl, fun clustering => (rows clustering).1⟩, rfl, ?_,
      fun clustering => (rows clustering).2⟩
    exact (survivingStatic_swap_iff sortedA sortedB _).mpr reconcilable.staticRow

omit sortedB in
theorem mergePartitions_absorb (sameDeletion : b.deletion = a.deletion)
    (sameStatic : b.staticRow = a.staticRow) {rows : List Row} (noRows : rows = []) :
    mergePartitions [a, partitionWithRows b rows] = mergePartitions [a] := by
  subst noRows
  rcases exists_mergedView_of_two a (partitionWithRows b []) [] with ⟨both, isBoth, view⟩
  rcases exists_mergedView (cons_ne_nil a []) (by simpa using sortedA.rows)
    with ⟨own, isOwn, ownView⟩
  have keyBoth : a.key = both.key := Option.some.inj view.key
  have keyOwn : a.key = own.key := Option.some.inj ownView.key
  have deletionBoth : both.deletion = a.deletion := by
    rw [deletion_of_mergedView view]
    simp [mergedDeletion, partitionWithRows, sameDeletion]
  have deletionOwn : own.deletion = a.deletion := (Option.some.inj ownView.deletion).symm
  rw [isBoth, isOwn, Option.some.injEq, view.eq_iff ownView (keyBoth.symm.trans keyOwn),
    deletionBoth, deletionOwn]
  refine ⟨rfl, ?_, ?_⟩
  · rw [view.staticRow, ownView.staticRow, deletionBoth, deletionOwn]
    cases isStatic : a.staticRow with
    | none => simp [isStatic, sameStatic, partitionWithRows]
    | some x =>
      have absorbed := mergeRows_self (sortedA.static x isStatic)
      simp [isStatic, sameStatic, partitionWithRows, survivingStatic, reduce_cons_cons, absorbed]
  · intro clustering
    rw [versionsAt_cons, versionsAt_cons, versionsAt_cons]
    rfl

end Pair

theorem toA_self (sorted : StrictlySorted Row.clustering a.rows) :
    (mergePartitionRows a a).toA = [] := by
  rw [toA_eq sorted sorted, append_eq_nil_iff, flatMap_eq_nil_iff, flatMap_eq_nil_iff]
  constructor
  · intro row present
    simp [sorted.lookup_of_mem present, sentToA, reconcileRow]
  · intro row present
    simp [sorted.lookup_of_mem present, sentMissing]

theorem toB_self (sorted : StrictlySorted Row.clustering a.rows) :
    (mergePartitionRows a a).toB = [] := by
  rw [toB_eq sorted sorted, flatMap_eq_nil_iff]
  intro row present
  simp [sorted.lookup_of_mem present, sentToB, reconcileRow]

theorem not_diverged {b : Partition} {rows : List Row}
    (stays : ¬((mergePartitionRows a b).partitionStateDiverged || !rows.isEmpty)) :
    a.deletion = b.deletion ∧ a.staticRow = b.staticRow ∧ rows = [] := by
  rw [mergePartitionRows, (foldl_missingStep _ _ _).2.2, (foldl_reconcileStep _ _ _).2.2] at stays
  simpa [and_assoc] using stays

theorem mergePartitions_planToA {b : Partition} (sortedA : a.Sorted) :
    mergePartitions (a :: planToA (some a) (some b)) =
      mergePartitions [a, partitionWithRows b (mergePartitionRows a b).toA] := by
  by_cases same : a = b
  · subst same
    rw [mergePartitions_absorb sortedA rfl rfl (toA_self sortedA.rows)]
    simp [planToA]
  · by_cases travels :
        (mergePartitionRows a b).partitionStateDiverged || !(mergePartitionRows a b).toA.isEmpty
    · simp only [planToA, partitionMerkleHash, ne_eq, same, not_false_iff, if_true, travels]
    · rcases not_diverged travels with ⟨deletion, staticRow, noRows⟩
      rw [mergePartitions_absorb sortedA deletion.symm staticRow.symm noRows]
      simp only [planToA, travels, ite_self, Bool.false_eq_true, if_false]

theorem mergePartitions_planToB {b : Partition} (sortedB : b.Sorted) :
    mergePartitions (b :: planToB (some a) (some b)) =
      mergePartitions [b, partitionWithRows a (mergePartitionRows a b).toB] := by
  by_cases same : a = b
  · subst same
    rw [mergePartitions_absorb sortedB rfl rfl (toB_self sortedB.rows)]
    simp [planToB]
  · by_cases travels :
        (mergePartitionRows a b).partitionStateDiverged || !(mergePartitionRows a b).toB.isEmpty
    · simp only [planToB, partitionMerkleHash, ne_eq, same, not_false_iff, if_true, travels]
    · rcases not_diverged travels with ⟨deletion, staticRow, noRows⟩
      rw [mergePartitions_absorb sortedB deletion staticRow noRows]
      simp only [planToB, travels, ite_self, Bool.false_eq_true, if_false]

theorem key_of_mergePartitions {sources : List Partition} {merged : Partition}
    (isMerge : mergePartitions sources = some merged) :
    sources.head?.map Partition.key = some merged.key := by
  match sources with
  | [] => simp [mergePartitions, mergePartitionMetadata] at isMerge
  | [only] =>
    rw [mergePartitions_eq_map] at isMerge
    rw [← Option.some.inj isMerge, applyDeletions_key]
    rfl
  | first :: second :: rest =>
    rcases exists_mergedView_of_two first second rest with ⟨same, isSame, view⟩
    rw [isMerge] at isSame
    rw [Option.some.inj isSame]
    exact view.key

section MergeInto

variable (held received : List Partition)

theorem key_of_mergePartitions_withKey {key : DecoratedKey} {merged : Partition}
    (isMerge : merged ∈ mergePartitions (withKey Partition.key key (held ++ received))) :
    merged.key = key := by
  have headKey := key_of_mergePartitions isMerge
  rw [Option.map_eq_some_iff] at headKey
  rcases headKey with ⟨first, isHead, sameKey⟩
  rw [← sameKey]
  exact (mem_withKey.mp (mem_of_mem_head? isHead)).2

theorem mergeInto_sorted : StrictlySorted Partition.key (mergeInto held received) := by
  have ascending : (((held ++ received).map Partition.key).insertionSort
      (· ≤ ·)).dedup.Pairwise (· < ·) := by
    have sorted := (pairwise_insertionSort (· ≤ ·)
      ((held ++ received).map Partition.key)).sublist (dedup_sublist _)
    exact (sorted.and (nodup_dedup _)).imp (fun both => lt_of_le_of_ne both.1 both.2)
  apply List.Pairwise.filterMap _ _ ascending
  intro key key' below merged isMerge merged' isMerge'
  rwa [key_of_mergePartitions_withKey held received isMerge,
    key_of_mergePartitions_withKey held received isMerge']

theorem lookup_mergeInto (key : DecoratedKey) : lookup Partition.key key (mergeInto held received) =
      mergePartitions (withKey Partition.key key (held ++ received)) := by
  rw [mergeInto, lookup_filterMap_keys]
  · split_ifs with present
    · rfl
    · have none_ : withKey Partition.key key (held ++ received) = [] := by
        rw [eq_nil_iff_forall_not_mem]
        intro partition found
        apply present
        rw [mem_dedup, mem_insertionSort]
        exact mem_map.mpr ⟨partition, mem_withKey.mp found⟩
      rw [none_]
      rfl
  · intro key merged isMerge
    exact key_of_mergePartitions_withKey held received isMerge

end MergeInto

theorem mergeInto_eq_iff {held received held' received' : List Partition} :
    mergeInto held received = mergeInto held' received' ↔
      ∀ key, mergePartitions (withKey Partition.key key (held ++ received)) =
        mergePartitions (withKey Partition.key key (held' ++ received')) := by
  constructor
  · intro same key
    rw [← lookup_mergeInto, ← lookup_mergeInto, same]
  · intro agree
    apply (mergeInto_sorted held received).ext_lookup (mergeInto_sorted held' received')
    intro key
    rw [lookup_mergeInto, lookup_mergeInto, agree]

structure Exchanged (a b aToB bToA : List Partition) : Prop where
  sideA : mergeInto a bToA = mergeInto a b
  sideB : mergeInto b aToB = mergeInto a b

def AllReconcilable (a b : List Partition) : Prop :=
  ∀ x ∈ a, ∀ y ∈ b, x.key = y.key → Reconcilable x y
  deriving Decidable

section Sets

variable {a b : List Partition} (distinctA : a.Pairwise (fun p q => p.key ≠ q.key))
  (distinctB : b.Pairwise (fun p q => p.key ≠ q.key)) (sortedA : ∀ partition ∈ a, partition.Sorted)
  (sortedB : ∀ partition ∈ b, partition.Sorted)

include distinctA distinctB sortedA sortedB

theorem exchanged_iff {aToB bToA : List Partition} (planB : ∀ key, withKey Partition.key key aToB =
      planToB (lookup Partition.key key a) (lookup Partition.key key b))
    (planA : ∀ key, withKey Partition.key key bToA =
      planToA (lookup Partition.key key a) (lookup Partition.key key b)) :
    Exchanged a b aToB bToA ↔ AllReconcilable a b := by
  have atKey : ∀ key, (mergePartitions (withKey Partition.key key (a ++ bToA)) =
        mergePartitions (withKey Partition.key key (a ++ b)) ∧
      mergePartitions (withKey Partition.key key (b ++ aToB)) =
        mergePartitions (withKey Partition.key key (a ++ b))) ↔
      ∀ x ∈ lookup Partition.key key a, ∀ y ∈ lookup Partition.key key b, Reconcilable x y := by
    intro key
    rw [withKey_append, withKey_append, withKey_append, planA, planB,
      withKey_eq_of_distinct distinctA, withKey_eq_of_distinct distinctB]
    cases foundA : lookup Partition.key key a with
    | none => cases lookup Partition.key key b <;> simp [planToA, planToB]
    | some x =>
      cases foundB : lookup Partition.key key b with
      | none => simp [planToA, planToB]
      | some y =>
        rcases mem_of_lookup foundA with ⟨inA, keyX⟩
        rcases mem_of_lookup foundB with ⟨inB, keyY⟩
        have pair := mergePartitions_sides_iff (sortedA x inA) (sortedB y inB)
          (keyX.trans keyY.symm)
        rw [← mergePartitions_planToA (sortedA x inA),
          ← mergePartitions_planToB (sortedB y inB)] at pair
        simpa using pair
  constructor
  · intro exchanged x inA y inB sameKey
    apply (atKey x.key).mp
      ⟨mergeInto_eq_iff.mp exchanged.sideA x.key, mergeInto_eq_iff.mp exchanged.sideB x.key⟩
    · exact (lookup_eq_some_iff_of_distinct distinctA).mpr ⟨inA, rfl⟩
    · exact (lookup_eq_some_iff_of_distinct distinctB).mpr ⟨inB, sameKey.symm⟩
  · intro reconcilable
    have both : ∀ key, _ := fun key => (atKey key).mpr (by
      intro x foundA y foundB
      rcases mem_of_lookup foundA with ⟨inA, keyX⟩
      rcases mem_of_lookup foundB with ⟨inB, keyY⟩
      exact reconcilable x inA y inB (keyX.trans keyY.symm))
    exact ⟨mergeInto_eq_iff.mpr (fun key => (both key).1),
      mergeInto_eq_iff.mpr (fun key => (both key).2)⟩

end Sets

theorem diffPartitionSets_self (partitions : List Partition) :
    diffPartitionSets partitions partitions = .empty := by
  have same : ∀ entry ∈ (partitionsByKey partitions).entries,
      (partitionsByKey partitions).get? entry.1 = some entry.2 := by
    intro entry present
    exact SortedMap.mem_entries_iff.mp present
  have compared : (partitionsByKey partitions).entries.foldl
      (diffStep (partitionsByKey partitions)) .empty = .empty := by
    refine List.foldlRecOn (motive := fun plan => plan = RepairPlan.empty) _ _ rfl ?_
    intro plan isEmpty entry present
    simp [diffStep, same entry present, isEmpty]
  rw [diffPartitionSets, compared]
  refine List.foldlRecOn (motive := fun plan => plan = RepairPlan.empty) _ _ rfl ?_
  intro plan isEmpty entry present
  simp [onlyBStep, same entry present, isEmpty]

theorem diffPartitionSetsStreaming_self (partitions : List Partition) :
    diffPartitionSetsStreaming partitions partitions = [] := by
  induction partitions with
  | nil => simp [diffPartitionSetsStreaming]
  | cons first rest ih => simp [diffPartitionSetsStreaming, emitMerge, ih]

/-- Both diffs lead the two sides to the merge of their original copies, and a second diff
finds nothing. -/
structure RepairConverges (a b : List Partition) : Prop where
  exchanged : Exchanged a b (diffPartitionSets a b).aToB (diffPartitionSets a b).bToA
  settled : diffPartitionSets (mergeInto a (diffPartitionSets a b).bToA)
    (mergeInto b (diffPartitionSets a b).aToB) = .empty
  streamed : StrictlySorted Partition.key a → StrictlySorted Partition.key b →
    Exchanged a b (decidedToB (diffPartitionSetsStreaming a b))
        (decidedToA (diffPartitionSetsStreaming a b)) ∧
      diffPartitionSetsStreaming (mergeInto a (decidedToA (diffPartitionSetsStreaming a b)))
        (mergeInto b (decidedToB (diffPartitionSetsStreaming a b))) = []

/-- Repair converges exactly when the copies of every common key reconcile. -/
theorem repairConverges_iff {token : Bytes → Int64} {a b : List Partition}
    (isSetA : IsPartitionSet token a) (isSetB : IsPartitionSet token b)
    (sortedA : ∀ partition ∈ a, partition.Sorted) (sortedB : ∀ partition ∈ b, partition.Sorted) :
    RepairConverges a b ↔ AllReconcilable a b := by
  have exchanged := exchanged_iff isSetA.distinct isSetB.distinct sortedA sortedB
    (withKey_aToB_diffPartitionSets isSetA isSetB) (withKey_bToA_diffPartitionSets isSetA isSetB)
  constructor
  · intro converges
    exact exchanged.mp converges.exchanged
  · intro reconcilable
    have direct := exchanged.mpr reconcilable
    refine ⟨direct, ?_, ?_⟩
    · rw [direct.sideA, direct.sideB]
      exact diffPartitionSets_self _
    · intro orderedA orderedB
      have decides := decidesByKey_diffPartitionSetsStreaming orderedA orderedB
      have streamed := (exchanged_iff isSetA.distinct isSetB.distinct sortedA sortedB
        (fun key => (decides key).1) (fun key => (decides key).2)).mpr reconcilable
      refine ⟨streamed, ?_⟩
      rw [streamed.sideA, streamed.sideB]
      exact diffPartitionSetsStreaming_self _

def staleCopy : Partition where
  key := ⟨0, [1]⟩
  deletion := .live
  staticRow := none
  rows := [⟨[1], [(0, .live [7] 20)], .live, .withTimestamp 20⟩]

def freshCopy : Partition where
  key := ⟨0, [1]⟩
  deletion := .live
  staticRow := none
  rows := [⟨[1], [(0, .live [8] 30)], .live, .withTimestamp 20⟩,
    ⟨[2], [(0, .live [9] 10)], .live, .withTimestamp 10⟩]

theorem repairConverges_staleCopy : RepairConverges [staleCopy] [freshCopy] := by
  apply (@repairConverges_iff (fun _ => 0) [staleCopy] [freshCopy] ⟨by decide, by decide⟩
    ⟨by decide, by decide⟩ (by decide) (by decide)).mpr
  decide

def firstElementCopy : Partition where
  key := ⟨0, [1]⟩
  deletion := .live
  staticRow := none
  rows := [⟨[1], [(0, ⟨some [], 20, 0, Int32.maxValue, some [1]⟩)], .live, .withTimestamp 20⟩]

def secondElementCopy : Partition where
  key := ⟨0, [1]⟩
  deletion := .live
  staticRow := none
  rows := [⟨[1], [(0, ⟨some [], 20, 0, Int32.maxValue, some [2]⟩)], .live, .withTimestamp 20⟩]

/-- The elements of a set differ only in their path, so neither travels. -/
theorem not_repairConverges_setElements :
    ¬RepairConverges [firstElementCopy] [secondElementCopy] := by
  intro converges
  have sideA := converges.exchanged.sideA
  revert sideA
  decide

end Ferrosa.Cluster
