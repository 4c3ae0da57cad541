import Ferrosa.Cluster.RepairDiff

/-!
# What the diff sends

The plan of a diff is described key by key, and inside a partition clustering by
clustering: what a side receives for a key depends only on the two copies of that
key, whichever of the two diffs produced the plan.
-/

namespace Ferrosa.Cluster

open Storage KeyedFold List SortedMap

section Cells

variable {row : Row} (sorted : row.CellsSorted)

include sorted

theorem entries_cellsByColumn :
    (cellsByColumn row).entries = row.cells.map (fun cell => (cellKey cell, cell.2)) := by
  apply entries_ofList
  exact pairwise_map.mpr sorted

theorem get?_cellsByColumn (k : UInt16 ×ₗ WithBot Bytes) :
    (cellsByColumn row).get? k = (lookup cellKey k row.cells).map (·.2) := by
  rw [get?, entries_cellsByColumn sorted, find?_map, Option.map_map]
  rfl

end Cells

theorem mergeRows_eq_of_not_contributesTo {source target : Row} (sortedSource : source.CellsSorted)
    (sortedTarget : target.CellsSorted) (nothing : ¬contributesTo source target) :
    mergeRows target source = target := by
  unfold contributesTo at nothing
  split_ifs at nothing with newer
  · exact absurd rfl nothing
  · rw [not_or] at newer
    apply mergeRows_eq_left sortedTarget sortedSource (not_lt.mp newer.1) (not_lt.mp newer.2)
    intro cell present
    rw [entries_cellsByColumn sortedSource] at nothing
    simp only [any_map, any_eq_true, not_exists, not_and, Function.comp_apply,
      get?_cellsByColumn sortedTarget] at nothing
    have loses := nothing cell present
    cases found : lookup cellKey (cellKey cell) target.cells with
    | none => simp [found] at loses
    | some own =>
      simp only [found, Option.map_some, Option.all_some, CellValue.supersedes_iff, not_lt] at loses
      exact ⟨own, (mem_of_lookup found).1, (mem_of_lookup found).2, loses⟩

def sentToB (rowA : Row) : Option Row → List Row
  | none => [rowA]
  | some rowB =>
    match reconcileRow rowA rowB with
    | .agree => []
    | .stream _ toB _ => if toB then [rowA] else []

def sentToA (rowA : Row) : Option Row → List Row
  | none => []
  | some rowB =>
    match reconcileRow rowA rowB with
    | .agree => []
    | .stream toA _ _ => if toA then [rowB] else []

def sentMissing (rowB : Row) (rowA : Option Row) : List Row :=
  if rowA.isSome then [] else [rowB]

variable {rowB : Option Row}

theorem eq_of_mem_sentToB {rowA sent : Row} (travels : sent ∈ sentToB rowA rowB) : sent = rowA := by
  cases rowB with
  | none => simpa [sentToB] using travels
  | some rowB =>
    simp only [sentToB] at travels
    split at travels
    · simp at travels
    · split_ifs at travels
      · simpa using travels
      · simp at travels

theorem mem_of_mem_sentToA {rowA sent : Row} (travels : sent ∈ sentToA rowA rowB) :
    rowB = some sent := by
  cases rowB with
  | none => simp [sentToA] at travels
  | some rowB =>
    simp only [sentToA] at travels
    split at travels
    · simp at travels
    · split_ifs at travels
      · simpa [eq_comm] using travels
      · simp at travels

theorem foldl_reconcileStep (rowsB : SortedMap Bytes Row) (entries : List (Bytes × Row))
    (merge : PartitionMerge) :
    (entries.foldl (reconcileStep rowsB) merge).toB =
        merge.toB ++ entries.flatMap (fun entry => sentToB entry.2 (rowsB.get? entry.1)) ∧
      (entries.foldl (reconcileStep rowsB) merge).toA =
        merge.toA ++ entries.flatMap (fun entry => sentToA entry.2 (rowsB.get? entry.1)) ∧
      (entries.foldl (reconcileStep rowsB) merge).partitionStateDiverged =
        merge.partitionStateDiverged := by
  induction entries generalizing merge with
  | nil => simp
  | cons entry rest ih =>
    rcases ih (reconcileStep rowsB merge entry) with ⟨toB, toA, diverged⟩
    rw [foldl_cons, toB, toA, diverged, flatMap_cons, flatMap_cons]
    unfold reconcileStep
    cases rowsB.get? entry.1 with
    | none => simp [sentToB, sentToA]
    | some rowB =>
      dsimp only [sentToB, sentToA]
      cases reconcileRow entry.2 rowB with
      | agree => simp
      | stream streamA streamB tiebreak =>
        cases streamA <;> cases streamB <;> simp

theorem foldl_missingStep (rowsA : SortedMap Bytes Row) (entries : List (Bytes × Row))
    (merge : PartitionMerge) :
    (entries.foldl (missingStep rowsA) merge).toB = merge.toB ∧
      (entries.foldl (missingStep rowsA) merge).toA =
        merge.toA ++ entries.flatMap (fun entry => sentMissing entry.2 (rowsA.get? entry.1)) ∧
      (entries.foldl (missingStep rowsA) merge).partitionStateDiverged =
        merge.partitionStateDiverged := by
  induction entries generalizing merge with
  | nil => simp
  | cons entry rest ih =>
    rcases ih (missingStep rowsA merge entry) with ⟨toB, toA, diverged⟩
    rw [foldl_cons, toB, toA, diverged, flatMap_cons]
    unfold missingStep sentMissing
    split_ifs with present <;> simp

section Partitions

variable {a b : Partition} (sortedA : StrictlySorted Row.clustering a.rows)
  (sortedB : StrictlySorted Row.clustering b.rows) {partition : Partition}

theorem entries_rowsByClustering (sorted : StrictlySorted Row.clustering partition.rows) :
    (rowsByClustering partition).entries =
      partition.rows.map (fun row => (row.clustering, row)) := by
  apply entries_ofList
  exact pairwise_map.mpr sorted

theorem get?_rowsByClustering (sorted : StrictlySorted Row.clustering partition.rows)
    (clustering : Bytes) :
    (rowsByClustering partition).get? clustering =
      lookup Row.clustering clustering partition.rows := by
  rw [get?, entries_rowsByClustering sorted, find?_map, Option.map_map]
  exact Option.map_id'

include sortedA sortedB

theorem toB_eq : (mergePartitionRows a b).toB =
    a.rows.flatMap (fun row => sentToB row (lookup Row.clustering row.clustering b.rows)) := by
  rw [mergePartitionRows, (foldl_missingStep _ _ _).1, (foldl_reconcileStep _ _ _).1,
    entries_rowsByClustering sortedA]
  simp [flatMap_map, get?_rowsByClustering sortedB]

theorem toA_eq : (mergePartitionRows a b).toA =
    a.rows.flatMap (fun row => sentToA row (lookup Row.clustering row.clustering b.rows)) ++
      b.rows.flatMap
        (fun row => sentMissing row (lookup Row.clustering row.clustering a.rows)) := by
  rw [mergePartitionRows, (foldl_missingStep _ _ _).2.1, (foldl_reconcileStep _ _ _).2.1,
    entries_rowsByClustering sortedA, entries_rowsByClustering sortedB]
  simp [flatMap_map, get?_rowsByClustering sortedA, get?_rowsByClustering sortedB]

theorem withKey_toB (clustering : Bytes) :
    withKey Row.clustering clustering (mergePartitionRows a b).toB =
      (lookup Row.clustering clustering a.rows).elim []
        (fun row => sentToB row (lookup Row.clustering clustering b.rows)) := by
  rw [toB_eq sortedA sortedB, withKey_flatMap sortedA.distinct]
  · cases found : lookup Row.clustering clustering a.rows with
    | none => rfl
    | some row => simp [(mem_of_lookup found).2]
  · intro row _ sent travels
    rw [eq_of_mem_sentToB travels]

theorem withKey_toA (clustering : Bytes) :
    withKey Row.clustering clustering (mergePartitionRows a b).toA =
      (lookup Row.clustering clustering a.rows).elim []
          (fun row => sentToA row (lookup Row.clustering clustering b.rows)) ++
        (lookup Row.clustering clustering b.rows).elim []
          (fun row => sentMissing row (lookup Row.clustering clustering a.rows)) := by
  rw [toA_eq sortedA sortedB, withKey_append, withKey_flatMap sortedA.distinct,
    withKey_flatMap sortedB.distinct]
  · congr 1
    · cases found : lookup Row.clustering clustering a.rows with
      | none => rfl
      | some row => simp [(mem_of_lookup found).2]
    · cases found : lookup Row.clustering clustering b.rows with
      | none => rfl
      | some row => simp [(mem_of_lookup found).2]
  · intro row _ sent travels
    unfold sentMissing at travels
    split_ifs at travels
    · simp at travels
    · rw [mem_singleton.mp travels]
  · intro row _ sent travels
    exact (mem_of_lookup (mem_of_mem_sentToA travels)).2

theorem versionsAt_sideA (clustering : Bytes) :
    versionsAt clustering [a, partitionWithRows b (mergePartitionRows a b).toA] =
      match lookup Row.clustering clustering a.rows, lookup Row.clustering clustering b.rows with
      | none, none => []
      | some rowA, none => [rowA]
      | none, some rowB => [rowB]
      | some rowA, some rowB => rowA :: sentToA rowA (some rowB) := by
  rw [versionsAt_cons, versionsAt_cons, versionsAt_nil, append_nil, sortedA.withKey_eq]
  simp only [partitionWithRows]
  rw [withKey_toA sortedA sortedB]
  cases lookup Row.clustering clustering a.rows <;>
    cases lookup Row.clustering clustering b.rows <;> simp [sentToA, sentMissing]

theorem versionsAt_sideB (clustering : Bytes) :
    versionsAt clustering [b, partitionWithRows a (mergePartitionRows a b).toB] =
      match lookup Row.clustering clustering a.rows, lookup Row.clustering clustering b.rows with
      | none, none => []
      | some rowA, none => [rowA]
      | none, some rowB => [rowB]
      | some rowA, some rowB => rowB :: sentToB rowA (some rowB) := by
  rw [versionsAt_cons, versionsAt_cons, versionsAt_nil, append_nil, sortedB.withKey_eq]
  simp only [partitionWithRows]
  rw [withKey_toB sortedA sortedB]
  cases lookup Row.clustering clustering a.rows <;>
    cases lookup Row.clustering clustering b.rows <;> simp [sentToB]

end Partitions

end Ferrosa.Cluster
