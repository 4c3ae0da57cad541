import Ferrosa.Storage.Memtable

/-!
# The memtable as a last-write-wins store

A partition of the memtable is a family of slots: the static row, and one row for each
clustering.  Every accepted `put` writes at most one row to each slot.  While the rows
that are stored without a merge have strictly sorted cells, a slot holds the fold of
the rows written to it, by the same `mergeRows` that reads and compactions use, and
hence one cell for each column and path: the greatest one written.
-/

namespace Ferrosa.Storage

open KeyedFold BinarySearch Relation.ReflTransGen
open List hiding lookup_cons lookup_nil

theorem exists_of_bind_eq_ok {ε α β : Type} {first : Except ε α} {next : α → Except ε β} {b : β}
    (isOk : (first >>= next) = .ok b) : ∃ a, first = .ok a ∧ next a = .ok b := by
  cases first with
  | error e => cases isOk
  | ok a => exact ⟨a, rfl, isOk⟩

theorem mergeCells_append (a b c : List Cell) :
    mergeCells (mergeCells a b) c = mergeCells a (b ++ c) := by
  refine (mergeCells_sorted _ _).ext_lookup (mergeCells_sorted _ _) fun k => ?_
  rw [lookup_mergeCells, lookup_mergeCells, withKey_append, reduce_append, mergeCells,
    reduce_withKey_sortFold cellKey_mergeCell, ← reduce_append, ← withKey_append,
    append_assoc]

variable {cells : List Cell}

theorem mergeCellInto_eq (sorted : StrictlySorted cellKey cells)
    (new : Cell) : mergeCellInto cells new = mergeCells cells [new] := by
  have lookupMerged : ∀ k, lookup cellKey k (mergeCells cells [new]) =
      Option.merge mergeCell (lookup cellKey k cells) (lookup cellKey k [new]) := by
    intro k
    have newSorted : StrictlySorted cellKey [new] := pairwise_singleton _ _
    rw [lookup_mergeCells, withKey_append, reduce_append, sorted.withKey_eq, newSorted.withKey_eq]
    cases lookup cellKey k cells <;> cases lookup cellKey k [new] <;> rfl
  have isUpdate : ∀ winner, Option.merge mergeCell (lookup cellKey (cellKey new) cells)
      (some new) = some winner → ∀ result, Updated cellKey (cellKey new) winner cells result →
        result = mergeCells cells [new] := by
    intro winner isWinner result updated
    refine updated.sorted.ext_lookup (mergeCells_sorted _ _) fun k => ?_
    rw [lookupMerged, lookup_cons]
    by_cases atKey : cellKey new = k
    · rw [← atKey, updated.lookup_self, if_pos rfl, isWinner]
    · rw [updated.lookup_other k (Ne.symm atKey), if_neg atKey, lookup_nil, Option.merge_none_right]
  have found := found_binarySearchByKey sorted (cellKey new)
  rw [mergeCellInto]
  cases result : binarySearchByKey cellKey (cellKey new) cells with
  | ok index =>
    rw [result] at found
    rcases found.of_ok sorted with ⟨existing, atIndex, isExisting, updates⟩
    simp only [atIndex]
    have sameKey : cellKey existing = cellKey new := (mem_of_lookup isExisting).2
    have isMerge : (existing.1, existing.2.reconcileRef new.2) = mergeCell existing new :=
      Prod.ext (by simp) (by rw [mergeCell_snd, CellValue.reconcileRef_eq_max])
    rw [isMerge]
    apply isUpdate (mergeCell existing new)
    · rw [isExisting, Option.merge_some_some]
    · exact updates _ ((cellKey_mergeCell _ _ sameKey.symm).trans sameKey)
  | error index =>
    rw [result] at found
    rcases found.of_error sorted with ⟨isAbsent, updates⟩
    apply isUpdate new
    · rw [isAbsent, Option.merge_none_left]
    · exact updates new rfl

theorem foldl_mergeCellInto (sorted : StrictlySorted cellKey cells)
    (new : List Cell) : new.foldl mergeCellInto cells = mergeCells cells new := by
  induction new using List.reverseRecOn with
  | nil =>
    rw [foldl_nil, mergeCells, append_nil]
    exact (sortFold_of_sorted cellKey_mergeCell sorted).symm
  | append_singleton init last ih =>
    rw [foldl_append, ih, foldl_cons, foldl_nil,
      mergeCellInto_eq (mergeCells_sorted _ _), mergeCells_append]

variable {schema : TableSchema}

theorem normalize_clustering {nowSecs : Int32} {existing new existing' new' : Row}
    (normalized : normalizeCollectionRowsForMerge schema nowSecs existing new =
      .ok (existing', new')) : existing'.clustering = existing.clustering := by
  rw [normalizeCollectionRowsForMerge] at normalized
  split at normalized
  · rcases exists_of_bind_eq_ok normalized with ⟨existingPlan, _, rest⟩
    rcases exists_of_bind_eq_ok rest with ⟨incomingPlan, _, isPair⟩
    cases isPair
    rfl
  · cases normalized
    rfl

inductive Slot
  | static
  | clustered (clustering : Bytes)
  deriving DecidableEq, Repr

def Partition.slot (partition : Partition) : Slot → Option Row
  | .static => partition.staticRow
  | .clustered clustering => lookup Row.clustering clustering partition.rows

def writesOf (schema : TableSchema) (row : Row) : List (Slot × Row) :=
  if isPartitionTombstone row then []
  else if isStaticRowMarker row schema then [(.static, row)]
  else if carriesStaticCells schema row then
    [(.static, ⟨[], row.cells.filter (isStaticCell schema), .live, .none⟩),
      (.clustered row.clustering,
        { row with cells := row.cells.filter (fun cell => !isStaticCell schema cell) })]
  else [(.clustered row.clustering, row)]

def mergedAt (schema : TableSchema) (nowSecs : Int32) :
    (stored written : Option Row) → Except InvalidData (Option Row)
  | stored, none => .ok stored
  | none, some new => .ok (some new)
  | some existing, some new => (mergeIntoExistingRow schema nowSecs existing new).map some

section Put

variable {schema : TableSchema} {nowSecs : Int32}

theorem mergeIntoExistingRow_clustering {existing new merged : Row}
    (isMerge : mergeIntoExistingRow schema nowSecs existing new = .ok merged) :
    merged.clustering = existing.clustering := by
  rw [mergeIntoExistingRow] at isMerge
  rcases exists_of_bind_eq_ok isMerge with ⟨⟨existing', new'⟩, normalized, isRow⟩
  have sameClustering := normalize_clustering normalized
  cases isRow
  exact sameClustering

theorem mergeIntoRows_spec {rows rows' : List Row} {newRow : Row}
    (sorted : StrictlySorted Row.clustering rows)
    (isMerge : mergeIntoRows schema nowSecs rows newRow = .ok rows') :
    ∃ stored, mergedAt schema nowSecs (lookup Row.clustering newRow.clustering rows)
        (some newRow) = .ok (some stored) ∧
      Updated Row.clustering newRow.clustering stored rows rows' := by
  have found := found_binarySearchByKey sorted newRow.clustering
  rw [mergeIntoRows] at isMerge
  cases result : binarySearchByKey Row.clustering newRow.clustering rows with
  | ok index =>
    rw [result] at found isMerge
    rcases found.of_ok sorted with ⟨existing, atIndex, isExisting, updates⟩
    simp only [atIndex] at isMerge
    rcases exists_of_bind_eq_ok isMerge with ⟨merged, isMerged, isSet⟩
    cases isSet
    refine ⟨merged, ?_, updates merged ?_⟩
    · rw [isExisting, mergedAt, isMerged]
      rfl
    · exact (mergeIntoExistingRow_clustering isMerged).trans (mem_of_lookup isExisting).2
  | error index =>
    rw [result] at found isMerge
    rcases found.of_error sorted with ⟨isAbsent, updates⟩
    cases isMerge
    exact ⟨newRow, by rw [isAbsent]; rfl, updates newRow rfl⟩

theorem mergeIntoStaticRow_eq {staticRow : Option Row} {new merged : Row}
    (isMerge : mergeIntoStaticRow schema nowSecs staticRow new = .ok merged) :
    mergedAt schema nowSecs staticRow (some new) = .ok (some merged) := by
  cases staticRow with
  | none =>
    cases isMerge
    rfl
  | some existing =>
    rw [mergeIntoStaticRow] at isMerge
    rw [mergedAt, isMerge]
    rfl

theorem mergedAt_clustered {partition partition' : Partition} {new stored : Row}
    (isStored : mergedAt schema nowSecs (partition.slot (.clustered new.clustering)) (some new) =
      .ok (some stored))
    (updated : Updated Row.clustering new.clustering stored partition.rows partition'.rows)
    (clustering : Bytes) :
    mergedAt schema nowSecs (partition.slot (.clustered clustering))
      ([(Slot.clustered new.clustering, new)].lookup (.clustered clustering)) =
        .ok (partition'.slot (.clustered clustering)) := by
  by_cases same : clustering = new.clustering
  · subst same
    have isNew : [(Slot.clustered new.clustering, new)].lookup (.clustered new.clustering) =
        some new := by simp
    rw [isNew, isStored, Partition.slot, updated.lookup_self]
  · have isNone : [(Slot.clustered new.clustering, new)].lookup (.clustered clustering) = none := by
      have different : (Slot.clustered clustering == Slot.clustered new.clustering) = false := by
        rw [beq_eq_false_iff_ne]
        intro equal
        exact same (Slot.clustered.inj equal)
      rw [List.lookup_cons, different]
      rfl
    rw [isNone, Partition.slot, Partition.slot, updated.lookup_other clustering same]
    rfl

theorem mergeRowIntoPartition_slot {partition partition' : Partition} {row : Row}
    (sorted : StrictlySorted Row.clustering partition.rows)
    (isMerge : mergeRowIntoPartition schema nowSecs partition row = .ok partition') :
    StrictlySorted Row.clustering partition'.rows ∧
      ∀ slot, mergedAt schema nowSecs (partition.slot slot)
        ((writesOf schema row).lookup slot) = .ok (partition'.slot slot) := by
  rw [mergeRowIntoPartition] at isMerge
  rw [writesOf]
  split at isMerge
  · rename_i isTombstone
    cases isMerge
    rw [if_pos isTombstone]
    split
    · exact ⟨sorted, fun slot => rfl⟩
    · exact ⟨sorted, fun slot => rfl⟩
  rename_i notTombstone
  rw [if_neg notTombstone]
  split at isMerge
  · rename_i isMarker
    rw [if_pos isMarker]
    rcases exists_of_bind_eq_ok isMerge with ⟨staticRow, isStatic, isPartition⟩
    cases isPartition
    refine ⟨sorted, ?_⟩
    intro slot
    cases slot with
    | static => exact mergeIntoStaticRow_eq isStatic
    | clustered clustering => rfl
  rename_i notMarker
  rw [if_neg notMarker]
  rcases exists_of_bind_eq_ok isMerge with ⟨⟨lifted, regular⟩, isLift, isRows⟩
  rcases exists_of_bind_eq_ok isRows with ⟨rows, isMerged, isPartition⟩
  cases isPartition
  rw [liftStaticCells] at isLift
  split at isLift
  · rename_i carries
    rw [if_pos carries]
    rcases exists_of_bind_eq_ok isLift with ⟨staticRow, isStatic, isPair⟩
    cases isPair
    rcases mergeIntoRows_spec sorted isMerged with ⟨stored, isStored, updated⟩
    refine ⟨updated.sorted, ?_⟩
    intro slot
    cases slot with
    | static => exact mergeIntoStaticRow_eq isStatic
    | clustered clustering => exact mergedAt_clustered isStored updated clustering
  · rename_i carries
    rw [if_neg carries]
    cases isLift
    rcases mergeIntoRows_spec sorted isMerged with ⟨stored, isStored, updated⟩
    refine ⟨updated.sorted, ?_⟩
    intro slot
    cases slot with
    | static => rfl
    | clustered clustering => exact mergedAt_clustered isStored updated clustering

end Put

structure Written where
  stored : Option Partition
  rows : Slot → List Row

namespace Written

def empty : Written := ⟨none, fun _ => []⟩

def slot (state : Written) (slot : Slot) : Option Row :=
  state.stored.bind (fun partition => partition.slot slot)

/-- A merge that expands collections rewrites the stored row, which then counts as written in place
of the rows it came from. -/
def record (schema : TableSchema) (nowSecs : Int32) (stored : Option Row) (rows : List Row)
    (new : Row) : List Row :=
  match stored with
  | none => rows ++ [new]
  | some existing =>
    match normalizeCollectionRowsForMerge schema nowSecs existing new with
    | .ok (existing', new') =>
      if hasLegacyBlob existing new then [existing', new'] else rows ++ [new]
    | .error _ => rows

def put (schema : TableSchema) (key : DecoratedKey) (nowSecs : Int32) (row : Row)
    (state : Written) : Except InvalidData Written := do
  let partition ← Storage.put schema nowSecs key row state.stored
  .ok ⟨some partition, fun slot =>
    match (writesOf schema row).lookup slot with
    | none => state.rows slot
    | some new => record schema nowSecs (state.slot slot) (state.rows slot) new⟩

/-- A first write has strictly sorted cells, and an expanding merge leaves one cell for each column
and path. -/
def StoresSorted (schema : TableSchema) (nowSecs : Int32) (stored : Option Row) (new : Row) :
    Prop :=
  match stored with
  | none => new.CellsSorted
  | some existing =>
    match normalizeCollectionRowsForMerge schema nowSecs existing new with
    | .ok (existing', _) => hasLegacyBlob existing new → (existing'.cells.map cellKey).Nodup
    | .error _ => True

instance (schema : TableSchema) (nowSecs : Int32) (stored : Option Row) (new : Row) :
    Decidable (StoresSorted schema nowSecs stored new) := by
  unfold StoresSorted
  split
  · infer_instance
  · split <;> infer_instance

def Sorted (schema : TableSchema) (nowSecs : Int32) (row : Row) (state : Written) : Prop :=
  ∀ write ∈ writesOf schema row, StoresSorted schema nowSecs (state.slot write.1) write.2
  deriving Decidable

def Accepts (schema : TableSchema) (key : DecoratedKey) (state state' : Written) : Prop :=
  ∃ nowSecs row, state.put schema key nowSecs row = .ok state'

/-- Some row is put and accepted that leaves the stored cells sorted. -/
def AcceptsSorted (schema : TableSchema) (key : DecoratedKey) (state state' : Written) : Prop :=
  ∃ nowSecs row, state.put schema key nowSecs row = .ok state' ∧ state.Sorted schema nowSecs row

end Written

/-- The stored row holds one cell for each column and path written, the greatest one, and the
newest deletion and liveness. -/
structure LastWriteWins (written : List Row) (stored : Row) : Prop where
  cells : ∀ k, withKey cellKey k (written.flatMap Row.cells) ≠ [] →
    ∃ cell ∈ withKey cellKey k (written.flatMap Row.cells),
      withKey cellKey k stored.cells = [cell] ∧
        ∀ other ∈ withKey cellKey k (written.flatMap Row.cells), other.2 ≤ cell.2
  noOthers : ∀ cell ∈ stored.cells, cell ∈ written.flatMap Row.cells
  deletion : stored.deletion ∈ written.map Row.deletion ∧
    ∀ row ∈ written, row.deletion.markedForDeleteAt ≤ stored.deletion.markedForDeleteAt
  liveness : stored.primaryKeyLiveness ∈ written.map Row.primaryKeyLiveness ∧ ∀ row ∈ written,
      row.primaryKeyLiveness.timestamp ≤ stored.primaryKeyLiveness.timestamp

structure IsLastWriteWins (state : Written) : Prop where
  sorted : ∀ partition ∈ state.stored, StrictlySorted Row.clustering partition.rows
  absent : ∀ slot, state.slot slot = none → state.rows slot = []
  stored : ∀ slot, ∀ row ∈ state.slot slot, LastWriteWins (state.rows slot) row

structure Written.Folds (state : Written) : Prop where
  sorted : ∀ partition ∈ state.stored, StrictlySorted Row.clustering partition.rows
  folds : ∀ slot, state.slot slot = reduce mergeRows (state.rows slot)
  headSorted : ∀ slot, ∀ first ∈ (state.rows slot).head?, first.CellsSorted

theorem lastWriteWins_of_folds {written : List Row} {stored : Row}
    (folded : reduce mergeRows written = some stored)
    (headSorted : ∀ first ∈ written.head?, first.CellsSorted) : LastWriteWins written stored := by
  have sorted := reduce_mergeRows_cellsSorted headSorted folded
  have lookups := lookup_reduce_mergeRows headSorted folded
  have spec : ∀ {k : UInt16 ×ₗ WithBot Bytes} {cell : Cell},
      lookup cellKey k stored.cells = some cell →
        cell ∈ withKey cellKey k (written.flatMap Row.cells) ∧
          ∀ other ∈ withKey cellKey k (written.flatMap Row.cells), other.2 ≤ cell.2 := by
    intro k cell found
    rw [lookups] at found
    exact reduce_mergeCell_spec (fun other otherMem => (mem_withKey.mp otherMem).2) found
  refine ⟨?_, ?_, ?_, ?_⟩
  · intro k isWritten
    cases found : lookup cellKey k stored.cells with
    | none =>
      rw [lookups, reduce_eq_none_iff] at found
      exact absurd found isWritten
    | some cell =>
      refine ⟨cell, (spec found).1, ?_, (spec found).2⟩
      rw [StrictlySorted.withKey_eq sorted, found]
      rfl
  · intro cell cellMem
    exact (mem_withKey.mp (spec (StrictlySorted.lookup_of_mem sorted cellMem)).1).1
  · have isMax : stored.deletion ∈
        (written.map Row.deletion).argmax DeletionTime.markedForDeleteAt := by
      rw [← reduce_mergeRows_deletion, folded]
      rfl
    exact ⟨argmax_mem isMax, fun row rowMem => le_of_mem_argmax (mem_map_of_mem rowMem) isMax⟩
  · have isMax : stored.primaryKeyLiveness ∈
        (written.map Row.primaryKeyLiveness).argmax LivenessInfo.timestamp := by
      rw [← reduce_mergeRows_liveness, folded]
      rfl
    exact ⟨argmax_mem isMax, fun row rowMem => le_of_mem_argmax (mem_map_of_mem rowMem) isMax⟩

theorem Written.Folds.isLastWriteWins {state : Written} (folds : state.Folds) :
    IsLastWriteWins state := by
  refine ⟨folds.sorted, ?_, ?_⟩
  · intro slot isAbsent
    rw [folds.folds, reduce_eq_none_iff] at isAbsent
    exact isAbsent
  · intro slot row isStored
    rw [folds.folds] at isStored
    exact lastWriteWins_of_folds isStored (folds.headSorted slot)

theorem strictlySorted_of_nodup (nodup : ((sortByKey cellKey cells).map cellKey).Nodup) :
    StrictlySorted cellKey (sortByKey cellKey cells) := by
  have different := pairwise_map.mp nodup
  refine ((sortByKey_sorted cellKey cells).and different).imp ?_
  intro a b both
  exact lt_of_le_of_ne both.1 both.2

section Step

variable {schema : TableSchema} {nowSecs : Int32}

theorem normalize_sorted {existing new existing' new' : Row}
    (normalized : normalizeCollectionRowsForMerge schema nowSecs existing new =
      .ok (existing', new')) (sorted : existing.CellsSorted)
    (nodup : hasLegacyBlob existing new → (existing'.cells.map cellKey).Nodup) :
    existing'.CellsSorted := by
  rw [normalizeCollectionRowsForMerge] at normalized
  split at normalized
  · rename_i expands
    have different := nodup expands
    rcases exists_of_bind_eq_ok normalized with ⟨existingPlan, _, rest⟩
    rcases exists_of_bind_eq_ok rest with ⟨incomingPlan, _, isPair⟩
    cases isPair
    exact strictlySorted_of_nodup different
  · cases normalized
    exact sorted

theorem folds_record {stored stored' : Option Row} {rows : List Row} {new : Row}
    (folds : stored = reduce mergeRows rows) (headSorted : ∀ first ∈ rows.head?, first.CellsSorted)
    (storesSorted : Written.StoresSorted schema nowSecs stored new)
    (isMerge : mergedAt schema nowSecs stored (some new) = .ok stored') :
    stored' = reduce mergeRows (Written.record schema nowSecs stored rows new) ∧
      ∀ first ∈ (Written.record schema nowSecs stored rows new).head?, first.CellsSorted := by
  cases stored with
  | none =>
    have noRows : rows = [] := reduce_eq_none_iff.mp folds.symm
    cases isMerge
    subst noRows
    refine ⟨rfl, ?_⟩
    intro first isHead
    cases isHead
    exact storesSorted
  | some existing =>
    have sorted : existing.CellsSorted :=
      reduce_mergeRows_cellsSorted headSorted folds.symm
    cases normalized : normalizeCollectionRowsForMerge schema nowSecs existing new with
    | error reason =>
      rw [mergedAt, mergeIntoExistingRow, normalized] at isMerge
      cases isMerge
    | ok pair =>
      rcases pair with ⟨existing', new'⟩
      simp only [Written.StoresSorted, normalized] at storesSorted
      have sorted' := normalize_sorted normalized sorted storesSorted
      have merged : mergeIntoExistingRow schema nowSecs existing new =
          .ok (mergeRows existing' new') := by
        rw [mergeIntoExistingRow, normalized]
        exact congrArg Except.ok (Row.ext rfl (foldl_mergeCellInto sorted' _) rfl rfl)
      rw [mergedAt, merged] at isMerge
      cases isMerge
      simp only [Written.record, normalized]
      by_cases expands : hasLegacyBlob existing new
      · rw [if_pos expands]
        refine ⟨rfl, ?_⟩
        intro first isHead
        cases isHead
        exact sorted'
      · rw [normalizeCollectionRowsForMerge, if_neg expands] at normalized
        cases normalized
        rw [if_neg expands, reduce_concat, ← folds]
        refine ⟨rfl, ?_⟩
        intro first isHead
        cases rows with
        | nil => cases folds
        | cons head rest => exact headSorted first isHead

theorem slot_getD (stored : Option Partition) (key : DecoratedKey) (slot : Slot) :
    (stored.getD ⟨key, .live, none, []⟩).slot slot =
      stored.bind (fun partition => partition.slot slot) := by
  cases stored with
  | none => cases slot <;> rfl
  | some partition => rfl

theorem Written.Folds.step {key : DecoratedKey} {state state' : Written} (folds : state.Folds)
    (step : state.AcceptsSorted schema key state') : state'.Folds := by
  rcases step with ⟨nowSecs, row, isPut, storesSorted⟩
  rcases exists_of_bind_eq_ok isPut with ⟨partition, isAccepted, isState⟩
  rcases exists_of_bind_eq_ok isAccepted with ⟨_, _, isMerge⟩
  cases isState
  have sorted : StrictlySorted Row.clustering (state.stored.getD ⟨key, .live, none, []⟩).rows := by
    cases isStored : state.stored with
    | none => exact List.Pairwise.nil
    | some existing => exact folds.sorted existing isStored
  rcases mergeRowIntoPartition_slot sorted isMerge with ⟨sorted', merges⟩
  have slots : ∀ slot, partition.slot slot = reduce mergeRows
        (match (writesOf schema row).lookup slot with
          | none => state.rows slot
          | some new => Written.record schema nowSecs (state.slot slot) (state.rows slot) new) ∧
      ∀ first ∈ (match (writesOf schema row).lookup slot with
          | none => state.rows slot
          | some new => Written.record schema nowSecs (state.slot slot) (state.rows slot)
              new).head?, first.CellsSorted := by
    intro slot
    have merged := merges slot
    rw [slot_getD] at merged
    cases isWrite : (writesOf schema row).lookup slot with
    | none =>
      rw [isWrite, mergedAt] at merged
      rw [← Except.ok.inj merged]
      exact ⟨folds.folds slot, folds.headSorted slot⟩
    | some new =>
      rw [isWrite] at merged
      have writeMem : (slot, new) ∈ writesOf schema row := by
        rcases lookup_eq_some_iff.mp isWrite with ⟨before, after, isSplit, _⟩
        rw [isSplit]
        simp
      exact folds_record (folds.folds slot) (folds.headSorted slot) (storesSorted _ writeMem) merged
  refine ⟨?_, fun slot => (slots slot).1, fun slot => (slots slot).2⟩
  intro stored isStored
  cases isStored
  exact sorted'

end Step

def setSchema : TableSchema := ⟨[], [], [⟨"tags", .collection .set [.utf8]⟩]⟩

def setElement (element : UInt8) (timestamp : Int64) : Cell :=
  (0, ⟨some [], timestamp, 0, Int32.maxValue, some [element]⟩)

def setRow (cells : List Cell) : Row := ⟨[], cells, .live, .none⟩

end Ferrosa.Storage
