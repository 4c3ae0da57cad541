import Ferrosa.Storage.Types

/-!
# Read-path merge

Partition versions of one key, taken from memtables and SSTables, are merged
into one: the newest deletion wins, rows with one clustering are folded cell by
cell, and deletion suppression runs last.  `mergeProjectionMetadata` is the merge
without suppression.
-/

namespace Ferrosa.Storage

open KeyedFold List DeletionTime StrictlySorted CellValue
open Option hiding filter_filter mem_map

/-- Fold of two cells with one column and path: the later one replaces the earlier one only
if it supersedes it. -/
def mergeCell (earlier later : Cell) : Cell :=
  if later.2.supersedes earlier.2 then (earlier.1, later.2) else earlier

def mergeCells (a b : List Cell) : List Cell := sortFold cellKey mergeCell (a ++ b)

/-- Merge two rows with one clustering: the newest deletion and liveness, cells by last write.
The first row wins ties. -/
def mergeRows (a b : Row) : Row where
  clustering := a.clustering
  deletion :=
    if b.deletion.markedForDeleteAt > a.deletion.markedForDeleteAt then b.deletion
    else a.deletion
  primaryKeyLiveness :=
    if b.primaryKeyLiveness.timestamp > a.primaryKeyLiveness.timestamp then b.primaryKeyLiveness
    else a.primaryKeyLiveness
  cells := mergeCells a.cells b.cells

def sortAndFoldRows (rows : List Row) : List Row := sortFold Row.clustering mergeRows rows

def Row.applyRowDeletion (row : Row) : Row :=
  if row.deletion.isLive then row
  else { row with
    cells := row.cells.filter (fun cell => row.deletion.markedForDeleteAt ≤ cell.2.timestamp) }

/-- A partition deletion removes the older cells of the static row, and the static row with
its last cell. -/
def Row.applyPartitionDeletion (deleteAt : Int64) (staticRow : Row) : Option Row :=
  let cells := staticRow.cells.filter (fun cell => deleteAt ≤ cell.2.timestamp)
  if cells.isEmpty then none else some { staticRow with cells }

def applyDeletions (partition : Partition) : Partition :=
  let deleteAt := partition.deletion.markedForDeleteAt
  let suppressed :=
    if partition.deletion.isLive then partition
    else { partition with
      rows := partition.rows.filter (fun row => deleteAt ≤ row.primaryKeyLiveness.timestamp)
      staticRow := partition.staticRow.bind (Row.applyPartitionDeletion deleteAt) }
  { suppressed with rows := suppressed.rows.map Row.applyRowDeletion }

def mergeStaticRows : Option Row → Option Row → Option Row
  | none, none => none
  | some a, none => some a
  | none, some b => some b
  | some a, some b => some (mergeRows a b)

/-- One iteration of the source loop: the accumulators of `merge_partition_metadata`. -/
def absorbSource (result source : Partition) : Partition where
  key := result.key
  deletion :=
    if source.deletion.markedForDeleteAt > result.deletion.markedForDeleteAt then source.deletion
    else result.deletion
  staticRow := mergeStaticRows result.staticRow source.staticRow
  rows := result.rows ++ source.rows

/-- Merge the versions of one partition; `none` is the assertion failure on an empty list. -/
def mergePartitionMetadata (sources : List Partition) (suppressDeletions : Bool) :
    Option Partition :=
  match sources with
  | [] => none
  | [only] => some (if suppressDeletions then applyDeletions only else only)
  | first :: rest =>
    let accumulated := rest.foldl absorbSource first
    let result := { accumulated with rows := sortAndFoldRows accumulated.rows }
    some (if suppressDeletions then applyDeletions result else result)

def mergePartitions (sources : List Partition) : Option Partition :=
  mergePartitionMetadata sources true

def mergeProjectionMetadata (sources : List Partition) : Option Partition :=
  mergePartitionMetadata sources false

theorem mergeCell_snd (earlier later : Cell) :
    (mergeCell earlier later).2 = max earlier.2 later.2 := by
  simp only [mergeCell, supersedes_iff]
  split <;> rename_i above
  · exact (max_eq_right above.le).symm
  · exact (max_eq_left (not_lt.mp above)).symm

@[simp] theorem mergeCell_fst (earlier later : Cell) : (mergeCell earlier later).1 = earlier.1 := by
  unfold mergeCell
  split <;> rfl

theorem cellKey_mergeCell (a b : Cell) (same : cellKey b = cellKey a) :
    cellKey (mergeCell a b) = cellKey a := by
  unfold mergeCell
  split
  · rw [cellKey_eq_iff] at same ⊢
    exact ⟨rfl, same.2⟩
  · rfl

instance mergeCell_associative : Std.Associative mergeCell where
  assoc a b c := Prod.ext (by simp) (by simp [mergeCell_snd, max_assoc])

theorem mergeCells_sorted (a b : List Cell) : StrictlySorted cellKey (mergeCells a b) :=
  sortFold_sorted cellKey_mergeCell _

theorem lookup_mergeCells (k : UInt16 ×ₗ WithBot Bytes) (a b : List Cell) :
    lookup cellKey k (mergeCells a b) = reduce mergeCell (withKey cellKey k (a ++ b)) :=
  lookup_sortFold cellKey_mergeCell k _

instance mergeCells_associative : Std.Associative mergeCells where
  assoc a b c := by
    refine (mergeCells_sorted _ _).ext_lookup (mergeCells_sorted _ _) fun k => ?_
    rw [lookup_mergeCells, lookup_mergeCells, withKey_append, withKey_append, reduce_append,
      reduce_append, mergeCells, mergeCells, reduce_withKey_sortFold cellKey_mergeCell,
      reduce_withKey_sortFold cellKey_mergeCell, withKey_append, withKey_append, reduce_append,
      reduce_append]
    exact (Option.associative_merge mergeCell).assoc _ _ _

theorem lookup_mergeCells_of_sorted {a b : List Cell} (sortedA : StrictlySorted cellKey a)
    (sortedB : StrictlySorted cellKey b) (k : UInt16 ×ₗ WithBot Bytes) :
    lookup cellKey k (mergeCells a b) =
      Option.merge mergeCell (lookup cellKey k a) (lookup cellKey k b) := by
  rw [lookup_mergeCells, withKey_append, reduce_append, sortedA.withKey_eq, sortedB.withKey_eq]
  cases lookup cellKey k a <;> cases lookup cellKey k b <;> rfl

theorem mergeRows_deletion (a b : Row) :
    (mergeRows a b).deletion = newer markedForDeleteAt a.deletion b.deletion := rfl

theorem mergeRows_liveness (a b : Row) : (mergeRows a b).primaryKeyLiveness =
      newer LivenessInfo.timestamp a.primaryKeyLiveness b.primaryKeyLiveness := rfl

@[simp] theorem mergeRows_cells (a b : Row) :
    (mergeRows a b).cells = mergeCells a.cells b.cells := rfl

@[simp] theorem mergeRows_clustering (a b : Row) : (mergeRows a b).clustering = a.clustering := rfl

instance mergeRows_associative : Std.Associative mergeRows where
  assoc a b c := by
    refine Row.ext rfl ?_ ?_ ?_
    · exact mergeCells_associative.assoc _ _ _
    · exact (newer_associative DeletionTime.markedForDeleteAt).assoc _ _ _
    · exact (newer_associative LivenessInfo.timestamp).assoc _ _ _

variable {rows : List Row} {folded : Row} {row : Row} {sources : List Partition}

theorem exists_reduce_of_mem (rowMem : row ∈ rows) :
    ∃ folded, reduce mergeRows rows = some folded := by
  cases found : reduce mergeRows rows with
  | none => exact absurd (reduce_eq_none_iff.mp found ▸ rowMem) not_mem_nil
  | some folded => exact ⟨folded, rfl⟩

theorem reduce_mergeRows_clustering (rows : List Row) :
    (reduce mergeRows rows).map Row.clustering = rows.head?.map Row.clustering := by
  induction rows using List.reverseRecOn with
  | nil => rfl
  | append_singleton init last ih =>
    rw [reduce_concat]
    cases init with
    | nil => rfl
    | cons first rest =>
      simp only [reduce, map_some, head?_cons] at ih ⊢
      simpa using ih

theorem clustering_of_reduce {rows : List Row} {folded : Row} {clustering : Bytes}
    (same : ∀ row ∈ rows, row.clustering = clustering)
    (found : reduce mergeRows rows = some folded) : folded.clustering = clustering := by
  have keeps : ∀ a b : Row, a.clustering = clustering → b.clustering = clustering →
      (mergeRows a b).clustering = clustering := fun _ _ sameA _ => sameA
  exact reduce_induction keeps same found

theorem reduce_mergeRows_deletion (rows : List Row) : (reduce mergeRows rows).map Row.deletion =
      (rows.map Row.deletion).argmax markedForDeleteAt := by
  rw [map_reduce mergeRows_deletion, reduce_newer_eq_argmax]

theorem reduce_mergeRows_liveness (rows : List Row) :
    (reduce mergeRows rows).map Row.primaryKeyLiveness =
      (rows.map Row.primaryKeyLiveness).argmax LivenessInfo.timestamp := by
  rw [map_reduce mergeRows_liveness, reduce_newer_eq_argmax]

theorem head_cellsSorted (sorted : ∀ row ∈ rows, row.CellsSorted) :
    ∀ first ∈ rows.head?, first.CellsSorted :=
  fun first isHead => sorted first (mem_of_mem_head? isHead)

theorem reduce_mergeRows_cellsSorted (headSorted : ∀ first ∈ rows.head?, first.CellsSorted)
    (found : reduce mergeRows rows = some folded) : folded.CellsSorted := by
  refine reduce_rec (motive := fun rows folded =>
    (∀ first ∈ rows.head?, first.CellsSorted) → folded.CellsSorted) ?_ ?_ found headSorted
  · intro row headSorted
    exact headSorted row rfl
  · intro init last initFolded _ _ _
    exact mergeCells_sorted initFolded.cells last.cells

theorem lookup_reduce_mergeRows (headSorted : ∀ first ∈ rows.head?, first.CellsSorted)
    (found : reduce mergeRows rows = some folded) (k : UInt16 ×ₗ WithBot Bytes) :
    lookup cellKey k folded.cells =
      reduce mergeCell (withKey cellKey k (rows.flatMap Row.cells)) := by
  have lookupFold : ∀ row : Row, row.CellsSorted →
      reduce mergeCell (withKey cellKey k row.cells) = lookup cellKey k row.cells := by
    intro row sorted
    rw [withKey_eq sorted]
    cases lookup cellKey k row.cells <;> rfl
  refine reduce_rec (motive := fun rows folded => (∀ first ∈ rows.head?, first.CellsSorted) →
    lookup cellKey k folded.cells =
      reduce mergeCell (withKey cellKey k (rows.flatMap Row.cells))) ?_ ?_ found headSorted
  · intro row headSorted
    rw [flatMap_singleton, lookupFold row (headSorted row rfl)]
  · intro init last initFolded initFold ih headSorted
    have initHead : ∀ first ∈ init.head?, first.CellsSorted := by
      intro first isHead
      apply headSorted first
      rw [head?_append, mem_def.mp isHead]
      rfl
    rw [flatMap_append, withKey_append, reduce_append, flatMap_singleton,
      mergeRows_cells, lookup_mergeCells, withKey_append, reduce_append, ← ih initHead,
      lookupFold initFolded (reduce_mergeRows_cellsSorted initHead initFold)]

theorem reduce_mergeCell_spec {k : UInt16 ×ₗ WithBot Bytes} {cells : List Cell}
    (sameKey : ∀ cell ∈ cells, cellKey cell = k) {folded : Cell}
    (found : reduce mergeCell cells = some folded) :
    folded ∈ cells ∧ ∀ cell ∈ cells, cell.2 ≤ folded.2 := by
  refine reduce_rec (motive := fun cells folded => (∀ cell ∈ cells, cellKey cell = k) →
    folded ∈ cells ∧ ∀ cell ∈ cells, cell.2 ≤ folded.2) ?_ ?_ found sameKey
  · simp
  · intro init last initFolded _ ih sameKey
    rw [forall_mem_append, forall_mem_singleton] at sameKey
    rcases ih sameKey.1 with ⟨initMem, initMax⟩
    have sameColumn : initFolded.1 = last.1 :=
      (cellKey_eq_iff.mp ((sameKey.1 _ initMem).trans sameKey.2.symm)).1
    refine ⟨?_, ?_⟩
    · unfold mergeCell
      split
      · rw [sameColumn]
        simp
      · exact mem_append_left _ initMem
    · rw [forall_mem_append, forall_mem_singleton, mergeCell_snd]
      exact ⟨fun cell mem => le_max_of_le_left (initMax cell mem), le_max_right _ _⟩

theorem mem_of_mem_reduce_mergeRows (sorted : ∀ row ∈ rows, row.CellsSorted)
    (found : reduce mergeRows rows = some folded) {cell : Cell}
    (cellMem : cell ∈ folded.cells) : ∃ row ∈ rows, cell ∈ row.cells := by
  have atKey := lookup_reduce_mergeRows (head_cellsSorted sorted) found (cellKey cell)
  rw [lookup_of_mem (reduce_mergeRows_cellsSorted (head_cellsSorted sorted) found) cellMem] at atKey
  have spec := reduce_mergeCell_spec (fun other mem => (mem_withKey.mp mem).2) atKey.symm
  exact mem_flatMap.mp (mem_withKey.mp spec.1).1

theorem exists_le_of_mem_reduce_mergeRows (sorted : ∀ row ∈ rows, row.CellsSorted)
    (found : reduce mergeRows rows = some folded) (rowMem : row ∈ rows) {cell : Cell}
    (cellMem : cell ∈ row.cells) :
    ∃ winner ∈ folded.cells, cellKey winner = cellKey cell ∧ cell.2 ≤ winner.2 := by
  have atKey := lookup_reduce_mergeRows (head_cellsSorted sorted) found (cellKey cell)
  have inVersions : cell ∈ withKey cellKey (cellKey cell) (rows.flatMap Row.cells) :=
    mem_withKey.mpr ⟨mem_flatMap.mpr ⟨row, rowMem, cellMem⟩, rfl⟩
  cases winnerFound : lookup cellKey (cellKey cell) folded.cells with
  | none =>
    rw [winnerFound] at atKey
    rw [reduce_eq_none_iff.mp atKey.symm] at inVersions
    exact absurd inVersions not_mem_nil
  | some winner =>
    rw [winnerFound] at atKey
    have spec := reduce_mergeCell_spec (fun other mem => (mem_withKey.mp mem).2) atKey.symm
    rcases mem_of_lookup winnerFound with ⟨winnerMem, winnerKey⟩
    exact ⟨winner, winnerMem, winnerKey, spec.2 cell inVersions⟩

def Row.retainCells (bound : Int64) (row : Row) : Row :=
  { row with cells := row.cells.filter (fun cell => bound ≤ cell.2.timestamp) }

theorem Row.retainCells_of_le {bound : Int64}
    (notOlder : ∀ cell ∈ row.cells, bound ≤ cell.2.timestamp) : row.retainCells bound = row := by
  have keepsAll : row.cells.filter (fun cell => bound ≤ cell.2.timestamp) = row.cells := by
    rw [filter_eq_self]
    intro cell cellMem
    exact decide_eq_true (notOlder cell cellMem)
  rw [Row.retainCells, keepsAll]

theorem Row.retainCells_retainCells {lower bound : Int64} (below : lower ≤ bound) (row : Row) :
    (row.retainCells lower).retainCells bound = row.retainCells bound := by
  have absorbed : (row.cells.filter (fun cell => lower ≤ cell.2.timestamp)).filter
      (fun cell => bound ≤ cell.2.timestamp) =
        row.cells.filter (fun cell => bound ≤ cell.2.timestamp) := by
    rw [filter_filter]
    refine filter_congr fun cell _ => ?_
    by_cases notOlder : bound ≤ cell.2.timestamp
    · simp [notOlder, below.trans notOlder]
    · simp [notOlder]
  simp only [Row.retainCells, absorbed]

theorem filter_mergeCell (bound : Int64) (a b : Cell) (same : cellKey b = cellKey a) :
    (some (mergeCell a b)).filter (fun cell => bound ≤ cell.2.timestamp) =
      Option.merge mergeCell ((some a).filter (fun cell => bound ≤ cell.2.timestamp))
        ((some b).filter (fun cell => bound ≤ cell.2.timestamp)) := by
  have sameColumn : (a.1, b.2) = b := Prod.ext (cellKey_eq_iff.mp same).1.symm rfl
  by_cases wins : b.2.supersedes a.2
  · have order := timestamp_le_of_le ((supersedes_iff _ _).mp wins).le
    have merged : mergeCell a b = b := by
      rw [mergeCell, if_pos wins, sameColumn]
    by_cases keepsA : bound ≤ a.2.timestamp
    · simp [filter_some, merged, keepsA, keepsA.trans order]
    · by_cases keepsB : bound ≤ b.2.timestamp <;>
        simp [filter_some, merged, keepsA, keepsB]
  · have order := timestamp_le_of_le
      (not_lt.mp (fun above => wins ((supersedes_iff _ _).mpr above)))
    have merged : mergeCell a b = a := by
      rw [mergeCell, if_neg wins]
    by_cases keepsB : bound ≤ b.2.timestamp
    · simp [filter_some, merged, keepsB, keepsB.trans order]
    · by_cases keepsA : bound ≤ a.2.timestamp <;>
        simp [filter_some, merged, keepsA, keepsB]

theorem Row.retainCells_mergeRows (bound : Int64) (a b : Row) : (mergeRows a b).retainCells bound =
      mergeRows (a.retainCells bound) (b.retainCells bound) := by
  refine Row.ext rfl ?_ rfl rfl
  change (mergeCells a.cells b.cells).filter _ = mergeCells _ _
  rw [mergeCells, filter_sortFold cellKey_mergeCell (filter_mergeCell bound), filter_append]
  rfl

theorem Row.applyRowDeletion_eq (row : Row) :
    row.applyRowDeletion = row.retainCells row.deletion.markedForDeleteAt := by
  unfold Row.applyRowDeletion
  split
  · rename_i isLive
    exact (Row.retainCells_of_le (fun cell _ => le_of_isLive isLive _)).symm
  · rfl

@[simp] theorem Row.applyRowDeletion_clustering (row : Row) :
    row.applyRowDeletion.clustering = row.clustering := by
  rw [Row.applyRowDeletion_eq, Row.retainCells]

@[simp] theorem Row.applyRowDeletion_deletion (row : Row) :
    row.applyRowDeletion.deletion = row.deletion := by
  rw [Row.applyRowDeletion_eq, Row.retainCells]

@[simp] theorem Row.applyRowDeletion_liveness (row : Row) :
    row.applyRowDeletion.primaryKeyLiveness = row.primaryKeyLiveness := by
  rw [Row.applyRowDeletion_eq, Row.retainCells]

theorem Row.applyRowDeletion_cells (row : Row) : row.applyRowDeletion.cells = row.cells.filter
      (fun cell => row.deletion.markedForDeleteAt ≤ cell.2.timestamp) := by
  rw [Row.applyRowDeletion_eq, Row.retainCells]

section

variable (partition : Partition)

include partition

@[simp] theorem applyDeletions_key : (applyDeletions partition).key = partition.key := by
  unfold applyDeletions
  split <;> rfl

@[simp] theorem applyDeletions_deletion :
    (applyDeletions partition).deletion = partition.deletion := by
  unfold applyDeletions
  split <;> rfl

theorem applyDeletions_rows : (applyDeletions partition).rows = (partition.rows.filter (fun row =>
        partition.deletion.markedForDeleteAt ≤ row.primaryKeyLiveness.timestamp)).map
        Row.applyRowDeletion := by
  unfold applyDeletions
  split
  · rename_i isLive
    have keepsAll : partition.rows.filter (fun row =>
        partition.deletion.markedForDeleteAt ≤ row.primaryKeyLiveness.timestamp) =
          partition.rows := by
      rw [filter_eq_self]
      intro row _
      exact decide_eq_true (le_of_isLive isLive _)
    rw [keepsAll]
  · rfl

theorem applyDeletions_staticRow : (applyDeletions partition).staticRow =
      if partition.deletion.isLive then partition.staticRow
      else partition.staticRow.bind
        (Row.applyPartitionDeletion partition.deletion.markedForDeleteAt) := by
  unfold applyDeletions
  split <;> rfl

/-- Suppression leaves of the static row the cells that are not older than the partition
deletion, and drops it with its last cell. -/
theorem applyDeletions_staticRow_eq_filter : (applyDeletions partition).staticRow =
      (partition.staticRow.map (Row.retainCells partition.deletion.markedForDeleteAt)).filter
        (fun row => partition.deletion.isLive || !row.cells.isEmpty) := by
  rw [applyDeletions_staticRow]
  cases partition.staticRow with
  | none => simp
  | some row =>
    by_cases isLive : partition.deletion.isLive
    · rw [map_some, Row.retainCells_of_le (fun cell _ => le_of_isLive isLive _)]
      simp [filter_some, isLive]
    · simp only [isLive, bind_some, map_some, filter_some,
        Row.applyPartitionDeletion, Row.retainCells]
      by_cases empty : (row.cells.filter (fun cell =>
          partition.deletion.markedForDeleteAt ≤ cell.2.timestamp)).isEmpty <;>
        simp [empty]

end

theorem applyDeletions_sorted {partition : Partition} (sorted : partition.Sorted) :
    (applyDeletions partition).Sorted := by
  constructor
  · rw [applyDeletions_rows]
    exact (sorted.rows.filter _).map Row.applyRowDeletion_clustering
  · intro row rowMem
    rw [applyDeletions_rows, mem_map] at rowMem
    rcases rowMem with ⟨source, sourceMem, rfl⟩
    rw [Row.CellsSorted, Row.applyRowDeletion_cells]
    exact filter (sorted.cells source (mem_filter.mp sourceMem).1) _
  · intro row rowMem
    rw [applyDeletions_staticRow] at rowMem
    split at rowMem
    · exact sorted.static row rowMem
    · rcases mem_bind_iff.mp rowMem with ⟨source, sourceMem, suppressed⟩
      simp only [Row.applyPartitionDeletion] at suppressed
      split at suppressed
      · simp at suppressed
      · simp only [mem_def, Option.some.injEq] at suppressed
        subst suppressed
        exact filter (sorted.static source sourceMem) _

/-- `merged` is the merge of `sources` before suppression, component by component. -/
structure MergedFrom (sources : List Partition) (merged : Partition) : Prop where
  key : sources.head?.map Partition.key = some merged.key
  deletion : (sources.map Partition.deletion).argmax DeletionTime.markedForDeleteAt =
    some merged.deletion
  staticRow : merged.staticRow = reduce mergeRows (sources.filterMap Partition.staticRow)
  rows : merged.rows = sortAndFoldRows (sources.flatMap Partition.rows)

theorem clustering_mergeRows (a b : Row) (_ : b.clustering = a.clustering) :
    (mergeRows a b).clustering = a.clustering := rfl

theorem mergeStaticRows_eq_merge (a b : Option Row) :
    mergeStaticRows a b = Option.merge mergeRows a b := by
  cases a <;> cases b <;> rfl

theorem foldl_absorbSource (first : Partition) (rest : List Partition) :
    (rest.foldl absorbSource first).key = first.key ∧
      ((first :: rest).map Partition.deletion).argmax markedForDeleteAt =
        some (rest.foldl absorbSource first).deletion ∧
      (rest.foldl absorbSource first).staticRow =
        reduce mergeRows ((first :: rest).filterMap Partition.staticRow) ∧
      (rest.foldl absorbSource first).rows = (first :: rest).flatMap Partition.rows := by
  induction rest using List.reverseRecOn with
  | nil =>
    refine ⟨rfl, rfl, ?_, by simp⟩
    cases isStatic : first.staticRow <;> simp [isStatic]
  | append_singleton init last ih =>
    rcases ih with ⟨keyEq, deletionEq, staticEq, rowsEq⟩
    rw [foldl_append, foldl_cons, foldl_nil, ← cons_append]
    refine ⟨keyEq, ?_, ?_, ?_⟩
    · rw [map_append, map_singleton, argmax_concat, deletionEq]
      simp only [absorbSource]
      split <;> rfl
    · rw [filterMap_append, reduce_append, ← staticEq]
      simp only [absorbSource, mergeStaticRows_eq_merge]
      cases isStatic : last.staticRow <;> simp [isStatic]
    · rw [flatMap_append, ← rowsEq, flatMap_singleton]
      rfl

theorem mergePartitions_eq_map (sources : List Partition) :
    mergePartitions sources = (mergeProjectionMetadata sources).map applyDeletions := by
  match sources with
  | [] => rfl
  | [_] => rfl
  | _ :: _ :: _ => rfl

theorem exists_mergedFrom (nonempty : sources ≠ [])
    (sorted : ∀ source ∈ sources, StrictlySorted Row.clustering source.rows) :
    ∃ merged, mergeProjectionMetadata sources = some merged ∧ MergedFrom sources merged := by
  match sources, nonempty with
  | [only], _ =>
    refine ⟨only, rfl, ⟨rfl, rfl, ?_, ?_⟩⟩
    · cases isStatic : only.staticRow <;> simp [isStatic]
    · rw [flatMap_singleton, sortAndFoldRows]
      exact (sortFold_of_sorted clustering_mergeRows (sorted only (by simp))).symm
  | first :: second :: rest, _ =>
    rcases foldl_absorbSource first (second :: rest) with
      ⟨keyEq, deletionEq, staticEq, rowsEq⟩
    refine ⟨_, rfl, ⟨?_, deletionEq, staticEq, ?_⟩⟩
    · simp only [head?_cons, map_some]
      exact congrArg some keyEq.symm
    · exact congrArg sortAndFoldRows rowsEq

namespace MergedFrom

variable {sources : List Partition} {merged : Partition}

section

variable (from_ : MergedFrom sources merged)

include from_

theorem lookup_rows (clustering : Bytes) : lookup Row.clustering clustering merged.rows =
      reduce mergeRows (withKey Row.clustering clustering (sources.flatMap Partition.rows)) := by
  rw [from_.rows]
  exact lookup_sortFold clustering_mergeRows _ _

theorem rowsSorted : StrictlySorted Row.clustering merged.rows := by
  rw [from_.rows]
  exact sortFold_sorted clustering_mergeRows _

theorem sorted (sourcesSorted : ∀ source ∈ sources, source.Sorted) : merged.Sorted := by
  have rowsSorted := from_.rowsSorted
  constructor
  · exact rowsSorted
  · intro row rowMem
    have found := from_.lookup_rows row.clustering
    rw [rowsSorted.lookup_of_mem rowMem] at found
    refine reduce_mergeRows_cellsSorted (head_cellsSorted ?_) found.symm
    intro version versionMem
    rcases mem_flatMap.mp (mem_withKey.mp versionMem).1 with ⟨source, sourceMem, inRows⟩
    exact (sourcesSorted source sourceMem).cells version inRows
  · intro row isStatic
    rw [from_.staticRow] at isStatic
    refine reduce_mergeRows_cellsSorted (head_cellsSorted ?_) isStatic
    intro version versionMem
    rcases mem_filterMap.mp versionMem with ⟨source, sourceMem, isVersion⟩
    exact (sourcesSorted source sourceMem).static version isVersion

end

end MergedFrom

def versionsAt (clustering : Bytes) (sources : List Partition) : List Row :=
  withKey Row.clustering clustering (sources.flatMap Partition.rows)

/-- Some partition deletion of the sources is newer than every liveness they have for the
clustering. -/
def DiscardsRow (clustering : Bytes) (sources : List Partition) : Prop :=
  ∃ source ∈ sources, ∀ version ∈ versionsAt clustering sources,
    version.primaryKeyLiveness.timestamp < source.deletion.markedForDeleteAt
  deriving Decidable

theorem le_reduce_mergeRows_liveness (found : reduce mergeRows rows = some folded) : (∀ row ∈ rows,
      row.primaryKeyLiveness.timestamp ≤ folded.primaryKeyLiveness.timestamp) ∧
      ∃ row ∈ rows, row.primaryKeyLiveness = folded.primaryKeyLiveness := by
  have isMax : folded.primaryKeyLiveness ∈
      (rows.map Row.primaryKeyLiveness).argmax LivenessInfo.timestamp := by
    rw [← reduce_mergeRows_liveness, found]
    rfl
  constructor
  · intro row rowMem
    exact le_of_mem_argmax (mem_map_of_mem rowMem) isMax
  · exact mem_map.mp (argmax_mem isMax)

theorem reduce_mergeRows_liveness_lt_iff (found : reduce mergeRows rows = some folded)
    (bound : Int64) :
    folded.primaryKeyLiveness.timestamp < bound ↔
      ∀ row ∈ rows, row.primaryKeyLiveness.timestamp < bound := by
  rcases le_reduce_mergeRows_liveness found with ⟨isMax, row, rowMem, sameLiveness⟩
  constructor
  · intro below row rowMem
    exact (isMax row rowMem).trans_lt below
  · intro below
    rw [← sameLiveness]
    exact below row rowMem

theorem discardsRow_iff_lt {newest : DeletionTime}
    (isNewest : (sources.map Partition.deletion).argmax markedForDeleteAt =
      some newest) {clustering : Bytes} :
    DiscardsRow clustering sources ↔ ∀ version ∈ versionsAt clustering sources,
      version.primaryKeyLiveness.timestamp < newest.markedForDeleteAt := by
  constructor
  · rintro ⟨source, sourceMem, allOlder⟩ version versionMem
    have below := le_of_mem_argmax (mem_map_of_mem sourceMem) isNewest
    exact (allOlder version versionMem).trans_le below
  · intro allOlder
    rcases mem_map.mp (argmax_mem isNewest) with ⟨source, sourceMem, rfl⟩
    exact ⟨source, sourceMem, allOlder⟩

theorem MergedFrom.discardsRow_iff {merged : Partition} (from_ : MergedFrom sources merged)
    {clustering : Bytes} (found : reduce mergeRows (versionsAt clustering sources) = some folded) :
    folded.primaryKeyLiveness.timestamp < merged.deletion.markedForDeleteAt ↔
      DiscardsRow clustering sources := by
  rw [reduce_mergeRows_liveness_lt_iff found, discardsRow_iff_lt from_.deletion]

end Ferrosa.Storage
