import Ferrosa.Storage.Merge

/-!
# A merged partition, piece by piece

What `mergePartitions` returns is determined by its deletion, its static row and,
for every clustering, by the versions the sources have of that row.  Two merges
are compared by these pieces.
-/

namespace Ferrosa.Storage

open KeyedFold DeletionTime CellValue
open List hiding lookup_nil

def survivingRow (deleteAt : Int64) (versions : List Row) : Option Row :=
  ((reduce mergeRows versions).filter
    (fun row => deleteAt ≤ row.primaryKeyLiveness.timestamp)).map Row.applyRowDeletion

def survivingStatic (deletion : DeletionTime) (versions : List Row) : Option Row :=
  ((reduce mergeRows versions).map (Row.retainCells deletion.markedForDeleteAt)).filter
    (fun row => deletion.isLive || !row.cells.isEmpty)

variable {sources : List Partition} {clustering : Bytes}

theorem mem_versionsAt {version : Row} : version ∈ versionsAt clustering sources ↔
      (∃ source ∈ sources, version ∈ source.rows) ∧ version.clustering = clustering := by
  simp [versionsAt]

theorem versionsAt_eq_flatMap (clustering : Bytes) (sources : List Partition) :
    versionsAt clustering sources =
      sources.flatMap fun source => withKey Row.clustering clustering source.rows :=
  filter_flatMap

theorem versionsAt_cons (clustering : Bytes) (source : Partition) (sources : List Partition) :
    versionsAt clustering (source :: sources) =
      withKey Row.clustering clustering source.rows ++ versionsAt clustering sources := by
  simp [versionsAt]

@[simp] theorem versionsAt_nil (clustering : Bytes) : versionsAt clustering [] = [] := rfl

structure MergedView (sources : List Partition) (merged : Partition) : Prop where
  key : sources.head?.map Partition.key = some merged.key
  deletion : (sources.map Partition.deletion).argmax DeletionTime.markedForDeleteAt =
    some merged.deletion
  staticRow : merged.staticRow =
    survivingStatic merged.deletion (sources.filterMap Partition.staticRow)
  sorted : StrictlySorted Row.clustering merged.rows
  rowAt : ∀ clustering, lookup Row.clustering clustering merged.rows =
    survivingRow merged.deletion.markedForDeleteAt (versionsAt clustering sources)

theorem newestDeletion_le_iff {newest : DeletionTime}
    (isNewest : (sources.map Partition.deletion).argmax markedForDeleteAt =
      some newest) (timestamp : Int64) :
    newest.markedForDeleteAt ≤ timestamp ↔
      ∀ source ∈ sources, source.deletion.markedForDeleteAt ≤ timestamp := by
  constructor
  · intro notOlder source present
    exact (le_of_mem_argmax (mem_map_of_mem present) isNewest).trans notOlder
  · intro notOlder
    rcases mem_map.mp (argmax_mem isNewest) with ⟨source, present, same⟩
    rw [← same]
    exact notOlder source present

theorem MergedFrom.mergedView {raw : Partition}
    (from_ : MergedFrom sources raw) : MergedView sources (applyDeletions raw) where
  key := by simpa using from_.key
  deletion := by simpa using from_.deletion
  staticRow := by
    rw [applyDeletions_staticRow_eq_filter, from_.staticRow, applyDeletions_deletion]
    rfl
  sorted := by
    rw [applyDeletions_rows]
    exact (from_.rowsSorted.filter _).map Row.applyRowDeletion_clustering
  rowAt := by
    intro clustering
    rw [applyDeletions_rows, lookup_map Row.applyRowDeletion_clustering,
      from_.rowsSorted.lookup_filter, from_.lookup_rows, applyDeletions_deletion]
    rfl

theorem exists_mergedView (nonempty : sources ≠ [])
    (sorted : ∀ source ∈ sources, StrictlySorted Row.clustering source.rows) :
    ∃ merged, mergePartitions sources = some merged ∧ MergedView sources merged := by
  rcases exists_mergedFrom nonempty sorted with ⟨raw, isMerge, from_⟩
  refine ⟨applyDeletions raw, ?_, from_.mergedView⟩
  rw [mergePartitions_eq_map, isMerge]
  rfl

theorem exists_mergedView_of_two (first second : Partition) (rest : List Partition) :
    ∃ merged, mergePartitions (first :: second :: rest) = some merged ∧
      MergedView (first :: second :: rest) merged := by
  rcases foldl_absorbSource first (second :: rest) with ⟨keyEq, deletionEq, staticEq, rowsEq⟩
  refine ⟨_, rfl, MergedFrom.mergedView ⟨?_, deletionEq, staticEq, ?_⟩⟩
  · simp only [head?_cons, Option.map_some]
    exact congrArg some keyEq.symm
  · exact congrArg sortAndFoldRows rowsEq

theorem MergedView.eq_iff {sources' : List Partition} {merged merged' : Partition}
    (view : MergedView sources merged) (view' : MergedView sources' merged')
    (sameKey : merged.key = merged'.key) :
    merged = merged' ↔ merged.deletion = merged'.deletion ∧ merged.staticRow = merged'.staticRow ∧
        ∀ clustering, survivingRow merged.deletion.markedForDeleteAt
            (versionsAt clustering sources) =
          survivingRow merged'.deletion.markedForDeleteAt (versionsAt clustering sources') := by
  constructor
  · rintro rfl
    refine ⟨rfl, rfl, ?_⟩
    intro clustering
    rw [← view.rowAt, ← view'.rowAt]
  · rintro ⟨deletion, staticRow, rowAt⟩
    refine Partition.ext sameKey deletion staticRow
      (view.sorted.ext_lookup view'.sorted fun clustering => ?_)
    rw [view.rowAt, view'.rowAt]
    exact rowAt clustering

@[mk_iff]
structure NoTie (a b : Row) : Prop where
  deletion : a.deletion.markedForDeleteAt = b.deletion.markedForDeleteAt → a.deletion = b.deletion
  liveness : a.primaryKeyLiveness.timestamp = b.primaryKeyLiveness.timestamp →
    a.primaryKeyLiveness = b.primaryKeyLiveness

instance (a b : Row) : Decidable (NoTie a b) := decidable_of_iff' _ (noTie_iff a b)

theorem newer_comm_iff {α : Type} {rank : α → Int64} {a b : α} :
    newer rank b a = newer rank a b ↔ (rank a = rank b → a = b) := by
  unfold newer
  rcases lt_trichotomy (rank a) (rank b) with below | same | above
  · simp [below, below.asymm, below.ne]
  · simp [same, eq_comm]
  · simp [above, above.asymm, above.ne']

theorem mergeCell_comm {a b : Cell} (same : cellKey a = cellKey b) :
    mergeCell a b = mergeCell b a := by
  apply Prod.ext
  · simpa using (cellKey_eq_iff.mp same).1
  · rw [mergeCell_snd, mergeCell_snd, max_comm]

section SortedCells

variable {a b : List Cell} (sortedA : StrictlySorted cellKey a) (sortedB : StrictlySorted cellKey b)

include sortedA sortedB

theorem mergeCells_comm : mergeCells a b = mergeCells b a := by
  apply (mergeCells_sorted a b).ext_lookup (mergeCells_sorted b a)
  intro k
  rw [lookup_mergeCells_of_sorted sortedA sortedB, lookup_mergeCells_of_sorted sortedB sortedA]
  cases foundA : lookup cellKey k a with
  | none => cases lookup cellKey k b <;> rfl
  | some cellA =>
    cases foundB : lookup cellKey k b with
    | none => rfl
    | some cellB =>
      have same : cellKey cellA = cellKey cellB := by
        rw [(mem_of_lookup foundA).2, (mem_of_lookup foundB).2]
      exact congrArg some (mergeCell_comm same)

theorem mergeCells_eq_left
    (loses : ∀ cell ∈ b, ∃ own ∈ a, cellKey own = cellKey cell ∧ cell.2 ≤ own.2) :
    mergeCells a b = a := by
  apply (mergeCells_sorted a b).ext_lookup sortedA
  intro k
  rw [lookup_mergeCells_of_sorted sortedA sortedB]
  cases foundB : lookup cellKey k b with
  | none => cases lookup cellKey k a <;> rfl
  | some cell =>
    rcases mem_of_lookup foundB with ⟨present, atKey⟩
    rcases loses cell present with ⟨own, ownMem, sameKey, below⟩
    have foundA : lookup cellKey k a = some own :=
      sortedA.lookup_eq_some_iff.mpr ⟨ownMem, sameKey.trans atKey⟩
    rw [foundA]
    apply congrArg some
    apply Prod.ext
    · simp
    · rw [mergeCell_snd, max_eq_left below]

end SortedCells

theorem mergeCells_eq_nil_iff {a b : List Cell} : mergeCells a b = [] ↔ a = [] ∧ b = [] := by
  constructor
  · intro empty
    rw [← append_eq_nil_iff, eq_nil_iff_forall_not_mem]
    intro cell present
    have found := lookup_mergeCells (cellKey cell) a b
    rw [empty, lookup_nil, eq_comm, reduce_eq_none_iff, eq_nil_iff_forall_not_mem] at found
    exact found cell (mem_withKey.mpr ⟨present, rfl⟩)
  · rintro ⟨rfl, rfl⟩
    rfl

section SortedRows

variable {a b : Row} (sortedA : a.CellsSorted) (sortedB : b.CellsSorted)

theorem mergeRows_self (sorted : a.CellsSorted) : mergeRows a a = a := by
  refine Row.ext rfl ?_ ?_ ?_
  · exact mergeCells_eq_left sorted sorted fun cell present => ⟨cell, present, rfl, le_refl _⟩
  · simp [mergeRows]
  · simp [mergeRows]

include sortedA sortedB

theorem mergeRows_comm_iff : mergeRows b a = mergeRows a b ↔
    a.clustering = b.clustering ∧ NoTie a b := by
  constructor
  · intro same
    refine ⟨(congrArg Row.clustering same).symm, ?_, ?_⟩
    · exact newer_comm_iff.mp (congrArg Row.deletion same)
    · exact newer_comm_iff.mp (congrArg Row.primaryKeyLiveness same)
  · rintro ⟨sameClustering, noTie⟩
    refine Row.ext sameClustering.symm ?_ ?_ ?_
    · exact mergeCells_comm sortedB sortedA
    · exact newer_comm_iff.mpr noTie.deletion
    · exact newer_comm_iff.mpr noTie.liveness

theorem mergeRows_eq_left (deletion : b.deletion.markedForDeleteAt ≤ a.deletion.markedForDeleteAt)
    (liveness : b.primaryKeyLiveness.timestamp ≤ a.primaryKeyLiveness.timestamp)
    (loses : ∀ cell ∈ b.cells, ∃ own ∈ a.cells, cellKey own = cellKey cell ∧ cell.2 ≤ own.2) :
    mergeRows a b = a := by
  refine Row.ext rfl ?_ ?_ ?_
  · exact mergeCells_eq_left sortedA sortedB loses
  · simp [mergeRows, not_lt.mpr deletion]
  · simp [mergeRows, not_lt.mpr liveness]

end SortedRows

theorem le_reduce_mergeRows_deletion {rows : List Row} {folded row : Row}
    (found : reduce mergeRows rows = some folded) (rowMem : row ∈ rows) :
    row.deletion.markedForDeleteAt ≤ folded.deletion.markedForDeleteAt := by
  have isMax : folded.deletion ∈ (rows.map Row.deletion).argmax markedForDeleteAt := by
    rw [← reduce_mergeRows_deletion, found]
    rfl
  exact le_of_mem_argmax (mem_map_of_mem rowMem) isMax

theorem reduce_mergeRows_deletion_mem {rows : List Row} {folded : Row}
    (found : reduce mergeRows rows = some folded) :
    ∃ row ∈ rows, row.deletion = folded.deletion := by
  have isMax : folded.deletion ∈ (rows.map Row.deletion).argmax markedForDeleteAt := by
    rw [← reduce_mergeRows_deletion, found]
    rfl
  exact mem_map.mp (argmax_mem isMax)

theorem cellsSorted_of_mem_versionsAt (sorted : ∀ source ∈ sources, source.Sorted) :
    ∀ version ∈ versionsAt clustering sources, version.CellsSorted := by
  intro version versionMem
  rcases mem_flatMap.mp (mem_withKey.mp versionMem).1 with ⟨source, sourceMem, inRows⟩
  exact (sorted source sourceMem).cells version inRows

theorem cellsSorted_of_mem_staticRows (sorted : ∀ source ∈ sources, source.Sorted) :
    ∀ version ∈ sources.filterMap Partition.staticRow, version.CellsSorted := by
  intro version versionMem
  rcases mem_filterMap.mp versionMem with ⟨source, sourceMem, isStatic⟩
  exact (sorted source sourceMem).static version isStatic

theorem cells_eq_of_dominate {xs ys : List Cell} (sortedX : StrictlySorted cellKey xs)
    (sortedY : StrictlySorted cellKey ys)
    (below : ∀ x ∈ xs, ∃ y ∈ ys, cellKey y = cellKey x ∧ x.2 ≤ y.2)
    (above : ∀ y ∈ ys, ∃ x ∈ xs, cellKey x = cellKey y ∧ y.2 ≤ x.2) : xs = ys := by
  have subset : ∀ {us vs : List Cell}, StrictlySorted cellKey us →
      (∀ x ∈ us, ∃ y ∈ vs, cellKey y = cellKey x ∧ x.2 ≤ y.2) →
      (∀ y ∈ vs, ∃ x ∈ us, cellKey x = cellKey y ∧ y.2 ≤ x.2) → ∀ x ∈ us, x ∈ vs := by
    intro us vs sorted up down x xMem
    rcases up x xMem with ⟨y, yMem, yKey, isBelow⟩
    rcases down y yMem with ⟨z, zMem, zKey, isAbove⟩
    have same : z = x := sorted.eq_of_key_eq zMem xMem (zKey.trans yKey)
    rw [same] at isAbove
    rwa [← Prod.ext (cellKey_eq_iff.mp yKey).1 (le_antisymm isAbove isBelow)]
  exact sortedX.ext_mem sortedY fun x =>
    ⟨subset sortedX below above x, subset sortedY above below x⟩

/-- Two folds hold the same cells above a bound exactly when every such cell loses against one of
the smaller fold's. -/
theorem retainCells_cells_eq_iff {some_ all : List Row}
    (subset : ∀ row ∈ some_, row ∈ all) (sorted : ∀ row ∈ all, row.CellsSorted)
    {foldedSome foldedAll : Row} (foundSome : reduce mergeRows some_ = some foldedSome)
    (foundAll : reduce mergeRows all = some foldedAll) (bound : Int64) :
    (foldedSome.retainCells bound).cells = (foldedAll.retainCells bound).cells ↔
      ∀ row ∈ all, ∀ cell ∈ row.cells, cell.2.timestamp < bound ∨
        ∃ other ∈ some_, ∃ kept ∈ other.cells, cellKey kept = cellKey cell ∧ cell.2 ≤ kept.2 := by
  have sortedSome : ∀ row ∈ some_, row.CellsSorted := fun row mem => sorted row (subset row mem)
  have cellsSome := reduce_mergeRows_cellsSorted (head_cellsSorted sortedSome) foundSome
  have cellsAll := reduce_mergeRows_cellsSorted (head_cellsSorted sorted) foundAll
  have memRetain : ∀ (row : Row) (cell : Cell),
      cell ∈ (row.retainCells bound).cells ↔ cell ∈ row.cells ∧ bound ≤ cell.2.timestamp := by
    intro row cell
    simp [Row.retainCells]
  constructor
  · intro sameCells row rowMem cell cellMem
    rcases lt_or_ge cell.2.timestamp bound with older | notOlder
    · exact Or.inl older
    · right
      rcases exists_le_of_mem_reduce_mergeRows sorted foundAll rowMem cellMem with
        ⟨winner, winnerMem, winnerKey, winnerLe⟩
      have retained : winner ∈ (foldedAll.retainCells bound).cells :=
        (memRetain _ _).mpr ⟨winnerMem, notOlder.trans (timestamp_le_of_le winnerLe)⟩
      rw [← sameCells, memRetain] at retained
      rcases mem_of_mem_reduce_mergeRows sortedSome foundSome retained.1 with
        ⟨other, otherMem, inOther⟩
      exact ⟨other, otherMem, winner, inOther, winnerKey, winnerLe⟩
  · intro dominated
    apply cells_eq_of_dominate (StrictlySorted.filter cellsSome _)
      (StrictlySorted.filter cellsAll _)
    · intro cell retained
      rcases (memRetain _ _).mp retained with ⟨cellMem, notOlder⟩
      rcases mem_of_mem_reduce_mergeRows sortedSome foundSome cellMem with
        ⟨row, rowMem, inRow⟩
      rcases exists_le_of_mem_reduce_mergeRows sorted foundAll (subset row rowMem) inRow with
        ⟨winner, winnerMem, winnerKey, winnerLe⟩
      exact ⟨winner, (memRetain _ _).mpr ⟨winnerMem,
        notOlder.trans (timestamp_le_of_le winnerLe)⟩, winnerKey, winnerLe⟩
    · intro cell retained
      rcases (memRetain _ _).mp retained with ⟨cellMem, notOlder⟩
      rcases mem_of_mem_reduce_mergeRows sorted foundAll cellMem with ⟨row, rowMem, inRow⟩
      rcases dominated row rowMem cell inRow with older | keptBy
      · exact absurd notOlder (not_le.mpr older)
      · rcases keptBy with ⟨other, otherMem, kept, keptMem, keptKey, keptLe⟩
        rcases exists_le_of_mem_reduce_mergeRows sortedSome foundSome otherMem keptMem with
          ⟨top, topMem, topKey, topLe⟩
        have cellLe := keptLe.trans topLe
        exact ⟨top, (memRetain _ _).mpr ⟨topMem,
          notOlder.trans (timestamp_le_of_le cellLe)⟩, topKey.trans keptKey, cellLe⟩

end Ferrosa.Storage
