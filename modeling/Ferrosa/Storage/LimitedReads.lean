import Ferrosa.Storage.PointReads

/-!
# Limited reads as prefixes of the partition read

A limited read cuts every source to its first rows after the start before it merges
them.  A row of the result is right if the versions that the cuts leave merge to the
row that all versions merge to.  Only rows that deletions suppress can push a
version of an early row behind the cut.
-/

namespace Ferrosa.Storage

open KeyedFold List SSTable StoreView
open Option hiding filter_filter filter_map mem_map

def After (start : Option Bytes) (clustering : Bytes) : Bool :=
  start.all (fun start => start < clustering)

def rowsAfter (start : Option Bytes) (rows : List Row) : List Row :=
  rows.filter (fun row => After start row.clustering)

def cutSource (start : Option Bytes) (n : ℕ) (source : Partition) : Partition :=
  { source with rows := (rowsAfter start source.rows).take n }

/-- The distinct clusterings between the start and the given one that a read shows. -/
def visibleBetween (tableDelete : DeletionTime) (sources : List Partition) (start : Option Bytes)
    (clustering : Bytes) : List Bytes :=
  ((sources.flatMap Partition.rows).map Row.clustering).dedup.filter (fun other =>
    After start other && other < clustering && (visibleRow tableDelete sources other).isSome)

def VersionsSuffice (kept all : List Row) : Prop :=
  (reduce mergeRows kept).map Row.applyRowDeletion = (reduce mergeRows all).map Row.applyRowDeletion

/-- For the first `n` visible clusterings behind the start, the versions within the first `n`
rows of their sources suffice. -/
def EarlyRowsSuffice (tableDelete : DeletionTime) (sources : List Partition)
    (start : Option Bytes) (n : ℕ) : Prop :=
  ∀ clustering, After start clustering → (visibleRow tableDelete sources clustering).isSome →
    (visibleBetween tableDelete sources start clustering).length < n →
      VersionsSuffice (versionsAt clustering (sources.map (cutSource start n)))
        (versionsAt clustering sources)

section Cut

variable {tableDelete : DeletionTime} {sources : List Partition} {start : Option Bytes} {n : ℕ}

theorem survives_cutSource (row : Row) :
    Survives tableDelete (sources.map (cutSource start n)) row ↔
      Survives tableDelete sources row := by
  simp [Survives, cutSource]

variable {clustering : Bytes}

theorem mem_versionsAt_cutSource {version : Row}
    (present : version ∈ versionsAt clustering (sources.map (cutSource start n))) :
    version ∈ versionsAt clustering sources ∧ After start clustering := by
  rw [mem_versionsAt] at present
  rcases present with ⟨⟨cut, cutIn, inRows⟩, rfl⟩
  rcases mem_map.mp cutIn with ⟨source, sourceIn, rfl⟩
  have kept := mem_filter.mp (mem_of_mem_take inRows)
  exact ⟨mem_versionsAt.mpr ⟨⟨source, sourceIn, kept.1⟩, rfl⟩, kept.2⟩

theorem liveness_le_of_subset {some_ all : List Row} (subset : ∀ row ∈ some_, row ∈ all)
    {foldedSome foldedAll : Row} (foundSome : reduce mergeRows some_ = some foldedSome)
    (foundAll : reduce mergeRows all = some foldedAll) :
    foldedSome.primaryKeyLiveness.timestamp ≤ foldedAll.primaryKeyLiveness.timestamp := by
  by_contra above
  rw [not_le, reduce_mergeRows_liveness_lt_iff foundAll] at above
  have below := (reduce_mergeRows_liveness_lt_iff foundSome
    foldedSome.primaryKeyLiveness.timestamp).mpr (fun row present => above row (subset row present))
  exact lt_irrefl _ below

theorem visibleRow_of_cut {row : Row}
    (visible : visibleRow tableDelete (sources.map (cutSource start n)) clustering = some row) :
    After start clustering ∧ (visibleRow tableDelete sources clustering).isSome := by
  unfold visibleRow at visible ⊢
  rcases map_eq_some_iff.mp visible with ⟨folded, kept, _⟩
  rcases filter_eq_some_iff.mp kept with ⟨foundCut, survives⟩
  rw [decide_eq_true_eq, survives_cutSource] at survives
  have nonempty : versionsAt clustering (sources.map (cutSource start n)) ≠ [] := by
    intro empty
    rw [empty] at foundCut
    simp at foundCut
  rcases exists_mem_of_ne_nil _ nonempty with ⟨version, present⟩
  refine ⟨(mem_versionsAt_cutSource present).2, ?_⟩
  rcases exists_reduce_of_mem (mem_versionsAt_cutSource present).1 with ⟨all, foundAll⟩
  have below := liveness_le_of_subset (fun row inCut => (mem_versionsAt_cutSource inCut).1)
    foundCut foundAll
  have survivesAll : Survives tableDelete sources all :=
    ⟨survives.1.trans below, fun source present => (survives.2 source present).trans below⟩
  simp [foundAll, filter_some, survivesAll]

theorem versionsSuffice_iff {row : Row}
    (visible : visibleRow tableDelete sources clustering = some row) :
    VersionsSuffice (versionsAt clustering (sources.map (cutSource start n)))
        (versionsAt clustering sources) ↔
      visibleRow tableDelete (sources.map (cutSource start n)) clustering = some row := by
  unfold visibleRow at visible ⊢
  unfold VersionsSuffice
  rcases map_eq_some_iff.mp visible with ⟨folded, kept, rfl⟩
  rcases filter_eq_some_iff.mp kept with ⟨found, survives⟩
  rw [found, map_some]
  simp only [survives_cutSource]
  cases foundCut : reduce mergeRows (versionsAt clustering (sources.map (cutSource start n))) with
  | none => simp
  | some foldedCut =>
    rw [decide_eq_true_eq] at survives
    simp only [map_some, Option.some.injEq, filter_some, decide_eq_true_eq]
    constructor
    · intro same
      have sameLiveness : foldedCut.primaryKeyLiveness = folded.primaryKeyLiveness := by
        simpa using congrArg Row.primaryKeyLiveness same
      have survivesCut : Survives tableDelete sources foldedCut := by
        simpa [Survives, sameLiveness] using survives
      rw [if_pos survivesCut, map_some, same]
    · intro shown
      split_ifs at shown
      · exact Option.some.inj shown
      · simp at shown

theorem withKey_cutSource (after : After start clustering)
    {source : Partition} (few : source.rows.length ≤ n) :
    withKey Row.clustering clustering (cutSource start n source).rows =
      withKey Row.clustering clustering source.rows := by
  have whole : (rowsAfter start source.rows).take n = rowsAfter start source.rows :=
    take_of_length_le ((length_filter_le _ _).trans few)
  change withKey Row.clustering clustering ((rowsAfter start source.rows).take n) = _
  rw [whole, rowsAfter, withKey, withKey, filter_filter]
  apply filter_congr
  intro row _
  by_cases same : row.clustering = clustering
  · simp [same, after]
  · simp [same]

theorem versionsAt_cutSource (after : After start clustering)
    (few : ∀ source ∈ sources, source.rows.length ≤ n) :
    versionsAt clustering (sources.map (cutSource start n)) = versionsAt clustering sources := by
  induction sources with
  | nil => rfl
  | cons source rest ih =>
    rw [map_cons, versionsAt_cons, versionsAt_cons,
      withKey_cutSource after (few source mem_cons_self),
      ih (fun other present => few other (mem_cons_of_mem _ present))]

theorem earlyRowsSuffice_of_length_le (few : ∀ source ∈ sources, source.rows.length ≤ n) :
    EarlyRowsSuffice tableDelete sources start n := by
  intro clustering after _ _
  rw [versionsAt_cutSource after few]
  rfl

end Cut

namespace ReadRows

variable {tableDelete : DeletionTime} {sources : List Partition} {rows : List Row}

theorem mem_iff (read : ReadRows tableDelete sources rows) {row : Row} :
    row ∈ rows ↔ visibleRow tableDelete sources row.clustering = some row := by
  rw [← read.rowAt, read.sorted.lookup_eq_some_iff]
  simp

theorem clustering_eq (read : ReadRows tableDelete sources rows) {clustering : Bytes} {row : Row}
    (visible : visibleRow tableDelete sources clustering = some row) :
    row.clustering = clustering := by
  rw [← read.rowAt] at visible
  exact (mem_of_lookup visible).2

theorem length_between (read : ReadRows tableDelete sources rows) (start : Option Bytes)
    (clustering : Bytes) {below : Row → Bool}
    (isBelow : ∀ row, below row ↔ row.clustering < clustering) :
    ((rowsAfter start rows).filter below).length =
      (visibleBetween tableDelete sources start clustering).length := by
  have perm : (((rowsAfter start rows).filter below).map Row.clustering).Perm
      (visibleBetween tableDelete sources start clustering) := by
    rw [perm_ext_iff_of_nodup]
    · intro other
      simp only [mem_map, mem_filter, rowsAfter, visibleBetween, mem_dedup,
        Bool.and_eq_true, decide_eq_true_eq, isBelow]
      constructor
      · rintro ⟨row, ⟨⟨inRows, after⟩, below⟩, rfl⟩
        have visible := read.mem_iff.mp inRows
        refine ⟨?_, ⟨after, below⟩, by rw [visible]; rfl⟩
        rcases map_eq_some_iff.mp visible with ⟨folded, kept, _⟩
        rcases filter_eq_some_iff.mp kept with ⟨found, _⟩
        have nonempty : versionsAt row.clustering sources ≠ [] := by
          intro empty
          rw [empty] at found
          simp at found
        rcases exists_mem_of_ne_nil _ nonempty with ⟨version, present⟩
        exact ⟨version, mem_withKey.mp present⟩
      · rintro ⟨_, ⟨after, below⟩, visible⟩
        rcases isSome_iff_exists.mp visible with ⟨row, shown⟩
        have same := read.clustering_eq shown
        rw [← same] at shown after below
        exact ⟨row, ⟨⟨read.mem_iff.mpr shown, after⟩, below⟩, same⟩
    · apply pairwise_map.mpr
      exact ((read.sorted.filter _).filter _).distinct
    · exact (nodup_dedup _).filter _
  simpa using perm.length_eq

/-- A read of cut sources starts with the first rows behind the start exactly when the early rows
suffice. -/
theorem take_eq_iff (full : ReadRows tableDelete sources rows) {start : Option Bytes} {n : ℕ}
    {limited : List Row} (cut : ReadRows tableDelete (sources.map (cutSource start n)) limited) :
    limited.take n = (rowsAfter start rows).take n ↔
      EarlyRowsSuffice tableDelete sources start n := by
  have sortedAfter : StrictlySorted Row.clustering (rowsAfter start rows) := full.sorted.filter _
  have covered : ∀ row ∈ limited, ∃ other ∈ rowsAfter start rows,
      other.clustering = row.clustering := by
    intro row present
    rcases visibleRow_of_cut (cut.mem_iff.mp present) with ⟨after, visible⟩
    rcases isSome_iff_exists.mp visible with ⟨other, shown⟩
    have same := full.clustering_eq shown
    rw [← same] at shown after
    exact ⟨other, mem_filter.mpr ⟨full.mem_iff.mpr shown, after⟩, same⟩
  rw [sortedAfter.take_eq_take_iff cut.sorted covered]
  have isEarly : ∀ row, row ∈ (rowsAfter start rows).take n ↔ row ∈ rowsAfter start rows ∧
      (visibleBetween tableDelete sources start row.clustering).length < n := by
    intro row
    rw [sortedAfter.mem_take_iff, full.length_between start row.clustering]
    simp
  simp only [isEarly]
  constructor
  · intro contained clustering after visible early
    rcases isSome_iff_exists.mp visible with ⟨row, shown⟩
    have same := full.clustering_eq shown
    subst same
    rw [versionsSuffice_iff shown]
    exact cut.mem_iff.mp (contained row ⟨mem_filter.mpr ⟨full.mem_iff.mpr shown, after⟩, early⟩)
  · rintro suffice_ row ⟨inRows, early⟩
    rcases mem_filter.mp inRows with ⟨present, after⟩
    have shown := full.mem_iff.mp present
    have visible : (visibleRow tableDelete sources row.clustering).isSome := by
      rw [shown]
      rfl
    exact cut.mem_iff.mpr ((versionsSuffice_iff shown).mp
      (suffice_ row.clustering after visible early))

end ReadRows

namespace StoreView

variable (token : Bytes → Int64) (view : StoreView) (key : DecoratedKey)

theorem remapPartition_cutSource (mapping : ColumnOrdinalMapping) (start : Option Bytes) (n : ℕ)
    (source : Partition) :
    mapping.remapPartition (cutSource start n source) =
      cutSource start n (mapping.remapPartition source) := by
  have sameTest : (fun row => After start row.clustering) ∘ mapping.remapRegularRow =
      fun row => After start row.clustering := by
    funext row
    simp
  simp [ColumnOrdinalMapping.remapPartition, cutSource, rowsAfter, map_take, filter_map, sameTest]

variable {n : ℕ}

theorem getPartitionLimitedRows_eq (positive : 0 < n) (sstable : SSTable) :
    sstable.getPartitionLimitedRows key n = (sstable.get key).map (cutSource none n) := by
  have all : (fun row : Row => After none row.clustering) = fun _ => true := rfl
  rw [getPartitionLimitedRows, probe_eq]
  congr 1
  funext partition
  rw [if_pos positive, @collectRows_eq _ n [] positive, cutSource, rowsAfter, all]
  rfl

theorem getPartitionLimitedRowsFrom_eq (positive : 0 < n) (start : Bytes) (sstable : SSTable) :
    sstable.getPartitionLimitedRowsFrom key start n =
      (sstable.get key).map (cutSource (some start) n) := by
  rw [getPartitionLimitedRowsFrom, probe_eq]
  congr 1
  funext partition
  rw [@collectRows_eq _ n [] positive]
  rfl

theorem readSources_limited (positive : 0 < n) (start : Option Bytes) :
    view.readSources key n start = (view.readSources key 0 none).map (cutSource start n) := by
  have cloned : ∀ partition,
      clonePartitionLimited partition start n = cutSource start n partition := by
    intro partition
    rw [clonePartitionLimited, if_neg positive.ne']
    rfl
  have remapped : ∀ sstable : SSTable,
      ((sstable.get key).map (cutSource start n)).map (view.mappingOf sstable).remapPartition =
        ((sstable.get key).map (view.mappingOf sstable).remapPartition).map
          (cutSource start n) := by
    intro sstable
    cases sstable.get key with
    | none => rfl
    | some partition =>
      exact congrArg some (remapPartition_cutSource (view.mappingOf sstable) start n partition)
  rw [readSources_zero, readSources, map_append, map_filterMap, map_filterMap]
  cases start with
  | none => simp only [cloned, getPartitionLimitedRows_eq key positive, remapped]
  | some start => simp only [cloned, getPartitionLimitedRowsFrom_eq key positive, remapped]

theorem readRows_read : ReadRows (view.tableDeletion token) (view.readSources key 0 none)
      (rowsOf (view.read token key)) :=
  readRows_merge (view.tableDeletion token) (fun _ => view.sorted_of_mem_readSources key)

theorem rowsOf_readWithView (positive : 0 < n) (start : Option Bytes) :
    rowsOf (view.readWithView token key n start) =
      (rowsOf ((mergePartitions ((view.readSources key 0 none).map (cutSource start n))).map
        (applyTableDeletion (view.tableDeletion token)))).take n := by
  rw [readWithView, readSources_limited view key positive]
  cases mergePartitions ((view.readSources key 0 none).map (cutSource start n)) with
  | none => simp [rowsOf]
  | some merged =>
    simp only [positive, if_true, map_some, rowsOf, elim_some, applyTableDeletion,
      applyDeletions_applyDeletions_rows]

/-- The rows of a limited read are the first rows of the partition read behind the start. -/
def LimitedIsPrefix (start : Option Bytes) (n : ℕ) : Prop :=
  rowsOf (view.readWithView token key n start) =
    (rowsAfter start (rowsOf (view.read token key))).take n

theorem limitedIsPrefix_iff (positive : 0 < n) (start : Option Bytes) :
    view.LimitedIsPrefix token key start n ↔
      EarlyRowsSuffice (view.tableDeletion token) (view.readSources key 0 none) start n := by
  rw [LimitedIsPrefix, rowsOf_readWithView token view key positive]
  apply (view.readRows_read token key).take_eq_iff
  apply readRows_merge
  intro source present
  rcases mem_map.mp present with ⟨whole, inView, rfl⟩
  exact ((view.sorted_of_mem_readSources key inView).filter _).sublist (take_sublist _ _)

end StoreView

def recordVisit (visited : List Partition) (single : Partition) : List Partition × Bool :=
  (visited ++ [single], false)

theorem visitAll_recordVisit (visited singles : List Partition) :
    visitAll recordVisit visited singles = (visited ++ singles, false) := by
  induction singles generalizing visited with
  | nil => simp [visitAll]
  | cons single rest ih => simp [visitAll, recordVisit, ih]

variable {start : Option Bytes}

theorem after_of_lt {clustering later : Bytes}
    (after : After start clustering) (below : clustering < later) : After start later := by
  cases start with
  | none => rfl
  | some start =>
    simp only [After, all_some, decide_eq_true_eq] at after ⊢
    exact after.trans below

theorem rowsAfter_getLast {rows : List Row} (sorted : StrictlySorted Row.clustering rows) {n : ℕ}
    {last : Row} (isLast : ((rowsAfter start rows).take n).getLast? = some last) :
    rowsAfter (some last.clustering) rows = (rowsAfter start rows).drop n := by
  have sortedAfter : StrictlySorted Row.clustering (rowsAfter start rows) := sorted.filter _
  have lastIn : last ∈ (rowsAfter start rows).take n := mem_of_getLast? isLast
  have afterLast : After start last.clustering :=
    (mem_filter.mp (mem_of_mem_take lastIn)).2
  have narrowed : rowsAfter (some last.clustering) rows =
      rowsAfter (some last.clustering) (rowsAfter start rows) := by
    simp only [rowsAfter, filter_filter]
    apply filter_congr
    intro row _
    by_cases above : last.clustering < row.clustering
    · have behindLast : After (some last.clustering) row.clustering := by simpa [After] using above
      rw [behindLast, after_of_lt afterLast above]
      rfl
    · simp [After, above]
  rw [narrowed]
  rw [← take_append_drop n (rowsAfter start rows)] at sortedAfter
  rcases pairwise_append.mp sortedAfter with ⟨sortedTake, _, below⟩
  rw [← dropLast_append_getLast? last isLast] at sortedTake below
  conv_lhs => rw [← take_append_drop n (rowsAfter start rows),
    ← dropLast_append_getLast? last isLast]
  rw [rowsAfter, filter_append, filter_append]
  have dropped : ((rowsAfter start rows).take n).dropLast.filter
      (fun row => After (some last.clustering) row.clustering) = [] := by
    rw [filter_eq_nil_iff]
    intro row present
    have lower := (pairwise_append.mp sortedTake).2.2 row present last (by simp)
    simpa [After] using lower.le
  have kept : ((rowsAfter start rows).drop n).filter
      (fun row => After (some last.clustering) row.clustering) = (rowsAfter start rows).drop n := by
    rw [filter_eq_self]
    intro row present
    simpa [After] using below last (by simp) row present
  rw [dropped, kept]
  simp [After]

namespace StoreView

variable (token : Bytes → Int64) (view : StoreView) (key : DecoratedKey)

/-- The stream of a partition shows every row of the partition read behind its start. -/
def StreamVisitsAll (start : Option Bytes) (n : ℕ) : Prop :=
  ∃ fuel visited,
    view.streamPartitionRows token recordVisit key n fuel start [] = some (visited, false) ∧
      visited.flatMap Partition.rows = rowsAfter start (rowsOf (view.read token key))

variable {token view key}

def singles (chunk : Partition) : List Partition :=
  chunk.rows.map (fun row => { chunk with rows := [row] })

theorem flatMap_rows_singles (chunk : Partition) :
    (singles chunk).flatMap Partition.rows = chunk.rows := by
  simp [singles, flatMap_map]

section Chunk

variable {n fuel : ℕ} {start : Option Bytes} {visited : List Partition} {chunk : Partition}
  (found : view.readWithView token key n start = some chunk)
  (notStatic : ¬(chunk.rows.isEmpty && start.isNone && chunk.staticRow.isSome))

include found notStatic

theorem stream_short (short : chunk.rows.length < n) :
    view.streamPartitionRows token recordVisit key n (fuel + 1) start visited =
      some (visited ++ singles chunk, false) := by
  have isShort : decide (chunk.rows.length ≥ n) = false := decide_eq_false (not_le.mpr short)
  rw [streamPartitionRows]
  simp only [found, notStatic, Bool.false_eq_true, if_false, visitAll_recordVisit, isShort]
  rfl

theorem stream_full (full : n ≤ chunk.rows.length) {last : Row}
    (isLast : chunk.rows.getLast? = some last) :
    view.streamPartitionRows token recordVisit key n (fuel + 1) start visited =
      view.streamPartitionRows token recordVisit key n fuel (some last.clustering)
        (visited ++ singles chunk) := by
  rw [streamPartitionRows]
  simp only [found, notStatic, Bool.false_eq_true, if_false, visitAll_recordVisit,
    decide_eq_true full, isLast]
  rfl

end Chunk

theorem exists_stream {n : ℕ} (positive : 0 < n)
    (limited : ∀ start, view.LimitedIsPrefix token key start n) (start : Option Bytes)
    (visited : List Partition) :
    ∃ fuel shown, view.streamPartitionRows token recordVisit key n fuel start visited =
          some (visited ++ shown, false) ∧
        shown.flatMap Partition.rows = rowsAfter start (rowsOf (view.read token key)) := by
  induction remaining : (rowsAfter start (rowsOf (view.read token key))).length
    using Nat.strongRecOn generalizing start visited with
  | _ size ih =>
    have firstRows := limited start
    unfold LimitedIsPrefix at firstRows
    cases found : view.readWithView token key n start with
    | none =>
      have empty : rowsAfter start (rowsOf (view.read token key)) = [] := by
        rw [found] at firstRows
        simpa [rowsOf, positive.ne'] using firstRows.symm
      refine ⟨1, [], ?_, by simp [empty]⟩
      simp [streamPartitionRows, found]
    | some chunk =>
      rw [found] at firstRows
      change chunk.rows = _ at firstRows
      by_cases staticOnly : chunk.rows.isEmpty && start.isNone && chunk.staticRow.isSome
      · have noRows : chunk.rows = [] := by
          simp only [Bool.and_eq_true, List.isEmpty_iff] at staticOnly
          exact staticOnly.1.1
        have empty : rowsAfter start (rowsOf (view.read token key)) = [] := by
          rw [noRows] at firstRows
          simpa [positive.ne'] using firstRows.symm
        refine ⟨1, [chunk], ?_, by simp [noRows, empty]⟩
        rw [streamPartitionRows]
        simp only [found, staticOnly, if_true, recordVisit]
      · rcases lt_or_ge chunk.rows.length n with short | full
        · refine ⟨1, singles chunk, stream_short found staticOnly short, ?_⟩
          rw [flatMap_rows_singles, firstRows, List.take_eq_self_iff]
          rw [firstRows, List.length_take] at short
          omega
        · have nonempty : chunk.rows ≠ [] := List.ne_nil_of_length_pos (by omega)
          have isLast := List.getLast?_eq_some_getLast nonempty
          have next : rowsAfter (some (chunk.rows.getLast nonempty).clustering)
              (rowsOf (view.read token key)) =
                (rowsAfter start (rowsOf (view.read token key))).drop n := by
            apply rowsAfter_getLast (view.readRows_read token key).sorted
            rw [← firstRows]
            exact isLast
          have smaller : (rowsAfter (some (chunk.rows.getLast nonempty).clustering)
              (rowsOf (view.read token key))).length < size := by
            rw [firstRows, List.length_take] at full
            rw [next, List.length_drop, ← remaining]
            omega
          rcases ih _ smaller _ (visited ++ singles chunk) rfl with ⟨fuel, shown, runs, rows⟩
          refine ⟨fuel + 1, singles chunk ++ shown, ?_, ?_⟩
          · rw [stream_full found staticOnly full isLast, runs, List.append_assoc]
          · rw [List.flatMap_append, flatMap_rows_singles, rows, next, firstRows,
              List.take_append_drop]

end StoreView

theorem keysSorted_inserted : StrictlySorted Partition.key
    [⟨⟨0, [1]⟩, .live, none, [⟨[1], [], .live, .withTimestamp 5⟩]⟩] := by decide

theorem rowsSorted_inserted : ∀ partition ∈ [(⟨⟨0, [1]⟩, .live, none,
    [⟨[1], [], .live, .withTimestamp 5⟩]⟩ : Partition)],
      StrictlySorted Row.clustering partition.rows := by decide

def insertedView : StoreView where
  schema := ⟨[], [], []⟩
  active := ⟨[⟨⟨0, [1]⟩, .live, none, [⟨[1], [], .live, .withTimestamp 5⟩]⟩],
    keysSorted_inserted, rowsSorted_inserted⟩
  flushing := []
  sstables := []

def deletedFirstRowView : StoreView where
  schema := ⟨[], [], []⟩
  active := ⟨[⟨⟨0, [1]⟩, ⟨10, 0⟩, none, [⟨[1], [], .live, .withTimestamp 5⟩,
    ⟨[2], [], .live, .withTimestamp 20⟩]⟩], by decide, by decide⟩
  flushing := []
  sstables := []

end Ferrosa.Storage
