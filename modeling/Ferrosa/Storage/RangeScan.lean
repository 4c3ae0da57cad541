import Ferrosa.Storage.FragmentStream

/-!
# Scanning a range

Between two partitions the heap of a merger holds exactly the next key of every
source.  From such a state `nextMergedPartition` and `beginActivePartition` select
the same key and the same versions of it, and both paths reach the same state
once that key is done.  A whole scan therefore visits the keys of the range in
order, and each path yields its own rendering of the versions of every key.
-/

namespace Ferrosa.Storage

open KeyedFold Runs List MergeSource HeapEntry Function
open Option hiding map_map mem_map or_assoc

namespace RangeMerger

def nextKey (sources : List MergeSource) (src : Nat) : Option DecoratedKey :=
  sources[src]?.bind MergeSource.peekKey

/-- The heap holds the next key of each source that is `live`, and nothing else. -/
structure HeapFor (sources : List MergeSource) (live : Nat → Prop) (heap : Heap) : Prop where
  sorted : StrictlySorted HeapEntry.rank heap
  mem_iff : ∀ entry, entry ∈ heap ↔ live entry.src ∧ nextKey sources entry.src = some entry.key

def trim (start : Option DecoratedKey) (source : MergeSource) : MergeSource :=
  { source with partitions := source.partitions.dropWhile (fun partition =>
      start.any (fun start => partition.key < start)) }

theorem rank_eq_iff {a b : HeapEntry} : a.rank = b.rank ↔ a = b := by
  rcases a with ⟨keyA, srcA⟩
  rcases b with ⟨keyB, srcB⟩
  simp [rank]

theorem key_le_of_rank_lt {a b : HeapEntry} (ranked : a.rank < b.rank) : a.key ≤ b.key := by
  have rankedLe := ranked.le
  rw [rank, rank, Prod.Lex.toLex_le_toLex'] at rankedLe
  exact rankedLe.1

variable {heap : Heap} {sources : List MergeSource} {live : Nat → Prop} {key : DecoratedKey}
  {merger : RangeMerger} {source : MergeSource} {top : HeapEntry}

theorem HeapFor.congr {others : List MergeSource} {alive : Nat → Prop}
    (heapFor : HeapFor sources live heap)
    (same : ∀ entry : HeapEntry, live entry.src ∧ nextKey sources entry.src = some entry.key ↔
      alive entry.src ∧ nextKey others entry.src = some entry.key) :
    HeapFor others alive heap :=
  ⟨heapFor.sorted, fun entry => (heapFor.mem_iff entry).trans (same entry)⟩

variable {src : Nat} {start : Option DecoratedKey} {rest : Heap} {other : DecoratedKey}

theorem HeapFor.push (heapFor : HeapFor sources live heap) (fresh : ¬live src)
    (next : nextKey sources src = some key) :
    HeapFor sources (fun i => live i ∨ i = src) (heap.push ⟨key, src⟩) := by
  constructor
  · apply heapFor.sorted.orderedInsert
    intro entry entryMem sameRank
    rw [rank_eq_iff] at sameRank
    rw [heapFor.mem_iff, sameRank] at entryMem
    exact fresh entryMem.1
  · intro entry
    rw [Heap.push, mem_orderedInsert, heapFor.mem_iff]
    constructor
    · rintro (rfl | ⟨isLive, isNext⟩)
      · exact ⟨Or.inr rfl, next⟩
      · exact ⟨Or.inl isLive, isNext⟩
    · rintro ⟨isLive | isSrc, isNext⟩
      · exact Or.inr ⟨isLive, isNext⟩
      · left
        rw [isSrc, next, Option.some.injEq] at isNext
        rcases entry with ⟨entryKey, entrySrc⟩
        simp_all

theorem HeapFor.skip (heapFor : HeapFor sources live heap) (ended : nextKey sources src = none) :
    HeapFor sources (fun i => live i ∨ i = src) heap := by
  refine heapFor.congr fun entry => and_congr_left fun isNext => ?_
  have other : entry.src ≠ src := by
    intro isSrc
    rw [isSrc, ended] at isNext
    cases isNext
  simp [other]

theorem exists_refillSource (heapFor : HeapFor merger.sources live merger.heap)
    (fresh : ¬live src) :
    ∃ heap, merger.refillSource src =
        { merger with sources := merger.sources.modify src (trim merger.start), heap } ∧
      HeapFor (merger.sources.modify src (trim merger.start)) (fun i => live i ∨ i = src) heap := by
  have kept : HeapFor (merger.sources.modify src (trim merger.start)) live merger.heap := by
    refine heapFor.congr fun entry => and_congr_right fun isLive => ?_
    have other : src ≠ entry.src := fun isSrc => fresh (isSrc ▸ isLive)
    simp [nextKey, other]
  unfold refillSource
  rw [modify_eq_set_getElem?] at kept ⊢
  cases atSrc : merger.sources[src]? with
  | none =>
    rw [atSrc] at kept
    exact ⟨merger.heap, rfl, kept.skip (by simp [nextKey, atSrc])⟩
  | some source =>
    rw [atSrc] at kept
    have inBounds : src < merger.sources.length := (List.getElem?_eq_some_iff.mp atSrc).1
    have nextEq : nextKey (merger.sources.set src (trim merger.start source)) src =
        ((trim merger.start source).partitions.head?).map Partition.key := by
      rw [nextKey, getElem?_set_self inBounds]
      rfl
    cases isHead : (trim merger.start source).partitions.head? with
    | none =>
      refine ⟨merger.heap, ?_, kept.skip (by simp [nextEq, isHead])⟩
      rw [trim] at isHead
      simp only [isHead]
      rfl
    | some next =>
      refine ⟨_, ?_, kept.push fresh (nextEq.trans (by rw [isHead]; rfl))⟩
      rw [trim] at isHead
      simp only [isHead]
      rfl

theorem exists_refillSources {srcs : List Nat} (nodup : srcs.Nodup)
    (heapFor : HeapFor merger.sources live merger.heap) (fresh : ∀ src ∈ srcs, ¬live src) :
    ∃ sources heap, merger.refillSources srcs = { merger with sources, heap } ∧
      (∀ i, sources[i]? = if i ∈ srcs then merger.sources[i]?.map (trim merger.start)
        else merger.sources[i]?) ∧
      HeapFor sources (fun i => live i ∨ i ∈ srcs) heap := by
  induction srcs generalizing merger live with
  | nil =>
    refine ⟨merger.sources, merger.heap, rfl, by simp, ?_⟩
    exact heapFor.congr (by simp)
  | cons src rest ih =>
    rcases nodup_cons.mp nodup with ⟨srcFresh, restNodup⟩
    rcases exists_refillSource heapFor (fresh src mem_cons_self) with
      ⟨heap, refilled, nextHeapFor⟩
    have restFresh : ∀ other ∈ rest, ¬(live other ∨ other = src) := by
      rintro other otherMem (isLive | rfl)
      · exact fresh other (mem_cons_of_mem _ otherMem) isLive
      · exact srcFresh otherMem
    let next : RangeMerger :=
      { merger with sources := merger.sources.modify src (trim merger.start), heap }
    have heapForNext : HeapFor next.sources (fun i => live i ∨ i = src) next.heap := nextHeapFor
    rcases ih restNodup heapForNext restFresh with
      ⟨finalSources, finalHeap, refilledRest, getFinal, finalHeapFor⟩
    refine ⟨finalSources, finalHeap, ?_, ?_, ?_⟩
    · rw [refillSources, foldl_cons, refilled]
      exact refilledRest
    · intro i
      rw [getFinal, getElem?_modify]
      by_cases isSrc : i = src
      · simp [isSrc, srcFresh]
      · simp [isSrc, Ne.symm isSrc, next]
    · apply finalHeapFor.congr
      simp [or_assoc]

theorem popSameKey_eq (sorted : StrictlySorted HeapEntry.rank heap)
    (least : ∀ entry ∈ heap, key ≤ entry.key) :
    Heap.popSameKey key heap = ((heap.filter (fun entry => entry.key = key)).map HeapEntry.src,
        heap.filter (fun entry => entry.key ≠ key)) := by
  induction heap with
  | nil => rfl
  | cons top rest ih =>
    rw [forall_mem_cons] at least
    by_cases atTop : top.key = key
    · simp [Heap.popSameKey, atTop, ih sorted.tail least.2]
    · have above : key < top.key := lt_of_le_of_ne least.1 (Ne.symm atTop)
      have elsewhere : ∀ entry ∈ top :: rest, entry.key ≠ key :=
        forall_mem_cons.mpr ⟨atTop, fun entry mem =>
          (above.trans_le (key_le_of_rank_lt (sorted.head_lt mem))).ne'⟩
      rw [filter_eq_nil_iff.mpr (by simpa using elsewhere),
        filter_eq_self.mpr (by simpa using elsewhere), Heap.popSameKey, if_neg atTop]
      rfl

theorem popPartitions_cons (src : Nat) (srcs : List Nat) (sources : List MergeSource) :
    popPartitions (src :: srcs) sources =
      let left := sources.modify src fun source => source.popPartition.2
      ((sources[src]?.bind fun source => source.partitions.head?).toList ++
        (popPartitions srcs left).1, (popPartitions srcs left).2) := by
  rw [popPartitions, modify_eq_set_getElem?]
  cases sources[src]? <;> rfl

theorem popPartitions_append (first second : List Nat) (sources : List MergeSource) :
    popPartitions (first ++ second) sources = ((popPartitions first sources).1 ++
          (popPartitions second (popPartitions first sources).2).1,
        (popPartitions second (popPartitions first sources).2).2) := by
  induction first generalizing sources with
  | nil => rfl
  | cons src rest ih =>
    simp only [cons_append, popPartitions_cons, ih, append_assoc]

theorem popPartitions_spec {srcs : List Nat} (nodup : srcs.Nodup) (sources : List MergeSource) :
    (popPartitions srcs sources).1 =
        srcs.filterMap (fun i => sources[i]?.bind (fun source => source.partitions.head?)) ∧
      ∀ i, (popPartitions srcs sources).2[i]? =
        if i ∈ srcs then sources[i]?.map (fun source => source.popPartition.2)
        else sources[i]? := by
  induction srcs generalizing sources with
  | nil => simp [popPartitions]
  | cons src rest ih =>
    rcases nodup_cons.mp nodup with ⟨srcFresh, restNodup⟩
    rcases ih restNodup (sources.modify src fun source => source.popPartition.2) with
      ⟨popped, left⟩
    simp only [popPartitions_cons]
    constructor
    · have unchanged : ∀ i ∈ rest,
          (sources.modify src fun source => source.popPartition.2)[i]? = sources[i]? := by
        intro i inRest
        exact getElem?_modify_ne _ _ (fun isSrc => srcFresh (isSrc ▸ inRest))
      rw [popped, filterMap_congr fun i inRest => by rw [unchanged i inRest], filterMap_cons]
      cases sources[src]?.bind fun source => source.partitions.head? <;> rfl
    · intro i
      rw [left, getElem?_modify]
      by_cases isSrc : i = src
      · simp [isSrc, srcFresh]
      · simp [isSrc, Ne.symm isSrc]

def headerOf (partition : Partition) : PoppedHeader :=
  ⟨partition.key, partition.deletion, partition.staticRow, partition.rows⟩

/-- Every source is in strictly increasing key order, with rows strictly sorted. -/
structure SortedSources (sources : List MergeSource) : Prop where
  keys : ∀ source ∈ sources, StrictlySorted Partition.key source.partitions
  rows : ∀ source ∈ sources, ∀ partition ∈ source.partitions,
    StrictlySorted Row.clustering partition.rows

theorem popPartitionHeader_eq
    (sorted : ∀ partition ∈ source.partitions, StrictlySorted Row.clustering partition.rows) :
    source.popPartitionHeader = (source.popPartition.1.map headerOf, source.popPartition.2) := by
  rcases source with ⟨kind, partitions⟩
  cases partitions with
  | nil => rfl
  | cons first rest =>
    cases kind with
    | memtable =>
      have rowsEq : sortByKey Row.clustering first.rows = first.rows :=
        List.Pairwise.insertionSort_eq
          ((sorted first mem_cons_self).imp (fun below => le_of_lt below))
      simp [popPartitionHeader, popPartition, headerOf, rowsEq]
    | ssTable => rfl

theorem popHeaders_eq (srcs : List Nat)
    (sorted : ∀ source ∈ sources, ∀ partition ∈ source.partitions,
      StrictlySorted Row.clustering partition.rows) :
    popHeaders srcs sources =
      ((popPartitions srcs sources).1.map headerOf, (popPartitions srcs sources).2) := by
  induction srcs generalizing sources with
  | nil => rfl
  | cons src rest ih =>
    simp only [popHeaders, popPartitions]
    cases atSrc : sources[src]? with
    | none => exact ih sorted
    | some source =>
      have sourceSorted := sorted source (mem_of_getElem? atSrc)
      have poppedSorted : ∀ other ∈ sources.set src source.popPartition.2,
          ∀ partition ∈ other.partitions, StrictlySorted Row.clustering partition.rows := by
        intro other otherMem partition partitionMem
        rcases mem_or_eq_of_mem_set otherMem with inSources | rfl
        · exact sorted other inSources partition partitionMem
        · exact sourceSorted partition (mem_of_mem_tail partitionMem)
      simp only [popPartitionHeader_eq sourceSorted, ih poppedSorted]
      cases source.popPartition.1 <;> simp

abbrev partitionsOf (sources : List MergeSource) : List (List Partition) :=
  sources.map MergeSource.partitions

def dropKey (key : DecoratedKey) (source : MergeSource) : MergeSource :=
  { source with partitions := dropHeadAt Partition.key key source.partitions }

def srcsAt (key : DecoratedKey) (heap : Heap) : List Nat :=
  (heap.filter (fun entry => entry.key = key)).map HeapEntry.src

theorem srcsAt_sorted (sorted : StrictlySorted HeapEntry.rank heap) :
    StrictlySorted id (srcsAt key heap) := by
  refine pairwise_map.mpr (List.Pairwise.imp_of_mem ?_ (sorted.filter _))
  intro a b memA memB ranked
  have keyA : a.key = key := by simpa using (mem_filter.mp memA).2
  have keyB : b.key = key := by simpa using (mem_filter.mp memB).2
  rw [rank, rank, Prod.Lex.toLex_lt_toLex, keyA, keyB] at ranked
  simpa using ranked

theorem mem_srcsAt (heapFor : HeapFor sources (fun _ => True) heap) :
    src ∈ srcsAt key heap ↔ nextKey sources src = some key := by
  simp only [srcsAt, mem_map, mem_filter, heapFor.mem_iff, true_and, decide_eq_true_eq]
  constructor
  · rintro ⟨entry, ⟨isNext, rfl⟩, rfl⟩
    exact isNext
  · intro isNext
    exact ⟨⟨key, src⟩, ⟨isNext, rfl⟩, rfl⟩

theorem filterMap_range_getElem? {α β : Type} (f : α → Option β) (xs : List α) :
    (List.range xs.length).filterMap (fun i => xs[i]?.bind f) = xs.filterMap f := by
  induction xs with
  | nil => rfl
  | cons x rest ih =>
    rw [length_cons, range_succ_eq_map, filterMap_cons, filterMap_cons, filterMap_map]
    simp only [comp_def, Nat.succ_eq_add_one, getElem?_cons_succ,
      getElem?_cons_zero, bind_some, ih]

theorem popPartitions_srcsAt (heapFor : HeapFor sources (fun _ => True) heap) (key : DecoratedKey) :
    popPartitions (srcsAt key heap) sources =
      (headsAt Partition.key key (partitionsOf sources), sources.map (dropKey key)) := by
  have srcsSorted : StrictlySorted id (srcsAt key heap) := srcsAt_sorted heapFor.sorted
  have nodup : (srcsAt key heap).Nodup := srcsSorted.imp (fun below => ne_of_lt below)
  rcases popPartitions_spec nodup sources with ⟨popped, left⟩
  have srcsEq : srcsAt key heap =
      (List.range sources.length).filter (fun i => nextKey sources i = some key) := by
    refine srcsSorted.ext_mem (StrictlySorted.filter pairwise_lt_range _) fun i => ?_
    rw [mem_srcsAt heapFor, mem_filter, mem_range, decide_eq_true_eq]
    refine ⟨fun isNext => ⟨?_, isNext⟩, fun both => both.2⟩
    rw [nextKey, bind_eq_some_iff] at isNext
    rcases isNext with ⟨source, atI, _⟩
    exact (List.getElem?_eq_some_iff.mp atI).1
  refine Prod.ext ?_ ?_
  · rw [popped, srcsEq, filterMap_filter, headsAt, filterMap_map]
    refine Eq.trans ?_ (filterMap_range_getElem? _ sources)
    apply filterMap_congr
    intro i _
    cases atI : sources[i]? with
    | none => simp [nextKey, atI]
    | some source =>
      cases isHead : source.partitions.head? with
      | none => simp [nextKey, atI, peekKey, headAt, isHead]
      | some head =>
        simp [nextKey, atI, peekKey, headAt, isHead, filter_some]
  · apply ext_getElem?
    intro i
    simp only [left, getElem?_map, mem_srcsAt heapFor]
    cases atI : sources[i]? with
    | none => simp
    | some source =>
      rcases source with ⟨kind, partitions⟩
      cases partitions with
      | nil => simp [nextKey, atI, peekKey, dropKey, dropHeadAt]
      | cons head tail =>
        by_cases atKey : head.key = key <;>
          simp [nextKey, atI, peekKey, popPartition, dropKey, dropHeadAt, atKey]

/-- Between two partitions: the heap holds the next key of every source, and no source holds a
key below the start. -/
structure Idle (merger : RangeMerger) : Prop where
  active : merger.active = none
  exhausted : merger.exhausted = false
  heap : HeapFor merger.sources (fun _ => True) merger.heap
  sorted : SortedSources merger.sources
  aboveStart : ∀ source ∈ merger.sources, ∀ partition ∈ source.partitions,
    ∀ start ∈ merger.start, start ≤ partition.key

theorem trim_of_le
    (above : ∀ partition ∈ source.partitions, ∀ bound ∈ start, bound ≤ partition.key) :
    trim start source = source := by
  rcases source with ⟨kind, partitions⟩
  cases partitions with
  | nil => rfl
  | cons head tail =>
    cases start with
    | none => rfl
    | some bound =>
      have notBelow := not_lt.mpr (above head mem_cons_self bound rfl)
      simp [trim, notBelow]

theorem sublist_of_mem_dropKey (sourceMem : source ∈ sources.map (dropKey key)) :
    ∃ original ∈ sources, source.partitions <+ original.partitions := by
  rcases mem_map.mp sourceMem with ⟨original, originalMem, rfl⟩
  exact ⟨original, originalMem, dropHeadAt_sublist key original.partitions⟩

theorem SortedSources.of_sublist {others : List MergeSource} (sorted : SortedSources sources)
    (parts : ∀ source ∈ others, ∃ original ∈ sources, source.partitions <+ original.partitions) :
    SortedSources others := by
  constructor
  · intro source sourceMem
    rcases parts source sourceMem with ⟨original, originalMem, sublist⟩
    exact (sorted.keys original originalMem).sublist sublist
  · intro source sourceMem partition partitionMem
    rcases parts source sourceMem with ⟨original, originalMem, sublist⟩
    exact sorted.rows original originalMem partition (sublist.subset partitionMem)

theorem HeapFor.dropKey (heapFor : HeapFor sources (fun _ => True) heap) (key : DecoratedKey) :
    HeapFor (sources.map (dropKey key)) (fun i => i ∉ srcsAt key heap)
      (heap.filter (fun entry => entry.key ≠ key)) := by
  constructor
  · exact heapFor.sorted.filter _
  · intro entry
    have unchanged : nextKey sources entry.src ≠ some key →
        nextKey (sources.map (RangeMerger.dropKey key)) entry.src = nextKey sources entry.src := by
      intro otherNext
      simp only [nextKey, getElem?_map] at otherNext ⊢
      cases atSrc : sources[entry.src]? with
      | none => rfl
      | some source =>
        rcases source with ⟨kind, partitions⟩
        cases partitions with
        | nil => rfl
        | cons head tail =>
          have otherKey : head.key ≠ key := by
            simpa [atSrc, peekKey] using otherNext
          simp [RangeMerger.dropKey, dropHeadAt, otherKey]
    rw [mem_filter, heapFor.mem_iff, mem_srcsAt heapFor]
    simp only [true_and, decide_eq_true_eq, ne_eq]
    constructor
    · rintro ⟨isNext, otherKey⟩
      have otherNext : nextKey sources entry.src ≠ some key := by
        rw [isNext]
        simpa using otherKey
      exact ⟨otherNext, (unchanged otherNext).trans isNext⟩
    · rintro ⟨otherNext, isNext⟩
      rw [unchanged otherNext] at isNext
      refine ⟨isNext, fun sameKey => otherNext ?_⟩
      rw [isNext, sameKey]

theorem Idle.exists_next (idle : Idle merger) (key : DecoratedKey) :
    ∃ next, Idle next ∧ next.sources = merger.sources.map (dropKey key) ∧
      next.start = merger.start ∧ next.stop = merger.stop ∧
      { merger with
        heap := merger.heap.filter (fun entry => entry.key ≠ key)
        sources := merger.sources.map (dropKey key) }.refillSources (srcsAt key merger.heap) =
        next := by
  have nodup : (srcsAt key merger.heap).Nodup :=
    (srcsAt_sorted idle.heap.sorted).imp (fun below => ne_of_lt below)
  let popped : RangeMerger := { merger with
    heap := merger.heap.filter (fun entry => entry.key ≠ key)
    sources := merger.sources.map (dropKey key) }
  have heapFor : HeapFor popped.sources (fun i => i ∉ srcsAt key merger.heap) popped.heap :=
    idle.heap.dropKey key
  have aboveStart : ∀ source ∈ popped.sources, ∀ partition ∈ source.partitions,
      ∀ start ∈ merger.start, start ≤ partition.key := by
    intro source sourceMem partition partitionMem
    rcases sublist_of_mem_dropKey sourceMem with ⟨original, originalMem, sublist⟩
    exact idle.aboveStart original originalMem partition (sublist.subset partitionMem)
  rcases exists_refillSources nodup heapFor (by simp) with
    ⟨sources, heap, refilled, getSources, refilledHeap⟩
  have sourcesEq : sources = popped.sources := by
    apply ext_getElem?
    intro i
    rw [getSources]
    split
    · cases atI : popped.sources[i]? with
      | none => rfl
      | some source =>
        rw [map_some, trim_of_le (aboveStart source (mem_of_getElem? atI))]
    · rfl
  subst sourcesEq
  refine ⟨{ popped with heap }, ?_, rfl, rfl, rfl, refilled⟩
  exact
    { active := idle.active
      exhausted := idle.exhausted
      heap := refilledHeap.congr (by simp [em'])
      sorted := idle.sorted.of_sublist fun _ => sublist_of_mem_dropKey
      aboveStart }

theorem Idle.exists_mem_heap (idle : Idle merger) (sourceMem : source ∈ merger.sources)
    {head : Partition} (isHead : source.partitions.head? = some head) :
    ∃ src, (⟨head.key, src⟩ : HeapEntry) ∈ merger.heap := by
  rcases mem_iff_getElem?.mp sourceMem with ⟨src, atSrc⟩
  refine ⟨src, (idle.heap.mem_iff _).mpr ⟨trivial, ?_⟩⟩
  rw [nextKey, atSrc, bind_some, peekKey, isHead, map_some]

theorem Idle.le_key (idle : Idle merger) (heapEq : merger.heap = top :: rest) :
    ∀ partitions ∈ partitionsOf merger.sources, ∀ partition ∈ partitions.head?,
      top.key ≤ partition.key := by
  intro partitions partitionsMem partition isHead
  rcases mem_map.mp partitionsMem with ⟨source, sourceMem, rfl⟩
  rcases idle.exists_mem_heap sourceMem isHead with ⟨src, entryMem⟩
  have sorted := idle.heap.sorted
  rw [heapEq] at entryMem sorted
  rcases mem_cons.mp entryMem with isTop | inRest
  · rw [← isTop]
  · exact key_le_of_rank_lt (sorted.head_lt inRest)

theorem Idle.exists_head (idle : Idle merger) (heapEq : merger.heap = top :: rest) :
    ∃ source head, merger.sources[top.src]? = some source ∧
      source.partitions.head? = some head ∧ head.key = top.key := by
  have topMem : top ∈ merger.heap := heapEq ▸ mem_cons_self
  have topNext := ((idle.heap.mem_iff top).mp topMem).2
  rw [nextKey, bind_eq_some_iff] at topNext
  rcases topNext with ⟨source, atTop, isPeek⟩
  rw [peekKey, map_eq_some_iff] at isPeek
  rcases isPeek with ⟨head, isHead, sameKey⟩
  exact ⟨source, head, atTop, isHead, sameKey⟩

theorem Idle.exists_step (idle : Idle merger) (heapEq : merger.heap = top :: rest)
    (inRange : merger.beyondStop top.key = false) {merged : Partition}
    (mergeEq : mergeGroup (headsAt Partition.key top.key (partitionsOf merger.sources)) =
      .ok merged) :
    ∃ next begun active, Idle next ∧ next.sources = merger.sources.map (dropKey top.key) ∧
      next.stop = merger.stop ∧
      merger.nextMergedPartition = .ok (some merged, next) ∧
      merger.beginActivePartition = (true, begun) ∧ begun.active = some active ∧
      begun.retireActivePartition active = next ∧
      ∃ srcs, active = mergeHeaders top.key srcs
        ((headsAt Partition.key top.key (partitionsOf merger.sources)).map headerOf) := by
  rcases idle.exists_next top.key with ⟨next, nextIdle, sourcesEq, _, stopEq, refilled⟩
  have sorted := idle.heap.sorted
  rw [heapEq] at sorted
  have restLeast : ∀ entry ∈ rest, top.key ≤ entry.key :=
    fun entry entryMem => key_le_of_rank_lt (sorted.head_lt entryMem)
  have popRest := popSameKey_eq sorted.tail restLeast
  have srcsEq : srcsAt top.key merger.heap =
      top.src :: (rest.filter (fun entry => entry.key = top.key)).map HeapEntry.src := by
    simp [srcsAt, heapEq]
  have heapLeft : merger.heap.filter (fun entry => entry.key ≠ top.key) =
      rest.filter (fun entry => entry.key ≠ top.key) := by
    simp [heapEq]
  have popped := popPartitions_srcsAt idle.heap top.key
  rw [srcsEq] at popped refilled
  rw [heapLeft] at refilled
  have headers := popHeaders_eq (srcsAt top.key merger.heap) idle.sorted.rows
  rw [srcsEq, popped] at headers
  let active := mergeHeaders top.key
    (top.src :: (rest.filter (fun entry => entry.key = top.key)).map HeapEntry.src)
    ((headsAt Partition.key top.key (partitionsOf merger.sources)).map headerOf)
  let begun : RangeMerger := { merger with
    heap := rest.filter (fun entry => entry.key ≠ top.key)
    sources := merger.sources.map (dropKey top.key)
    active := some active }
  have retired : begun.retireActivePartition active = next := by
    rw [← refilled, idle.active]
    rfl
  refine ⟨next, begun, active, nextIdle, sourcesEq, stopEq, ?_, ?_, rfl, retired, _, rfl⟩
  · rcases idle.exists_head heapEq with ⟨source, head, atTop, isHead, _⟩
    have poppedTop : (popPartitions [top.src] merger.sources).1 = [head] := by
      rw [(popPartitions_spec (nodup_singleton _) _).1]
      simp [atTop, isHead]
    have poppedSplit := popped
    rw [← singleton_append, popPartitions_append, poppedTop, Prod.mk.injEq] at poppedSplit
    rcases poppedSplit with ⟨versionsEq, leftEq⟩
    simp only [nextMergedPartition, nextMergedPartitionLoop, idle.exhausted, heapEq, inRange,
      poppedTop, popRest, leftEq, Bool.false_eq_true, if_false]
    rw [← singleton_append, versionsEq, mergeEq, ← refilled, idle.exhausted]
  · simp only [beginActivePartition, idle.exhausted, heapEq, inRange, popRest, headers,
      Bool.false_eq_true, if_false, begun, active]

def versionsOf (sources : List MergeSource) (key : DecoratedKey) : List Partition :=
  sources.filterMap (fun source => lookup Partition.key key source.partitions)

structure ScannedKey where
  key : DecoratedKey
  versions : List Partition
  partition : Partition
  fragments : List PartitionFragment

abbrev streamedHeader (key : DecoratedKey) (versions : List Partition) : ActivePartition :=
  mergeHeaders key [] (versions.map headerOf)

structure ScannedKey.Valid (k : Nat) (sources : List MergeSource) (scanned : ScannedKey) :
    Prop where
  versions : scanned.versions = versionsOf sources scanned.key
  nonempty : scanned.versions ≠ []
  merged : mergeGroup scanned.versions = .ok scanned.partition
  streamed : StreamedAs k scanned.key (streamedHeader scanned.key scanned.versions).deletion
    (streamedHeader scanned.key scanned.versions).pendingStaticRow true
    (mergedRows (scanned.versions.map Partition.rows)) scanned.fragments

theorem mem_versionsOf {version : Partition} (versionMem : version ∈ versionsOf sources key) :
    version.key = key ∧ ∃ source ∈ sources, version ∈ source.partitions := by
  rcases mem_filterMap.mp versionMem with ⟨source, sourceMem, found⟩
  rcases mem_of_lookup found with ⟨inSource, atKey⟩
  exact ⟨atKey, source, sourceMem, inSource⟩

theorem headsAt_eq_versionsOf (sorted : SortedSources sources)
    (least : ∀ partitions ∈ partitionsOf sources, ∀ partition ∈ partitions.head?,
      key ≤ partition.key) :
    headsAt Partition.key key (partitionsOf sources) = versionsOf sources key := by
  rw [headsAt, filterMap_map]
  apply filterMap_congr
  intro source sourceMem
  exact headAt_eq_lookup (sorted.keys source sourceMem)
    (least source.partitions (mem_map_of_mem sourceMem))

theorem versionsOf_dropKey (differs : other ≠ key) : versionsOf (sources.map (dropKey key)) other =
      versionsOf sources other := by
  rw [versionsOf, filterMap_map]
  apply filterMap_congr
  intro source _
  exact lookup_dropHeadAt differs source.partitions

theorem lt_of_versionsOf_dropKey (sorted : SortedSources sources)
    (least : ∀ partitions ∈ partitionsOf sources, ∀ partition ∈ partitions.head?,
      key ≤ partition.key)
    (nonempty : versionsOf (sources.map (dropKey key)) other ≠ []) : key < other := by
  rcases exists_mem_of_ne_nil _ nonempty with ⟨version, versionMem⟩
  rcases mem_versionsOf versionMem with ⟨rfl, source, sourceMem, inSource⟩
  rcases mem_map.mp sourceMem with ⟨original, originalMem, rfl⟩
  exact lt_key_of_mem_dropHeadAt (sorted.keys original originalMem)
    (least original.partitions (mem_map_of_mem originalMem)) inSource

theorem exists_mergeGroup {versions : List Partition} (nonempty : versions ≠ []) :
    ∃ merged, mergeGroup versions = .ok merged := by
  match versions, nonempty with
  | [_], _ => exact ⟨_, rfl⟩
  | _ :: _ :: _, _ => exact ⟨_, rfl⟩

theorem beyondStop_mono {a b : DecoratedKey} (le : a ≤ b)
    (beyond : merger.beyondStop a = true) : merger.beyondStop b = true := by
  simp only [beyondStop, Option.any_eq_true, decide_eq_true_eq] at beyond ⊢
  rcases beyond with ⟨stop, isStop, below⟩
  exact ⟨stop, isStop, below.trans_le le⟩

def AtEnd (merger : RangeMerger) : Prop :=
  ∀ top ∈ merger.heap.head?, merger.beyondStop top.key = true

theorem Idle.drains_atEnd (idle : Idle merger) (atEnd : merger.AtEnd) (k : Nat) :
    Drains nextMergedPartition merger [] ∧ Drains (nextFragment · k) merger [] := by
  have ends : ∃ final, merger.nextMergedPartition = .ok (none, final) ∧
      merger.nextFragment k = .ok (none, final) := by
    cases heapEq : merger.heap with
    | nil =>
      refine ⟨merger, ?_, ?_⟩
      · simp [nextMergedPartition, nextMergedPartitionLoop, idle.exhausted, heapEq]
      · simp [nextFragment, nextFragmentLoop, beginActivePartition, idle.active, idle.exhausted,
          heapEq]
    | cons top rest =>
      have beyond : merger.beyondStop top.key = true := atEnd top (by rw [heapEq]; rfl)
      refine ⟨{ merger with heap := rest, exhausted := true }, ?_, ?_⟩
      · simp [nextMergedPartition, nextMergedPartitionLoop, idle.exhausted, heapEq, beyond]
      · simp [nextFragment, nextFragmentLoop, beginActivePartition, idle.active, idle.exhausted,
          heapEq, beyond]
  rcases ends with ⟨final, merged, streamed⟩
  exact ⟨Drains.done merged, Drains.done streamed⟩

theorem Idle.beyondStop_of_atEnd (idle : Idle merger)
    (atEnd : merger.AtEnd) (nonempty : versionsOf merger.sources key ≠ []) :
    merger.beyondStop key = true := by
  rcases exists_mem_of_ne_nil _ nonempty with ⟨version, versionMem⟩
  rcases mem_versionsOf versionMem with ⟨rfl, source, sourceMem, inSource⟩
  rcases exists_cons_of_ne_nil (ne_nil_of_mem inSource) with ⟨head, tail, shape⟩
  have headLe : head.key ≤ version.key := by
    have sorted := idle.sorted.keys source sourceMem
    rw [shape] at sorted inSource
    rcases mem_cons.mp inSource with rfl | inTail
    · exact le_rfl
    · exact (sorted.head_lt inTail).le
  have isHead : source.partitions.head? = some head := by rw [shape, head?_cons]
  rcases idle.exists_mem_heap sourceMem isHead with ⟨src, entryMem⟩
  rcases exists_cons_of_ne_nil (ne_nil_of_mem entryMem) with ⟨top, rest, heapEq⟩
  have topLe : top.key ≤ head.key :=
    idle.le_key heapEq source.partitions (mem_map_of_mem sourceMem) head isHead
  exact beyondStop_mono (topLe.trans headLe) (atEnd top (by rw [heapEq, head?_cons]; rfl))

theorem Idle.exists_scan {k : Nat} (positive : 0 < k) (idle : Idle merger) :
    ∃ scan : List ScannedKey, StrictlySorted ScannedKey.key scan ∧
      (∀ scanned ∈ scan, scanned.Valid k merger.sources) ∧
      (∀ key, (∃ scanned ∈ scan, scanned.key = key) ↔
        merger.beyondStop key = false ∧ versionsOf merger.sources key ≠ []) ∧
      Drains nextMergedPartition merger (scan.map ScannedKey.partition) ∧
      Drains (nextFragment · k) merger (scan.flatMap ScannedKey.fragments) := by
  induction size : (partitionsOf merger.sources).flatten.length using Nat.strong_induction_on
    generalizing merger with
  | _ size ih =>
    subst size
    by_cases atEnd : merger.AtEnd
    · rcases idle.drains_atEnd atEnd k with ⟨merges, streams⟩
      refine ⟨[], List.Pairwise.nil, by simp, fun key => ?_, merges, streams⟩
      refine ⟨by simp, fun ⟨inRange, nonempty⟩ => ?_⟩
      rw [idle.beyondStop_of_atEnd atEnd nonempty] at inRange
      exact absurd inRange (by simp)
    · simp only [AtEnd, not_forall] at atEnd
      rcases atEnd with ⟨top, isTop, inRange⟩
      rw [Bool.not_eq_true] at inRange
      rcases head?_eq_some_iff.mp isTop with ⟨rest, heapEq⟩
      have least := idle.le_key heapEq
      have versionsEq := headsAt_eq_versionsOf idle.sorted least
      rcases idle.exists_head heapEq with ⟨topSource, topHead, atTop, isHead, topKey⟩
      have topMem : topSource.partitions ∈ partitionsOf merger.sources :=
        mem_map_of_mem (mem_of_getElem? atTop)
      have topVersions : versionsOf merger.sources top.key ≠ [] := by
        rw [← versionsEq]
        apply ne_nil_of_mem (a := topHead)
        refine mem_filterMap.mpr ⟨topSource.partitions, topMem, ?_⟩
        rw [headAt, isHead, filter_some, topKey]
        simp
      rcases exists_mergeGroup topVersions with ⟨merged, mergeEq⟩
      rcases idle.exists_step heapEq inRange (versionsEq ▸ mergeEq) with
        ⟨next, begun, active, nextIdle, sourcesEq, stopEq, nextMerged, begins, isActive, retired,
          srcs, activeEq⟩
      rw [versionsEq] at activeEq
      have shorter : (partitionsOf next.sources).flatten.length <
          (partitionsOf merger.sources).flatten.length := by
        have fewer := length_flatten_dropHeadAt_lt ⟨_, topMem, topHead, isHead, topKey⟩
        rw [map_map] at fewer
        rw [sourcesEq, partitionsOf, map_map]
        exact fewer
      rcases ih _ shorter nextIdle rfl with ⟨scan, sorted, valid, covers, merges, streams⟩
      have cursorsEq : active.cursors =
          cursorsOf ((versionsOf merger.sources top.key).map Partition.rows) := by
        rw [activeEq]
        simp [mergeHeaders, cursorsOf, headerOf, comp_def]
      have rowsSorted : ∀ rows ∈ (versionsOf merger.sources top.key).map Partition.rows,
          StrictlySorted Row.clustering rows := by
        intro rows rowsMem
        rcases mem_map.mp rowsMem with ⟨version, versionMem, rfl⟩
        rcases mem_versionsOf versionMem with ⟨_, source, sourceMem, inSource⟩
        exact idle.sorted.rows source sourceMem version inSource
      rw [← retired] at streams
      rcases drains_active positive rowsSorted cursorsEq isActive streams with
        ⟨fragments, streamed, drained⟩
      rw [activeEq] at streamed
      rw [sourcesEq] at valid covers
      have above : ∀ scanned ∈ scan, top.key < scanned.key := by
        intro scanned scannedMem
        have nonempty := (valid scanned scannedMem).nonempty
        rw [(valid scanned scannedMem).versions] at nonempty
        exact lt_of_versionsOf_dropKey idle.sorted least nonempty
      refine ⟨⟨top.key, versionsOf merger.sources top.key, merged, fragments⟩ :: scan,
        pairwise_cons.mpr ⟨above, sorted⟩, ?_, ?_, Drains.pull nextMerged merges, ?_⟩
      · intro scanned scannedMem
        rcases mem_cons.mp scannedMem with rfl | inScan
        · exact ⟨rfl, topVersions, mergeEq, streamed⟩
        · rcases valid scanned inScan with ⟨versions, nonempty, isMerged, isStreamed⟩
          rw [versionsOf_dropKey (above scanned inScan).ne'] at versions
          exact ⟨versions, nonempty, isMerged, isStreamed⟩
      · intro key
        have sameStop : next.beyondStop key = merger.beyondStop key := by
          rw [beyondStop, stopEq]
          rfl
        have split : ∀ first : ScannedKey, (∃ scanned ∈ first :: scan, scanned.key = key) ↔
            first.key = key ∨ ∃ scanned ∈ scan, scanned.key = key := by
          simp
        rw [split, covers, sameStop]
        by_cases atTop : top.key = key
        · simp [← atTop, inRange, topVersions]
        · simp [atTop, versionsOf_dropKey (Ne.symm atTop)]
      · exact drained.of_step_eq (nextFragment_of_begin idle.active begins isActive)

def InRange (start stop : Option DecoratedKey) (key : DecoratedKey) : Prop :=
  (∀ bound ∈ start, bound ≤ key) ∧ ∀ bound ∈ stop, key ≤ bound

theorem trim_partitions (sorted : StrictlySorted Partition.key source.partitions) :
    (trim start source).partitions =
      source.partitions.filter (fun partition => ∀ bound ∈ start, bound ≤ partition.key) := by
  cases start with
  | none =>
    rw [filter_eq_self.mpr (by simp)]
    cases shape : source.partitions <;> simp [trim, shape]
  | some bound => simpa [trim] using sorted.dropWhile_lt bound

theorem new_idle (sorted : SortedSources sources) (start stop : Option DecoratedKey) :
    Idle (new sources start stop) ∧ (new sources start stop).stop = stop ∧
      (new sources start stop).sources = sources.map (trim start) := by
  let unfilled : RangeMerger := ⟨sources, [], start, stop, false, none⟩
  have nothing : HeapFor unfilled.sources (fun _ => False) unfilled.heap :=
    ⟨List.Pairwise.nil, fun entry => by simp [unfilled]⟩
  rcases exists_refillSources nodup_range nothing (fun _ _ => id) with
    ⟨filledSources, heap, refilled, getSources, heapFor⟩
  have sourcesEq : filledSources = sources.map (trim start) := by
    apply ext_getElem?
    intro i
    rw [getSources, getElem?_map]
    split
    · rfl
    · rename_i outside
      have missing : sources[i]? = none := by simpa using outside
      simp [unfilled, missing]
  have newEq : new sources start stop = { unfilled with sources := filledSources, heap } :=
    refilled
  rw [newEq]
  refine ⟨?_, rfl, sourcesEq⟩
  have trimmed : ∀ source ∈ filledSources, ∃ original ∈ sources, source.partitions =
      original.partitions.filter (fun partition => ∀ bound ∈ start, bound ≤ partition.key) := by
    intro source sourceMem
    rw [sourcesEq] at sourceMem
    rcases mem_map.mp sourceMem with ⟨original, originalMem, rfl⟩
    exact ⟨original, originalMem, trim_partitions (sorted.keys original originalMem)⟩
  refine ⟨rfl, rfl, ?_, ?_, ?_⟩
  · refine heapFor.congr fun entry => and_congr_left fun isNext => ?_
    rw [nextKey, bind_eq_some_iff] at isNext
    rcases isNext with ⟨source, atSrc, _⟩
    have inBounds := (List.getElem?_eq_some_iff.mp atSrc).1
    rw [sourcesEq, length_map] at inBounds
    simpa using inBounds
  · refine sorted.of_sublist fun source sourceMem => ?_
    rcases trimmed source sourceMem with ⟨original, originalMem, same⟩
    exact ⟨original, originalMem, same ▸ filter_sublist⟩
  · intro source sourceMem partition partitionMem
    rcases trimmed source sourceMem with ⟨original, originalMem, same⟩
    rw [same] at partitionMem
    simpa using (mem_filter.mp partitionMem).2

theorem versionsOf_trim (sorted : SortedSources sources)
    (start : Option DecoratedKey) (key : DecoratedKey) :
    versionsOf (sources.map (trim start)) key =
      if ∀ bound ∈ start, bound ≤ key then versionsOf sources key else [] := by
  have each : ∀ source ∈ sources, lookup Partition.key key (trim start source).partitions =
      if ∀ bound ∈ start, bound ≤ key then lookup Partition.key key source.partitions
      else none := by
    intro source sourceMem
    rw [trim_partitions (sorted.keys source sourceMem),
      (sorted.keys source sourceMem).lookup_filter]
    cases found : lookup Partition.key key source.partitions with
    | none => simp
    | some partition =>
      rw [filter_some, (mem_of_lookup found).2]
      simp
  rw [versionsOf, filterMap_map]
  split
  · rename_i above
    apply filterMap_congr
    intro source sourceMem
    rw [comp_apply, each source sourceMem, if_pos above]
  · rename_i notAbove
    rw [filterMap_eq_nil_iff]
    intro source sourceMem
    rw [comp_apply, each source sourceMem, if_neg notAbove]

/-- A scan visits the keys of the range that have versions, in order, and both ways of pulling
render them. -/
theorem exists_scan {k : Nat} (positive : 0 < k) (sorted : SortedSources sources)
    (start stop : Option DecoratedKey) :
    ∃ scan : List ScannedKey, StrictlySorted ScannedKey.key scan ∧
      (∀ scanned ∈ scan, scanned.Valid k sources) ∧
      (∀ key, (∃ scanned ∈ scan, scanned.key = key) ↔
        InRange start stop key ∧ versionsOf sources key ≠ []) ∧
      Drains nextMergedPartition (new sources start stop) (scan.map ScannedKey.partition) ∧
      Drains (nextFragment · k) (new sources start stop) (scan.flatMap ScannedKey.fragments) := by
  rcases new_idle sorted start stop with ⟨idle, stopEq, sourcesEq⟩
  rcases idle.exists_scan positive with ⟨scan, scanSorted, valid, covers, merges, streams⟩
  rw [sourcesEq] at valid covers
  refine ⟨scan, scanSorted, ?_, ?_, merges, streams⟩
  · intro scanned scannedMem
    rcases valid scanned scannedMem with ⟨versions, nonempty, merged, streamed⟩
    refine ⟨?_, nonempty, merged, streamed⟩
    rw [versionsOf_trim sorted] at versions
    split at versions
    · exact versions
    · exact absurd versions nonempty
  · intro key
    have notBeyond : (new sources start stop).beyondStop key = false ↔
        ∀ bound ∈ stop, key ≤ bound := by
      rw [beyondStop, stopEq]
      cases stop <;> simp
    rw [covers, notBeyond, versionsOf_trim sorted, InRange]
    by_cases above : ∀ bound ∈ start, bound ≤ key
    · rw [if_pos above]
      tauto
    · rw [if_neg above]
      tauto

end RangeMerger

end Ferrosa.Storage
