import Ferrosa.Storage.Merge

/-!
# Range merger

A range scan merges memtables and SSTables key by key.  A heap holds the next key
of every source; the sources that share the smallest key are merged either as one
whole partition (`nextMergedPartition`) or as a sequence of fragments of at most
`k` rows (`nextFragment`), the latter by a streaming k-way merge of the sources'
rows.
-/

namespace Ferrosa.Storage

open KeyedFold

inductive SourceKind where
  | memtable
  | ssTable
  deriving DecidableEq, Repr

structure MergeSource where
  kind : SourceKind
  partitions : List Partition
  deriving DecidableEq, Repr

structure PoppedHeader where
  key : DecoratedKey
  deletion : DeletionTime
  staticRow : Option Row
  rows : List Row

namespace MergeSource

def peekKey (source : MergeSource) : Option DecoratedKey := source.partitions.head?.map Partition.key

def popPartition (source : MergeSource) : Option Partition × MergeSource :=
  (source.partitions.head?, { source with partitions := source.partitions.tail })

/-- Memtable rows are sorted on the way out; SSTable rows stream in file order. -/
def popPartitionHeader (source : MergeSource) : Option PoppedHeader × MergeSource :=
  match source.partitions with
  | [] => (none, source)
  | partition :: rest =>
    let rows := match source.kind with
      | .memtable => sortByKey Row.clustering partition.rows
      | .ssTable => partition.rows
    (some ⟨partition.key, partition.deletion, partition.staticRow, rows⟩,
      { source with partitions := rest })

end MergeSource

structure HeapEntry where
  key : DecoratedKey
  src : Nat
  deriving DecidableEq, Repr

/-- The smallest key comes first, ties broken by source index. -/
def HeapEntry.rank (entry : HeapEntry) : DecoratedKey ×ₗ Nat := toLex (entry.key, entry.src)

abbrev Heap := List HeapEntry

def Heap.push (heap : Heap) (entry : HeapEntry) : Heap :=
  heap.orderedInsert (fun a b => a.rank ≤ b.rank) entry

def Heap.popSameKey (key : DecoratedKey) : Heap → List Nat × Heap
  | [] => ([], [])
  | top :: rest =>
    if top.key = key then
      let (srcs, remaining) := Heap.popSameKey key rest
      (top.src :: srcs, remaining)
    else
      ([], top :: rest)

structure RowCursor where
  head : Option Row
  rest : List Row
  deriving DecidableEq, Repr

namespace RowCursor

def prime (rows : List Row) : RowCursor := ⟨rows.head?, rows.tail⟩

def advance (cursor : RowCursor) : RowCursor := prime cursor.rest

end RowCursor

structure ActivePartition where
  key : DecoratedKey
  deletion : DeletionTime
  pendingStaticRow : Option Row
  first : Bool
  cursors : List RowCursor
  refillSrcs : List Nat
  deriving DecidableEq, Repr

structure PartitionFragment where
  key : DecoratedKey
  deletion : DeletionTime
  staticRow : Option Row
  rows : List Row
  first : Bool
  last : Bool
  deriving DecidableEq, Repr

inductive MergeError where
  | outOfOrder (prev next : Bytes)
  | emptyMerge
  deriving DecidableEq, Repr

structure RangeMerger where
  sources : List MergeSource
  heap : Heap
  start : Option DecoratedKey
  stop : Option DecoratedKey
  exhausted : Bool
  active : Option ActivePartition
  deriving DecidableEq, Repr

namespace RangeMerger

variable (merger : RangeMerger)

/-- Skip the partitions below the start bound and push the next key of the source. -/
def refillSource (src : Nat) : RangeMerger :=
  match merger.sources[src]? with
  | none => merger
  | some source =>
    let remaining := source.partitions.dropWhile (fun partition =>
      merger.start.any (fun start => partition.key < start))
    let merger := { merger with
      sources := merger.sources.set src { source with partitions := remaining } }
    match remaining.head? with
    | none => merger
    | some next => { merger with heap := merger.heap.push ⟨next.key, src⟩ }

def refillSources (srcs : List Nat) : RangeMerger :=
  srcs.foldl refillSource merger

def new (sources : List MergeSource) (start stop : Option DecoratedKey) : RangeMerger :=
  refillSources ⟨sources, [], start, stop, false, none⟩ (List.range sources.length)

def beyondStop (key : DecoratedKey) : Bool :=
  merger.stop.any (fun stop => stop < key)

def partitionNeedsDeletionSuppression (partition : Partition) : Bool :=
  partition.deletion.markedForDeleteAt != DeletionTime.live.markedForDeleteAt
    || partition.rows.any (fun row => !row.deletion.isLive)

def mergeGroup : List Partition → Except MergeError Partition
  | [only] =>
    .ok (if partitionNeedsDeletionSuppression only then applyDeletions only else only)
  | group =>
    match mergePartitions group with
    | some merged => .ok merged
    | none => .error .emptyMerge

def popPartitions : List Nat → List MergeSource → List Partition × List MergeSource
  | [], sources => ([], sources)
  | src :: srcs, sources =>
    match sources[src]? with
    | none => popPartitions srcs sources
    | some source =>
      let (popped, source) := source.popPartition
      let (others, sources) := popPartitions srcs (sources.set src source)
      (popped.toList ++ others, sources)

/-- One round of the key selection, repeated when the top source has ended since it was peeked. -/
def nextMergedPartitionLoop : Nat → RangeMerger → Except MergeError (Option Partition × RangeMerger)
  | 0, merger => .ok (none, merger)
  | fuel + 1, merger =>
    if merger.exhausted then .ok (none, merger)
    else
      match merger.heap with
      | [] => .ok (none, merger)
      | first :: heap =>
        if merger.beyondStop first.key then
          .ok (none, { merger with heap, exhausted := true })
        else
          let (popped, sources) := popPartitions [first.src] merger.sources
          match popped with
          | [] =>
            nextMergedPartitionLoop fuel ({ merger with heap, sources }.refillSource first.src)
          | firstPartition :: _ =>
            let (srcs, heap) := Heap.popSameKey first.key heap
            let (others, sources) := popPartitions srcs sources
            let merger := { merger with heap, sources }.refillSources (first.src :: srcs)
            match mergeGroup (firstPartition :: others) with
            | .ok merged => .ok (some merged, merger)
            | .error failure => .error failure

def nextMergedPartition : Except MergeError (Option Partition × RangeMerger) :=
  nextMergedPartitionLoop (merger.heap.length + 1) merger

def popHeaders : List Nat → List MergeSource → List PoppedHeader × List MergeSource
  | [], sources => ([], sources)
  | src :: srcs, sources =>
    match sources[src]? with
    | none => popHeaders srcs sources
    | some source =>
      let (popped, source) := source.popPartitionHeader
      let (others, sources) := popHeaders srcs (sources.set src source)
      (popped.toList ++ others, sources)

def mergeHeaderDeletions (headers : List PoppedHeader) : DeletionTime :=
  headers.foldl (fun merged header =>
    if header.deletion.markedForDeleteAt > merged.markedForDeleteAt then header.deletion
    else merged) DeletionTime.live

def mergeHeaderStatics (headers : List PoppedHeader) : Option Row :=
  headers.foldl (fun merged header => mergeStaticRows merged header.staticRow) none

def mergeHeaders (key : DecoratedKey) (srcs : List Nat) (headers : List PoppedHeader) :
    ActivePartition :=
  let deletion := mergeHeaderDeletions headers
  let staticRow := mergeHeaderStatics headers
  { key
    deletion
    pendingStaticRow :=
      if deletion.isLive then staticRow
      else staticRow.bind (Row.applyPartitionDeletion deletion.markedForDeleteAt)
    first := true
    cursors := headers.map (fun header => RowCursor.prime header.rows)
    refillSrcs := srcs }

/-- Select the next key, pop every source that holds it, merge the headers and prime the
cursors; `false` at the end of the scan. -/
def beginActivePartition : Bool × RangeMerger :=
  if merger.exhausted then (false, merger)
  else
    match merger.heap with
    | [] => (false, merger)
    | first :: heap =>
      if merger.beyondStop first.key then
        (false, { merger with heap, exhausted := true })
      else
        let (srcs, heap) := Heap.popSameKey first.key heap
        let (headers, sources) := popHeaders (first.src :: srcs) merger.sources
        let active := mergeHeaders first.key (first.src :: srcs) headers
        (true, { merger with heap, sources, active := some active })

def lowerSmallest (smallest : Option Bytes) (cursor : RowCursor) : Option Bytes :=
  match cursor.head, smallest with
  | none, _ => smallest
  | some head, none => some head.clustering
  | some head, some clustering =>
    if head.clustering < clustering then some head.clustering else smallest

def smallestClustering (cursors : List RowCursor) : Option Bytes :=
  cursors.foldl lowerSmallest none

/-- Fold every head at the clustering into one row and advance the cursors it came from. -/
def foldHeads (clustering : Bytes) : Option Row → List RowCursor →
    Except MergeError (Option Row × List RowCursor)
  | merged, [] => .ok (merged, [])
  | merged, cursor :: cursors =>
    match cursor.head with
    | some row =>
      if row.clustering = clustering then
        match cursor.rest.head?.filter (fun next => next.clustering < clustering) with
        | some next => .error (.outOfOrder clustering next.clustering)
        | none =>
          match foldHeads clustering (mergeStaticRows merged (some row)) cursors with
          | .ok (merged, cursors) => .ok (merged, cursor.advance :: cursors)
          | .error failure => .error failure
      else
        match foldHeads clustering merged cursors with
        | .ok (merged, cursors) => .ok (merged, cursor :: cursors)
        | .error failure => .error failure
    | none =>
      match foldHeads clustering merged cursors with
      | .ok (merged, cursors) => .ok (merged, cursor :: cursors)
      | .error failure => .error failure

/-- The loop of `emit_fragment`: merge rows until `k` of them have survived suppression or the
cursors are exhausted. -/
def emitRows (k : Nat) (deletion : DeletionTime) : Nat → List Row → List RowCursor →
    Except MergeError (List Row × List RowCursor)
  | 0, out, cursors => .ok (out, cursors)
  | fuel + 1, out, cursors =>
    if out.length < k then
      match smallestClustering cursors with
      | none => .ok (out, cursors)
      | some clustering =>
        match foldHeads clustering none cursors with
        | .error failure => .error failure
        | .ok (none, _) => .error .emptyMerge
        | .ok (some row, cursors) =>
          if !deletion.isLive && row.primaryKeyLiveness.timestamp < deletion.markedForDeleteAt then
            emitRows k deletion fuel out cursors
          else
            emitRows k deletion fuel (out ++ [row.applyRowDeletion]) cursors
    else .ok (out, cursors)

def pendingRows (cursors : List RowCursor) : Nat :=
  (cursors.map (fun cursor => cursor.head.toList.length + cursor.rest.length)).sum

def retireActivePartition (active : ActivePartition) : RangeMerger :=
  { merger with active := none }.refillSources active.refillSrcs

def emitFragment (k : Nat) (merger : RangeMerger) (active : ActivePartition) :
    Except MergeError (Option PartitionFragment × RangeMerger) :=
  match emitRows k active.deletion (pendingRows active.cursors + 1) [] active.cursors with
  | .error failure => .error failure
  | .ok (out, cursors) =>
    let exhausted := cursors.all (fun cursor => cursor.head.isNone)
    if out.isEmpty && !active.first then
      .ok (none, merger.retireActivePartition active)
    else
      let fragment : PartitionFragment :=
        { key := active.key
          deletion := if active.first then active.deletion else DeletionTime.live
          staticRow := if active.first then active.pendingStaticRow else none
          rows := out
          first := active.first
          last := exhausted }
      let active := { active with
        first := false, cursors, pendingStaticRow := none }
      let merger :=
        if exhausted then merger.retireActivePartition active
        else { merger with active := some active }
      .ok (some fragment, merger)

/-- The loop of `next_fragment`: a retired partition without a fragment makes it go on to the
next key. -/
def nextFragmentLoop (k : Nat) : Nat → RangeMerger →
    Except MergeError (Option PartitionFragment × RangeMerger)
  | 0, merger => .ok (none, merger)
  | fuel + 1, merger =>
    let (begun, merger) :=
      if merger.active.isNone then merger.beginActivePartition else (true, merger)
    match begun, merger.active with
    | true, some active =>
      match emitFragment k merger active with
      | .error failure => .error failure
      | .ok (some fragment, merger) => .ok (some fragment, merger)
      | .ok (none, merger) => nextFragmentLoop k fuel merger
    | _, _ => .ok (none, merger)

def pendingPartitions : Nat :=
  (merger.sources.map (fun source => source.partitions.length)).sum

/-- Every retry retires a partition, so the pending partitions bound the retries. -/
def nextFragment (k : Nat) : Except MergeError (Option PartitionFragment × RangeMerger) :=
  nextFragmentLoop k (merger.pendingPartitions + 2) merger

end RangeMerger

end Ferrosa.Storage
