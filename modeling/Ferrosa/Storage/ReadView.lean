import Ferrosa.Storage.MergedRows
import Ferrosa.Storage.Schema

/-!
# Reading from a store view

A store view is the active memtable, the memtables being flushed and the readable
SSTables, newest first.  A partition read merges what every source has for the key,
a limited read only the first rows each source has after a start clustering, and a
point read only the rows with one clustering.  All three fold in the table
tombstone, a reserved partition whose deletion covers the whole table.
-/

namespace Ferrosa.Storage

open KeyedFold

structure SerializationHeader where
  staticColumns : List ColumnDefinition
  regularColumns : List ColumnDefinition
  deriving DecidableEq, Repr

structure ColumnOrdinalMapping where
  staticColumns : List (Option UInt16)
  regularColumns : List (Option UInt16)
  identity : Bool
  deriving DecidableEq, Repr

def isIdentity (mapping : List (Option UInt16)) : Bool :=
  mapping.zipIdx.all (fun entry => entry.1 == some (UInt16.ofNat entry.2))

def remapCells (cells : List Cell) (mapping : List (Option UInt16)) : List Cell :=
  sortByKey Prod.fst (cells.filterMap (fun cell =>
    (mapping[cell.1.toNat]?).join.map (fun target => (target, cell.2))))

namespace ColumnOrdinalMapping

def buildMap (source target : List ColumnDefinition) : List (Option UInt16) :=
  source.map (fun column => (target.findIdx? (· == column)).map UInt16.ofNat)

def forRewrite (schema : TableSchema) (header : SerializationHeader) : ColumnOrdinalMapping :=
  let staticColumns := buildMap header.staticColumns schema.staticColumns
  let regularColumns := buildMap header.regularColumns schema.regularColumns
  ⟨staticColumns, regularColumns, isIdentity staticColumns && isIdentity regularColumns⟩

/-- The mapping for reads moves the regular columns behind the static ones. -/
def forHeader (schema : TableSchema) (header : SerializationHeader) : ColumnOrdinalMapping :=
  let mapping := forRewrite schema header
  let shift := schema.staticColumns.length
  if shift > 0 then
    let regularColumns := mapping.regularColumns.map (fun target =>
      target.map (fun ordinal => UInt16.ofNat (min (ordinal.toNat + min shift 65535) 65535)))
    ⟨mapping.staticColumns, regularColumns,
      isIdentity mapping.staticColumns && regularColumns.isEmpty⟩
  else mapping

variable (mapping : ColumnOrdinalMapping)

def remapStaticRow (row : Row) : Row :=
  if mapping.identity then row else { row with cells := remapCells row.cells mapping.staticColumns }

def remapRegularRow (row : Row) : Row :=
  if mapping.identity then row
  else { row with cells := remapCells row.cells mapping.regularColumns }

def remapPartition (partition : Partition) : Partition :=
  { partition with
    staticRow := partition.staticRow.map mapping.remapStaticRow
    rows := partition.rows.map mapping.remapRegularRow }

@[simp] theorem remapRegularRow_clustering (row : Row) :
    (mapping.remapRegularRow row).clustering = row.clustering := by
  unfold remapRegularRow
  split <;> rfl

end ColumnOrdinalMapping

structure PartitionTable where
  partitions : List Partition
  keysSorted : StrictlySorted Partition.key partitions
  rowsSorted : ∀ partition ∈ partitions, StrictlySorted Row.clustering partition.rows

def PartitionTable.get (table : PartitionTable) (key : DecoratedKey) : Option Partition :=
  lookup Partition.key key table.partitions

/-- For wide partitions there is an index of the positions of their rows. The filter never rejects a
key that is present, and the index finds every row; for an absent clustering it may answer anything.
-/
structure SSTable extends PartitionTable where
  header : SerializationHeader
  minToken : Int64
  maxToken : Int64
  mayContainKey : DecoratedKey → Bool
  rowIndex : DecoratedKey → Option (Bytes → Option ℕ)
  inBounds : ∀ partition ∈ partitions,
    minToken ≤ partition.key.token ∧ partition.key.token ≤ maxToken
  noFalseNegative : ∀ partition ∈ partitions, mayContainKey partition.key
  indexed : ∀ partition ∈ partitions, ∀ index ∈ rowIndex partition.key, ∀ position row,
    partition.rows[position]? = some row → index row.clustering = some position

namespace SSTable

def probe (sstable : SSTable) (key : DecoratedKey) : Option Partition :=
  if key.token < sstable.minToken ∨ key.token > sstable.maxToken then none
  else if !sstable.mayContainKey key then none
  else sstable.get key

/-- The row loop of the limited readers: wanted rows are collected until there are enough. -/
def collectRows (wanted : Row → Bool) (rowLimit : ℕ) (collected : List Row) : List Row → List Row
  | [] => collected
  | row :: rest =>
    if wanted row then
      if (collected ++ [row]).length ≥ rowLimit then collected ++ [row]
      else collectRows wanted rowLimit (collected ++ [row]) rest
    else collectRows wanted rowLimit collected rest

def getPartitionLimitedRows (sstable : SSTable) (key : DecoratedKey) (rowLimit : ℕ) :
    Option Partition :=
  (sstable.probe key).map (fun partition =>
    if rowLimit > 0 then
      { partition with rows := collectRows (fun _ => true) rowLimit [] partition.rows }
    else partition)

def getPartitionLimitedRowsFrom (sstable : SSTable) (key : DecoratedKey) (start : Bytes)
    (rowLimit : ℕ) : Option Partition :=
  (sstable.probe key).map (fun partition =>
    { partition with
      rows := collectRows (fun row => start < row.clustering) rowLimit [] partition.rows })

/-- The scan for one clustering, which stops behind its place in the order. -/
def scanForClustering (clustering : Bytes) : List Row → Option Row
  | [] => none
  | row :: rest =>
    if row.clustering < clustering then scanForClustering clustering rest
    else if row.clustering = clustering then some row
    else none

/-- The row of one clustering, with the deletion and the static row of its partition; nothing
at all if there is no such row. -/
def getClusteringRow (sstable : SSTable) (key : DecoratedKey) (clustering : Bytes) :
    Option Partition :=
  (sstable.probe key).bind (fun partition =>
    let found :=
      match sstable.rowIndex key with
      | some index =>
        ((index clustering).bind (fun position => partition.rows[position]?)).filter
          (fun row : Row => row.clustering = clustering)
      | none => scanForClustering clustering partition.rows
    found.map (fun row => { partition with rows := [row] }))

end SSTable

structure StoreView where
  schema : TableSchema
  active : PartitionTable
  flushing : List PartitionTable
  sstables : List SSTable

/-- The bytes of `"\0ferrosa/table-tombstone/v1"`. -/
def tableTombstoneMagic : Bytes :=
  [0, 102, 101, 114, 114, 111, 115, 97, 47, 116, 97, 98, 108, 101, 45, 116, 111, 109, 98, 115,
    116, 111, 110, 101, 47, 118, 49]

def newestDeletion (a b : DeletionTime) : DeletionTime :=
  if b.markedForDeleteAt > a.markedForDeleteAt then b else a

/-- Adopt a newer table tombstone as the deletion of the partition, then suppress. -/
def applyTableDeletion (tableDelete : DeletionTime) (partition : Partition) : Partition :=
  applyDeletions (if !tableDelete.isLive ∧
        tableDelete.markedForDeleteAt > partition.deletion.markedForDeleteAt then
      { partition with deletion := tableDelete }
    else partition)

namespace StoreView

variable (token : Bytes → Int64) (view : StoreView)

def memtables : List PartitionTable := view.active :: view.flushing

/-- The newest deletion of the reserved key; `token` is the partitioner. -/
def tableDeletion : DeletionTime :=
  let key : DecoratedKey := ⟨token tableTombstoneMagic, tableTombstoneMagic⟩
  (view.memtables.filterMap (·.get key) ++ view.sstables.filterMap (·.probe key)).foldl
    (fun best partition => newestDeletion best partition.deletion) .live

def clonePartitionLimited (partition : Partition) (start : Option Bytes) (rowLimit : ℕ) :
    Partition :=
  if rowLimit = 0 then partition
  else { partition with
    rows := (partition.rows.filter (fun row =>
      start.all (fun start => start < row.clustering))).take rowLimit }

variable (key : DecoratedKey)

def readSources (rowLimit : ℕ) (start : Option Bytes) : List Partition :=
  view.memtables.filterMap (fun memtable =>
      (memtable.get key).map (fun partition => clonePartitionLimited partition start rowLimit)) ++
    view.sstables.filterMap (fun sstable =>
      (match start with
        | some start => sstable.getPartitionLimitedRowsFrom key start rowLimit
        | none => sstable.getPartitionLimitedRows key rowLimit).map
        (ColumnOrdinalMapping.forHeader view.schema sstable.header).remapPartition)

def readWithView (rowLimit : ℕ) (start : Option Bytes) : Option Partition :=
  (mergePartitions (view.readSources key rowLimit start)).map (fun merged =>
    let suppressed := applyTableDeletion (view.tableDeletion token) merged
    if rowLimit > 0 then
      let limited := applyDeletions suppressed
      { limited with rows := limited.rows.take rowLimit }
    else suppressed)

def read : Option Partition := view.readWithView token key 0 none

def readLimitedRows (rowLimit : ℕ) : Option Partition :=
  view.readWithView token key rowLimit none

def readLimitedRowsFrom (start : Bytes) (rowLimit : ℕ) : Option Partition :=
  view.readWithView token key rowLimit (some start)

section Streaming

variable {σ : Type} (visitor : σ → Partition → σ × Bool)

def visitAll (state : σ) : List Partition → σ × Bool
  | [] => (state, false)
  | single :: rest =>
    match visitor state single with
    | (state, true) => (state, true)
    | (state, false) => visitAll state rest

/-- Single-row partitions go to the visitor in chunks of `chunkRows`, and a short one ends the
partition; `none` is an exhausted `fuel`. -/
def streamPartitionRows (key : DecoratedKey) (chunkRows : ℕ) :
    (fuel : ℕ) → (start : Option Bytes) → (state : σ) → Option (σ × Bool)
  | 0, _, _ => none
  | fuel + 1, start, state =>
    match view.readWithView token key chunkRows start with
    | none => some (state, false)
    | some chunk =>
      if chunk.rows.isEmpty && start.isNone && chunk.staticRow.isSome then
        some (visitor state chunk)
      else
        match visitAll visitor state (chunk.rows.map (fun row => { chunk with rows := [row] })) with
        | (state, true) => some (state, true)
        | (state, false) =>
          match decide (chunk.rows.length ≥ chunkRows), chunk.rows.getLast? with
          | true, some last =>
            streamPartitionRows key chunkRows fuel (some last.clustering) state
          | _, _ => some (state, false)

end Streaming

def partitionWithMatchingClustering (partition : Partition) (clustering : Bytes) :
    Option Partition :=
  let rows := withKey Row.clustering clustering partition.rows
  if rows.isEmpty && partition.deletion.isLive && partition.staticRow.isNone then none
  else some { partition with rows }

def pointSources (clustering : Bytes) : List Partition :=
  view.memtables.filterMap (fun memtable =>
      (memtable.get key).bind (fun partition =>
        partitionWithMatchingClustering partition clustering)) ++
    view.sstables.filterMap (fun sstable =>
      (sstable.getClusteringRow key clustering).map
        (ColumnOrdinalMapping.forHeader view.schema sstable.header).remapPartition)

def readClusteringRow (clustering : Bytes) : Option Partition :=
  (mergePartitions (view.pointSources key clustering)).bind (fun merged =>
    let suppressed := applyTableDeletion (view.tableDeletion token) merged
    let rows := withKey Row.clustering clustering suppressed.rows
    if rows.isEmpty then none else some { suppressed with rows })

end StoreView

end Ferrosa.Storage
