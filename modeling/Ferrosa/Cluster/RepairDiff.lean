import Ferrosa.Lib.SortedMap
import Ferrosa.Storage.MergedRows

/-!
# The anti-entropy diff

Two replicas compare the partitions they hold over a token range.  A partition
only one side holds is streamed whole.  A partition both hold is reconciled row
by row, and only the rows that would change the other side travel, together with
the partition deletion and the static row.

A hash is represented by what is hashed, so two hashes are equal only if their
inputs are.
-/

namespace Ferrosa.Cluster

open Storage KeyedFold

structure RowContent where
  clustering : Bytes
  cells : List (UInt16 × Option Bytes × Int64)
  deletion : DeletionTime
  primaryKeyLiveness : LivenessInfo
deriving DecidableEq

/-- What `row_content_hash` feeds to its hasher: of a cell only the column, the value and the
timestamp. -/
def rowContentHash (row : Row) : RowContent where
  clustering := row.clustering
  cells := row.cells.map (fun cell => (cell.1, cell.2.value, cell.2.timestamp))
  deletion := row.deletion
  primaryKeyLiveness := row.primaryKeyLiveness

def newestRowTimestamp (row : Row) : Int64 :=
  let newestCell := row.cells.foldl
    (fun newest cell => if cell.2.timestamp > newest then cell.2.timestamp else newest)
    row.primaryKeyLiveness.timestamp
  if row.deletion.markedForDeleteAt > newestCell then row.deletion.markedForDeleteAt
  else newestCell

def cellsByColumn (row : Row) : SortedMap (UInt16 ×ₗ WithBot Bytes) CellValue :=
  SortedMap.ofList (row.cells.map (fun cell => (cellKey cell, cell.2)))

def contributesTo (source target : Row) : Bool :=
  if source.deletion.markedForDeleteAt > target.deletion.markedForDeleteAt ∨
      source.primaryKeyLiveness.timestamp > target.primaryKeyLiveness.timestamp then
    true
  else
    (cellsByColumn source).entries.any (fun entry =>
      ((cellsByColumn target).get? entry.1).all (fun existing => entry.2.supersedes existing))

def hasEqualTimestampCellConflict (a b : Row) : Bool :=
  (cellsByColumn a).entries.any (fun entry =>
    ((cellsByColumn b).get? entry.1).any (fun other =>
      entry.2.timestamp == other.timestamp && entry.2.value != other.value))

inductive RowVerdict where
  | agree
  | stream (toA toB tiebreak : Bool)
deriving DecidableEq, Repr

def reconcileRow (a b : Row) : RowVerdict :=
  if rowContentHash a = rowContentHash b then .agree
  else .stream (contributesTo b a) (contributesTo a b)
    (newestRowTimestamp a == newestRowTimestamp b && hasEqualTimestampCellConflict a b)

structure PartitionMerge where
  toB : List Row
  toA : List Row
  tiebreakUsed : Bool
  partitionStateDiverged : Bool
deriving DecidableEq, Repr

def rowsByClustering (partition : Partition) : SortedMap Bytes Row :=
  SortedMap.ofList (partition.rows.map (fun row => (row.clustering, row)))

def reconcileStep (rowsB : SortedMap Bytes Row) (merge : PartitionMerge)
    (entry : Bytes × Row) : PartitionMerge :=
  match rowsB.get? entry.1 with
  | none => { merge with toB := merge.toB ++ [entry.2] }
  | some rowB =>
    match reconcileRow entry.2 rowB with
    | .agree => merge
    | .stream toA toB tiebreak =>
      { toA := if toA then merge.toA ++ [rowB] else merge.toA
        toB := if toB then merge.toB ++ [entry.2] else merge.toB
        tiebreakUsed := merge.tiebreakUsed || tiebreak || !(toA || toB)
        partitionStateDiverged := merge.partitionStateDiverged }

def missingStep (rowsA : SortedMap Bytes Row) (merge : PartitionMerge) (entry : Bytes × Row) :
    PartitionMerge :=
  if (rowsA.get? entry.1).isSome then merge
  else { merge with toA := merge.toA ++ [entry.2] }

def mergePartitionRows (a b : Partition) : PartitionMerge :=
  let diverged := decide (a.deletion ≠ b.deletion ∨ a.staticRow ≠ b.staticRow)
  let reconciled := (rowsByClustering a).entries.foldl (reconcileStep (rowsByClustering b))
    ⟨[], [], diverged, diverged⟩
  (rowsByClustering b).entries.foldl (missingStep (rowsByClustering a)) reconciled

def partitionWithRows (source : Partition) (rows : List Row) : Partition := { source with rows }

/-- The digest covers every field of the partition. -/
def partitionMerkleHash (partition : Partition) : Partition := partition

inductive RepairDecision where
  | aToB (partition : Partition)
  | bToA (partition : Partition)
  | tie (key : DecoratedKey)
deriving DecidableEq

structure RepairPlan where
  aToB : List Partition
  bToA : List Partition
  timestampTies : List DecoratedKey
deriving DecidableEq

namespace RepairPlan

def empty : RepairPlan := ⟨[], [], []⟩

def pushMergeInto (plan : RepairPlan) (a b : Partition) : RepairPlan :=
  let merge := mergePartitionRows a b
  let force := merge.partitionStateDiverged
  { aToB := if force || !merge.toB.isEmpty then plan.aToB ++ [partitionWithRows a merge.toB]
      else plan.aToB
    bToA := if force || !merge.toA.isEmpty then plan.bToA ++ [partitionWithRows b merge.toA]
      else plan.bToA
    timestampTies := if merge.tiebreakUsed then plan.timestampTies ++ [a.key]
      else plan.timestampTies }

end RepairPlan

/-- The hash map of the source, with its entries in key order: no key's decision depends on
another's. -/
def partitionsByKey (partitions : List Partition) : SortedMap Bytes Partition :=
  SortedMap.ofList (partitions.map (fun partition => (partition.key.key, partition)))

def diffStep (bByKey : SortedMap Bytes Partition) (plan : RepairPlan)
    (entry : Bytes × Partition) : RepairPlan :=
  match bByKey.get? entry.1 with
  | none => { plan with aToB := plan.aToB ++ [entry.2] }
  | some b =>
    if partitionMerkleHash entry.2 ≠ partitionMerkleHash b then plan.pushMergeInto entry.2 b
    else plan

def onlyBStep (aByKey : SortedMap Bytes Partition) (plan : RepairPlan)
    (entry : Bytes × Partition) : RepairPlan :=
  if (aByKey.get? entry.1).isSome then plan
  else { plan with bToA := plan.bToA ++ [entry.2] }

def diffPartitionSets (a b : List Partition) : RepairPlan :=
  let compared := (partitionsByKey a).entries.foldl (diffStep (partitionsByKey b)) .empty
  (partitionsByKey b).entries.foldl (onlyBStep (partitionsByKey a)) compared

def emitMerge (a b : Partition) : List RepairDecision :=
  if partitionMerkleHash a ≠ partitionMerkleHash b then
    let merge := mergePartitionRows a b
    let force := merge.partitionStateDiverged
    (if merge.tiebreakUsed then [.tie a.key] else []) ++
      (if force || !merge.toB.isEmpty then [.aToB (partitionWithRows a merge.toB)] else []) ++
      (if force || !merge.toA.isEmpty then [.bToA (partitionWithRows b merge.toA)] else [])
  else []

def diffPartitionSetsStreaming : List Partition → List Partition → List RepairDecision
  | [], [] => []
  | a :: as, [] => .aToB a :: diffPartitionSetsStreaming as []
  | [], b :: bs => .bToA b :: diffPartitionSetsStreaming [] bs
  | a :: as, b :: bs =>
    match compare a.key b.key with
    | .lt => .aToB a :: diffPartitionSetsStreaming as (b :: bs)
    | .gt => .bToA b :: diffPartitionSetsStreaming (a :: as) bs
    | .eq => emitMerge a b ++ diffPartitionSetsStreaming as bs
termination_by as bs => as.length + bs.length

def mergeInto (held received : List Partition) : List Partition :=
  (((held ++ received).map Partition.key).insertionSort (· ≤ ·)).dedup.filterMap
    (fun key => mergePartitions (withKey Partition.key key (held ++ received)))

end Ferrosa.Cluster
