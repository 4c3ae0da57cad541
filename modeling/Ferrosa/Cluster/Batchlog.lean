import Ferrosa.CommitLog.Mutation
import Ferrosa.Lib.FiniteMap

/-!
# Logged batches

A coordinator stores a batch in its own batchlog and sends it to other nodes, writes every row,
and deletes the batch if every write succeeded.  Every node replays the stale batches of its
batchlog to its own storage.  Messages are lost, delayed and repeated at will, and the steps of
coordinators and replay passes interleave.
-/

namespace Ferrosa.Cluster.Batches

open CommitLog Storage

structure BatchlogEntry where
  id : MutationId
  createdAt : Int64
  mutations : List Mutation
deriving DecidableEq

inductive BatchlogError where
  | tooShort
  | truncatedMutationLength
  | truncatedMutationBody
  | mutation (error : MutationError)
deriving DecidableEq, Repr

namespace BatchlogEntry

/-- `none` where the bytes of a mutation cannot be written. -/
def serialize (entry : BatchlogEntry) : Option Bytes := do
  let bodies ← entry.mutations.mapM fun mutation =>
    mutation.serializeInto (List.replicate mutation.serializedSize 0)
  pure (entry.id.1 ++ (writeI64 entry.createdAt ++
    (writeU16 (UInt16.ofNat entry.mutations.length) ++
      bodies.flatMap fun body => writeU32 (UInt32.ofNat body.length) ++ body)))

def deserializeMutations : ℕ → Bytes → Except BatchlogError (List Mutation)
  | 0, _ => .ok []
  | count + 1, data =>
    if data.length < 4 then .error .truncatedMutationLength
    else
      let length := ofBigEndian (data.take 4)
      if (data.drop 4).length < length then .error .truncatedMutationBody
      else
        match Mutation.deserializeFrom ((data.drop 4).take length) with
        | .error error => .error (.mutation error)
        | .ok mutation =>
          match deserializeMutations count ((data.drop 4).drop length) with
          | .error error => .error error
          | .ok rest => .ok (mutation :: rest)

def deserialize (data : Bytes) : Except BatchlogError BatchlogEntry :=
  if short : data.length < 26 then .error .tooShort
  else
    let count := ofBigEndian ((data.drop 24).take 2)
    match deserializeMutations count (data.drop 26) with
    | .error error => .error error
    | .ok mutations => .ok
        { id := ⟨data.take 16, by simp; omega⟩
          createdAt := (UInt64.ofNat (ofBigEndian ((data.drop 16).take 8))).toInt64
          mutations := mutations }

/-- The age saturates. -/
def isStale (entry : BatchlogEntry) (now threshold : Int64) : Bool :=
  max Int64.minValue.toInt (min Int64.maxValue.toInt (now.toInt - entry.createdAt.toInt)) >
    threshold.toInt

end BatchlogEntry

structure BatchlogManager where
  staleThreshold : Int64
  entries : FiniteMap MutationId BatchlogEntry
  keyed : ∀ id entry, entries.lookup id = some entry → entry.id = id

namespace BatchlogManager

def new (staleThreshold : Int64) : BatchlogManager := ⟨staleThreshold, ∅, by simp⟩

variable (log : BatchlogManager)

def writeEntry (entry : BatchlogEntry) : BatchlogManager where
  staleThreshold := log.staleThreshold
  entries := log.entries.insert entry.id entry
  keyed := by
    intro id other found
    rw [FiniteMap.lookup_insert_ite] at found
    split_ifs at found with same
    · rw [← Option.some.inj found, same]
    · exact log.keyed id other found

def deleteEntry (id : MutationId) : BatchlogManager where
  staleThreshold := log.staleThreshold
  entries := log.entries.erase id
  keyed := by
    intro other entry found
    rw [FiniteMap.lookup_erase_ite] at found
    split_ifs at found
    exact log.keyed other entry found

def getEntry (id : MutationId) : Option BatchlogEntry := log.entries.lookup id

/-- Oldest first. -/
def scanStale (now : Int64) : List BatchlogEntry :=
  KeyedFold.sortByKey BatchlogEntry.createdAt ((log.entries.entries.map (·.2)).filter fun entry =>
    entry.isStale now log.staleThreshold)

end BatchlogManager

structure RowWrite where
  keyspace : String
  table : String
  key : DecoratedKey
  row : Row
  timestamp : Int64
deriving DecidableEq

def BatchlogEntry.rowWrites (entry : BatchlogEntry) : List RowWrite :=
  entry.mutations.flatMap fun mutation =>
    mutation.rows.map fun row =>
      ⟨mutation.keyspace, mutation.table, mutation.key, row, mutation.timestamp⟩

structure Coordination (ι : Type) where
  node : ι
  entry : BatchlogEntry
  pending : List RowWrite
  failed : Bool
  deleting : Bool

structure Replay where
  entry : BatchlogEntry
  remaining : List RowWrite

/-- `accepted` are the rows that a successful `coordinate_write`, or `write` of a replica, wrote. -/
structure ClusterState (ι : Type) where
  logs : ι → BatchlogManager
  replays : ι → List Replay
  batches : FiniteMap MutationId (Coordination ι)
  accepted : List RowWrite

inductive Event (ι : Type) where
  | logBatch (node : ι) (entry : BatchlogEntry)
  | deliverWrite (id : MutationId) (node : ι)
  | coordinateWrite (id : MutationId) (position : ℕ) (succeeds : Bool)
  | deleteBatch (id : MutationId)
  | deliverDelete (id : MutationId) (node : ι)
  | scan (node : ι) (now : Int64)
  | replayWrite (node : ι) (succeeds : Bool)
  | replayDelete (node : ι)

namespace ClusterState

variable {ι : Type} [DecidableEq ι] (replica : ι → RowWrite → Bool) (cluster : ClusterState ι)

def start (staleThreshold : Int64) : ClusterState ι where
  logs := fun _ => .new staleThreshold
  replays := fun _ => []
  batches := ∅
  accepted := []

def setLog (node : ι) (log : BatchlogManager) : ClusterState ι :=
  { cluster with logs := Function.update cluster.logs node log }

def setReplays (node : ι) (replays : List Replay) : ClusterState ι :=
  { cluster with replays := Function.update cluster.replays node replays }

def setBatch (batch : Coordination ι) : ClusterState ι :=
  { cluster with batches := cluster.batches.insert batch.entry.id batch }

def received (entry : BatchlogEntry) : Option BatchlogEntry := do
  let bytes ← entry.serialize
  (BatchlogEntry.deserialize bytes).toOption

def accept (succeeds : Bool) (row : RowWrite) : ClusterState ι :=
  if succeeds then { cluster with accepted := row :: cluster.accepted } else cluster

/-- An event that is not enabled changes nothing. -/
def step : Event ι → ClusterState ι
  | .logBatch node entry =>
    if entry.mutations.isEmpty || (cluster.batches.lookup entry.id).isSome then cluster
    else (cluster.setLog node ((cluster.logs node).writeEntry entry)).setBatch
      ⟨node, entry, entry.rowWrites, false, false⟩
  | .deliverWrite id node =>
    match cluster.batches.lookup id with
    | some batch =>
      match received batch.entry with
      | some entry =>
        if node = batch.node then cluster
        else cluster.setLog node ((cluster.logs node).writeEntry entry)
      | none => cluster
    | none => cluster
  | .coordinateWrite id position succeeds =>
    match cluster.batches.lookup id with
    | some batch =>
      match batch.pending[position]? with
      | some row =>
        (cluster.accept succeeds row).setBatch { batch with
          pending := batch.pending.eraseIdx position
          failed := batch.failed || !succeeds }
      | none => cluster
    | none => cluster
  | .deleteBatch id =>
    match cluster.batches.lookup id with
    | some batch =>
      if batch.pending.isEmpty && !batch.failed then
        (cluster.setLog batch.node ((cluster.logs batch.node).deleteEntry id)).setBatch
          { batch with deleting := true }
      else cluster
    | none => cluster
  | .deliverDelete id node =>
    match cluster.batches.lookup id with
    | some batch =>
      if batch.deleting && node ≠ batch.node then
        cluster.setLog node ((cluster.logs node).deleteEntry id)
      else cluster
    | none => cluster
  | .scan node now =>
    match cluster.replays node with
    | [] => cluster.setReplays node (((cluster.logs node).scanStale now).map fun entry =>
      ⟨entry, entry.rowWrites⟩)
    | _ :: _ => cluster
  | .replayWrite node succeeds =>
    match cluster.replays node with
    | ⟨entry, row :: remaining⟩ :: later =>
      (cluster.accept (succeeds && replica node row) row).setReplays node
        (⟨entry, remaining⟩ :: later)
    | _ => cluster
  | .replayDelete node =>
    match cluster.replays node with
    | ⟨entry, []⟩ :: later =>
      (cluster.setLog node ((cluster.logs node).deleteEntry entry.id)).setReplays node later
    | _ => cluster

end ClusterState

end Ferrosa.Cluster.Batches
