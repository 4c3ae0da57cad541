import Ferrosa.Lib.Chunks
import Ferrosa.Lib.Framing
import Ferrosa.Storage.Types

/-!
# External merge sort

Rows are buffered until the spill threshold is reached or the spill pool asks for memory; then
the buffer is sorted and written to a run file.  At the end the runs are merged in groups until
few enough are left, and a k-way merge of those is read row by row.  Run files hold the rows as
length-prefixed records.
-/

namespace Ferrosa.Storage.ExternalSort

structure RowCodec (T : Type) where
  encode : T → Bytes
  decode : Bytes → Option T

inductive SortError where
  | rowTooLong
  | truncatedRecord
  | undecodableRow
  | missingFile
  | fileExists
  /-- A loop that did not end within its fuel. -/
  | unfinished
deriving DecidableEq, Repr

inductive RunFile where
  | run (index : ℕ)
  | merge (generation index : ℕ)
  | parkedRun
deriving DecidableEq, Repr

abbrev Directory := RunFile → Option Bytes

def mergeFanin : ℕ := 64

variable {T : Type} (codec : RowCodec T) (order : T → T → Ordering)

def writeRow (row : T) : Except SortError Bytes :=
  let bytes := codec.encode row
  if bytes.length < Framing.payloadLimit then .ok (Framing.frame bytes) else .error .rowTooLong

def writeRows : List T → Except SortError Bytes
  | [] => .ok []
  | row :: rest => do
      let first ← writeRow codec row
      let others ← writeRows rest
      pure (first ++ others)

/-- The next row and the bytes behind it; fewer than four bytes are the end. -/
def readRow (bytes : Bytes) : Except SortError (Option T × Bytes) :=
  if bytes.length < 4 then .ok (none, [])
  else
    match Framing.nextFrame bytes with
    | none => .error .truncatedRecord
    | some (payload, rest) =>
      match codec.decode payload with
      | none => .error .undecodableRow
      | some row => .ok (some row, rest)

structure HeapEntry (T : Type) where
  row : T
  runIdx : ℕ

def HeapEntry.le (left right : HeapEntry T) : Prop :=
  ((order left.row right.row).then (compare left.runIdx right.runIdx)).isLE

instance : DecidableRel (HeapEntry.le order) := fun _ _ => inferInstanceAs (Decidable (_ = true))

/-- What is left of every run behind its head, and the heads in popping order. -/
structure KWayMerge (T : Type) where
  cursors : List Bytes
  heap : List (HeapEntry T)

namespace KWayMerge

def refill (heap : List (HeapEntry T)) (row : Option T) (runIdx : ℕ) : List (HeapEntry T) :=
  match row with
  | some row => heap.orderedInsert (HeapEntry.le order) ⟨row, runIdx⟩
  | none => heap

def openFrom : List Bytes → KWayMerge T → Except SortError (KWayMerge T)
  | [], merge => .ok merge
  | file :: rest, merge => do
      let first ← readRow codec file
      openFrom rest
        ⟨merge.cursors ++ [first.2], refill order merge.heap first.1 merge.cursors.length⟩

def openRuns (files : List Bytes) : Except SortError (KWayMerge T) :=
  openFrom codec order files ⟨[], []⟩

def nextRow (merge : KWayMerge T) : Except SortError (Option T × KWayMerge T) :=
  match merge.heap with
  | [] => .ok (none, merge)
  | top :: heap => do
      let next ← readRow codec (merge.cursors.getD top.runIdx [])
      pure (some top.row,
        ⟨merge.cursors.set top.runIdx next.2, refill order heap next.1 top.runIdx⟩)

def pullAll : ℕ → KWayMerge T → Except SortError (List T)
  | 0, _ => .error .unfinished
  | fuel + 1, merge => do
      let next ← nextRow codec order merge
      match next.1 with
      | none => pure []
      | some row => do
          let rest ← pullAll fuel next.2
          pure (row :: rest)

end KWayMerge

variable (dir : Directory)

def openFile (file : RunFile) : Except SortError Bytes :=
  match dir file with
  | some bytes => .ok bytes
  | none => .error .missingFile

def openMerge (runs : List RunFile) : Except SortError (KWayMerge T) := do
  let files ← runs.mapM (openFile dir)
  KWayMerge.openRuns codec order files

/-- Every row takes bytes, so the bytes bound the number of rows. -/
def mergeRunsInto (inputs : List RunFile) (out : RunFile) : Except SortError Directory := do
  let files ← inputs.mapM (openFile dir)
  let merger ← KWayMerge.openRuns codec order files
  let rows ← KWayMerge.pullAll codec order (files.flatten.length + 1) merger
  let bytes ← writeRows codec rows
  pure (Function.update dir out (some bytes))

structure ExternalSorter (T : Type) where
  dir : Directory
  thresholdBytes : ℕ
  buffer : List T
  bufferBytes : ℕ
  runs : List RunFile
  spilled : Bool

/-- Whether the buffer has to be spilled first, and whether the sorter then exceeds its fair share.
-/
structure PoolAnswer where
  spillFirst : Bool
  overFairShare : Bool
deriving DecidableEq, Repr

inductive SortedRows (T : Type) where
  | inMemory (rows : List T)
  | merged (merger : KWayMerge T)

def removeFiles (files : List RunFile) : Directory :=
  fun file => if file ∈ files then none else dir file

def mergeGroups (generation : ℕ) :
    List (List RunFile) → Directory → List RunFile → Except SortError (Directory × List RunFile)
  | [], dir, merged => .ok (dir, merged)
  | group :: rest, dir, merged =>
    if group.length = 1 then mergeGroups generation rest dir (merged ++ group)
    else do
      let out := RunFile.merge generation merged.length
      let written ← mergeRunsInto codec order dir group out
      mergeGroups generation rest (removeFiles written group) (merged ++ [out])

namespace ExternalSorter

def new (thresholdBytes : ℕ) : ExternalSorter T :=
  ⟨dir, max thresholdBytes 1, [], 0, [], false⟩

variable (sorter : ExternalSorter T)

def sortedBuffer : List T := sorter.buffer.mergeSort fun a b => (order a b).isLE

def spillBuffer : Except SortError (ExternalSorter T) :=
  if sorter.buffer.isEmpty then .ok sorter
  else do
    let bytes ← writeRows codec (sorter.sortedBuffer order)
    let path := RunFile.run sorter.runs.length
    pure { sorter with
      dir := Function.update sorter.dir path (some bytes)
      buffer := []
      bufferBytes := 0
      runs := sorter.runs ++ [path]
      spilled := true }

def admitPush (answer : PoolAnswer) : Except SortError (ExternalSorter T) :=
  if answer.spillFirst then sorter.spillBuffer codec order else .ok sorter

def push (retainedBytes : T → ℕ) (row : T) (answer : PoolAnswer) :
    Except SortError (ExternalSorter T) := do
  let admitted ← sorter.admitPush codec order answer
  let buffered : ExternalSorter T := { admitted with
    bufferBytes := admitted.bufferBytes + retainedBytes row
    buffer := admitted.buffer ++ [row] }
  if buffered.bufferBytes ≥ buffered.thresholdBytes || answer.overFairShare then
    buffered.spillBuffer codec order
  else .ok buffered

def reduceRunsToFanin : ℕ → ℕ → ExternalSorter T → Except SortError (ExternalSorter T)
  | 0, _, sorter => if sorter.runs.length ≤ mergeFanin then .ok sorter else .error .unfinished
  | fuel + 1, nextGen, sorter =>
    if sorter.runs.length ≤ mergeFanin then .ok sorter
    else do
      let pass ← mergeGroups codec order nextGen (chunks mergeFanin sorter.runs) sorter.dir []
      reduceRunsToFanin fuel (nextGen + 1) { sorter with dir := pass.1, runs := pass.2 }

def finish : Except SortError (SortedRows T × Directory) :=
  if sorter.runs.isEmpty then .ok (.inMemory (sorter.sortedBuffer order), sorter.dir)
  else do
    let spilled ← sorter.spillBuffer codec order
    let reduced ← reduceRunsToFanin codec order spilled.runs.length 0 spilled
    let merger ← openMerge codec order reduced.dir reduced.runs
    pure (.merged merger, reduced.dir)

def pushAll (retainedBytes : T → ℕ) :
    List (T × PoolAnswer) → ExternalSorter T → Except SortError (ExternalSorter T)
  | [], sorter => .ok sorter
  | (row, answer) :: rest, sorter => do
      let pushed ← sorter.push codec order retainedBytes row answer
      pushAll retainedBytes rest pushed

end ExternalSorter

namespace SortedRows

def next : SortedRows T → Except SortError (Option T × SortedRows T)
  | inMemory [] => .ok (none, inMemory [])
  | inMemory (row :: rest) => .ok (some row, inMemory rest)
  | merged merger => do
      let pulled ← merger.nextRow codec order
      pure (pulled.1, merged pulled.2)

def skip : ℕ → SortedRows T → Except SortError (SortedRows T)
  | 0, result => .ok result
  | count + 1, result => do
      let pulled ← next codec order result
      skip count pulled.2

/-- The parked run must not exist. -/
def intoDiskBacked : SortedRows T → Except SortError (SortedRows T)
  | merged merger => .ok (merged merger)
  | inMemory rows =>
    if (dir .parkedRun).isSome then .error .fileExists
    else do
      let bytes ← writeRows codec rows
      let merger ← openMerge codec order (Function.update dir .parkedRun (some bytes)) [.parkedRun]
      pure (merged merger)

end SortedRows

end Ferrosa.Storage.ExternalSort
