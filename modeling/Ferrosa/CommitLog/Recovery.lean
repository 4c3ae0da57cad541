import Ferrosa.CommitLog.DurableReplay
import Ferrosa.CommitLog.Log

/-!
# Crashes and replay

A node owns a checkpoint file and segment files, and while it is up a log.  A
crash leaves the files of the log's segments, each with its durable bytes in front
and arbitrary bytes behind them.  Opening the log again starts a new generation of
segments and replays the files one after the other; a crash may interrupt that at
any point.

The fields `source` and `generation` of a file, and the last three fields of a node,
only record what happened.
-/

namespace Ferrosa.CommitLog

open Storage SegmentLog

structure StoredFile where
  id : UInt64
  bytes : Bytes
  source : SegmentLog
  generation : ℕ

structure CurrentFile where
  file : StoredFile
  rejected : Bool
  pending : List (CommitLogPosition × Mutation)

structure Replay where
  checkpoint : Positions
  current : Option CurrentFile
  remaining : List StoredFile

inductive Phase where
  | down
  | replaying (log : Log) (replay : Replay)
  | running (log : Log)

structure Discard where
  tableId : TableId
  position : CommitLogPosition
  generation : ℕ

structure Node where
  segmentSize : ℕ
  archiveEnabled : Bool
  checkpoint : CheckpointFile
  files : List StoredFile
  phase : Phase
  generation : ℕ
  discards : List Discard
  /-- What the current generation handed to the replay callback. -/
  delivered : List (CommitLogPosition × Mutation)

def scanSegmentFiles (files : List StoredFile) : List StoredFile :=
  files.mergeSort fun first second => first.id ≤ second.id

/-- Above every id on disk or in the checkpoint. -/
def firstSegmentId (files : List StoredFile) (checkpoint : Positions) : Option UInt64 :=
  Log.followingId (((files.getLast?.map StoredFile.id).toList ++
      checkpoint.entries.map fun entry => entry.2.segmentId).foldl max 0)

/-- A file too short for a header, or of zeros only. -/
def skipTornSegment (bytes : Bytes) : Bool :=
  bytes.length < headerSize || bytes.all (· == 0)

def dominated (checkpoint : Positions) (position : CommitLogPosition) (mutation : Mutation) :
    Bool :=
  match checkpoint.lookup mutation.tableId with
  | some flushed => position ≤ flushed
  | none => false

def removeFile (files : List StoredFile) (file : StoredFile) : List StoredFile :=
  files.filter fun other => other.id ≠ file.id

/-- The files segments leave behind.  Those that may vanish need not. -/
inductive Leaves (crc : Bytes → UInt32) (generation : ℕ) (mayVanish : SegmentLog → Prop) :
    List LiveSegment → List StoredFile → Prop where
  | nil : Leaves crc generation mayVanish [] []
  | vanish {segment rest files} : mayVanish segment.log →
      Leaves crc generation mayVanish rest files →
      Leaves crc generation mayVanish (segment :: rest) files
  | leave {segment rest files} (bytes : Bytes) : HoldsDurable segment.log bytes →
      ChecksumsReject crc segment.log bytes → Leaves crc generation mayVanish rest files →
      Leaves crc generation mayVanish (segment :: rest)
        (⟨segment.id, bytes, segment.log, generation⟩ :: files)

inductive NodeEvent where
  | append (mutation : Mutation)
  | transaction (members : List Mutation)
  | rotate
  | sync
  | discardCompleted (tableId : TableId) (position : CommitLogPosition)
  | discardCompletedSegments
  | markArchived (segmentId : UInt64)
  | retainForArchive
  | crash
  | openLog
  | replaySync
  | skipTorn
  | readFile
  | skipDominated
  | deliver
  | failReplay
  | finishFile
  | finishReplay

namespace Node

/-- The checkpoint after `discard_completed`, when it could be loaded. -/
def advanceCheckpoint (node : Node) (tableId : TableId) (position : CommitLogPosition) :
    Option CheckpointFile :=
  (CommitLogCheckpoint.load node.checkpoint).map fun positions =>
    CommitLogCheckpoint.save (CommitLogCheckpoint.advance positions tableId position)

inductive Step (crc : Bytes → UInt32) : NodeEvent → Node → Node → Prop where
  | append {node log mutation synced appended result} : node.phase = .running log →
      log.appendRecord crc mutation none synced = some (appended, result) →
      Step crc (.append mutation) node { node with phase := .running appended }
  | transaction {node log members mutationId token record synced appended result} :
      node.phase = .running log →
      TransactionRecord.encode mutationId token members (Segment.maxEntrySize log.segmentSize) =
        .ok (some record) →
      log.appendRecord crc record (some (members.map Mutation.tableId)) synced =
        some (appended, result) →
      Step crc (.transaction members) node { node with phase := .running appended }
  | rotate {node log synced rotated flushed} : node.phase = .running log →
      log.forceRotate crc synced = some (rotated, flushed) →
      Step crc .rotate node { node with phase := .running rotated }
  | sync {node log} (synced : Bool) : node.phase = .running log →
      Step crc .sync node { node with phase := .running (log.forceSync crc synced) }
  /-- A deleted file may stay when the unlink fails, and the old checkpoint when it cannot be
  replaced. -/
  | discardCompleted {node log tableId position left checkpoint} : node.phase = .running log →
      Leaves crc node.generation (fun _ => True) (log.discardTable tableId position).2 left →
      checkpoint = node.checkpoint ∨ node.advanceCheckpoint tableId position = some checkpoint →
      Step crc (.discardCompleted tableId position) node { node with
          phase := .running (log.discardTable tableId position).1
          files := node.files ++ left
          checkpoint
          discards := ⟨tableId, position, node.generation⟩ :: node.discards }
  | discardCompletedSegments {node log left} : node.phase = .running log →
      Leaves crc node.generation (fun _ => True) log.discardCompletedSegments.2 left →
      Step crc .discardCompletedSegments node { node with
          phase := .running log.discardCompletedSegments.1
          files := node.files ++ left }
  | markArchived {node log segmentId} : node.phase = .running log →
      Step crc (.markArchived segmentId) node
        { node with phase := .running (log.markArchived segmentId) }
  | retainForArchive {node log} : node.phase = .running log →
      Step crc .retainForArchive node { node with phase := .running log.retainForArchive }
  | crash {node log left} : (node.phase = .running log ∨
      ∃ replay, node.phase = .replaying log replay) →
      Leaves crc node.generation (fun source => source.segment.lastFlushed = 0) log.segments left →
      Step crc .crash node { node with phase := .down, files := node.files ++ left }
  | openLog {node positions firstId log} : node.phase = .down →
      CommitLogCheckpoint.load node.checkpoint = some positions →
      firstSegmentId (scanSegmentFiles node.files) positions = some firstId →
      Log.newWithFirstSegmentId crc node.segmentSize node.archiveEnabled firstId = some log →
      Step crc .openLog node { node with
          phase := .replaying log ⟨positions, none, scanSegmentFiles node.files⟩
          generation := node.generation + 1
          delivered := [] }
  | replaySync {node log replay} (synced : Bool) : node.phase = .replaying log replay →
      Step crc .replaySync node { node with phase := .replaying (log.forceSync crc synced) replay }
  | skipTorn {node log replay file rest} (unlinked : Bool) :
      node.phase = .replaying log replay → replay.current = none →
      replay.remaining = file :: rest → skipTornSegment file.bytes = true →
      Step crc .skipTorn node { node with
          phase := .replaying log { replay with remaining := rest }
          files := if unlinked then removeFile node.files file else node.files }
  | readFile {node log replay file rest read} : node.phase = .replaying log replay →
      replay.current = none → replay.remaining = file :: rest →
      skipTornSegment file.bytes = false → readAll crc file.bytes = .ok read →
      Step crc .readFile node { node with
          phase := .replaying log { replay with
              current := some ⟨file, read.rejectedRecords, read.entries⟩
              remaining := rest } }
  | skipDominated {node log replay current position mutation pending} :
      node.phase = .replaying log replay → replay.current = some current →
      current.pending = (position, mutation) :: pending →
      dominated replay.checkpoint position mutation = true →
      Step crc .skipDominated node { node with
          phase := .replaying log { replay with current := some { current with pending } } }
  /-- The callback keeps the mutation in the new generation. -/
  | deliver {node log replay current position mutation pending synced appended retained} :
      node.phase = .replaying log replay → replay.current = some current →
      current.pending = (position, mutation) :: pending →
      dominated replay.checkpoint position mutation = false →
      log.appendRecord crc mutation none synced = some (appended, .ok retained) →
      Step crc .deliver node { node with
          phase := .replaying appended { replay with current := some { current with pending } }
          delivered := (position, mutation) :: node.delivered }
  /-- A mutation that cannot be kept stops the replay. -/
  | failReplay {node log replay current position mutation pending synced appended error left} :
      node.phase = .replaying log replay → replay.current = some current →
      current.pending = (position, mutation) :: pending →
      dominated replay.checkpoint position mutation = false →
      log.appendRecord crc mutation none synced = some (appended, .error error) →
      Leaves crc node.generation (fun source => source.segment.lastFlushed = 0)
        appended.segments left →
      Step crc .failReplay node { node with phase := .down, files := node.files ++ left }
  /-- The new generation is synced before the file is unlinked; a file with rejected records
  stays. -/
  | finishFile {node log replay current synced} (unlinked : Bool) :
      node.phase = .replaying log replay → replay.current = some current →
      current.pending = [] → log.forceSyncSucceeds crc synced = true →
      Step crc .finishFile node { node with
          phase := .replaying (log.forceSync crc synced) { replay with current := none }
          files :=
            if unlinked && !current.rejected then removeFile node.files current.file
            else node.files }
  | finishReplay {node log replay} : node.phase = .replaying log replay →
      replay.current = none → replay.remaining = [] →
      Step crc .finishReplay node { node with phase := .running log }

def fresh (segmentSize : ℕ) (archiveEnabled : Bool) : Node :=
  { segmentSize, archiveEnabled
    checkpoint := ∅
    files := []
    phase := .down
    generation := 0
    discards := []
    delivered := [] }

end Node

end Ferrosa.CommitLog
