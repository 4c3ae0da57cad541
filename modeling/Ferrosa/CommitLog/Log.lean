import Ferrosa.CommitLog.Checkpoint
import Ferrosa.CommitLog.SegmentLayout

/-!
# The commit log

One active segment takes the appends; full segments are rotated into a list of
closed ones.  Each segment remembers, for every table with a mutation in it, the
last offset of such a mutation.  A closed segment whose tables were all flushed
past their offsets is deleted.
-/

namespace Ferrosa.CommitLog

open Storage

structure LiveSegment where
  log : SegmentLog
  dirtyTables : FiniteMap TableId ℕ

namespace LiveSegment

variable (segment : LiveSegment)

def id : UInt64 := segment.log.segment.id

def markTableDirty (tableId : TableId) (offset : ℕ) : LiveSegment :=
  { segment with
    dirtyTables := segment.dirtyTables.insert tableId
      (max ((segment.dirtyTables.lookup tableId).getD 0) offset) }

/-- The members of a batch are marked at consecutive offsets. -/
def markTablesDirty : LiveSegment → ℕ → List TableId → LiveSegment
  | segment, _, [] => segment
  | segment, offset, tableId :: rest =>
    (segment.markTableDirty tableId offset).markTablesDirty (offset + 1) rest

def discardTableIfDominated (tableId : TableId) (upTo : ℕ) : LiveSegment :=
  match segment.dirtyTables.lookup tableId with
  | none => segment
  | some offset =>
    if offset ≤ upTo then { segment with dirtyTables := segment.dirtyTables.erase tableId }
    else segment

def discardTableUnconditional (tableId : TableId) : LiveSegment :=
  { segment with dirtyTables := segment.dirtyTables.erase tableId }

def isDirtyEmpty : Bool := segment.dirtyTables.keys.isEmpty

/-- The segment after a discard, and whether it is now clean; one newer than the position stays. -/
def discard (tableId : TableId) (position : CommitLogPosition) : LiveSegment × Bool :=
  if segment.id < position.segmentId then
    let discarded := segment.discardTableUnconditional tableId
    (discarded, discarded.isDirtyEmpty)
  else if segment.id = position.segmentId then
    let discarded := segment.discardTableIfDominated tableId position.offset
    (discarded, discarded.isDirtyEmpty)
  else (segment, false)

end LiveSegment

structure Log where
  segmentSize : ℕ
  archiveEnabled : Bool
  strictArchive : Bool
  active : LiveSegment
  closedSegments : List LiveSegment
  nextSegmentId : UInt64
  archived : List UInt64

namespace Log

inductive LogError where
  | entryTooLarge (size : ℕ)
  | rotationFailed

variable (crc : Bytes → UInt32)

/-- The following id; a log never gets as far as the last one. -/
def followingId (id : UInt64) : Option UInt64 :=
  if id.toNat + 1 < 2 ^ 64 then some (id + 1) else none

def newSegment (id : UInt64) (segmentSize : ℕ) : Option LiveSegment :=
  (Segment.new crc id segmentSize).map fun segment => ⟨⟨segment, []⟩, ∅⟩

def newWithFirstSegmentId (segmentSize : ℕ) (archiveEnabled : Bool) (firstSegmentId : UInt64) :
    Option Log := do
  let active ← newSegment crc firstSegmentId segmentSize
  let nextSegmentId ← followingId firstSegmentId
  pure
    { segmentSize, archiveEnabled, active, nextSegmentId
      strictArchive := false
      closedSegments := []
      archived := [] }

variable (log : Log)

def segments : List LiveSegment := log.active :: log.closedSegments

def flushSegment (segment : LiveSegment) (synced : Bool) : LiveSegment :=
  { segment with
    log := { segment.log with segment := (segment.log.segment.flushToDisk crc synced).1 } }

def sealSegment (segment : LiveSegment) : LiveSegment :=
  { segment with log := { segment.log with segment := segment.log.segment.sealWrites } }

/-- `force_sync`, or a flush of the sync strategy. -/
def forceSync (synced : Bool) : Log :=
  { log with active := flushSegment crc log.active synced }

def forceSyncSucceeds (synced : Bool) : Bool :=
  log.active.log.segment.flushSucceeds crc synced

/-- The rotated log, and whether the final flush of the old segment succeeded.  The old
segment is closed in either case. -/
def forceRotate (synced : Bool) : Option (Log × Bool) := do
  let active ← newSegment crc log.nextSegmentId log.segmentSize
  let nextSegmentId ← followingId log.nextSegmentId
  let old := sealSegment log.active
  pure ({ log with
    active, nextSegmentId
    closedSegments := log.closedSegments ++ [flushSegment crc old synced] },
    old.log.segment.flushSucceeds crc synced)

/-- Write the record into the active segment and mark its tables; `none` when it does not
fit. -/
def appendActive (mutation : Mutation) (batchTables : Option (List TableId)) :
    Option (Log × CommitLogPosition) := do
  let (offset, segment) ← log.active.log.segment.append crc mutation
  let written : LiveSegment :=
    { log.active with log := ⟨segment, log.active.log.appended ++ [(offset, mutation)]⟩ }
  let marked :=
    match batchTables with
    | some tables => written.markTablesDirty offset tables
    | none => written.markTableDirty mutation.tableId offset
  pure ({ log with active := marked }, ⟨log.active.id, offset⟩)

/-- `none` is the panic of `serialize_into`. A segment without room is rotated, and a fresh one has
room for every entry that is not too large. -/
def appendRecord (mutation : Mutation) (batchTables : Option (List TableId)) (synced : Bool) :
    Option (Log × Except LogError CommitLogPosition) :=
  if Mutation.acceptsRows mutation.rows then
    if Segment.maxEntrySize log.segmentSize < mutation.entrySize then
      some (log, .error (.entryTooLarge mutation.entrySize))
    else
      match log.appendActive crc mutation batchTables with
      | some (appended, position) => some (appended, .ok position)
      | none => do
          let (rotated, flushed) ← log.forceRotate crc synced
          if flushed then
            let (appended, position) ← rotated.appendActive crc mutation batchTables
            pure (appended, .ok position)
          else pure (rotated, .error .rotationFailed)
  else none

def dominatedByArchive (id : UInt64) : Bool :=
  if log.archiveEnabled || log.strictArchive then id ∈ log.archived else true

def deleteSegments (closed deleted : List LiveSegment) : Log × List LiveSegment :=
  ({ log with
    closedSegments := closed
    archived := log.archived.filter fun id => id ∉ deleted.map LiveSegment.id }, deleted)

def discardTable (tableId : TableId) (position : CommitLogPosition) : Log × List LiveSegment :=
  let discarded := log.closedSegments.map fun segment => segment.discard tableId position
  let isDeleted := fun (segment : LiveSegment × Bool) =>
    segment.2 && log.dominatedByArchive segment.1.id
  { log with active := (log.active.discard tableId position).1 }.deleteSegments
    ((discarded.filter fun segment => !isDeleted segment).map Prod.fst)
    ((discarded.filter isDeleted).map Prod.fst)

def discardCompletedSegments : Log × List LiveSegment :=
  let isDeleted := fun (segment : LiveSegment) =>
    segment.isDirtyEmpty && log.dominatedByArchive segment.id
  log.deleteSegments (log.closedSegments.filter fun segment => !isDeleted segment)
    (log.closedSegments.filter isDeleted)

def markArchived (segmentId : UInt64) : Log :=
  { log with archived := segmentId :: log.archived }

def retainForArchive : Log := { log with strictArchive := true }

end Log

end Ferrosa.CommitLog
