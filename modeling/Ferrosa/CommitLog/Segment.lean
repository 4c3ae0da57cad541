import Ferrosa.CommitLog.Mutation
import Ferrosa.Lib.Buffer

/-!
# Log segments

A segment is a buffer of fixed capacity that is flushed to its file in sections.
Each section begins with a marker slot, reserved before any entry of the section;
the flush that closes the section writes the marker, linked to the next slot, or
to `0` when no further slot fits.  The file so far always ends in front of a slot
whose marker is not written yet.  The checksum is a parameter.
-/

namespace Ferrosa.CommitLog

open Storage

def headerSize : ℕ := 17

def syncMarkerSize : ℕ := 8

def entryOverhead : ℕ := 12

def initialPosition : ℕ := headerSize + syncMarkerSize

def formatVersion : UInt8 := 1

def writeU64 (value : UInt64) : Bytes := bigEndian 8 value.toNat

structure Segment where
  id : UInt64
  capacity : ℕ
  buffer : Bytes
  /-- The end of the published bytes. -/
  written : ℕ
  position : ℕ
  headMarkerOffset : ℕ
  lastFlushed : ℕ
  isSealed : Bool
  chainClosed : Bool
deriving DecidableEq

structure FileWrite where
  offset : ℕ
  bytes : Bytes
deriving DecidableEq

section

variable (crc : Bytes → UInt32)

def headerFields (id : UInt64) : Bytes := formatVersion :: (writeU64 id ++ writeU32 0)

def headerBytes (id : UInt64) : Bytes := headerFields id ++ writeU32 (crc (headerFields id))

def syncMarkerBytes (id : UInt64) (nextMarkerOffset : UInt32) : Bytes :=
  writeU32 nextMarkerOffset ++ writeU32 (crc (writeU64 id ++ writeU32 nextMarkerOffset))

/-- `payload_size as u32`: the size keeps its low 32 bits. -/
def sizeBytes (payload : Bytes) : Bytes := writeU32 (UInt32.ofNat payload.length)

def entryBytes (payload : Bytes) : Bytes :=
  sizeBytes payload ++ (writeU32 (crc (sizeBytes payload)) ++ (payload ++ writeU32 (crc payload)))

namespace Segment

/-- A segment too small for its header, a marker and an entry is refused. -/
def new (id : UInt64) (capacity : ℕ) : Option Segment :=
  if capacity < initialPosition + entryOverhead then none
  else some
    { id, capacity
      buffer := overwrite (List.replicate capacity 0) 0 (headerBytes crc id)
      written := initialPosition
      position := initialPosition
      headMarkerOffset := headerSize
      lastFlushed := 0
      isSealed := false
      chainClosed := false }

variable (segment : Segment)

def publish (stop : ℕ) : Segment := { segment with written := max segment.written stop }

def allocate (size : ℕ) : Option (ℕ × Segment) :=
  if segment.capacity < segment.position + size then none
  else some (segment.position, { segment with position := segment.position + size })

def allocateAndBeginWrite (size : ℕ) : Option (ℕ × Segment) :=
  if segment.isSealed then none else segment.allocate size

/-- `none` is the panic of `serialize_into`. -/
def writeEntry (offset : ℕ) (mutation : Mutation) : Option Segment := do
  let payload ← mutation.serializeInto (slice segment.buffer (offset + 8) mutation.serializedSize)
  pure (publish { segment with buffer := overwrite segment.buffer offset (entryBytes crc payload) }
    (offset + (entryOverhead + mutation.serializedSize)))

/-- Reserve the entry's bytes and write it; `none` when it does not fit or is refused. -/
def append (mutation : Mutation) : Option (ℕ × Segment) := do
  let (offset, reserved) ← segment.allocateAndBeginWrite (entryOverhead + mutation.serializedSize)
  let written ← writeEntry crc reserved offset mutation
  pure (offset, written)

def sealWrites : Segment := { segment with isSealed := true }

inductive FlushError where
  | nextMarkerTooLarge (next : ℕ)
  | outsideBuffer
  | io
deriving DecidableEq, Repr

def writeHeadMarker (head next : ℕ) : Except FlushError Segment :=
  if 2 ^ 32 ≤ next then .error (.nextMarkerTooLarge next)
  else if segment.buffer.length < head + syncMarkerSize then .error .outsideBuffer
  else .ok (publish { segment with
      buffer := overwrite segment.buffer head (syncMarkerBytes crc segment.id (UInt32.ofNat next)) }
    (head + syncMarkerSize))

/-- The end of what may be flushed.  A slot stays reserved when its predecessor's marker
cannot be written. -/
def closeSection : Segment × Except FlushError ℕ :=
  if segment.chainClosed then (segment, .ok segment.position)
  else if segment.position = segment.headMarkerOffset + syncMarkerSize then
    (segment, .ok segment.headMarkerOffset)
  else
    match segment.allocateAndBeginWrite syncMarkerSize with
    | some (slot, reserved) =>
      match writeHeadMarker crc reserved segment.headMarkerOffset slot with
      | .ok linked => ({ linked with headMarkerOffset := slot }, .ok slot)
      | .error error => (reserved, .error error)
    | none =>
      match writeHeadMarker crc segment.sealWrites segment.headMarkerOffset 0 with
      | .ok linked => ({ linked with chainClosed := true }, .ok linked.position)
      | .error error => (segment.sealWrites, .error error)

/-- The write and the segment once synced; a failed write or sync leaves the watermark. -/
def writeThrough (stop : ℕ) (synced : Bool) : Segment × Option FileWrite :=
  let stop := min stop segment.written
  if stop ≤ segment.lastFlushed then (segment, none)
  else if segment.buffer.length < stop then (segment, none)
  else
    (if synced then { segment with lastFlushed := stop } else segment, some ⟨segment.lastFlushed,
        slice segment.buffer segment.lastFlushed (stop - segment.lastFlushed)⟩)

def flushToDisk (synced : Bool) : Segment × Option FileWrite :=
  match segment.closeSection crc with
  | (closed, .ok stop) => closed.writeThrough stop synced
  | (closed, .error _) => (closed, none)

/-- Whether `flush_to_disk` returns `Ok`: nothing was left to write, or it was synced. -/
def flushSucceeds (synced : Bool) : Bool :=
  match segment.closeSection crc with
  | (_, .error _) => false
  | (closed, .ok stop) =>
    min stop closed.written ≤ closed.lastFlushed ||
      (min stop closed.written ≤ closed.buffer.length && synced)

def maxEntrySize (capacity : ℕ) : ℕ := capacity - (initialPosition + syncMarkerSize)

end Segment

end

end Ferrosa.CommitLog
