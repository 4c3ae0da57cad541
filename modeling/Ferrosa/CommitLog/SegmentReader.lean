import Ferrosa.CommitLog.Segment
import Ferrosa.CommitLog.TransactionRecord

/-!
# Reading a segment file

The reader follows the marker chain.  Inside a section it reads entries until one
does not fit or fails a checksum, and then goes on with the next section.  It also
says whether any nonempty bytes were rejected on the way.
-/

namespace Ferrosa.CommitLog

open Storage

structure SegmentDescriptor where
  version : UInt8
  segmentId : UInt64
deriving DecidableEq, Repr

structure CommitLogPosition where
  segmentId : UInt64
  offset : ℕ
deriving DecidableEq, Repr

structure SegmentRead where
  entries : List (CommitLogPosition × Mutation)
  rejectedRecords : Bool
deriving DecidableEq

def SegmentRead.followedBy (first second : SegmentRead) : SegmentRead :=
  ⟨first.entries ++ second.entries, first.rejectedRecords || second.rejectedRecords⟩

inductive ReaderError where
  | tooShort (length : ℕ)
  | headerChecksum
  | unsupportedVersion (version : UInt8)
deriving DecidableEq, Repr

def u32At (file : Bytes) (offset : ℕ) : UInt32 := UInt32.ofNat (ofBigEndian (slice file offset 4))

section

variable (crc : Bytes → UInt32)

def openSegment (file : Bytes) : Except ReaderError SegmentDescriptor :=
  if file.length < headerSize then .error (.tooShort file.length)
  else if u32At file 13 ≠ crc (slice file 0 13) then .error .headerChecksum
  else if formatVersion < file.headD 0 then .error (.unsupportedVersion (file.headD 0))
  else .ok ⟨file.headD 0, UInt64.ofNat (ofBigEndian (slice file 1 8))⟩

/-- Zero bytes are unwritten padding, not a rejected record. -/
def rejectNonemptyRange (file : Bytes) (start stop : ℕ) : Bool :=
  (slice file start (stop - start)).any (· != 0)

def entrySizeAt (file : Bytes) (offset : ℕ) : Option ℕ :=
  if u32At file (offset + 4) = crc (slice file offset 4) then some (u32At file offset).toNat
  else none

def payloadAt (file : Bytes) (offset size : ℕ) : Option Bytes :=
  if u32At file (offset + 8 + size) = crc (slice file (offset + 8) size) then
    some (slice file (offset + 8) size)
  else none

/-- The members of one entry, at consecutive positions.  An entry that does not decode is
skipped. -/
def decodeEntry (segmentId : UInt64) (offset : ℕ) (payload : Bytes) : SegmentRead :=
  match Mutation.deserializeFrom payload with
  | .error _ => ⟨[], true⟩
  | .ok mutation =>
    match TransactionRecord.decode mutation with
    | .error _ => ⟨[], true⟩
    | .ok mutations =>
      ⟨mutations.mapIdx fun index member => (⟨segmentId, offset + index⟩, member), false⟩

def readSection (segmentId : UInt64) (file : Bytes) (sectionEnd entryOffset : ℕ) : SegmentRead :=
  if sectionEnd < entryOffset + entryOverhead then
    ⟨[], rejectNonemptyRange file entryOffset sectionEnd⟩
  else
    match entrySizeAt crc file entryOffset with
    | none => ⟨[], rejectNonemptyRange file entryOffset sectionEnd⟩
    | some size =>
      if sectionEnd < entryOffset + (entryOverhead + size) ∨
          file.length < entryOffset + (entryOverhead + size) then ⟨[], true⟩
      else
        match payloadAt crc file entryOffset size with
        | none => ⟨[], true⟩
        | some payload =>
          (decodeEntry segmentId entryOffset payload).followedBy
            (readSection segmentId file sectionEnd (entryOffset + (entryOverhead + size)))
termination_by file.length - entryOffset
decreasing_by
  unfold entryOverhead at *
  omega

def markerAt (segmentId : UInt64) (file : Bytes) (offset : ℕ) : Option UInt32 :=
  let next := u32At file offset
  if u32At file (offset + 4) = crc (writeU64 segmentId ++ writeU32 next) then some next else none

def readSections (segmentId : UInt64) (file : Bytes) (markerOffset : ℕ) : SegmentRead :=
  if file.length < markerOffset + syncMarkerSize then
    ⟨[], rejectNonemptyRange file (markerOffset + syncMarkerSize) file.length⟩
  else
    match markerAt crc segmentId file markerOffset with
    | none => ⟨[], rejectNonemptyRange file (markerOffset + syncMarkerSize) file.length⟩
    | some next =>
      let sectionEnd := if next = 0 then file.length else min next.toNat file.length
      if sectionEnd < markerOffset + syncMarkerSize ∨ (next ≠ 0 ∧ next.toNat ≤ markerOffset) then
        ⟨[], rejectNonemptyRange file (markerOffset + syncMarkerSize) file.length⟩
      else
        let entries := readSection crc segmentId file sectionEnd (markerOffset + syncMarkerSize)
        if next = 0 then entries
        else entries.followedBy (readSections segmentId file next.toNat)
termination_by file.length - markerOffset
decreasing_by
  unfold syncMarkerSize at *
  simp_all only [ne_eq, not_false_eq_true, true_and, not_or, not_le]
  omega

def readAll (file : Bytes) : Except ReaderError SegmentRead := do
  let descriptor ← openSegment crc file
  pure (readSections crc descriptor.segmentId file headerSize)

end

end Ferrosa.CommitLog
