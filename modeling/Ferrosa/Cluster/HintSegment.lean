import Ferrosa.Lib.Framing
import Ferrosa.Lib.MachineOrder
import Ferrosa.Lib.SortedMap

/-!
# Hint segments

A hint is written as its fields in little-endian form and a checksum of them, behind its
length.  A writer refuses a hint for which its segment has no room left; a reader takes the
hints of a file up to the first one that is cut off or does not check, and cuts the file
there.  The checksum is a parameter.
-/

namespace Ferrosa.Cluster.Hints

open Framing

abbrev Bytes := List UInt8

structure HintRecord where
  timestamp : Int64
  keyspace : String
  table : String
  key : Bytes
  row : Bytes
deriving DecidableEq, Repr

def utf8 (text : String) : Bytes := text.toByteArray.data.toList

def writeField (width : ℕ) (data : Bytes) : Bytes := littleEndian width data.length ++ data

def encodePayload (record : HintRecord) : Bytes :=
  littleEndian 8 record.timestamp.toUInt64.toNat ++
    (writeField 2 (utf8 record.keyspace) ++ (writeField 2 (utf8 record.table) ++
      (writeField 4 record.key ++ writeField 4 record.row)))

/-- `encoded_hint_size`: what a hint takes on disk, its length included. -/
def encodedHintSize (record : HintRecord) : ℕ :=
  4 + 8 + 2 + (utf8 record.keyspace).length + 2 + (utf8 record.table).length + 4 +
    record.key.length + 4 + record.row.length + 4

abbrev Read (α : Type) := Decoder Unit α

def readField (width : ℕ) : Read Bytes := do
  let length ← Decoder.takeLittleEndian width fun _ => ()
  Decoder.take length fun _ => ()

def readText (width : ℕ) : Read String := do
  let bytes ← readField width
  match String.fromUTF8? ⟨bytes.toArray⟩ with
  | some text => pure text
  | none => throw ()

def readPayload : Read HintRecord := do
  let timestamp ← Decoder.takeLittleEndian 8 fun _ => ()
  let keyspace ← readText 2
  let table ← readText 2
  let key ← readField 4
  let row ← readField 4
  pure ⟨(UInt64.ofNat timestamp).toInt64, keyspace, table, key, row⟩

section Records

variable (crc : Bytes → UInt32)

def encodeRecord (record : HintRecord) : Bytes :=
  encodePayload record ++ littleEndian 4 (crc (encodePayload record)).toNat

def decodeRecord (body : Bytes) : Option HintRecord :=
  let payload := body.take (body.length - 4)
  let storedCrc := UInt32.ofNat (ofLittleEndian (body.drop (body.length - 4)))
  if body.length < 24 then none
  else if crc payload ≠ storedCrc then none
  else (readPayload payload).toOption.map (·.1)

end Records

structure SegmentWriter where
  bytesWritten : ℕ
  maxSizeBytes : ℕ
deriving DecidableEq, Repr

inductive AppendResult where
  | ok
  | segmentFull
deriving DecidableEq, Repr

def SegmentWriter.create (maxSizeBytes : ℕ) : SegmentWriter := ⟨0, maxSizeBytes⟩

def SegmentWriter.hasRoom (writer : SegmentWriter) (body : Bytes) : Bool :=
  writer.bytesWritten + (4 + body.length) ≤ writer.maxSizeBytes

def SegmentWriter.append (crc : Bytes → UInt32) (writer : SegmentWriter) (file : Bytes)
    (record : HintRecord) : AppendResult × SegmentWriter × Bytes :=
  let body := encodeRecord crc record
  if writer.hasRoom body then
    (.ok, { writer with bytesWritten := writer.bytesWritten + (4 + body.length) },
      file ++ frame body)
  else (.segmentFull, writer, file)

def openSegment (crc : Bytes → UInt32) (file : Bytes) : List HintRecord × Bytes :=
  let scanned := readFrames (decodeRecord crc) file
  (scanned.1, file.take (file.length - scanned.2.length))

/-- No length of the hint is cut off. -/
structure HintRecord.Fits (record : HintRecord) : Prop where
  keyspace : (utf8 record.keyspace).length < 2 ^ 16
  table : (utf8 record.table).length < 2 ^ 16
  key : record.key.length < 2 ^ 32
  row : record.row.length < 2 ^ 32
  body : encodedHintSize record < 4 + 2 ^ 32

section RoundTrip

open Decoder

theorem reads_readField {width : ℕ} {data : Bytes} (fits : data.length < 256 ^ width) :
    Reads (readField width) (writeField width data) data :=
  (reads_takeLittleEndian _ fits).bind (reads_take _ rfl)

theorem reads_readText {width : ℕ} {text : String} (fits : (utf8 text).length < 256 ^ width) :
    Reads (readText width) (writeField width (utf8 text)) text := by
  apply (reads_readField fits).bind_pure
  rw [utf8, fromUTF8?_toList_toByteArray]
  exact Reads.pure text

variable {record : HintRecord}

theorem reads_readPayload (fits : record.Fits) :
    Reads readPayload (encodePayload record) record := by
  apply (reads_takeLittleEndian _ (by simpa using record.timestamp.toUInt64.toNat_lt)).bind
  apply (reads_readText fits.keyspace).bind
  apply (reads_readText fits.table).bind
  apply (reads_readField fits.key).bind
  apply (reads_readField fits.row).bind_pure
  rw [UInt64.ofNat_toNat]
  exact Reads.pure record

theorem length_encodeRecord (crc : Bytes → UInt32) (record : HintRecord) :
    4 + (encodeRecord crc record).length = encodedHintSize record := by
  simp only [encodeRecord, encodePayload, writeField, encodedHintSize, List.length_append,
    length_littleEndian]
  omega

theorem decodeRecord_encodeRecord (crc : Bytes → UInt32) (fits : record.Fits) :
    decodeRecord crc (encodeRecord crc record) = some record := by
  have front : (encodeRecord crc record).length - 4 = (encodePayload record).length := by
    simp [encodeRecord]
  have long : ¬ (encodeRecord crc record).length < 24 := by
    have size := length_encodeRecord crc record
    simp only [encodedHintSize] at size
    omega
  have stored : UInt32.ofNat (ofLittleEndian (littleEndian 4 (crc (encodePayload record)).toNat)) =
      crc (encodePayload record) := by
    rw [ofLittleEndian_littleEndian_of_lt (by simpa using UInt32.toNat_lt _), UInt32.ofNat_toNat]
  have read : readPayload (encodePayload record) = .ok (record, []) := by
    simpa using reads_readPayload fits []
  simp only [decodeRecord, front, long, if_false]
  simp [encodeRecord, stored, read, Except.toOption]

end RoundTrip

end Ferrosa.Cluster.Hints
