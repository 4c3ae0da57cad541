import Ferrosa.Lib.Decoder
import Ferrosa.Storage.Types

/-!
# Mutations and their bytes

A mutation groups row writes to one table.  Its encoding is self-describing:
lengths and counts are sixteen bits wide, values carry a signed 32-bit length
whose `-1` marks a tombstone, and the two high bits of a column index are flags.
All integers are big-endian.
-/

namespace Ferrosa.CommitLog

open Storage

def legacyNsThreshold : Int64 := 1000000000000000000

def isLegacyNs (raw : Int64) : Bool := legacyNsThreshold ≤ raw && raw < Int64.maxValue

def normalizeCellTs (raw : Int64) : Int64 := if isLegacyNs raw then raw / 1000 else raw

theorem normalizeCellTs_of_not_legacy {raw : Int64} (micros : isLegacyNs raw = false) :
    normalizeCellTs raw = raw := by
  simp [normalizeCellTs, micros]

abbrev MutationId := { bytes : Bytes // bytes.length = 16 }

structure Mutation where
  mutationId : MutationId
  keyspace : String
  table : String
  key : DecoratedKey
  rows : List Row
  timestamp : Int64
deriving DecidableEq

inductive MutationError where
  | truncated (field : String) (needed available : Nat)
  | invalidUtf8 (field : String)
  | invalidRebindListPath (len : Nat)
  | tooManyRows (rows : Nat)
deriving DecidableEq, Repr

def utf8Bytes (text : String) : Bytes := text.toByteArray.data.toList

def writeU16 (value : UInt16) : Bytes := bigEndian 2 value.toNat

def writeU32 (value : UInt32) : Bytes := bigEndian 4 value.toNat

def writeI32 (value : Int32) : Bytes := bigEndian 4 value.toUInt32.toNat

def writeI64 (value : Int64) : Bytes := bigEndian 8 value.toUInt64.toNat

/-- `len as u16`: the length keeps its low sixteen bits. -/
def writeByteVec (data : Bytes) : Bytes := writeU16 (UInt16.ofNat data.length) ++ data

def writeString (text : String) : Bytes := writeByteVec (utf8Bytes text)

def cellHasPathFlag : UInt16 := 0x8000

def cellRebindListPathFlag : UInt16 := 0x4000

def cellColumnIndexMask : UInt16 := 0x3FFF

/-- The assertion of `serialize_cell`: a real index may not reach the path flag. -/
def acceptsColumnIndex (columnIndex : UInt16) : Bool :=
  columnIndex &&& ~~~(cellRebindListPathFlag ||| cellColumnIndexMask) == 0

def taggedColumnIndex (columnIndex : UInt16) (hasPath : Bool) : UInt16 :=
  (columnIndex &&& cellColumnIndexMask) ||| (columnIndex &&& cellRebindListPathFlag) |||
    if hasPath then cellHasPathFlag else 0

def serializeValue : Option Bytes → Bytes
  | none => writeI32 (-1)
  | some value => writeI32 (Int32.ofNat value.length) ++ value

def serializePath : Option Bytes → Bytes
  | none => []
  | some path => writeByteVec path

def serializeCell (cell : Cell) : Bytes :=
  writeU16 (taggedColumnIndex cell.1 cell.2.path.isSome) ++ (writeI64 cell.2.timestamp ++
      (writeI32 cell.2.ttl ++ (writeI32 cell.2.localDeletionTime ++
          (serializeValue cell.2.value ++ serializePath cell.2.path))))

def serializeRow (row : Row) : Bytes :=
  writeByteVec row.clustering ++ (writeI64 row.deletion.markedForDeleteAt ++
      (writeU32 row.deletion.localDeletionTime ++ (writeI64 row.primaryKeyLiveness.timestamp ++
          (writeI32 row.primaryKeyLiveness.ttl ++
            (writeI32 row.primaryKeyLiveness.localDeletionTime ++
              (writeU16 (UInt16.ofNat row.cells.length) ++ row.cells.flatMap serializeCell))))))

def serializeFields (mutationId : MutationId) (keyspace table : String) (key : DecoratedKey)
    (timestamp : Int64) (rowCount : UInt16) (rows : List Row) : Bytes :=
  mutationId.val ++ (writeString keyspace ++ (writeString table ++ (writeByteVec key.key ++
          (writeI64 key.token ++
            (writeI64 timestamp ++ (writeU16 rowCount ++ rows.flatMap serializeRow))))))

def stringSize (text : String) : Nat := 2 + (utf8Bytes text).length

def byteVecSize (data : Bytes) : Nat := 2 + data.length

def cellSize (cell : CellValue) : Nat :=
  (2 + 8 + 4 + 4 + 4) + (cell.value.elim 0 List.length) +
    (cell.path.elim 0 (fun path => 2 + path.length))

def rowSize (row : Row) : Nat :=
  byteVecSize row.clustering + (8 + 4) + (8 + 4 + 4) + 2 +
    (row.cells.map (fun cell => cellSize cell.2)).sum

def sizeOfFields (keyspace table : String) (key : DecoratedKey) (rows : List Row) : Nat :=
  16 + stringSize keyspace + stringSize table + byteVecSize key.key + 8 + 8 + 2 +
    (rows.map rowSize).sum

namespace Mutation

def serializedSize (mutation : Mutation) : Nat :=
  sizeOfFields mutation.keyspace mutation.table mutation.key mutation.rows

def serializedSizeForSingleRow (keyspace table : String) (key : DecoratedKey) (row : Row) : Nat :=
  sizeOfFields keyspace table key [row]

/-! ## The three writers

A buffer that is too small and a column index that collides with the path flag
are refused by a panic, which is modelled as `none`. -/

def acceptsRows (rows : List Row) : Bool :=
  rows.all (fun row => row.cells.all (fun cell => acceptsColumnIndex cell.1))

def writeOver (written buf : Bytes) : Bytes := written ++ buf.drop written.length

def serializeInto (mutation : Mutation) (buf : Bytes) : Option Bytes :=
  if buf.length < mutation.serializedSize then none
  else if acceptsRows mutation.rows then
    some (writeOver (serializeFields mutation.mutationId mutation.keyspace mutation.table
      mutation.key mutation.timestamp (UInt16.ofNat mutation.rows.length) mutation.rows) buf)
  else none

def serializeSingleRowInto (mutationId : MutationId) (keyspace table : String)
    (key : DecoratedKey) (row : Row) (timestamp : Int64) (buf : Bytes) : Option Bytes :=
  if buf.length < serializedSizeForSingleRow keyspace table key row then none
  else if acceptsRows [row] then
    some (writeOver (serializeFields mutationId keyspace table key timestamp 1 [row]) buf)
  else none

/-- The row count is checked here, not cut. -/
def serializeBorrowedRows (mutationId : MutationId) (keyspace table : String)
    (key : DecoratedKey) (timestamp : Int64) (rows : List Row) :
    Except MutationError (Option Bytes) :=
  if 65535 < rows.length then .error (.tooManyRows rows.length)
  else if acceptsRows rows then
    .ok (some (serializeFields mutationId keyspace table key timestamp
      (UInt16.ofNat rows.length) rows))
  else .ok none

end Mutation

abbrev Read (α : Type) := Decoder MutationError α

def readBytes (count : Nat) (field : String) : Read Bytes :=
  Decoder.take count (fun available => .truncated field count available)

variable (field : String) (rebind : RebindListPath)

def readU16 : Read UInt16 := do
  let bytes ← readBytes 2 field
  pure (UInt16.ofNat (ofBigEndian bytes))

def readU32 : Read UInt32 := do
  let bytes ← readBytes 4 field
  pure (UInt32.ofNat (ofBigEndian bytes))

def readI32 : Read Int32 := do
  let bytes ← readBytes 4 field
  pure (UInt32.ofNat (ofBigEndian bytes)).toInt32

def readI64 : Read Int64 := do
  let bytes ← readBytes 8 field
  pure (UInt64.ofNat (ofBigEndian bytes)).toInt64

def readByteVec : Read Bytes := do
  let len ← readU16 field
  readBytes len.toNat field

def readString : Read String := do
  let len ← readU16 field
  let bytes ← readBytes len.toNat field
  match String.fromUTF8? ⟨bytes.toArray⟩ with
  | some text => pure text
  | none => throw (.invalidUtf8 field)

/-- `value_len as usize`: a negative length becomes a length near `2 ^ 64`. -/
def lengthAsUsize (len : Int32) : Nat := (len.toInt % 2 ^ 64).toNat

/-- How a flagged list path is rewritten; `none` leaves the path as it was written. -/
abbrev RebindListPath := Option (Bytes → Option Bytes)

def rebindPath (needsRebind : Bool) (path : Option Bytes) : Except MutationError (Option Bytes) :=
  if needsRebind then
    match rebind with
    | none => .ok path
    | some rewrite =>
      match rewrite (path.getD []) with
      | none => .error (.invalidRebindListPath (path.getD []).length)
      | some path => .ok (some path)
  else .ok path

def deserializeValue : Read (Option Bytes) := do
  let valueLen ← readI32 "cell.value_len"
  if valueLen = -1 then pure none
  else
    let bytes ← readBytes (lengthAsUsize valueLen) "cell.value"
    pure (some bytes)

def deserializePath (hasPath : Bool) : Read (Option Bytes) :=
  if hasPath then do
    let path ← readByteVec "cell.path"
    pure (some path)
  else pure none

def deserializeCell : Read Cell := do
  let tagged ← readU16 "cell.column_index"
  let timestamp ← readI64 "cell.timestamp"
  let ttl ← readI32 "cell.ttl"
  let localDeletionTime ← readI32 "cell.local_deletion_time"
  let value ← deserializeValue
  let path ← deserializePath (tagged &&& cellHasPathFlag != 0)
  match rebindPath rebind (tagged &&& cellRebindListPathFlag != 0) path with
  | .error error => throw error
  | .ok path =>
    pure (tagged &&& cellColumnIndexMask,
      ⟨value, normalizeCellTs timestamp, ttl, localDeletionTime, path⟩)

def deserializeRow : Read Row := do
  let clustering ← readByteVec "clustering"
  let markedForDeleteAt ← readI64 "deletion.marked_for_delete_at"
  let deletionLdt ← readU32 "deletion.local_deletion_time"
  let livenessTs ← readI64 "liveness.timestamp"
  let livenessTtl ← readI32 "liveness.ttl"
  let livenessLdt ← readI32 "liveness.local_deletion_time"
  let cellCount ← readU16 "cell_count"
  let cells ← Decoder.times cellCount.toNat (deserializeCell rebind)
  pure ⟨clustering, cells, ⟨normalizeCellTs markedForDeleteAt, deletionLdt⟩,
    ⟨normalizeCellTs livenessTs, livenessTtl, livenessLdt⟩⟩

def readMutationId : Read MutationId := do
  let bytes ← readBytes 16 "mutation_id"
  if sixteen : bytes.length = 16 then pure ⟨bytes, sixteen⟩
  else throw (.truncated "mutation_id" 16 bytes.length)

def decodeFields : Read Mutation := do
  let mutationId ← readMutationId
  let keyspace ← readString "keyspace"
  let table ← readString "table"
  let keyBytes ← readByteVec "key"
  let token ← readI64 "token"
  let timestamp ← readI64 "timestamp"
  let rowCount ← readU16 "row_count"
  let rows ← Decoder.times rowCount.toNat (deserializeRow rebind)
  pure ⟨mutationId, keyspace, table, ⟨token, keyBytes⟩, rows, normalizeCellTs timestamp⟩

namespace Mutation

/-- Bytes after the last row are ignored. -/
def deserializeInner (buf : Bytes) (rebind : RebindListPath) : Except MutationError Mutation :=
  (·.1) <$> decodeFields rebind buf

def deserializeFrom (buf : Bytes) : Except MutationError Mutation := deserializeInner buf none

end Mutation

end Ferrosa.CommitLog
