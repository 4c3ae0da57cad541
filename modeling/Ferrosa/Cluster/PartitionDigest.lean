import Ferrosa.Lib.Decoder
import Ferrosa.Storage.Types

/-!
# The digest of a partition

Replicas compare partitions by a checksum of their wire bytes: the header, the rows one
after another, and the number of rows at the end, so that rows can be hashed before their
number is known.  A cell with a path has a leading tag that no cell without one can start
with.  The checksum is a parameter; its input determines the partition.
-/

namespace Ferrosa.Cluster

open Storage

def wireI64 (value : Int64) : Bytes := littleEndian 8 value.toUInt64.toNat

def wireI32 (value : Int32) : Bytes := littleEndian 4 value.toUInt32.toNat

def wireLength (length : ℕ) : Bytes := littleEndian 8 length

def wireBytes (bytes : Bytes) : Bytes := wireLength bytes.length ++ bytes

def wireValue : Option Bytes → Bytes
  | none => [0]
  | some value => 1 :: wireBytes value

def complexCellTag : UInt8 := 2

def wireContent (cell : CellValue) : Bytes :=
  match cell.path with
  | none => wireValue cell.value
  | some path => complexCellTag :: (wireValue cell.value ++ wireBytes path)

def serializeCellWire (cell : CellValue) : Bytes :=
  wireContent cell ++
    (wireI64 cell.timestamp ++ (wireI32 cell.ttl ++ wireI32 cell.localDeletionTime))

def serializeDeletionTime (deletion : DeletionTime) : Bytes :=
  wireI64 deletion.markedForDeleteAt ++ littleEndian 4 deletion.localDeletionTime.toNat

def serializeLiveness (liveness : LivenessInfo) : Bytes :=
  wireI64 liveness.timestamp ++ (wireI32 liveness.ttl ++ wireI32 liveness.localDeletionTime)

def serializeColumn (cell : Cell) : Bytes :=
  littleEndian 2 cell.1.toNat ++ serializeCellWire cell.2

def serializeRowWire (row : Row) : Bytes :=
  wireBytes row.clustering ++ (wireLength row.cells.length ++ (row.cells.flatMap serializeColumn ++
        (serializeDeletionTime row.deletion ++ serializeLiveness row.primaryKeyLiveness)))

def serializeStaticRow : Option Row → Bytes
  | none => [0]
  | some row => 1 :: serializeRowWire row

/-- What `PartitionDigestStream::new` hashes. -/
def digestHeader (partition : Partition) : Bytes :=
  wireI64 partition.key.token ++ (wireBytes partition.key.key ++
      (serializeDeletionTime partition.deletion ++ serializeStaticRow partition.staticRow))

def digestInput (partition : Partition) : Bytes :=
  digestHeader partition ++ partition.rows.flatMap serializeRowWire ++
    wireLength partition.rows.length

def computePartitionDigest (crc : Bytes → UInt32) (partition : Partition) : UInt32 :=
  crc (digestInput partition)

inductive WireError where
  | endOfInput
  | invalidTag (tag : UInt8)
deriving DecidableEq, Repr

abbrev WireReader (α : Type) := Decoder WireError α

def readNumber (width : ℕ) : WireReader ℕ := Decoder.takeLittleEndian width fun _ => .endOfInput

def readI64 : WireReader Int64 := do return (UInt64.ofNat (← readNumber 8)).toInt64

def readI32 : WireReader Int32 := do return (UInt32.ofNat (← readNumber 4)).toInt32

def readTag : WireReader UInt8 := do return UInt8.ofNat (← readNumber 1)

def readBytes : WireReader Bytes := do
  let length ← readNumber 8
  Decoder.take length fun _ => .endOfInput

def readValue : WireReader (Option Bytes) := do
  match ← readTag with
  | 0 => return none
  | 1 => return some (← readBytes)
  | tag => throw (.invalidTag tag)

/-- The leading tag says which layout a cell has. -/
def readContent : WireReader (Option Bytes × Option Bytes) := do
  match ← readTag with
  | 0 => return (none, none)
  | 1 => return (some (← readBytes), none)
  | 2 =>
    let value ← readValue
    let path ← readBytes
    return (value, some path)
  | tag => throw (.invalidTag tag)

def readCell : WireReader CellValue := do
  let content ← readContent
  let timestamp ← readI64
  let ttl ← readI32
  let localDeletionTime ← readI32
  return ⟨content.1, timestamp, ttl, localDeletionTime, content.2⟩

def readDeletionTime : WireReader DeletionTime := do
  let markedForDeleteAt ← readI64
  let localDeletionTime ← readNumber 4
  return ⟨markedForDeleteAt, UInt32.ofNat localDeletionTime⟩

def readLiveness : WireReader LivenessInfo := do
  let timestamp ← readI64
  let ttl ← readI32
  let localDeletionTime ← readI32
  return ⟨timestamp, ttl, localDeletionTime⟩

def readColumn : WireReader Cell := do
  let column ← readNumber 2
  let cell ← readCell
  return (UInt16.ofNat column, cell)

def readRow : WireReader Row := do
  let clustering ← readBytes
  let count ← readNumber 8
  let cells ← Decoder.times count readColumn
  let deletion ← readDeletionTime
  let primaryKeyLiveness ← readLiveness
  return ⟨clustering, cells, deletion, primaryKeyLiveness⟩

def readStaticRow : WireReader (Option Row) := do
  match ← readTag with
  | 0 => return none
  | 1 => return some (← readRow)
  | tag => throw (.invalidTag tag)

def readPartition (rowCount : ℕ) : WireReader Partition := do
  let token ← readI64
  let key ← readBytes
  let deletion ← readDeletionTime
  let staticRow ← readStaticRow
  let rows ← Decoder.times rowCount readRow
  return ⟨⟨token, key⟩, deletion, staticRow, rows⟩

/-- Lengths are machine words, so none of them is cut. -/
def FitsWord (length : ℕ) : Prop := length < 2 ^ 64
  deriving Decidable

@[mk_iff]
structure CellFitsWire (cell : Cell) : Prop where
  value : ∀ value ∈ cell.2.value, FitsWord value.length
  path : ∀ path ∈ cell.2.path, FitsWord path.length

instance (cell : Cell) : Decidable (CellFitsWire cell) :=
  decidable_of_iff' _ (cellFitsWire_iff cell)

@[mk_iff]
structure RowFitsWire (row : Row) : Prop where
  clustering : FitsWord row.clustering.length
  count : FitsWord row.cells.length
  cells : ∀ cell ∈ row.cells, CellFitsWire cell

instance (row : Row) : Decidable (RowFitsWire row) :=
  decidable_of_iff' _ (rowFitsWire_iff row)

@[mk_iff]
structure FitsWire (partition : Partition) : Prop where
  key : FitsWord partition.key.key.length
  static : ∀ row ∈ partition.staticRow, RowFitsWire row
  count : FitsWord partition.rows.length
  rows : ∀ row ∈ partition.rows, RowFitsWire row

instance (partition : Partition) : Decidable (FitsWire partition) :=
  decidable_of_iff' _ (fitsWire_iff partition)

section RoundTrip

open Decoder

theorem reads_readNumber {width value : ℕ} (small : value < 256 ^ width) :
    Reads (readNumber width) (littleEndian width value) value :=
  reads_takeLittleEndian _ small

theorem reads_readI64 (value : Int64) : Reads readI64 (wireI64 value) value := by
  apply (reads_readNumber (by simpa using value.toUInt64.toNat_lt)).convert
  rw [UInt64.ofNat_toNat, Int64.toInt64_toUInt64]

theorem reads_readI32 (value : Int32) : Reads readI32 (wireI32 value) value := by
  apply (reads_readNumber (by simpa using value.toUInt32.toNat_lt)).convert
  rw [UInt32.ofNat_toNat, Int32.toInt32_toUInt32]

theorem reads_readTag (tag : UInt8) : Reads readTag [tag] tag := by
  have oneByte : [tag] = littleEndian 1 tag.toNat := by simp [littleEndian, bigEndian]
  rw [oneByte]
  apply (reads_readNumber (by simpa using tag.toNat_lt)).convert
  rw [UInt8.ofNat_toNat]

theorem reads_readLength {length : ℕ} (fits : FitsWord length) :
    Reads (readNumber 8) (wireLength length) length :=
  reads_readNumber (by simpa [FitsWord] using fits)

theorem reads_readBytes {bytes : Bytes} (fits : FitsWord bytes.length) :
    Reads readBytes (wireBytes bytes) bytes :=
  (reads_readLength fits).bind (reads_take _ rfl)

theorem reads_readValue {value : Option Bytes} (fits : ∀ bytes ∈ value, FitsWord bytes.length) :
    Reads readValue (wireValue value) value := by
  cases value with
  | none => exact (reads_readTag 0).bind_pure (Reads.pure _)
  | some bytes =>
    apply (reads_readTag 1).bind
    exact (reads_readBytes (fits bytes rfl)).bind_pure (Reads.pure _)

variable {cell : Cell}

theorem reads_readContent (fits : CellFitsWire cell) :
    Reads readContent (wireContent cell.2) (cell.2.value, cell.2.path) := by
  rcases cell with ⟨column, ⟨value, timestamp, ttl, localDeletionTime, path⟩⟩
  cases path with
  | none =>
    cases value with
    | none => exact (reads_readTag 0).bind_pure (Reads.pure _)
    | some bytes =>
      apply (reads_readTag 1).bind
      exact (reads_readBytes (fits.value bytes rfl)).bind_pure (Reads.pure _)
  | some path =>
    apply (reads_readTag 2).bind
    apply (reads_readValue fits.value).bind
    exact (reads_readBytes (fits.path path rfl)).bind_pure (Reads.pure _)

theorem reads_readCell (fits : CellFitsWire cell) :
    Reads readCell (serializeCellWire cell.2) cell.2 := by
  apply (reads_readContent fits).bind
  apply (reads_readI64 _).bind
  apply (reads_readI32 _).bind
  exact (reads_readI32 _).bind_pure (Reads.pure _)

theorem reads_readDeletionTime (deletion : DeletionTime) :
    Reads readDeletionTime (serializeDeletionTime deletion) deletion := by
  apply (reads_readI64 _).bind
  apply (reads_readNumber (by simpa using deletion.localDeletionTime.toNat_lt)).bind_pure
  rw [UInt32.ofNat_toNat]
  exact Reads.pure _

theorem reads_readLiveness (liveness : LivenessInfo) :
    Reads readLiveness (serializeLiveness liveness) liveness := by
  apply (reads_readI64 _).bind
  apply (reads_readI32 _).bind
  exact (reads_readI32 _).bind_pure (Reads.pure _)

theorem reads_readColumn (fits : CellFitsWire cell) :
    Reads readColumn (serializeColumn cell) cell := by
  apply (reads_readNumber (by simpa using cell.1.toNat_lt)).bind
  apply (reads_readCell fits).bind_pure
  rw [UInt16.ofNat_toNat]
  exact Reads.pure _

theorem reads_readRow {row : Row} (fits : RowFitsWire row) :
    Reads readRow (serializeRowWire row) row := by
  apply (reads_readBytes fits.clustering).bind
  apply (reads_readLength fits.count).bind
  apply (reads_times fun cell present => reads_readColumn (fits.cells cell present)).bind
  apply (reads_readDeletionTime _).bind
  exact (reads_readLiveness _).bind_pure (Reads.pure _)

theorem reads_readStaticRow {row : Option Row} (fits : ∀ static ∈ row, RowFitsWire static) :
    Reads readStaticRow (serializeStaticRow row) row := by
  cases row with
  | none => exact (reads_readTag 0).bind_pure (Reads.pure _)
  | some static =>
    apply (reads_readTag 1).bind
    exact (reads_readRow (fits static rfl)).bind_pure (Reads.pure _)

theorem reads_readPartition {partition : Partition} (fits : FitsWire partition) :
    Reads (readPartition partition.rows.length)
      (digestHeader partition ++ partition.rows.flatMap serializeRowWire) partition := by
  rw [digestHeader, List.append_assoc, List.append_assoc, List.append_assoc]
  apply (reads_readI64 _).bind
  apply (reads_readBytes fits.key).bind
  apply (reads_readDeletionTime _).bind
  apply (reads_readStaticRow fits.static).bind
  exact (reads_times fun row present => reads_readRow (fits.rows row present)).bind_pure
    (Reads.pure _)

end RoundTrip

/-- Equal digest inputs come from equal partitions: the last eight bytes count the rows. -/
theorem digestInput_inj {left right : Partition} (fitsLeft : FitsWire left)
    (fitsRight : FitsWire right) (same : digestInput left = digestInput right) :
    left = right := by
  unfold digestInput at same
  rcases List.append_inj' same (by simp [wireLength]) with ⟨sameBody, sameEnd⟩
  have readEnd := reads_readLength fitsLeft.count
  rw [sameEnd] at readEnd
  have sameCount := readEnd.unique (reads_readLength fitsRight.count)
  have readBody := reads_readPartition fitsLeft
  rw [sameBody, sameCount] at readBody
  exact readBody.unique (reads_readPartition fitsRight)

theorem computePartitionDigest_injOn {crc : Bytes → UInt32} {partitions : Set Partition}
    (fits : ∀ partition ∈ partitions, FitsWire partition)
    (noCollision : Set.InjOn crc (digestInput '' partitions)) :
    Set.InjOn (computePartitionDigest crc) partitions :=
  noCollision.comp
    (fun _ presentLeft _ presentRight => digestInput_inj (fits _ presentLeft) (fits _ presentRight))
    (Set.mapsTo_image digestInput partitions)

end Ferrosa.Cluster
