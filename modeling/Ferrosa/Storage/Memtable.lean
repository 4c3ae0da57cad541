import Ferrosa.Lib.BinarySearch
import Ferrosa.Storage.Merge
import Ferrosa.Storage.Schema

/-!
# The memtable

Rows are merged into the partition as they are written.  A row or static row that is
already there is found by binary search and merged cell by cell; the first version is
stored as it arrives.  Before a merge, whole-value collection cells are expanded into
element cells if either side already has element cells in their column.
-/

namespace Ferrosa.Storage

open KeyedFold BinarySearch

structure CollectionType where
  kind : RawCollectionKind
  args : List ScalarType
  deriving DecidableEq, Repr

def collectionType : ColumnType → Option CollectionType
  | .scalar _ => none
  | .collection kind args => some ⟨kind, args⟩

def checkCollectionElement (type : ScalarType) (bytes : Bytes) : Except InvalidData Unit := do
  validateCellBytes type.fixedWidth bytes
  match type with
  | .utf8 => if (ByteArray.mk bytes.toArray).validateUTF8 then pure () else throw .notUtf8
  | .ascii => if bytes.all (fun byte => decide (byte < 128)) then pure () else throw .notAscii
  | _ => pure ()

/-- A four-byte big-endian integer; `none` where the bytes end. -/
def takeI32 (bytes : Bytes) : Option (ℤ × Bytes) :=
  match bytes with
  | a :: b :: c :: d :: rest =>
    let unsigned := ((a.toNat * 256 + b.toNat) * 256 + c.toNat) * 256 + d.toNat
    some (if unsigned < 2 ^ 31 then (unsigned : ℤ) else (unsigned : ℤ) - 2 ^ 32, rest)
  | _ => none

def takeCollectionValue (bytes : Bytes) : Except InvalidData (Bytes × Bytes) :=
  match takeI32 bytes with
  | none => .error .truncatedLength
  | some (length, rest) =>
    if length < 0 then .error .negativeLength
    else if rest.length < length.toNat then .error .truncatedValue
    else .ok (rest.take length.toNat, rest.drop length.toNat)

/-- The entries from the given sequence number on, and the bytes behind them. -/
def walkEntries (firstType : ScalarType) (secondType : Option ScalarType) :
    (count seq : ℕ) → Bytes → Except InvalidData (List (ℕ × Bytes × Bytes) × Bytes)
  | 0, _, bytes => .ok ([], bytes)
  | count + 1, seq, bytes => do
      let (first, bytes) ← takeCollectionValue bytes
      (checkCollectionElement firstType first).mapError (InvalidData.element seq)
      let (second, bytes) ←
        match secondType with
        | none => .ok ([], bytes)
        | some valueType => do
            let (value, bytes) ← takeCollectionValue bytes
            (checkCollectionElement valueType value).mapError (InvalidData.mapValue seq)
            .ok (value, bytes)
      let (entries, bytes) ← walkEntries firstType secondType count (seq + 1) bytes
      .ok ((seq, first, second) :: entries, bytes)

/-- The entries of a whole-value collection: list elements and set elements as the first
component, map entries as both. -/
def walkCollectionBlob (collection : CollectionType) (bytes : Bytes) :
    Except InvalidData (List (ℕ × Bytes × Bytes)) := do
  let some firstType := collection.args.head? | .error .missingElementType
  let secondType ←
    match collection.kind with
    | .map =>
      match collection.args[1]? with
      | some valueType => .ok (some valueType)
      | none => .error .missingElementType
    | _ => .ok none
  let some (count, rest) := takeI32 bytes | .error .truncatedCount
  if count < 0 then .error .negativeCount
  let minimumEntryBytes := if collection.kind = .map then 8 else 4
  if count.toNat > rest.length / minimumEntryBytes then .error (.excessiveCount count.toNat)
  if collection.kind = .list ∧ count.toNat > 65536 then
    .error (.excessiveListCount count.toNat)
  let (entries, rest) ← walkEntries firstType secondType count.toNat 0 rest
  if rest.isEmpty then .ok entries else .error (.trailingBlob rest.length)

/-- The version-1 UUID of a list element, from the write timestamp and its position. -/
def listCellPath (writeTs : Int64) (seq : UInt16) : Bytes :=
  let uuidTs := (max writeTs 0).toUInt64 * 10 + 0x01B21DD213814000
  let timeHi := (((uuidTs >>> 48) &&& 0x0FFF) ||| 0x1000).toUInt16
  let clockSeq := (seq &&& 0x3FFF) ||| 0x8000
  [(uuidTs >>> 24).toUInt8, (uuidTs >>> 16).toUInt8, (uuidTs >>> 8).toUInt8, uuidTs.toUInt8,
    (uuidTs >>> 40).toUInt8, (uuidTs >>> 32).toUInt8, (timeHi >>> 8).toUInt8, timeHi.toUInt8,
    (clockSeq >>> 8).toUInt8, clockSeq.toUInt8, 0, 0, 0, 0, 0, 0]

variable (schema : TableSchema) (nowSecs : Int32)

/-- A whole-value collection as a deletion just before its elements. -/
def expandLegacyCollectionCell (collection : CollectionType) (blob : CellValue) :
    Except InvalidData (List CellValue) := do
  let some bytes := blob.value | .error .blobWithoutValue
  let entries ← walkCollectionBlob collection bytes
  let elements := entries.map fun (seq, first, second) =>
    let (path, value) :=
      match collection.kind with
      | .list => (listCellPath blob.timestamp (UInt16.ofNat seq), first)
      | .set => (first, [])
      | .map => (first, second)
    { blob with value := some value, path := some path }
  let before :=
    if blob.timestamp = Int64.minValue then Int64.minValue else blob.timestamp - 1
  .ok (.tombstone before nowSecs :: elements)

def complexColumns (cells : List Cell) : List UInt16 :=
  (cells.filter (fun cell => cell.2.path.isSome)).map Prod.fst

def isLegacyBlob (complex : List UInt16) (cell : Cell) : Bool :=
  complex.contains cell.1 && cell.2.path.isNone && !cell.2.isTombstone

def hasLegacyBlob (existing incoming : Row) : Bool :=
  (existing.cells ++ incoming.cells).any
    (isLegacyBlob (complexColumns (existing.cells ++ incoming.cells)))

abbrev Replacements := List (UInt16 × List CellValue)

/-- Expand every whole-value collection of the cells; a later one in a column replaces an
earlier one. -/
def planReplacements (schema : TableSchema) (nowSecs : Int32) (complex : List UInt16) :
    List Cell → Replacements → Except InvalidData Replacements
  | [], planned => .ok planned
  | cell :: rest, planned =>
    if isLegacyBlob complex cell then do
      let some column := schema.columnAtOrdinal cell.1 | .error (.outsideSchema cell.1)
      let some collection := collectionType column.type | .error (.notACollection column.name)
      let elements ← expandLegacyCollectionCell nowSecs collection cell.2
      planReplacements schema nowSecs complex rest
        ((cell.1, elements) :: planned.filter (fun entry => entry.1 ≠ cell.1))
    else planReplacements schema nowSecs complex rest planned

def applyReplacements : List Cell → Replacements → List Cell
  | [], _ => []
  | cell :: rest, planned =>
    if cell.2.path.isNone && !cell.2.isTombstone then
      match planned.lookup cell.1 with
      | some elements =>
        elements.map (fun element => (cell.1, element)) ++
          applyReplacements rest (planned.filter (fun entry => entry.1 ≠ cell.1))
      | none => cell :: applyReplacements rest planned
    else cell :: applyReplacements rest planned

/-- Expand the whole-value collections of both rows when one of them has element cells in such
a column. -/
def normalizeCollectionRowsForMerge (existing incoming : Row) : Except InvalidData (Row × Row) :=
  if hasLegacyBlob existing incoming then do
    let complex := complexColumns (existing.cells ++ incoming.cells)
    let existingPlan ← planReplacements schema nowSecs complex existing.cells []
    let incomingPlan ← planReplacements schema nowSecs complex incoming.cells []
    .ok ({ existing with
        cells := sortByKey cellKey (applyReplacements existing.cells existingPlan) },
      { incoming with
        cells := sortByKey cellKey (applyReplacements incoming.cells incomingPlan) })
  else .ok (existing, incoming)

/-- Merge one cell into the stored cells: reconcile with the cell found at its column and path,
or insert it. -/
def mergeCellInto (cells : List Cell) (new : Cell) : List Cell :=
  match binarySearchByKey cellKey (cellKey new) cells with
  | .ok index =>
    match cells[index]? with
    | some (column, existing) => cells.set index (column, existing.reconcileRef new.2)
    | none => cells
  | .error index => cells.insertIdx index new

def mergeIntoExistingRow (existing new : Row) : Except InvalidData Row := do
  let (existing, new) ← normalizeCollectionRowsForMerge schema nowSecs existing new
  .ok { existing with
    deletion :=
      if new.deletion.markedForDeleteAt > existing.deletion.markedForDeleteAt then new.deletion
      else existing.deletion
    primaryKeyLiveness :=
      if new.primaryKeyLiveness.timestamp > existing.primaryKeyLiveness.timestamp then
        new.primaryKeyLiveness
      else existing.primaryKeyLiveness
    cells := new.cells.foldl mergeCellInto existing.cells }

def mergeIntoStaticRow (staticRow : Option Row) (new : Row) : Except InvalidData Row :=
  match staticRow with
  | some existing => mergeIntoExistingRow schema nowSecs existing new
  | none => .ok new

def isStaticCell (cell : Cell) : Bool :=
  decide (cell.1.toNat < schema.staticColumns.length)

def carriesStaticCells (row : Row) : Bool :=
  !(decide (schema.staticColumns.length = 0) || schema.clusteringColumns.isEmpty ||
    !row.cells.any (isStaticCell schema))

def liftStaticCells (partition : Partition) (row : Row) : Except InvalidData (Partition × Row) :=
  if carriesStaticCells schema row then do
    let marker : Row := ⟨[], row.cells.filter (isStaticCell schema), .live, .none⟩
    let staticRow ← mergeIntoStaticRow schema nowSecs partition.staticRow marker
    .ok ({ partition with staticRow := some staticRow },
      { row with cells := row.cells.filter (fun cell => !isStaticCell schema cell) })
  else .ok (partition, row)

def mergeIntoRows (rows : List Row) (newRow : Row) : Except InvalidData (List Row) :=
  match binarySearchByKey Row.clustering newRow.clustering rows with
  | .ok index =>
    match rows[index]? with
    | some existing => do
        let merged ← mergeIntoExistingRow schema nowSecs existing newRow
        .ok (rows.set index merged)
    | none => .ok rows
  | .error index => .ok (rows.insertIdx index newRow)

def mergeRowIntoPartition (partition : Partition) (newRow : Row) :
    Except InvalidData Partition := do
  if isPartitionTombstone newRow then
    .ok (if newRow.deletion.markedForDeleteAt > partition.deletion.markedForDeleteAt then
      { partition with deletion := newRow.deletion } else partition)
  else if isStaticRowMarker newRow schema then do
    let staticRow ← mergeIntoStaticRow schema nowSecs partition.staticRow newRow
    .ok { partition with staticRow := some staticRow }
  else do
    let (partition, newRow) ← liftStaticCells schema nowSecs partition newRow
    let rows ← mergeIntoRows schema nowSecs partition.rows newRow
    .ok { partition with rows }

def put (key : DecoratedKey) (row : Row) (stored : Option Partition) :
    Except InvalidData Partition := do
  validateRowAgainstSchema row schema
  mergeRowIntoPartition schema nowSecs (stored.getD ⟨key, .live, none, []⟩) row

end Ferrosa.Storage
