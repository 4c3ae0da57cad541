import Ferrosa.Storage.Types

/-!
# Table schemas and row validation

The declared columns of a table and the checks on rows at the memtable boundary: the
bytes of a cell against the fixed width of its type, the clustering bytes against the
clustering columns, and the shape of static-row and partition-tombstone markers.
-/

namespace Ferrosa.Storage

/-- The marshal types that the storage layer tells apart inside a column type. -/
inductive ScalarType
  | timeUuid | uuid | lexicalUuid
  | int32 | long | timestamp | date | time | counter
  | float | double | boolean | byte | short | simpleDate
  | utf8 | ascii | other
  deriving DecidableEq, Repr

inductive RawCollectionKind
  | list | set | map
  deriving DecidableEq, Repr

/-- A column type: a single value (frozen types included), or a non-frozen collection with the
element types that its name lists. -/
inductive ColumnType
  | scalar (type : ScalarType)
  | collection (kind : RawCollectionKind) (args : List ScalarType)
  deriving DecidableEq, Repr

def ScalarType.fixedWidth : ScalarType → Option ℕ
  | .timeUuid | .uuid | .lexicalUuid => some 16
  | .int32 => some 4
  | .long | .timestamp | .date | .time | .counter => some 8
  | .float => some 4
  | .double => some 8
  | .boolean | .byte => some 1
  | .short => some 2
  | .simpleDate => some 4
  | .utf8 | .ascii | .other => none

/-- `fixed_width_for_marshal_type`. -/
def ColumnType.fixedWidth : ColumnType → Option ℕ
  | .scalar type => type.fixedWidth
  | .collection _ _ => none

structure ColumnDefinition where
  name : String
  type : ColumnType
  deriving DecidableEq, Repr

structure TableSchema where
  clusteringColumns : List ColumnDefinition
  staticColumns : List ColumnDefinition
  regularColumns : List ColumnDefinition
  deriving DecidableEq, Repr

/-- The column of a cell index: static columns first, then regular ones. -/
def TableSchema.columnAtOrdinal (schema : TableSchema) (ordinal : UInt16) :
    Option ColumnDefinition :=
  let idx := ordinal.toNat
  if idx < schema.staticColumns.length then schema.staticColumns[idx]?
  else schema.regularColumns[idx - schema.staticColumns.length]?

inductive InvalidData
  | cellLength (expected actual : ℕ)
  | notUtf8
  | notAscii
  | emptyClustering (columns : ℕ) (expected : Option ℕ)
  | clusteringLength (column expected actual : ℕ)
  | truncatedPrefix (column offset total : ℕ)
  | truncatedComponent (column claimed remaining : ℕ)
  | trailingClustering (bytes : ℕ)
  | staticIndex (index : UInt16) (staticCount : ℕ)
  | staticMarker (deletion : DeletionTime) (liveness : LivenessInfo)
  | columnBytes (column : String) (index : UInt16) (reason : InvalidData)
  | truncatedCount
  | negativeCount
  | truncatedLength
  | negativeLength
  | truncatedValue
  | missingElementType
  | excessiveCount (count : ℕ)
  | excessiveListCount (count : ℕ)
  | element (seq : ℕ) (reason : InvalidData)
  | mapValue (seq : ℕ) (reason : InvalidData)
  | trailingBlob (bytes : ℕ)
  | blobWithoutValue
  | outsideSchema (index : UInt16)
  | notACollection (column : String)
  deriving DecidableEq, Repr

/-- A mismatch of the byte length with a fixed width; empty bytes always pass. -/
def validateCellBytes (width : Option ℕ) (bytes : Bytes) : Except InvalidData Unit :=
  if bytes.isEmpty then .ok ()
  else
    match width with
    | some expected =>
      if bytes.length = expected then .ok () else .error (.cellLength expected bytes.length)
    | none => .ok ()

/-- The components of a composite clustering, each with its two-byte length in front; the
result is the offset behind the last one. -/
def validateComponents (clustering : Bytes) :
    List ColumnDefinition → (column offset : ℕ) → Except InvalidData ℕ
  | [], _, offset => .ok offset
  | first :: rest, column, offset =>
    match clustering[offset]?, clustering[offset + 1]? with
    | some high, some low =>
      let claimed := high.toNat * 256 + low.toNat
      let start := offset + 2
      if clustering.length < start + claimed then
        .error (.truncatedComponent column claimed (clustering.length - start))
      else
        match first.type.fixedWidth with
        | some expected =>
          if claimed = expected then
            validateComponents clustering rest (column + 1) (start + claimed)
          else .error (.clusteringLength column expected claimed)
        | none => validateComponents clustering rest (column + 1) (start + claimed)
    | _, _ => .error (.truncatedPrefix column offset clustering.length)

def validateClusteringShape (columns : List ColumnDefinition) (clustering : Bytes) :
    Except InvalidData Unit :=
  match columns with
  | [] => .ok ()
  | [only] =>
    if clustering.isEmpty then .error (.emptyClustering 1 only.type.fixedWidth)
    else
      match only.type.fixedWidth with
      | some expected =>
        if clustering.length = expected then .ok ()
        else .error (.clusteringLength 0 expected clustering.length)
      | none => .ok ()
  | several =>
    if clustering.isEmpty then .error (.emptyClustering several.length none)
    else
      match validateComponents clustering several 0 0 with
      | .error reason => .error reason
      | .ok offset =>
        if offset = clustering.length then .ok ()
        else .error (.trailingClustering (clustering.length - offset))

def isPartitionTombstone (row : Row) : Bool :=
  row.clustering.isEmpty && row.cells.isEmpty && row.deletion != .live

/-- The marker of a static row: cells without clustering on a table with clustering columns. -/
def isStaticRowMarker (row : Row) (schema : TableSchema) : Bool :=
  !schema.clusteringColumns.isEmpty && row.clustering.isEmpty && !row.cells.isEmpty

def validateCells (schema : TableSchema) : List Cell → Except InvalidData Unit
  | [] => .ok ()
  | (index, cell) :: rest =>
    match cell.value, schema.columnAtOrdinal index with
    | some bytes, some column =>
      match validateCellBytes column.type.fixedWidth bytes with
      | .error reason => .error (.columnBytes column.name index reason)
      | .ok () => validateCells schema rest
    | _, _ => validateCells schema rest

def validateRowAgainstSchema (row : Row) (schema : TableSchema) : Except InvalidData Unit := do
  if isStaticRowMarker row schema then
    match row.cells.find? (fun cell => decide (schema.staticColumns.length ≤ cell.1.toNat)) with
    | some cell => throw (.staticIndex cell.1 schema.staticColumns.length)
    | none =>
      if row.deletion ≠ .live ∨ row.primaryKeyLiveness.hasTimestamp then
        throw (.staticMarker row.deletion row.primaryKeyLiveness)
  else if !isPartitionTombstone row then
    validateClusteringShape schema.clusteringColumns row.clustering
  validateCells schema row.cells

end Ferrosa.Storage
