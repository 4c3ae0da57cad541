import Ferrosa.CommitLog.Mutation

/-!
# Which mutations survive their encoding

Lengths and counts are cut to sixteen bits when they are written, and a value's
length to a signed 32-bit number, while the sizes are computed on the full
lengths.  A mutation reads back as itself exactly when none of its lengths and
counts is cut: whatever the decoder returns is within those limits.
-/

namespace Ferrosa.CommitLog

open Storage Decoder Reads Int32

def CellFits (cell : Cell) : Prop :=
  (∀ value ∈ cell.2.value, value.length < 2 ^ 31) ∧ (∀ path ∈ cell.2.path, path.length ≤ 65535)
  deriving Decidable

def RowFits (row : Row) : Prop :=
  row.clustering.length ≤ 65535 ∧ row.cells.length ≤ 65535 ∧ ∀ cell ∈ row.cells, CellFits cell
  deriving Decidable

/-- No length and no count is too large for the field it is written in. -/
def Mutation.Fits (mutation : Mutation) : Prop :=
  (utf8Bytes mutation.keyspace).length ≤ 65535 ∧ (utf8Bytes mutation.table).length ≤ 65535 ∧
    mutation.key.key.length ≤ 65535 ∧ mutation.rows.length ≤ 65535 ∧
    ∀ row ∈ mutation.rows, RowFits row
  deriving Decidable

def CellPlain (cell : Cell) : Prop :=
  cell.1 < cellRebindListPathFlag ∧ isLegacyNs cell.2.timestamp = false
  deriving Decidable

def RowPlain (row : Row) : Prop :=
  isLegacyNs row.deletion.markedForDeleteAt = false ∧
    isLegacyNs row.primaryKeyLiveness.timestamp = false ∧ ∀ cell ∈ row.cells, CellPlain cell
  deriving Decidable

/-- Column indices are below `2 ^ 14` and no timestamp is a legacy nanosecond one. -/
def Mutation.Plain (mutation : Mutation) : Prop :=
  isLegacyNs mutation.timestamp = false ∧ ∀ row ∈ mutation.rows, RowPlain row
  deriving Decidable

theorem reads_readU16 (field : String) (value : UInt16) :
    Reads (readU16 field) (writeU16 value) value := by
  apply (reads_take _ (length_bigEndian 2 value.toNat)).convert
  rw [ofBigEndian_bigEndian_of_lt (by simpa using value.toNat_lt), UInt16.ofNat_toNat]

theorem reads_readU32 (field : String) (value : UInt32) :
    Reads (readU32 field) (writeU32 value) value := by
  apply (reads_take _ (length_bigEndian 4 value.toNat)).convert
  rw [ofBigEndian_bigEndian_of_lt (by simpa using value.toNat_lt), UInt32.ofNat_toNat]

theorem reads_readI32 (field : String) (value : Int32) :
    Reads (readI32 field) (writeI32 value) value := by
  apply (reads_take _ (length_bigEndian 4 value.toUInt32.toNat)).convert
  rw [ofBigEndian_bigEndian_of_lt (by simpa using value.toUInt32.toNat_lt), UInt32.ofNat_toNat,
    toInt32_toUInt32]

theorem reads_readI64 (field : String) (value : Int64) :
    Reads (readI64 field) (writeI64 value) value := by
  apply (reads_take _ (length_bigEndian 8 value.toUInt64.toNat)).convert
  rw [ofBigEndian_bigEndian_of_lt (by simpa using value.toUInt64.toNat_lt), UInt64.ofNat_toNat,
    Int64.toInt64_toUInt64]

theorem toNat_ofNat_length {count : Nat} (fits : count ≤ 65535) :
    (UInt16.ofNat count).toNat = count := by
  rw [UInt16.toNat_ofNat']
  omega

theorem reads_readByteVec (field : String) {data : Bytes} (fits : data.length ≤ 65535) :
    Reads (readByteVec field) (writeByteVec data) data := by
  apply (reads_readU16 field _).bind
  apply reads_take
  exact (toNat_ofNat_length fits).symm

theorem reads_readString (field : String) {text : String} (fits : (utf8Bytes text).length ≤ 65535) :
    Reads (readString field) (writeString text) text := by
  apply (reads_readU16 field _).bind
  apply (reads_take _ (toNat_ofNat_length fits).symm).bind_pure
  rw [utf8Bytes, fromUTF8?_toList_toByteArray]
  exact pure text

variable {columnIndex : UInt16}

theorem toNat_lt_of_lt_flag (small : columnIndex < cellRebindListPathFlag) :
    columnIndex.toNat < 2 ^ 14 := by
  rw [UInt16.lt_iff_toNat_lt] at small
  exact small

theorem and_flag_eq_zero {bit : Nat} (small : columnIndex.toNat < 2 ^ bit) :
    columnIndex.toNat &&& 2 ^ bit = 0 := by
  rw [Nat.and_two_pow, Nat.testBit_lt_two_pow small]
  simp

theorem or_and_distrib (a b c : UInt16) : (a ||| b) &&& c = (a &&& c) ||| (b &&& c) := by
  apply UInt16.toNat_inj.mp
  simp only [UInt16.toNat_and, UInt16.toNat_or, Nat.and_or_distrib_right]

section Tagged

variable (small : columnIndex < cellRebindListPathFlag)

include small

theorem and_rebindFlag : columnIndex &&& cellRebindListPathFlag = 0 := by
  apply UInt16.toNat_inj.mp
  rw [UInt16.toNat_and]
  exact and_flag_eq_zero (toNat_lt_of_lt_flag small)

theorem and_pathFlag : columnIndex &&& cellHasPathFlag = 0 := by
  apply UInt16.toNat_inj.mp
  rw [UInt16.toNat_and]
  exact @and_flag_eq_zero columnIndex 15 ((toNat_lt_of_lt_flag small).trans (by decide))

theorem and_indexMask : columnIndex &&& cellColumnIndexMask = columnIndex := by
  apply UInt16.toNat_inj.mp
  rw [UInt16.toNat_and]
  have mask : cellColumnIndexMask.toNat = 2 ^ 14 - 1 := by decide
  rw [mask, Nat.and_two_pow_sub_one_eq_mod, Nat.mod_eq_of_lt (toNat_lt_of_lt_flag small)]

theorem acceptsColumnIndex_of_lt : acceptsColumnIndex columnIndex := by
  have reserved : ~~~(cellRebindListPathFlag ||| cellColumnIndexMask) = cellHasPathFlag := by decide
  simp [acceptsColumnIndex, reserved, and_pathFlag small]

theorem taggedColumnIndex_eq (hasPath : Bool) : taggedColumnIndex columnIndex hasPath =
      columnIndex ||| if hasPath then cellHasPathFlag else 0 := by
  rw [taggedColumnIndex, and_indexMask small, and_rebindFlag small, UInt16.or_zero]

theorem tagged_and_pathFlag (hasPath : Bool) :
    (taggedColumnIndex columnIndex hasPath &&& cellHasPathFlag != 0) = hasPath := by
  rw [taggedColumnIndex_eq small, or_and_distrib, and_pathFlag small]
  cases hasPath <;> decide

theorem tagged_and_rebindFlag (hasPath : Bool) :
    (taggedColumnIndex columnIndex hasPath &&& cellRebindListPathFlag != 0) = false := by
  rw [taggedColumnIndex_eq small, or_and_distrib, and_rebindFlag small]
  cases hasPath <;> decide

theorem tagged_and_indexMask (hasPath : Bool) :
    taggedColumnIndex columnIndex hasPath &&& cellColumnIndexMask = columnIndex := by
  rw [taggedColumnIndex_eq small, or_and_distrib, and_indexMask small]
  have clear : (if hasPath then cellHasPathFlag else 0) &&& cellColumnIndexMask = 0 := by
    cases hasPath <;> decide
  rw [clear, UInt16.or_zero]

end Tagged

theorem reads_deserializeValue {value : Option Bytes}
    (fits : ∀ bytes ∈ value, bytes.length < 2 ^ 31) :
    Reads deserializeValue (serializeValue value) value := by
  cases value with
  | none =>
    apply (reads_readI32 _ (-1)).bind_pure
    exact pure none
  | some bytes =>
    have small := fits bytes rfl
    have length : (ofNat bytes.length).toInt = bytes.length := by
      rw [toInt_ofNat']
      simp only [Int.bmod, size]
      omega
    have notTombstone : ofNat bytes.length ≠ -1 := by
      intro same
      rw [same] at length
      have negative : (-1 : Int32).toInt = -1 := by decide
      omega
    apply (reads_readI32 _ _).bind
    rw [if_neg notTombstone]
    apply (reads_take _ _).bind_pure
    · exact pure (some bytes)
    · rw [lengthAsUsize, length]
      omega

theorem reads_deserializePath {path : Option Bytes} (fits : ∀ bytes ∈ path, bytes.length ≤ 65535) :
    Reads (deserializePath path.isSome) (serializePath path) path := by
  cases path with
  | none => exact pure none
  | some bytes => exact (reads_readByteVec _ (fits bytes rfl)).bind_pure (pure (some bytes))

theorem reads_deserializeCell (rebind : RebindListPath) {cell : Cell} (fits : CellFits cell)
    (plain : CellPlain cell) : Reads (deserializeCell rebind) (serializeCell cell) cell := by
  obtain ⟨valueFits, pathFits⟩ := fits
  obtain ⟨small, micros⟩ := plain
  apply (reads_readU16 _ _).bind
  apply (reads_readI64 _ _).bind
  apply (reads_readI32 _ _).bind
  apply (reads_readI32 _ _).bind
  apply (reads_deserializeValue valueFits).bind
  rw [tagged_and_pathFlag small, tagged_and_rebindFlag small, tagged_and_indexMask small]
  apply (reads_deserializePath pathFits).bind_pure
  rw [normalizeCellTs_of_not_legacy micros]
  exact pure cell

theorem reads_deserializeRow (rebind : RebindListPath) {row : Row} (fits : RowFits row)
    (plain : RowPlain row) : Reads (deserializeRow rebind) (serializeRow row) row := by
  obtain ⟨clusteringFits, countFits, cellsFit⟩ := fits
  obtain ⟨deletionMicros, livenessMicros, cellsPlain⟩ := plain
  apply (reads_readByteVec _ clusteringFits).bind
  apply (reads_readI64 _ _).bind
  apply (reads_readU32 _ _).bind
  apply (reads_readI64 _ _).bind
  apply (reads_readI32 _ _).bind
  apply (reads_readI32 _ _).bind
  apply (reads_readU16 _ _).bind
  rw [toNat_ofNat_length countFits]
  apply Reads.bind_pure
  · apply reads_times
    intro cell present
    exact reads_deserializeCell rebind (cellsFit cell present) (cellsPlain cell present)
  · rw [normalizeCellTs_of_not_legacy deletionMicros, normalizeCellTs_of_not_legacy livenessMicros]
    exact pure row

theorem reads_readMutationId (mutationId : MutationId) :
    Reads readMutationId mutationId.val mutationId := by
  apply (reads_take _ mutationId.property).bind_pure
  rw [dif_pos mutationId.property]
  exact pure mutationId

theorem reads_decodeFields (rebind : RebindListPath) {mutation : Mutation} (fits : mutation.Fits)
    (plain : mutation.Plain) :
    Reads (decodeFields rebind)
      (serializeFields mutation.mutationId mutation.keyspace mutation.table mutation.key
        mutation.timestamp (UInt16.ofNat mutation.rows.length) mutation.rows) mutation := by
  obtain ⟨keyspaceFits, tableFits, keyFits, countFits, rowsFit⟩ := fits
  obtain ⟨micros, rowsPlain⟩ := plain
  apply (reads_readMutationId _).bind
  apply (reads_readString _ keyspaceFits).bind
  apply (reads_readString _ tableFits).bind
  apply (reads_readByteVec _ keyFits).bind
  apply (reads_readI64 _ _).bind
  apply (reads_readI64 _ _).bind
  apply (reads_readU16 _ _).bind
  rw [toNat_ofNat_length countFits]
  apply Reads.bind_pure
  · apply reads_times
    intro row present
    exact reads_deserializeRow rebind (rowsFit row present) (rowsPlain row present)
  · rw [normalizeCellTs_of_not_legacy micros]
    exact pure mutation

end Ferrosa.CommitLog
