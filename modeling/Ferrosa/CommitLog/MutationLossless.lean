import Ferrosa.CommitLog.MutationRoundTrip

/-!
# Lossless or refused

The decoder only returns mutations within the limits of the format, so a mutation
beyond them cannot come back, whichever of the three writers produced the bytes.
-/

namespace Ferrosa.CommitLog

open Storage Decoder Mutation List

@[simp] theorem length_writeU16 (value : UInt16) : (writeU16 value).length = 2 :=
  length_bigEndian 2 _

@[simp] theorem length_writeU32 (value : UInt32) : (writeU32 value).length = 4 :=
  length_bigEndian 4 _

@[simp] theorem length_writeI32 (value : Int32) : (writeI32 value).length = 4 :=
  length_bigEndian 4 _

@[simp] theorem length_writeI64 (value : Int64) : (writeI64 value).length = 8 :=
  length_bigEndian 8 _

@[simp] theorem length_writeByteVec (data : Bytes) :
    (writeByteVec data).length = byteVecSize data := by
  simp [writeByteVec, byteVecSize]

@[simp] theorem length_writeString (text : String) :
    (writeString text).length = stringSize text := by
  simp [writeString, stringSize, byteVecSize]

theorem length_serializeCell (cell : Cell) : (serializeCell cell).length = cellSize cell.2 := by
  rcases cell with ⟨columnIndex, value, timestamp, ttl, localDeletionTime, path⟩
  cases value <;> cases path <;>
    simp [serializeCell, serializeValue, serializePath, cellSize, byteVecSize] <;> omega

theorem length_serializeRow (row : Row) : (serializeRow row).length = rowSize row := by
  simp only [serializeRow, rowSize, length_append, length_writeByteVec, length_writeI64,
    length_writeU32, length_writeI32, length_writeU16, length_flatMap, length_serializeCell]
  omega

theorem length_serializeFields (mutationId : MutationId) (keyspace table : String)
    (key : DecoratedKey) (timestamp : Int64) (rowCount : UInt16) (rows : List Row) :
    (serializeFields mutationId keyspace table key timestamp rowCount rows).length =
      sizeOfFields keyspace table key rows := by
  have rowLengths : (fun row => (serializeRow row).length) = rowSize := funext length_serializeRow
  simp only [serializeFields, sizeOfFields, length_append, mutationId.property,
    length_writeString, length_writeByteVec, length_writeI64, length_writeU16,
    length_flatMap, rowLengths]
  omega

/-- More than any slice holds, and less than a negative length read as unsigned. -/
def sliceBound : Nat := 2 ^ 63

variable {bound : Nat}

theorem ensures_readBytes (count : Nat) (field : String) :
    Ensures bound (readBytes count field) (fun bytes => bytes.length = count ∧ count < bound) :=
  ensures_take count _

theorem ensures_any_bytes {α : Type} (count : Nat) (field : String) (convert : Bytes → α) :
    Ensures bound (do let bytes ← readBytes count field; pure (convert bytes)) (fun _ => True) :=
  (ensures_readBytes count field).bind (fun _ _ => Ensures.pure trivial)

theorem ensures_readByteVec (field : String) :
    Ensures bound (readByteVec field) (fun bytes => bytes.length ≤ 65535) := by
  apply (ensures_any_bytes 2 field _).bind
  intro len _
  apply (ensures_readBytes len.toNat field).mono
  rintro bytes ⟨length, -⟩
  have small := len.toNat_lt
  omega

theorem ensures_readString (field : String) :
    Ensures bound (readString field) (fun text => (utf8Bytes text).length ≤ 65535) := by
  apply (ensures_any_bytes 2 field _).bind
  intro len _
  apply (ensures_readBytes len.toNat field).bind
  rintro bytes ⟨length, -⟩
  cases decoded : String.fromUTF8? ⟨bytes.toArray⟩ with
  | none => exact Ensures.error
  | some text =>
    apply Ensures.pure
    have small := len.toNat_lt
    unfold String.fromUTF8? at decoded
    split_ifs at decoded
    obtain rfl := Option.some.inj decoded
    change bytes.toArray.toList.length ≤ 65535
    rw [toList_toArray]
    omega

theorem ensures_deserializeValue : Ensures sliceBound deserializeValue
      (fun value => ∀ bytes ∈ value, bytes.length < 2 ^ 31) := by
  apply (ensures_any_bytes 4 "cell.value_len" _).bind
  intro valueLen _
  split_ifs with tombstone
  · exact Ensures.pure (by simp)
  · apply (ensures_readBytes (lengthAsUsize valueLen) "cell.value").bind
    rintro bytes ⟨length, held⟩
    apply Ensures.pure
    intro returned same
    obtain rfl := Option.some.inj same
    rw [length]
    have low := valueLen.le_toInt
    have high := valueLen.toInt_lt
    unfold lengthAsUsize sliceBound at *
    omega

theorem ensures_deserializePath (hasPath : Bool) : Ensures bound (deserializePath hasPath)
      (fun path => ∀ bytes ∈ path, bytes.length ≤ 65535) := by
  unfold deserializePath
  split_ifs
  · apply (ensures_readByteVec "cell.path").bind
    intro bytes fits
    apply Ensures.pure
    intro returned same
    obtain rfl := Option.some.inj same
    exact fits
  · exact Ensures.pure (by simp)

theorem ensures_deserializeCell : Ensures sliceBound (deserializeCell none) CellFits := by
  apply (ensures_any_bytes 2 "cell.column_index" _).bind
  intro tagged _
  apply (ensures_any_bytes 8 "cell.timestamp" _).bind
  intro timestamp _
  apply (ensures_any_bytes 4 "cell.ttl" _).bind
  intro ttl _
  apply (ensures_any_bytes 4 "cell.local_deletion_time" _).bind
  intro localDeletionTime _
  apply ensures_deserializeValue.bind
  intro value valueFits
  apply (ensures_deserializePath _).bind
  intro path pathFits
  have unchanged : rebindPath none (tagged &&& cellRebindListPathFlag != 0) path = .ok path := by
    simp [rebindPath]
  rw [unchanged]
  exact Ensures.pure ⟨valueFits, pathFits⟩

theorem ensures_deserializeRow : Ensures sliceBound (deserializeRow none) RowFits := by
  apply (ensures_readByteVec "clustering").bind
  intro clustering clusteringFits
  apply (ensures_any_bytes 8 "deletion.marked_for_delete_at" _).bind
  intro markedForDeleteAt _
  apply (ensures_any_bytes 4 "deletion.local_deletion_time" _).bind
  intro deletionLdt _
  apply (ensures_any_bytes 8 "liveness.timestamp" _).bind
  intro livenessTs _
  apply (ensures_any_bytes 4 "liveness.ttl" _).bind
  intro livenessTtl _
  apply (ensures_any_bytes 4 "liveness.local_deletion_time" _).bind
  intro livenessLdt _
  apply (ensures_any_bytes 2 "cell_count" _).bind
  intro cellCount _
  apply (ensures_times cellCount.toNat ensures_deserializeCell).bind
  rintro cells ⟨counted, cellsFit⟩
  have small := cellCount.toNat_lt
  have countFits : cells.length ≤ 65535 := by omega
  exact Ensures.pure ⟨clusteringFits, countFits, cellsFit⟩

theorem ensures_readMutationId : Ensures bound readMutationId (fun _ => True) := by
  apply (ensures_readBytes 16 "mutation_id").bind
  rintro bytes ⟨sixteen, -⟩
  rw [dif_pos sixteen]
  exact Ensures.pure trivial

theorem ensures_decodeFields : Ensures sliceBound (decodeFields none) Mutation.Fits := by
  apply ensures_readMutationId.bind
  intro mutationId _
  apply (ensures_readString "keyspace").bind
  intro keyspace keyspaceFits
  apply (ensures_readString "table").bind
  intro table tableFits
  apply (ensures_readByteVec "key").bind
  intro keyBytes keyFits
  apply (ensures_any_bytes 8 "token" _).bind
  intro token _
  apply (ensures_any_bytes 8 "timestamp" _).bind
  intro timestamp _
  apply (ensures_any_bytes 2 "row_count" _).bind
  intro rowCount _
  apply (ensures_times rowCount.toNat ensures_deserializeRow).bind
  rintro rows ⟨counted, rowsFit⟩
  have small := rowCount.toNat_lt
  have countFits : rows.length ≤ 65535 := by omega
  exact Ensures.pure ⟨keyspaceFits, tableFits, keyFits, countFits, rowsFit⟩

theorem fits_of_deserializeFrom {buf : Bytes} {mutation : Mutation}
    (short : buf.length < sliceBound) (decoded : Mutation.deserializeFrom buf = .ok mutation) :
    mutation.Fits := by
  unfold deserializeFrom deserializeInner at decoded
  cases run : decodeFields none buf with
  | error error =>
    rw [run] at decoded
    cases decoded
  | ok pair =>
    rw [run] at decoded
    obtain rfl := Except.ok.inj decoded
    exact (ensures_decodeFields buf pair.1 pair.2 short run).2

/-- The buffer holds the mutation in front, in exactly its serialized size, and what was
there before behind it. -/
def HoldsMutation (mutation : Mutation) (buf out : Bytes) : Prop :=
  Mutation.deserializeFrom out = .ok mutation ∧
    ∃ written, written.length = mutation.serializedSize ∧
      out = written ++ buf.drop mutation.serializedSize

/-- Every writer that does not refuse a mutation writes bytes that read back as it. -/
structure LosslessOrRefused (mutation : Mutation) : Prop where
  serializeInto : ∀ buf out, mutation.serializeInto buf = some out → HoldsMutation mutation buf out
  serializeSingleRowInto : ∀ row, mutation.rows = [row] → ∀ buf out,
    Mutation.serializeSingleRowInto mutation.mutationId mutation.keyspace mutation.table
      mutation.key row mutation.timestamp buf = some out → HoldsMutation mutation buf out
  serializeBorrowedRows : ∀ out,
    Mutation.serializeBorrowedRows mutation.mutationId mutation.keyspace mutation.table
      mutation.key mutation.timestamp mutation.rows = .ok (some out) →
    Mutation.deserializeFrom out = .ok mutation ∧ out.length = mutation.serializedSize

def Mutation.bytes (mutation : Mutation) : Bytes :=
  serializeFields mutation.mutationId mutation.keyspace mutation.table mutation.key
    mutation.timestamp (UInt16.ofNat mutation.rows.length) mutation.rows

section Writers

variable {mutation : Mutation}

theorem length_bytes (mutation : Mutation) : mutation.bytes.length = mutation.serializedSize :=
  length_serializeFields _ _ _ _ _ _ _

theorem deserializeFrom_bytes (fits : mutation.Fits) (plain : mutation.Plain) (rest : Bytes) :
    Mutation.deserializeFrom (mutation.bytes ++ rest) = .ok mutation := by
  unfold deserializeFrom deserializeInner
  have run := reads_decodeFields none fits plain rest
  rw [Mutation.bytes, run]
  rfl

theorem holdsMutation_writeOver (fits : mutation.Fits) (plain : mutation.Plain) (buf : Bytes) :
    HoldsMutation mutation buf (Mutation.writeOver mutation.bytes buf) := by
  refine ⟨deserializeFrom_bytes fits plain _, mutation.bytes, length_bytes mutation, ?_⟩
  rw [writeOver, length_bytes]

theorem acceptsRows_of_plain (plain : mutation.Plain) : Mutation.acceptsRows mutation.rows := by
  simp only [acceptsRows, all_eq_true]
  intro row present cell member
  exact acceptsColumnIndex_of_lt ((plain.2 row present).2.2 cell member).1

theorem losslessOrRefused_of_fits (plain : mutation.Plain) (fits : mutation.Fits) :
    LosslessOrRefused mutation where
  serializeInto := by
    intro buf out written
    unfold Mutation.serializeInto at written
    split_ifs at written
    obtain rfl := Option.some.inj written
    exact holdsMutation_writeOver fits plain buf
  serializeSingleRowInto := by
    intro row single buf out written
    unfold Mutation.serializeSingleRowInto at written
    split_ifs at written
    obtain rfl := Option.some.inj written
    have same : serializeFields mutation.mutationId mutation.keyspace mutation.table mutation.key
        mutation.timestamp 1 [row] = mutation.bytes := by
      rw [Mutation.bytes, single]
      rfl
    rw [same]
    exact holdsMutation_writeOver fits plain buf
  serializeBorrowedRows := by
    intro out written
    unfold Mutation.serializeBorrowedRows at written
    split_ifs at written
    · obtain rfl := Option.some.inj (Except.ok.inj written)
      refine ⟨?_, length_bytes mutation⟩
      have whole := deserializeFrom_bytes fits plain []
      rw [append_nil] at whole
      exact whole
    · cases Except.ok.inj written

theorem fits_of_losslessOrRefused (plain : mutation.Plain)
    (inMemory : mutation.serializedSize < sliceBound) (lossless : LosslessOrRefused mutation) :
    mutation.Fits := by
  -- a buffer of exactly the serialized size
  let buf : Bytes := List.replicate mutation.serializedSize 0
  have bufLength : buf.length = mutation.serializedSize := length_replicate
  have written : mutation.serializeInto buf = some (writeOver mutation.bytes buf) := by
    rw [Mutation.serializeInto, if_neg (by omega), if_pos (acceptsRows_of_plain plain)]
    rfl
  obtain ⟨decoded, -⟩ := lossless.serializeInto buf _ written
  apply fits_of_deserializeFrom _ decoded
  rw [writeOver, length_append, length_drop, length_bytes, bufLength]
  omega

theorem losslessOrRefused_iff_fits (plain : mutation.Plain)
    (inMemory : mutation.serializedSize < sliceBound) :
    LosslessOrRefused mutation ↔ mutation.Fits :=
  ⟨fits_of_losslessOrRefused plain inMemory, losslessOrRefused_of_fits plain⟩

end Writers

def sampleRow : Row :=
  ⟨[1, 2], [(0, CellValue.live [7] 5), (1, CellValue.tombstone 6 9),
    (2, { CellValue.live [8] 7 with path := some [3] })], DeletionTime.live,
    LivenessInfo.withTimestamp 5⟩

def sampleMutation (key : Bytes) : Mutation :=
  ⟨⟨List.replicate 16 0, by decide⟩, "ks", "t", ⟨0, key⟩, [sampleRow], 0⟩

theorem losslessOrRefused_sampleMutation :
    (sampleMutation [9]).Fits ∧ LosslessOrRefused (sampleMutation [9]) := by
  have fits : (sampleMutation [9]).Fits := by decide
  exact ⟨fits, (losslessOrRefused_iff_fits (by decide) (by decide)).mpr fits⟩

/-- The key's length is written as zero, and the fields behind it are read out of the key. -/
def longKeyMutation : Mutation := sampleMutation (List.replicate 65536 0)

def shortenedMutation : Mutation := { sampleMutation [] with rows := [] }

theorem bytes_longKeyMutation :
    ∃ rest, longKeyMutation.bytes = shortenedMutation.bytes ++ rest := by
  have split : List.replicate 65536 (0 : UInt8) =
      writeI64 0 ++ (writeI64 0 ++ (writeU16 0 ++ List.replicate 65518 0)) := by
    have zeros : writeI64 0 = List.replicate 8 0 ∧ writeU16 0 = List.replicate 2 0 := by decide
    rw [zeros.1, zeros.2]
    simp only [replicate_append_replicate]
  have cut : writeByteVec (List.replicate 65536 (0 : UInt8)) =
      writeByteVec [] ++ (writeI64 0 ++ (writeI64 0 ++ (writeU16 0 ++ List.replicate 65518 0))) := by
    rw [writeByteVec, length_replicate, split]
    rfl
  simp only [Mutation.bytes, longKeyMutation, shortenedMutation, sampleMutation, serializeFields,
    cut, append_assoc, append_cancel_left_eq, flatMap_nil, nil_append]
  exact ⟨_, rfl⟩

theorem not_losslessOrRefused_longKeyMutation :
    ∃ buf out, longKeyMutation.serializeInto buf = some out ∧
      Mutation.deserializeFrom out = .ok shortenedMutation ∧
      ¬LosslessOrRefused longKeyMutation := by
  have plain : longKeyMutation.Plain :=
    (by decide : (sampleMutation []).Plain)
  let buf : Bytes := List.replicate longKeyMutation.serializedSize 0
  have written : longKeyMutation.serializeInto buf =
      some (writeOver longKeyMutation.bytes buf) := by
    have room : ¬buf.length < longKeyMutation.serializedSize := by
      rw [length_replicate]
      exact lt_irrefl _
    rw [Mutation.serializeInto, if_neg room, if_pos (acceptsRows_of_plain plain)]
    rfl
  have decoded : deserializeFrom (writeOver longKeyMutation.bytes buf) =
      .ok shortenedMutation := by
    obtain ⟨rest, split⟩ := bytes_longKeyMutation
    rw [writeOver, split, append_assoc]
    exact deserializeFrom_bytes (by decide) (by decide) _
  refine ⟨buf, _, written, decoded, ?_⟩
  intro lossless
  obtain ⟨same, -⟩ := lossless.serializeInto buf _ written
  rw [decoded] at same
  have rows := congrArg Mutation.rows (Except.ok.inj same)
  cases rows

end Ferrosa.CommitLog
