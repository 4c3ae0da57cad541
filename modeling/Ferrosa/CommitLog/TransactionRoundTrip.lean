import Ferrosa.CommitLog.SegmentMembers

/-!
# Transaction records read back

The envelope of a batch of loggable mutations is a record whose members are the
batch, as long as their frames together fit into one cell value.
-/

namespace Ferrosa.CommitLog

open Storage List Option

namespace TransactionRecord

def frameSize (mutation : Mutation) : ℕ := 4 + mutation.serializedSize

def framesSize (mutations : List Mutation) : ℕ := (mutations.map frameSize).sum

variable {framed : Bytes} {mutation : Mutation} {mutations : List Mutation}

theorem frame_eq (isFrame : frame mutation = some framed) :
    framed = writeU32 (UInt32.ofNat mutation.serializedSize) ++ mutation.bytes := by
  rcases bind_eq_some_iff.mp isFrame with ⟨payload, serialized, isFramed⟩
  cases isFramed
  rw [SegmentLog.serializeInto_eq_bytes (length_replicate.le) serialized]

theorem length_frame (isFrame : frame mutation = some framed) :
    framed.length = frameSize mutation := by
  rw [frame_eq isFrame, length_append, length_bytes, writeU32, length_bigEndian, frameSize]

variable {frames : List Bytes}

theorem length_frames (areFrames : mutations.mapM frame = some frames) :
    frames.flatten.length = framesSize mutations := by
  induction mutations generalizing frames with
  | nil =>
    cases areFrames
    rfl
  | cons mutation rest ih =>
    rw [mapM_cons] at areFrames
    rcases bind_eq_some_iff.mp areFrames with ⟨first, isFirst, others⟩
    rcases bind_eq_some_iff.mp others with ⟨tail, isTail, whole⟩
    cases whole
    simp only [flatten_cons, length_append, ih isTail, length_frame isFirst,
      framesSize, map_cons, sum_cons]

theorem decodeFrames_cons (loggable : mutation.Loggable) (small : mutation.serializedSize < 2 ^ 32)
    (isFrame : frame mutation = some framed) {rest : Bytes}
    (decoded : decodeFrames rest = .ok mutations) :
    decodeFrames (framed ++ rest) = .ok (mutation :: mutations) := by
  have width : (writeU32 (UInt32.ofNat mutation.serializedSize)).length = 4 := length_bigEndian _ _
  have bytesLength := length_bytes mutation
  have whole : framed ++ rest =
      writeU32 (UInt32.ofNat mutation.serializedSize) ++ (mutation.bytes ++ rest) := by
    rw [frame_eq isFrame, append_assoc]
  have size : ofBigEndian ((framed ++ rest).take 4) = mutation.serializedSize := by
    rw [whole, take_left' width, writeU32, UInt32.toNat_ofNat_of_lt' small,
      ofBigEndian_bigEndian_of_lt (by simpa using small)]
  have nonempty : framed ++ rest ≠ [] := by
    intro empty
    have length := congrArg List.length (whole.symm.trans empty)
    simp only [length_append, width, length_nil] at length
    omega
  have complete : ¬(framed ++ rest).length < 4 + mutation.serializedSize := by
    rw [whole]
    simp only [length_append, width, bytesLength]
    omega
  have payload : ((framed ++ rest).drop 4).take mutation.serializedSize = mutation.bytes := by
    rw [whole, drop_left' width, take_left' bytesLength]
  have behind : (framed ++ rest).drop (4 + mutation.serializedSize) = rest := by
    rw [whole, ← drop_drop, drop_left' width, drop_left' bytesLength]
  have member := deserializeFrom_bytes loggable.fits loggable.plain []
  rw [append_nil] at member
  rw [decodeFrames, if_neg nonempty]
  simp only [size, if_neg complete, payload, member, behind, decoded, if_neg loggable.ordinary]
  rfl

theorem decodeFrames_frames (loggable : ∀ mutation ∈ mutations, mutation.Loggable)
    (small : framesSize mutations < 2 ^ 31) (areFrames : mutations.mapM frame = some frames) :
    decodeFrames frames.flatten = .ok mutations := by
  induction mutations generalizing frames with
  | nil =>
    cases areFrames
    rw [decodeFrames]
    rfl
  | cons mutation rest ih =>
    rw [mapM_cons] at areFrames
    rcases bind_eq_some_iff.mp areFrames with ⟨first, isFirst, others⟩
    rcases bind_eq_some_iff.mp others with ⟨tail, isTail, whole⟩
    cases whole
    have sizes : framesSize (mutation :: rest) = frameSize mutation + framesSize rest := by
      rw [framesSize, map_cons, sum_cons, framesSize]
    rw [sizes] at small
    have firstSmall : mutation.serializedSize < 2 ^ 32 := by
      rw [frameSize] at small
      omega
    apply decodeFrames_cons (loggable mutation mem_cons_self) firstSmall isFirst
    apply ih (fun member inRest => loggable member (mem_cons_of_mem _ inRest)) _ isTail
    omega

structure Encoded (mutations : List Mutation) (record : Mutation) (payload : Bytes) : Prop where
  keyspace : record.keyspace = reservedKeyspace
  table : record.table = reservedTable
  key : record.key.key = []
  timestamp : record.timestamp = 0
  rows : record.rows = [⟨[], [(0, CellValue.live payload 0)], DeletionTime.live, LivenessInfo.none⟩]
  frames : ∃ frames, mutations.mapM frame = some frames ∧ payload = frames.flatten

theorem encoded_of_encode {mutationId : MutationId} {token : Int64} {maximum : ℕ}
    {record : Mutation}
    (isEncoded : encode mutationId token mutations maximum = .ok (some record)) :
    ∃ payload, Encoded mutations record payload := by
  unfold encode at isEncoded
  cases sized : framedSize maximum 0 mutations with
  | error error =>
    rw [sized] at isEncoded
    cases isEncoded
  | ok total =>
    rw [sized] at isEncoded
    rcases map_eq_some_iff.mp (Except.ok.inj isEncoded) with ⟨frames, areFrames, rfl⟩
    exact ⟨frames.flatten, rfl, rfl, rfl, rfl, rfl, frames, areFrames, rfl⟩

variable {mutations : List Mutation} {record : Mutation} {payload : Bytes}

theorem Encoded.decode (encoded : Encoded mutations record payload) (nonempty : mutations ≠ [])
    (loggable : ∀ mutation ∈ mutations, mutation.Loggable)
    (small : framesSize mutations < 2 ^ 31) : decode record = .ok mutations := by
  rcases encoded.frames with ⟨frames, areFrames, rfl⟩
  have payload : envelopePayload record = some frames.flatten := by
    rw [envelopePayload, if_neg (not_not_intro encoded.table), encoded.rows]
    rfl
  have members := decodeFrames_frames loggable small areFrames
  rw [TransactionRecord.decode, if_neg (not_not_intro encoded.keyspace), payload]
  dsimp only
  rw [members]
  change (if mutations = [] then _ else _) = _
  rw [if_neg nonempty]
  rfl

theorem Encoded.plain (encoded : Encoded mutations record payload) : record.Plain := by
  refine ⟨?_, ?_⟩
  · rw [encoded.timestamp]
    rfl
  · rw [encoded.rows]
    intro row member
    rw [mem_singleton.mp member]
    refine ⟨rfl, rfl, ?_⟩
    intro cell only
    rw [mem_singleton.mp only]
    exact ⟨by simp [cellRebindListPathFlag], rfl⟩

theorem Encoded.fits (encoded : Encoded mutations record payload)
    (small : framesSize mutations < 2 ^ 31) : record.Fits := by
  have short : payload.length < 2 ^ 31 := by
    rcases encoded.frames with ⟨frames, areFrames, rfl⟩
    rw [length_frames areFrames]
    exact small
  refine ⟨?_, ?_, ?_, ?_, ?_⟩
  · rw [encoded.keyspace]
    decide
  · rw [encoded.table]
    decide
  · rw [encoded.key]
    decide
  · simp [encoded.rows]
  · rw [encoded.rows]
    intro row member
    rw [mem_singleton.mp member]
    refine ⟨by simp, by simp, ?_⟩
    intro cell only
    rw [mem_singleton.mp only]
    refine ⟨?_, by simp [CellValue.live]⟩
    rintro value ⟨⟩
    exact short

end TransactionRecord

structure Mutation.Appendable (record : Mutation) (batchTables : Option (List TableId)) : Prop where
  logged : record.LoggedRecord
  tables : ∀ tables ∈ batchTables, ∀ members, TransactionRecord.decode record = .ok members →
    tables = members.map Mutation.tableId
  ordinary : batchTables = none → record.Loggable

theorem Mutation.Loggable.appendable {mutation : Mutation} (loggable : mutation.Loggable) :
    mutation.Appendable none where
  logged := loggable.loggedRecord
  tables := by simp
  ordinary := fun _ => loggable

structure LoggableBatch (members : List Mutation) : Prop where
  nonempty : members ≠ []
  loggable : ∀ member ∈ members, member.Loggable
  small : TransactionRecord.framesSize members < 2 ^ 31

theorem LoggableBatch.appendable {members : List Mutation} (batch : LoggableBatch members)
    {mutationId : MutationId} {token : Int64} {maximum : ℕ} {record : Mutation}
    (isEncoded : TransactionRecord.encode mutationId token members maximum = .ok (some record)) :
    record.Appendable (some (members.map Mutation.tableId)) := by
  rcases TransactionRecord.encoded_of_encode isEncoded with ⟨payload, encoded⟩
  have decoded := encoded.decode batch.nonempty batch.loggable batch.small
  refine ⟨⟨⟨encoded.plain, encoded.fits batch.small, members, decoded⟩, ?_⟩, ?_, by simp⟩
  · intro others isDecoded
    rw [decoded] at isDecoded
    cases isDecoded
    exact batch.loggable
  · rintro tables ⟨⟩ others isDecoded
    rw [decoded] at isDecoded
    cases isDecoded
    rfl

end Ferrosa.CommitLog
