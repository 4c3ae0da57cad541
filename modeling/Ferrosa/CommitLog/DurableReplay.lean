import Ferrosa.CommitLog.SegmentReplay

/-!
# Replay of a segment after any run

Every flushed entry is found again, as its own record or as the members of its
transaction, provided that its bytes decode to what was appended and that every
marker slot has a 32-bit offset.
-/

namespace Ferrosa.CommitLog

open Storage List Mutation TransactionRecord Segment

variable {crc : Bytes → UInt32}

/-- What an appended record stands for: the members of a transaction, or the record itself. -/
def recordEntries (segmentId : UInt64) (entry : ℕ × Mutation) :
    List (CommitLogPosition × Mutation) :=
  match TransactionRecord.decode entry.2 with
  | .ok members => members.mapIdx fun index member => (⟨segmentId, entry.1 + index⟩, member)
  | .error _ => [(⟨segmentId, entry.1⟩, entry.2)]

/-- Its bytes decode to the mutation, and it is no malformed transaction envelope. -/
structure Mutation.Replayable (mutation : Mutation) : Prop where
  plain : mutation.Plain
  fits : mutation.Fits
  record : ∃ members, TransactionRecord.decode mutation = .ok members

theorem Mutation.Replayable.decodeEntry_bytes {mutation : Mutation}
    (replayable : mutation.Replayable) (segmentId : UInt64) (offset : ℕ) :
    decodeEntry segmentId offset mutation.bytes =
      ⟨recordEntries segmentId (offset, mutation), false⟩ := by
  have decoded := deserializeFrom_bytes replayable.fits replayable.plain []
  rw [append_nil] at decoded
  rcases replayable.record with ⟨members, record⟩
  simp only [decodeEntry, decoded, record, recordEntries]

namespace SegmentLog

/-- The file yields every durable entry, in order, and then only entries from behind the watermark.
A file that was never flushed may not open. -/
structure DurableEntriesReplay (crc : Bytes → UInt32) (log : SegmentLog) (file : Bytes) :
    Prop where
  opens : 0 < log.segment.lastFlushed → ∃ read, readAll crc file = .ok read
  replays : ∀ read, readAll crc file = .ok read →
    ∃ extra, read.entries = log.durable.flatMap (recordEntries log.segment.id) ++ extra ∧
      ∀ yielded ∈ extra, ∃ entry ∈ log.appended, log.segment.lastFlushed ≤ entry.1 ∧
        yielded ∈ recordEntries log.segment.id entry

/-- For every file with the durable bytes in front, whatever stands behind them. -/
structure DurableReplay (crc : Bytes → UInt32) (log : SegmentLog) : Prop where
  replay : ∀ file, HoldsDurable log file → ChecksumsReject crc log file →
    DurableEntriesReplay crc log file
  keepsDurableBytes : KeepsDurableBytes crc log

variable {log : SegmentLog} {file : Bytes}

variable {chain : List (List Mutation)} {current : List Mutation}

theorem Layout.recovered (layout : Layout crc log chain current) (holds : HoldsDurable log file)
    (flushed : 0 < log.segment.lastFlushed) :
    ∃ read tail, readAll crc file = .ok read ∧ Recovered crc log file read tail := by
  rcases layout.flushed with never | ⟨before, after, rfl, watermark⟩ | ⟨closed, watermark⟩
  · omega
  · exact layout.recovered_of_sectionEnd holds watermark
  · exact layout.recovered_of_closed holds closed watermark

theorem durable_eq_nil (never : log.segment.lastFlushed = 0) : log.durable = [] := by
  rw [durable, filter_eq_nil_iff]
  intro entry _
  have positive := entry.2.entrySize_pos
  rw [decide_eq_true_eq]
  omega

theorem replayedFrom_of_never_flushed (sound : ChecksumsReject crc log file) {read : SegmentRead}
    (isRead : readAll crc file = .ok read) :
    ∀ yielded ∈ read.entries, ReplayedFrom log log.segment.id 0 yielded := by
  unfold readAll at isRead
  cases opened : openSegment crc file with
  | error error =>
    rw [opened] at isRead
    cases isRead
  | ok descriptor =>
    rw [opened] at isRead
    cases isRead
    intro yielded member
    have replayed := sound.replayedFrom_readSections _ _ yielded member
    have marked : ∃ next, headerSize + syncMarkerSize ≤ file.length ∧
        markerAt crc descriptor.segmentId file headerSize = some next := by
      rw [readSections] at member
      split_ifs at member with short
      · cases member
      · cases found : markerAt crc descriptor.segmentId file headerSize with
        | none =>
          rw [found] at member
          cases member
        | some next => exact ⟨next, Nat.le_of_not_lt short, rfl⟩
    rcases marked with ⟨next, inFile, found⟩
    have own := (sound.marker descriptor opened headerSize next inFile found).1
    rw [own] at replayed
    exact replayed.mono (Nat.zero_le _)

theorem HasLayout.durableEntriesReplay (hasLayout : HasLayout crc log)
    (replayable : ∀ entry ∈ log.appended, entry.2.Replayable) (holds : HoldsDurable log file)
    (sound : ChecksumsReject crc log file) : DurableEntriesReplay crc log file := by
  rcases hasLayout with ⟨chain, current, layout⟩
  have yieldedRecord : ∀ {offset yielded}, ReplayedFrom log log.segment.id offset yielded →
      ∃ entry ∈ log.appended, offset ≤ entry.1 ∧ yielded ∈ recordEntries log.segment.id entry := by
    rintro offset yielded ⟨entry, member, behind, isYielded⟩
    rw [(replayable entry member).decodeEntry_bytes] at isYielded
    exact ⟨entry, member, behind, isYielded⟩
  constructor
  · intro flushed
    rcases layout.recovered holds flushed with ⟨read, tail, isRead, -⟩
    exact ⟨read, isRead⟩
  · intro read isRead
    rcases Nat.eq_zero_or_pos log.segment.lastFlushed with never | flushed
    · refine ⟨read.entries, by simp [durable_eq_nil never], ?_⟩
      intro yielded member
      rw [never]
      exact yieldedRecord (replayedFrom_of_never_flushed sound isRead yielded member)
    · rcases layout.recovered holds flushed with ⟨same, tail, isSame, recovered⟩
      rw [isRead] at isSame
      cases isSame
      refine ⟨tail, ?_, fun yielded member => yieldedRecord (recovered.tail sound yielded member)⟩
      rw [recovered.entries]
      refine congrArg (· ++ tail) (flatMap_congr fun entry member => ?_)
      rw [(replayable entry (mem_of_mem_filter member)).decodeEntry_bytes]

def Steps (crc : Bytes → UInt32) (log next : SegmentLog) : Prop :=
  ∃ event, log.step crc event = some next

def StepsReplayable (crc : Bytes → UInt32) (log next : SegmentLog) : Prop :=
  ∃ event, (∀ mutation, event = .append mutation → mutation.Replayable) ∧
    log.step crc event = some next

theorem appended_replayable_step {next : SegmentLog}
    (replayable : ∀ entry ∈ log.appended, entry.2.Replayable)
    (stepped : StepsReplayable crc log next) :
    ∀ entry ∈ next.appended, entry.2.Replayable := by
  rcases stepped with ⟨event, accepts, isStep⟩
  cases event with
  | append mutation =>
    rcases Option.map_eq_some_iff.mp isStep with ⟨⟨offset, segment⟩, -, rfl⟩
    exact forall_mem_append.mpr ⟨replayable, forall_mem_singleton.mpr (accepts mutation rfl)⟩
  | flush synced =>
    cases isStep
    exact replayable
  | sealWrites =>
    cases isStep
    exact replayable

variable {start : SegmentLog} {mutation : Mutation}

theorem hasLayout_of_run (hasLayout : HasLayout crc start)
    (run : Relation.ReflTransGen (StepsReplayable crc) start log) : HasLayout crc log := by
  induction run with
  | refl => exact hasLayout
  | tail _ stepped ih =>
    rcases stepped with ⟨event, -, isStep⟩
    exact ih.step isStep

/-- With addressable marker slots and replayable records, what is durable replays and stays
untouched. -/
theorem durableReplay_of_run {id : UInt64} {capacity : ℕ} {segment : Segment}
    (created : Segment.new crc id capacity = some segment) (addressable : capacity ≤ 2 ^ 32 + 7)
    (run : Relation.ReflTransGen (StepsReplayable crc) ⟨segment, []⟩ log) :
    DurableReplay crc log := by
  have replayable : ∀ entry ∈ log.appended, entry.2.Replayable := by
    induction run with
    | refl => simp
    | tail _ stepped ih => exact appended_replayable_step ih stepped
  have hasLayout := hasLayout_of_run ⟨[], [], layout_new created addressable⟩ run
  exact ⟨fun file holds sound => hasLayout.durableEntriesReplay replayable holds sound,
    hasLayout.keepsDurableBytes⟩

/-! ## One record, flushed

The runs below append one record and flush it, under a checksum whose values are
recognised by their first byte. -/

/-- Markers and sizes get checksums with first bytes `0xA1` and `0xB1`. -/
def tagChecksum (bytes : Bytes) : UInt32 :=
  if bytes.length = 12 then 0xA1000000 else if bytes.length = 4 then 0xB1000000 else 0

def Untagged (bytes : Bytes) : Prop := ∀ byte ∈ bytes, byte ≠ 0xA1 ∧ byte ≠ 0xB1

instance (bytes : Bytes) : Decidable (Untagged bytes) :=
  List.decidableBAll (fun byte => byte ≠ 0xA1 ∧ byte ≠ 0xB1) bytes

theorem Untagged.append {first second : Bytes} (left : Untagged first) (right : Untagged second) :
    Untagged (first ++ second) :=
  forall_mem_append.mpr ⟨left, right⟩

theorem first_byte_of_u32At {file : Bytes} {offset : ℕ} {tag : UInt8}
    (inFile : offset + 4 ≤ file.length)
    (stored : u32At file offset = UInt32.ofNat (tag.toNat * 2 ^ 24)) :
    file[offset]? = some tag := by
  have first : file[offset]? = (slice file offset 4)[0]? := by
    simp [slice, getElem?_drop]
  have four : (slice file offset 4).length = 4 := by
    simp only [slice, length_take, length_drop]
    omega
  have value := congrArg UInt32.toNat stored
  rw [u32At, UInt32.toNat_ofNat', UInt32.toNat_ofNat'] at value
  rcases length_eq_four.mp four with ⟨a, b, c, d, bytes⟩
  rw [bytes] at first value
  simp only [ofBigEndian, foldl_cons, foldl_nil] at value
  have bounds := And.intro (And.intro a.toNat_lt b.toNat_lt) (And.intro c.toNat_lt d.toNat_lt)
  have tagBound := tag.toNat_lt
  have same : a = tag := UInt8.toNat_inj.mp (by omega)
  rw [first, same]
  rfl

theorem eq_length_of_getElem? {front back : Bytes} {byte : UInt8} {index : ℕ}
    (here : (front ++ byte :: back)[index]? = some byte) (notInFront : byte ∉ front)
    (notInBack : byte ∉ back) : index = front.length := by
  rcases Nat.lt_trichotomy index front.length with before | same | behind
  · rw [getElem?_append_left before] at here
    exact absurd (mem_of_getElem? here) notInFront
  · exact same
  · rcases Nat.exists_eq_add_of_lt behind with ⟨gap, rfl⟩
    rw [getElem?_append_right (by omega), Nat.add_assoc, Nat.add_sub_cancel_left,
      getElem?_cons_succ] at here
    exact absurd (mem_of_getElem? here) notInBack

theorem Layout.flush_synced (layout : Layout crc log chain current)
    (notSealed : log.segment.isSealed = false) (nonempty : current ≠ [])
    (room : log.segment.position + syncMarkerSize ≤ log.segment.capacity) :
    (log.segment.flushToDisk crc true).1 =
        { linked crc log.segment with lastFlushed := log.segment.position } ∧
      Layout crc { log with segment := (log.segment.flushToDisk crc true).1 }
        (chain ++ [current]) [] := by
  have isOpen : log.segment.chainClosed = false := by
    by_contra closed
    have isSealed := (layout.closed (by simpa using closed)).1
    simp [notSealed] at isSealed
  have after := layout.link isOpen nonempty room
  have published : log.segment.position ≤ (linked crc log.segment).written :=
    after.headPublished
  have behind : ¬log.segment.position ≤ (linked crc log.segment).lastFlushed := by
    have below := layout.lastFlushed_le_head isOpen
    have position := layout.position
    unfold sectionSize syncMarkerSize at position
    change ¬log.segment.position ≤ log.segment.lastFlushed
    omega
  have inBuffer : ¬(linked crc log.segment).buffer.length < log.segment.position := by
    have length := after.length_buffer
    change (linked crc log.segment).buffer.length = log.segment.capacity at length
    omega
  have flushed : (log.segment.flushToDisk crc true).1 =
      { linked crc log.segment with lastFlushed := log.segment.position } := by
    simp only [Segment.flushToDisk, layout.closeSection_eq_linked isOpen nonempty notSealed room,
      Segment.writeThrough, min_eq_left published, if_neg behind, if_neg inBuffer, if_true]
  rw [flushed]
  exact ⟨rfl, after.setLastFlushed (.inl ⟨_, [], by simp, after.head⟩)⟩

theorem Layout.append_of_room (layout : Layout crc log chain current)
    (accepts : Mutation.acceptsRows mutation.rows) (notSealed : log.segment.isSealed = false)
    (room : log.segment.position + mutation.entrySize ≤ log.segment.capacity) :
    ∃ segment, log.segment.append crc mutation = some (log.segment.position, segment) := by
  have frame : (slice log.segment.buffer (log.segment.position + 8)
      mutation.serializedSize).length = mutation.serializedSize := by
    have length := layout.length_buffer
    unfold entrySize entryOverhead at room
    simp only [slice, length_take, length_drop, length]
    omega
  have serialized : ∃ payload, mutation.serializeInto (slice log.segment.buffer
      (log.segment.position + 8) mutation.serializedSize) = some payload := by
    rw [serializeInto, frame, if_neg (lt_irrefl _), if_pos accepts]
    exact ⟨_, rfl⟩
  rcases serialized with ⟨payload, serialized⟩
  rw [Segment.append, allocateAndBeginWrite, if_neg (Bool.eq_false_iff.mp notSealed),
    allocate, ← entrySize, if_neg (Nat.not_lt_of_le room)]
  simp only [Option.bind_eq_bind, Option.bind_some, writeEntry, serialized, Option.pure_def]
  exact ⟨_, rfl⟩

abbrev durableBytes (log : SegmentLog) : Bytes :=
  log.segment.buffer.take log.segment.lastFlushed

structure SingleRecord (crc : Bytes → UInt32) (id : UInt64) (mutation : Mutation)
    (log : SegmentLog) : Prop where
  id : log.segment.id = id
  appended : log.appended = [(initialPosition, mutation)]
  watermark : log.segment.lastFlushed = initialPosition + mutation.entrySize
  layout : Layout crc log [[mutation]] []

theorem exists_singleRecord {id : UInt64} {capacity : ℕ}
    (accepts : Mutation.acceptsRows mutation.rows) (addressable : capacity ≤ 2 ^ 32 + 7)
    (room : initialPosition + mutation.entrySize + syncMarkerSize ≤ capacity) :
    ∃ segment written log, new crc id capacity = some segment ∧
      step crc ⟨segment, []⟩ (.append mutation) = some written ∧
      step crc written (.flush true) = some log ∧ SingleRecord crc id mutation log := by
  have large : ¬capacity < initialPosition + entryOverhead := by
    unfold entrySize at room
    omega
  have created : ∃ segment, new crc id capacity = some segment ∧ segment.id = id ∧
      segment.capacity = capacity ∧ segment.position = initialPosition ∧
      segment.isSealed = false := by
    rw [new, if_neg large]
    exact ⟨_, rfl, rfl, rfl, rfl, rfl⟩
  rcases created with ⟨segment, created, isId, isCapacity, isPosition, notSealed⟩
  have empty := layout_new created addressable
  rcases empty.append_of_room accepts notSealed (by dsimp only; omega) with ⟨after, appended⟩
  have written := empty.append appended
  rcases append_eq_some appended with ⟨-, -, -, rfl⟩
  rcases written.flush_synced notSealed (by simp) (by dsimp only; omega) with ⟨flushed, layout⟩
  refine ⟨segment, _, _, created, by rw [step, appended]; rfl, rfl, ?_, ?_, ?_, layout⟩
  · dsimp only
    rw [flushed]
    exact isId
  · dsimp only
    rw [isPosition]
    rfl
  · dsimp only
    rw [flushed, isPosition]

namespace SingleRecord

variable {id : UInt64} {mutation : Mutation}

def nextMarker (mutation : Mutation) : UInt32 :=
  UInt32.ofNat (initialPosition + mutation.entrySize)

section

variable (single : SingleRecord crc id mutation log)

include single

theorem durableFile_eq : log.durableBytes = headerBytes crc id ++
        (syncMarkerBytes crc id (nextMarker mutation) ++ entryBytes crc mutation.bytes) := by
  rcases single.layout.buffer with ⟨slot, unwritten, -, -, -, contents⟩
  have length : log.segment.lastFlushed = (frontBytes crc id [[mutation]]).length := by
    rw [single.watermark, length_frontBytes]
    simp only [chainSize_cons, chainSize_nil, sectionSize, entriesSize_cons, entriesSize_nil,
      initialPosition]
    omega
  rw [durableBytes, contents, single.id, length, take_left]
  simp only [frontBytes, chainBytes, entriesBytes, flatMap_cons, flatMap_nil,
    append_nil, sectionSize, entriesSize_cons, entriesSize_nil, nextMarker, initialPosition,
    Nat.add_assoc, Nat.add_zero]

theorem holdsDurable : HoldsDurable log log.durableBytes := by
  have inside := single.layout.lastFlushed_le
  rcases single.layout.buffer with ⟨-, unwritten, -, room, -, -⟩
  have length := single.layout.length_buffer
  constructor
  · rw [take_take, min_self]
  · rw [length_take]
    omega

theorem durable_eq : log.durable = [(initialPosition, mutation)] := by
  simp [durable, single.appended, single.watermark]

end

section Tagged

variable (single : SingleRecord tagChecksum id mutation log)
  (untagged : Untagged (headerFields id ++ (writeU32 (nextMarker mutation) ++
    (sizeBytes mutation.bytes ++ mutation.bytes))))

include single untagged

theorem exists_tagged : ∃ front middle back,
    log.durableBytes = front ++ 0xA1 :: (middle ++ 0xB1 :: back) ∧
      front.length = headerSize + 4 ∧ middle.length = 7 ∧
      Untagged front ∧ Untagged middle ∧ Untagged back := by
  have headerChecksum : tagChecksum (headerFields id) = 0 := by
    simp [tagChecksum, headerFields]
  have payloadChecksum : tagChecksum mutation.bytes = 0 := by
    have long : 16 ≤ mutation.bytes.length := by
      rw [length_bytes, serializedSize, sizeOfFields]
      omega
    rw [tagChecksum, if_neg (by omega), if_neg (by omega)]
  have sizeChecksum : tagChecksum (sizeBytes mutation.bytes) = 0xB1000000 := by
    simp [tagChecksum, sizeBytes]
  have markerChecksum :
      tagChecksum (writeU64 id ++ writeU32 (nextMarker mutation)) = 0xA1000000 := by
    simp [tagChecksum]
  have tags : writeU32 0xA1000000 = 0xA1 :: [0, 0, 0] ∧ writeU32 0xB1000000 = 0xB1 :: [0, 0, 0] := by
    decide
  have zeros : Untagged (writeU32 0) ∧ Untagged [0, 0, 0] := by decide
  simp only [Untagged, forall_mem_append] at untagged
  rcases untagged with ⟨inHeader, inNext, inSize, inPayload⟩
  refine ⟨headerFields id ++ (writeU32 0 ++ writeU32 (nextMarker mutation)),
    [0, 0, 0] ++ sizeBytes mutation.bytes, [0, 0, 0] ++ (mutation.bytes ++ writeU32 0), ?_, ?_, ?_,
    .append inHeader (zeros.1.append inNext), zeros.2.append inSize,
    zeros.2.append (.append inPayload zeros.1)⟩
  · rw [single.durableFile_eq, headerBytes, syncMarkerBytes, entryBytes, headerChecksum,
      payloadChecksum, sizeChecksum, markerChecksum, tags.1, tags.2]
    simp only [append_assoc, cons_append, nil_append]
  · simp [headerFields, headerSize]
  · simp [sizeBytes]

theorem eq_headerSize_of_marker {segmentId : UInt64} {offset : ℕ} {next : UInt32}
    (inFile : offset + syncMarkerSize ≤ log.durableBytes.length)
    (marked : markerAt tagChecksum segmentId log.durableBytes offset = some next) :
    offset = headerSize := by
  simp only [markerAt] at marked
  split_ifs at marked with stored
  have tag : tagChecksum (writeU64 segmentId ++ writeU32 (u32At log.durableBytes offset)) =
      0xA1000000 := by
    simp [tagChecksum]
  unfold syncMarkerSize at inFile
  have here := @first_byte_of_u32At _ _ 0xA1 (by omega) (stored.trans tag)
  rcases single.exists_tagged untagged with
    ⟨front, middle, back, file, frontLength, -, inFront, inMiddle, inBack⟩
  rw [file] at here
  have found := eq_length_of_getElem? here (fun member => (inFront _ member).1 rfl) ?_
  · omega
  · simp only [mem_append, mem_cons, not_or]
    exact ⟨fun member => (inMiddle _ member).1 rfl, by decide,
      fun member => (inBack _ member).1 rfl⟩

theorem eq_initialPosition_of_size {offset size : ℕ}
    (inFile : offset + entryOverhead ≤ log.durableBytes.length)
    (sized : entrySizeAt tagChecksum log.durableBytes offset = some size) :
    offset = initialPosition := by
  unfold entryOverhead at inFile
  simp only [entrySizeAt] at sized
  split_ifs at sized with stored
  have four : (slice log.durableBytes offset 4).length = 4 := by
    rw [slice, length_take, length_drop]
    omega
  have tag : tagChecksum (slice log.durableBytes offset 4) = 0xB1000000 := by
    simp [tagChecksum, four]
  have here := @first_byte_of_u32At _ _ 0xB1 (by omega) (stored.trans tag)
  rcases single.exists_tagged untagged with
    ⟨front, middle, back, file, frontLength, middleLength, inFront, inMiddle, inBack⟩
  rw [file, ← cons_append, ← append_assoc] at here
  have found := eq_length_of_getElem? here ?_ fun member => (inBack _ member).2 rfl
  · rw [length_append, length_cons] at found
    unfold initialPosition syncMarkerSize
    omega
  · simp only [mem_append, mem_cons, not_or]
    exact ⟨fun member => (inFront _ member).2 rfl, by decide,
      fun member => (inMiddle _ member).2 rfl⟩

theorem checksumsReject : ChecksumsReject tagChecksum log log.durableBytes := by
  have small : mutation.bytes.length < 2 ^ 32 := by
    have addressable := single.layout.head_lt
    simp only [chainSize_cons, chainSize_nil, sectionSize, entriesSize_cons, entriesSize_nil,
      entrySize] at addressable
    rw [length_bytes]
    omega
  have entry : log.durableBytes =
      (headerBytes tagChecksum id ++ syncMarkerBytes tagChecksum id (nextMarker mutation)) ++
        (entryBytes tagChecksum mutation.bytes ++ []) := by
    rw [single.durableFile_eq, append_nil, append_assoc]
  have start : initialPosition = (headerBytes tagChecksum id ++
        syncMarkerBytes tagChecksum id (nextMarker mutation)).length := by
    rw [length_append, length_headerBytes, length_syncMarkerBytes, initialPosition]
  refine ⟨?_, ?_, ?_⟩
  · intro descriptor opened offset next inFile _
    rw [length_take] at inFile
    refine ⟨?_, by rw [slice, drop_take, take_take, min_eq_left (by omega), slice]⟩
    rw [single.durableFile_eq, openSegment_headerBytes] at opened
    cases opened
    exact single.id.symm
  · intro offset size inFile sized
    rcases single.eq_initialPosition_of_size untagged inFile sized with rfl
    rw [entry, start, entrySizeAt_append_right, entrySizeAt_entryBytes small] at sized
    refine ⟨mutation, by rw [single.appended, mem_singleton], ?_⟩
    rw [← length_bytes]
    exact Option.some.inj sized
  · intro offset other payload appended inFile read
    rw [single.appended, mem_singleton] at appended
    cases appended
    rw [entry, start, payloadAt_append_right, ← length_bytes, payloadAt_entryBytes] at read
    exact (Option.some.inj read).symm

end Tagged

end SingleRecord

theorem ordinary_sampleMutation (key : Bytes) :
    (sampleMutation key).keyspace ≠ reservedKeyspace := by
  change "ks" ≠ _
  decide

theorem durableReplay_sampleMutation :
    ∃ log file, HoldsDurable log file ∧ ChecksumsReject tagChecksum log file ∧
      log.durable = [(initialPosition, sampleMutation [9])] ∧ DurableReplay tagChecksum log := by
  have replayable : (sampleMutation [9]).Replayable :=
    ⟨by decide, by decide, _, decode_of_ordinary (ordinary_sampleMutation _)⟩
  have single := @exists_singleRecord tagChecksum (sampleMutation [9]) 1 1024
    (acceptsRows_of_plain replayable.plain) (by decide) (by decide)
  rcases single with ⟨segment, written, log, created, appended, flushed, single⟩
  have run : Relation.ReflTransGen (StepsReplayable tagChecksum) ⟨segment, []⟩ log := by
    apply (Relation.ReflTransGen.single _).tail
    · exact ⟨.flush true, by simp, flushed⟩
    · refine ⟨.append (sampleMutation [9]), ?_, appended⟩
      rintro mutation ⟨⟩
      exact replayable
  exact ⟨log, _, single.holdsDurable, single.checksumsReject (by decide +kernel),
    single.durable_eq, durableReplay_of_run created (by decide) run⟩

theorem serializedSize_sampleMutation (key : Bytes) :
    (sampleMutation key).serializedSize = 148 + key.length := by
  have names : stringSize "ks" = 4 ∧ stringSize "t" = 3 := by decide
  have rows : ([sampleRow].map rowSize).sum = 105 := by decide
  simp only [serializedSize, sizeOfFields, sampleMutation, names, rows, byteVecSize]
  omega

theorem serializedSize_longKeyMutation : longKeyMutation.serializedSize = 65684 := by
  rw [longKeyMutation, serializedSize_sampleMutation, length_replicate]

theorem untagged_longKeyMutation : Untagged (headerFields 1 ++
    (writeU32 (SingleRecord.nextMarker longKeyMutation) ++
      (sizeBytes longKeyMutation.bytes ++ longKeyMutation.bytes))) := by
  have numbers : Untagged (headerFields 1) ∧
      Untagged (writeU32 (SingleRecord.nextMarker longKeyMutation)) ∧
      Untagged (sizeBytes longKeyMutation.bytes) := by
    rw [SingleRecord.nextMarker, entrySize, sizeBytes, length_bytes, serializedSize_longKeyMutation]
    decide
  have key : Untagged (writeByteVec (List.replicate 65536 0)) := by
    rw [writeByteVec, length_replicate]
    apply Untagged.append (by decide)
    intro byte member
    rw [eq_of_mem_replicate member]
    decide
  have head : Untagged (List.replicate 16 0) := by decide
  have names : Untagged (writeString "ks") ∧ Untagged (writeString "t") := by decide
  have rest : Untagged (writeI64 0 ++ (writeI64 0 ++
      (writeU16 1 ++ [sampleRow].flatMap serializeRow))) := by decide +kernel
  exact numbers.1.append (numbers.2.1.append (numbers.2.2.append
    (head.append (names.1.append (names.2.append (key.append rest))))))

theorem decodeEntry_longKeyMutation (segmentId : UInt64) (offset : ℕ) :
    (decodeEntry segmentId offset longKeyMutation.bytes).entries =
      [(⟨segmentId, offset⟩, shortenedMutation)] := by
  rcases bytes_longKeyMutation with ⟨rest, split⟩
  have shortened : deserializeFrom (shortenedMutation.bytes ++ rest) =
      .ok shortenedMutation := deserializeFrom_bytes (by decide) (by decide) rest
  have ordinary := @decode_of_ordinary shortenedMutation (by decide)
  rw [split]
  simp [decodeEntry, shortened, ordinary]

theorem not_durableEntriesReplay_longKeyMutation :
    ∃ segment log file, Segment.new tagChecksum 1 131072 = some segment ∧
      Relation.ReflTransGen (Steps tagChecksum) ⟨segment, []⟩ log ∧ HoldsDurable log file ∧
      ChecksumsReject tagChecksum log file ∧
      (∀ segmentId offset next, offset + syncMarkerSize ≤ file.length →
        markerAt tagChecksum segmentId file offset = some next → offset = headerSize) ∧
      log.durable = [(initialPosition, longKeyMutation)] ∧
      (∃ read, readAll tagChecksum file = .ok read ∧
        read.entries.head? = some (⟨1, initialPosition⟩, shortenedMutation)) ∧
      ¬DurableEntriesReplay tagChecksum log file := by
  have size : longKeyMutation.entrySize = 65696 := by
    rw [entrySize, serializedSize_longKeyMutation, entryOverhead]
  have single := @exists_singleRecord tagChecksum longKeyMutation 1 131072
    (acceptsRows_of_plain (by decide : (sampleMutation []).Plain)) (by decide)
    (by rw [size, initialPosition, headerSize, syncMarkerSize]; omega)
  rcases single with ⟨segment, written, log, created, appended, flushed, single⟩
  have run : Relation.ReflTransGen (Steps tagChecksum) ⟨segment, []⟩ log :=
    (Relation.ReflTransGen.single ⟨_, appended⟩).tail ⟨_, flushed⟩
  have watermark : 0 < log.segment.lastFlushed := by
    rw [single.watermark, size]
    decide
  rcases single.layout.recovered single.holdsDurable watermark with ⟨read, tail, isRead, recovered⟩
  have entries := recovered.entries
  rw [single.durable_eq, single.id] at entries
  simp only [replayed, flatMap_cons, flatMap_nil, decodeEntry_longKeyMutation] at entries
  refine ⟨segment, log, _, created, run, single.holdsDurable,
    single.checksumsReject untagged_longKeyMutation,
    fun _ _ _ => single.eq_headerSize_of_marker untagged_longKeyMutation,
    single.durable_eq, ⟨read, isRead, by simp [entries]⟩, ?_⟩
  intro replay
  rcases replay.replays read isRead with ⟨extra, expected, -⟩
  rw [entries, single.durable_eq] at expected
  have ordinary : decode longKeyMutation = .ok [longKeyMutation] :=
    decode_of_ordinary (ordinary_sampleMutation _)
  simp only [flatMap_cons, flatMap_nil, recordEntries, ordinary,
    mapIdx_cons, mapIdx_nil, append_nil, cons_append, List.cons.injEq,
    Prod.mk.injEq] at expected
  have rows := congrArg Mutation.rows expected.1.2
  cases rows

end SegmentLog

end Ferrosa.CommitLog
