import Ferrosa.CommitLog.SegmentLayout
import Ferrosa.CommitLog.SegmentReader

/-!
# Durable entries replay

Below the watermark the file is a chain of closed sections, which the reader
follows section by section.  Behind the watermark the file may hold anything; there
the checksums decide, and they are assumed to accept only what was written.
-/

namespace Ferrosa.CommitLog

open Storage List Mutation

variable {crc : Bytes → UInt32}

variable {offset sectionEnd : ℕ} {file : Bytes} {segmentId : UInt64} {mutation : Mutation}
  {entries : List Mutation}

theorem u32At_append {front : Bytes} (value : UInt32) (back : Bytes)
    (start : front.length = offset) :
    u32At (front ++ (writeU32 value ++ back)) offset = value := by
  rw [u32At, slice_append back start (length_writeU32 value), writeU32,
    ofBigEndian_bigEndian_of_lt value.toNat_lt, UInt32.ofNat_toNat]

theorem u32At_writeU32 (value : UInt32) (back : Bytes) :
    u32At (writeU32 value ++ back) 0 = value := by
  rw [u32At, slice_zero_append back (length_writeU32 value), writeU32,
    ofBigEndian_bigEndian_of_lt value.toNat_lt, UInt32.ofNat_toNat]

theorem u32At_append_right (front back : Bytes) (offset : ℕ) :
    u32At (front ++ back) (front.length + offset) = u32At back offset := by
  rw [u32At, slice_append_right, u32At]

theorem entrySizeAt_append_right (front back : Bytes) :
    entrySizeAt crc (front ++ back) front.length = entrySizeAt crc back 0 := by
  have here := slice_append_right front back 0 4
  have size := u32At_append_right front back 0
  simp only [Nat.add_zero] at here size
  simp only [entrySizeAt, here, size, u32At_append_right, Nat.zero_add]

theorem payloadAt_append_right (front back : Bytes) (size : ℕ) :
    payloadAt crc (front ++ back) front.length size = payloadAt crc back 0 size := by
  simp only [payloadAt, Nat.add_assoc, u32At_append_right, slice_append_right, Nat.zero_add]

theorem markerAt_append_right (segmentId : UInt64) (front back : Bytes) :
    markerAt crc segmentId (front ++ back) front.length = markerAt crc segmentId back 0 := by
  have here := u32At_append_right front back 0
  simp only [Nat.add_zero] at here
  simp only [markerAt, here, u32At_append_right, Nat.zero_add]

theorem entrySizeAt_entryBytes {payload : Bytes} (small : payload.length < 2 ^ 32) (back : Bytes) :
    entrySizeAt crc (entryBytes crc payload ++ back) 0 = some payload.length := by
  have size : slice (entryBytes crc payload ++ back) 0 4 = sizeBytes payload := by
    simp only [entryBytes, append_assoc]
    exact slice_zero_append _ (length_writeU32 _)
  have checksum : u32At (entryBytes crc payload ++ back) 4 = crc (sizeBytes payload) := by
    simp only [entryBytes, append_assoc]
    exact u32At_append _ _ (length_writeU32 _)
  have stored : u32At (entryBytes crc payload ++ back) 0 = UInt32.ofNat payload.length := by
    simp only [entryBytes, sizeBytes, append_assoc]
    exact u32At_writeU32 _ _
  rw [entrySizeAt, Nat.zero_add, size, checksum, if_pos rfl, stored,
    UInt32.toNat_ofNat_of_lt' small]

theorem payloadAt_entryBytes (payload back : Bytes) :
    payloadAt crc (entryBytes crc payload ++ back) 0 payload.length = some payload := by
  have here : slice (entryBytes crc payload ++ back) 8 payload.length = payload := by
    simp only [entryBytes, append_assoc]
    rw [← append_assoc]
    exact slice_append _ (by simp [sizeBytes]) rfl
  have checksum : u32At (entryBytes crc payload ++ back) (8 + payload.length) = crc payload := by
    simp only [entryBytes, append_assoc]
    rw [← append_assoc, ← append_assoc]
    apply u32At_append
    simp only [sizeBytes, length_append, length_writeU32]
  rw [payloadAt, Nat.zero_add, here, checksum, if_pos rfl]

theorem markerAt_syncMarkerBytes (segmentId : UInt64) (next : UInt32) (back : Bytes) :
    markerAt crc segmentId (syncMarkerBytes crc segmentId next ++ back) 0 = some next := by
  have stored : u32At (syncMarkerBytes crc segmentId next ++ back) 0 = next := by
    simp only [syncMarkerBytes, append_assoc]
    exact u32At_writeU32 _ _
  have checksum : u32At (syncMarkerBytes crc segmentId next ++ back) 4 =
      crc (writeU64 segmentId ++ writeU32 next) := by
    simp only [syncMarkerBytes, append_assoc]
    exact u32At_append _ _ (length_writeU32 _)
  simp only [markerAt, Nat.zero_add, stored, checksum, if_true]

theorem readSection_entryBytes (segmentId : UInt64) (front back : Bytes)
    (small : mutation.serializedSize < 2 ^ 32)
    (inSection : front.length + mutation.entrySize ≤ sectionEnd) :
    readSection crc segmentId (front ++ (entryBytes crc mutation.bytes ++ back)) sectionEnd
        front.length =
      (decodeEntry segmentId front.length mutation.bytes).followedBy
        (readSection crc segmentId (front ++ (entryBytes crc mutation.bytes ++ back)) sectionEnd
          (front.length + mutation.entrySize)) := by
  have size := length_entryBytes crc mutation
  unfold entrySize at inSection size
  rw [← length_bytes] at small inSection size
  unfold entrySize
  rw [← length_bytes]
  have header : ¬sectionEnd < front.length + entryOverhead := by omega
  rw [readSection, if_neg header, entrySizeAt_append_right, entrySizeAt_entryBytes small]
  dsimp only
  rw [if_neg, payloadAt_append_right, payloadAt_entryBytes]
  rw [length_append, length_append, size]
  omega

def replayed (segmentId : UInt64) (entries : List (ℕ × Mutation)) :
    List (CommitLogPosition × Mutation) :=
  entries.flatMap fun entry => (decodeEntry segmentId entry.1 entry.2.bytes).entries

@[simp] theorem replayed_append (segmentId : UInt64) (first second : List (ℕ × Mutation)) :
    replayed segmentId (first ++ second) = replayed segmentId first ++ replayed segmentId second := by
  simp [replayed]

theorem readSection_entriesBytes (segmentId : UInt64) {front back : Bytes}
    (contents : file = front ++ (entriesBytes crc entries ++ back))
    (small : ∀ mutation ∈ entries, mutation.serializedSize < 2 ^ 32)
    (inSection : front.length + entriesSize entries ≤ sectionEnd) :
    (readSection crc segmentId file sectionEnd front.length).entries =
      replayed segmentId (entriesAt front.length entries) ++
        (readSection crc segmentId file sectionEnd
          (front.length + entriesSize entries)).entries := by
  induction entries generalizing front with
  | nil => simp [entriesAt, replayed]
  | cons mutation rest ih =>
    rw [entriesSize_cons] at inSection
    have split : file =
        (front ++ entryBytes crc mutation.bytes) ++ (entriesBytes crc rest ++ back) := by
      simp [contents, entriesBytes]
    have first := @readSection_entryBytes crc sectionEnd _ segmentId front
      (entriesBytes crc rest ++ back) (small mutation mem_cons_self) (by omega)
    have later := ih split (fun other member => small other (mem_cons_of_mem _ member))
    rw [length_append, length_entryBytes] at later
    rw [← append_assoc, ← split] at first
    rw [first, SegmentRead.followedBy, later (by omega), entriesSize_cons, ← Nat.add_assoc]
    simp [entriesAt, replayed]

theorem readSections_of_link {next : UInt32}
    (marked : markerAt crc segmentId file offset = some next)
    (forward : offset + syncMarkerSize ≤ next.toNat) (inFile : next.toNat ≤ file.length) :
    readSections crc segmentId file offset =
      (readSection crc segmentId file next.toNat (offset + syncMarkerSize)).followedBy
        (readSections crc segmentId file next.toNat) := by
  have inside : ¬file.length < offset + syncMarkerSize := by omega
  have linked : next ≠ 0 := by
    rintro rfl
    unfold syncMarkerSize at forward
    simp at forward
  have valid : ¬(next.toNat < offset + syncMarkerSize ∨ (next ≠ 0 ∧ next.toNat ≤ offset)) := by
    unfold syncMarkerSize at *
    omega
  rw [readSections, if_neg inside, marked]
  simp only [if_neg linked, min_eq_left inFile, if_neg valid]

theorem readSections_of_last (marked : markerAt crc segmentId file offset = some 0)
    (inFile : offset + syncMarkerSize ≤ file.length) :
    readSections crc segmentId file offset =
      readSection crc segmentId file file.length (offset + syncMarkerSize) := by
  have inside := Nat.not_lt_of_le inFile
  rw [readSections, if_neg inside, marked]
  simp [inside]

theorem readSection_at_end (segmentId : UInt64) (file : Bytes) (sectionEnd : ℕ) :
    (readSection crc segmentId file sectionEnd sectionEnd).entries = [] := by
  have short : sectionEnd < sectionEnd + entryOverhead := by
    unfold entryOverhead
    omega
  rw [readSection, if_pos short]

theorem entrySize_le_entriesSize (member : mutation ∈ entries) :
    mutation.entrySize ≤ entriesSize entries :=
  le_sum_of_mem (mem_map_of_mem member)

theorem readSections_sectionBytes (segmentId : UInt64) {front back : Bytes}
    (contents : file = front ++ (syncMarkerBytes crc segmentId
      (UInt32.ofNat (front.length + sectionSize entries)) ++ (entriesBytes crc entries ++ back)))
    (addressable : front.length + sectionSize entries < 2 ^ 32) :
    (readSections crc segmentId file front.length).entries =
      replayed segmentId (entriesAt (front.length + syncMarkerSize) entries) ++
        (readSections crc segmentId file (front.length + sectionSize entries)).entries := by
  have next : (UInt32.ofNat (front.length + sectionSize entries)).toNat =
      front.length + sectionSize entries := UInt32.toNat_ofNat_of_lt' addressable
  have marked : markerAt crc segmentId file front.length =
      some (UInt32.ofNat (front.length + sectionSize entries)) := by
    rw [contents, markerAt_append_right, markerAt_syncMarkerBytes]
  have inFile : front.length + sectionSize entries ≤ file.length := by
    simp only [contents, sectionSize, length_append, length_syncMarkerBytes, length_entriesBytes]
    omega
  have forward : front.length + syncMarkerSize ≤ front.length + sectionSize entries := by
    unfold sectionSize
    omega
  have link := readSections_of_link marked (next.symm ▸ forward) (next.symm ▸ inFile)
  rw [← append_assoc] at contents
  have small : ∀ mutation ∈ entries, mutation.serializedSize < 2 ^ 32 := by
    intro mutation member
    have size := entrySize_le_entriesSize member
    unfold entrySize at size
    unfold sectionSize at addressable
    omega
  have entries := readSection_entriesBytes segmentId contents small le_rfl
  rw [length_append, length_syncMarkerBytes, Nat.add_assoc, ← sectionSize,
    readSection_at_end, append_nil] at entries
  rw [link, next, SegmentRead.followedBy, entries]

theorem readSections_chainBytes (segmentId : UInt64) {front back : Bytes}
    {chain : List (List Mutation)}
    (contents : file = front ++ (chainBytes crc segmentId front.length chain ++ back))
    (addressable : front.length + chainSize chain < 2 ^ 32) :
    (readSections crc segmentId file front.length).entries =
      replayed segmentId (chainEntries front.length chain) ++
        (readSections crc segmentId file (front.length + chainSize chain)).entries := by
  induction chain generalizing front with
  | nil => simp [chainEntries, replayed]
  | cons entries rest ih =>
    rw [chainSize_cons] at addressable
    simp only [chainBytes, append_assoc] at contents
    have first := readSections_sectionBytes segmentId contents (by omega)
    have behind : (front ++ (syncMarkerBytes crc segmentId
        (UInt32.ofNat (front.length + sectionSize entries)) ++ entriesBytes crc entries)).length =
        front.length + sectionSize entries := by
      simp [sectionSize]
    have later := @ih (front ++ (syncMarkerBytes crc segmentId
      (UInt32.ofNat (front.length + sectionSize entries)) ++ entriesBytes crc entries))
    rw [behind] at later
    rw [first, later (by simp [contents]) (by omega), chainSize_cons, ← Nat.add_assoc,
      chainEntries, replayed_append, append_assoc]

namespace SegmentLog

variable (crc)

def HoldsDurable (log : SegmentLog) (file : Bytes) : Prop :=
  file.take log.segment.lastFlushed = log.segment.buffer.take log.segment.lastFlushed ∧
    log.segment.lastFlushed ≤ file.length

/-- The checksums reject a marker, a size or a payload that was not written at its offset for
this segment. -/
structure ChecksumsReject (log : SegmentLog) (file : Bytes) : Prop where
  marker : ∀ descriptor, openSegment crc file = .ok descriptor → ∀ offset next,
    offset + syncMarkerSize ≤ file.length →
    markerAt crc descriptor.segmentId file offset = some next →
    descriptor.segmentId = log.segment.id ∧
      slice file offset syncMarkerSize = slice log.segment.buffer offset syncMarkerSize
  size : ∀ offset size, offset + entryOverhead ≤ file.length →
    entrySizeAt crc file offset = some size →
    ∃ mutation, (offset, mutation) ∈ log.appended ∧ mutation.serializedSize = size
  payload : ∀ offset mutation payload, (offset, mutation) ∈ log.appended →
    offset + mutation.entrySize ≤ file.length →
    payloadAt crc file offset mutation.serializedSize = some payload → payload = mutation.bytes

variable {crc} {log : SegmentLog} {file : Bytes}

def ReplayedFrom (log : SegmentLog) (segmentId : UInt64) (offset : ℕ)
    (yielded : CommitLogPosition × Mutation) : Prop :=
  ∃ entry ∈ log.appended, offset ≤ entry.1 ∧
    yielded ∈ (decodeEntry segmentId entry.1 entry.2.bytes).entries

theorem ReplayedFrom.mono {segmentId : UInt64} {low high : ℕ}
    {yielded : CommitLogPosition × Mutation} (replayed : ReplayedFrom log segmentId high yielded)
    (le : low ≤ high) : ReplayedFrom log segmentId low yielded := by
  rcases replayed with ⟨entry, member, behind, isYielded⟩
  exact ⟨entry, member, le.trans behind, isYielded⟩

theorem ChecksumsReject.replayedFrom_readSection (sound : ChecksumsReject crc log file)
    (segmentId : UInt64) (sectionEnd offset : ℕ) :
    ∀ yielded ∈ (readSection crc segmentId file sectionEnd offset).entries,
      ReplayedFrom log segmentId offset yielded := by
  fun_induction readSection crc segmentId file sectionEnd offset with
  | case1 | case2 | case3 | case4 => simp
  | case5 offset header size sized whole payload read ih =>
    rw [not_or, not_lt, not_lt] at whole
    rcases sound.size offset size (by omega) sized with ⟨mutation, appended, rfl⟩
    have written := sound.payload offset mutation payload appended whole.2 read
    intro yielded member
    rcases mem_append.mp member with first | later
    · exact ⟨(offset, mutation), appended, le_rfl, written ▸ first⟩
    · exact (ih yielded later).mono (Nat.le_add_right _ _)

theorem ChecksumsReject.replayedFrom_readSections (sound : ChecksumsReject crc log file)
    (segmentId : UInt64) (offset : ℕ) :
    ∀ yielded ∈ (readSections crc segmentId file offset).entries,
      ReplayedFrom log segmentId offset yielded := by
  fun_induction readSections crc segmentId file offset with
  | case1 | case2 | case3 => simp
  | case4 offset inside marked sectionEnd valid entries =>
    intro yielded member
    exact (sound.replayedFrom_readSection segmentId _ _ yielded member).mono (Nat.le_add_right _ _)
  | case5 offset inside next marked sectionEnd valid entries linked ih =>
    intro yielded member
    rcases mem_append.mp member with first | later
    · exact (sound.replayedFrom_readSection segmentId _ _ yielded first).mono (Nat.le_add_right _ _)
    · rw [not_or, not_and, not_le] at valid
      exact (ih yielded later).mono (valid.2 linked).le

def durable (log : SegmentLog) : List (ℕ × Mutation) :=
  log.appended.filter fun entry => entry.1 + entry.2.entrySize ≤ log.segment.lastFlushed

theorem openSegment_headerBytes (id : UInt64) (back : Bytes) :
    openSegment crc (headerBytes crc id ++ back) = .ok ⟨formatVersion, id⟩ := by
  have long : ¬(headerBytes crc id ++ back).length < headerSize := by
    rw [length_append, length_headerBytes]
    omega
  have fields : slice (headerBytes crc id ++ back) 0 13 = headerFields id := by
    rw [headerBytes, append_assoc]
    exact slice_zero_append _ (by simp [headerFields])
  have checksum : u32At (headerBytes crc id ++ back) 13 = crc (headerFields id) := by
    rw [headerBytes, append_assoc]
    exact u32At_append _ _ (by simp [headerFields])
  have version : (headerBytes crc id ++ back).headD 0 = formatVersion := rfl
  have storedId : slice (headerBytes crc id ++ back) 1 8 = writeU64 id := by
    have split : headerBytes crc id ++ back = [formatVersion] ++ (writeU64 id ++
        (writeU32 0 ++ (writeU32 (crc (headerFields id)) ++ back))) := by
      simp [headerBytes, headerFields]
    rw [split]
    exact slice_append _ rfl (length_writeU64 id)
  rw [openSegment, if_neg long, fields, checksum, if_neg (by simp), version,
    if_neg (lt_irrefl _), storedId, writeU64, ofBigEndian_bigEndian_of_lt id.toNat_lt,
    UInt64.ofNat_toNat]

variable {chain : List (List Mutation)} {current : List Mutation}

theorem Layout.head_lt (layout : Layout crc log chain current) :
    headerSize + chainSize chain < 2 ^ 32 := by
  have addressable := layout.addressable
  have position := layout.position
  have head := layout.head
  rcases layout.buffer with ⟨slot, unwritten, -, room, -, -⟩
  unfold sectionSize syncMarkerSize at position
  omega

theorem Layout.durable_eq_chainEntries {before after : List (List Mutation)}
    (layout : Layout crc log (before ++ after) current)
    (watermark : log.segment.lastFlushed = headerSize + chainSize before) :
    log.durable = chainEntries headerSize before := by
  have head := layout.head
  rw [chainSize_append] at head
  rw [durable, layout.appended, chainEntries_append, filter_append, filter_append,
    filter_eq_self.mpr, filter_eq_nil_iff.mpr, filter_eq_nil_iff.mpr]
  · simp
  · intro entry member
    have bounds := entriesAt_bounds member
    have positive := entry.2.entrySize_pos
    rw [decide_eq_true_eq]
    omega
  · intro entry member
    have bounds := chainEntries_bounds member
    have positive := entry.2.entrySize_pos
    rw [decide_eq_true_eq]
    omega
  · intro entry member
    have bounds := chainEntries_bounds member
    rw [decide_eq_true_eq]
    omega

/-- The reader returns the durable entries and a tail; with sound checksums that only has appended
entries from the watermark on. -/
structure Recovered (crc : Bytes → UInt32) (log : SegmentLog) (file : Bytes) (read : SegmentRead)
    (tail : List (CommitLogPosition × Mutation)) : Prop where
  entries : read.entries = replayed log.segment.id log.durable ++ tail
  tail : ChecksumsReject crc log file → ∀ yielded ∈ tail,
    ReplayedFrom log log.segment.id log.segment.lastFlushed yielded

theorem HoldsDurable.split (holds : HoldsDurable log file) {front back : Bytes}
    (contents : log.segment.buffer = front ++ back)
    (watermark : front.length = log.segment.lastFlushed) :
    file = front ++ file.drop log.segment.lastFlushed := by
  have parts := take_append_drop log.segment.lastFlushed file
  rw [holds.1, contents, ← watermark, take_left] at parts
  rw [← watermark]
  exact parts.symm

theorem readAll_of_open {id : UInt64} (opened : openSegment crc file = .ok ⟨formatVersion, id⟩) :
    readAll crc file = .ok (readSections crc id file headerSize) := by
  rw [readAll, opened]
  rfl

theorem Layout.recovered_of_sectionEnd {before after : List (List Mutation)}
    (layout : Layout crc log (before ++ after) current) (holds : HoldsDurable log file)
    (watermark : log.segment.lastFlushed = headerSize + chainSize before) :
    ∃ read tail, readAll crc file = .ok read ∧ Recovered crc log file read tail := by
  rcases layout.buffer with ⟨slot, unwritten, -, -, -, contents⟩
  rw [frontBytes_append, append_assoc] at contents
  have split := holds.split contents (by rw [length_frontBytes, watermark])
  rw [frontBytes, append_assoc, ← length_headerBytes crc log.segment.id] at split
  have opened : openSegment crc file = .ok ⟨formatVersion, log.segment.id⟩ := by
    rw [split, openSegment_headerBytes]
  have addressable : (headerBytes crc log.segment.id).length + chainSize before < 2 ^ 32 := by
    have whole := layout.head_lt
    rw [chainSize_append] at whole
    rw [length_headerBytes]
    omega
  have read := readSections_chainBytes log.segment.id split addressable
  rw [length_headerBytes, ← watermark, ← layout.durable_eq_chainEntries watermark] at read
  exact ⟨_, _, readAll_of_open opened, read, fun sound => sound.replayedFrom_readSections _ _⟩

theorem Layout.recovered_of_closed (layout : Layout crc log chain current)
    (holds : HoldsDurable log file) (closed : log.segment.chainClosed = true)
    (watermark : log.segment.lastFlushed = log.segment.position) :
    ∃ read tail, readAll crc file = .ok read ∧ Recovered crc log file read tail := by
  rcases layout.buffer with ⟨slot, unwritten, -, room, lastMarker, contents⟩
  have position := layout.position
  have head := layout.head
  have addressable := layout.head_lt
  unfold sectionSize at position
  rw [lastMarker closed, ← append_assoc (syncMarkerBytes crc log.segment.id 0),
    ← append_assoc] at contents
  have split := holds.split contents (by
    simp only [length_append, length_frontBytes, length_syncMarkerBytes, length_entriesBytes]
    omega)
  simp only [append_assoc] at split
  have opened : openSegment crc file = .ok ⟨formatVersion, log.segment.id⟩ := by
    rw [split, frontBytes, append_assoc, openSegment_headerBytes]
  have chainSplit := split
  rw [frontBytes, append_assoc, ← length_headerBytes crc log.segment.id] at chainSplit
  have inChain := readSections_chainBytes log.segment.id chainSplit (by rwa [length_headerBytes])
  have marked : markerAt crc log.segment.id file (headerSize + chainSize chain) = some 0 := by
    rw [split, ← length_frontBytes crc log.segment.id, markerAt_append_right,
      markerAt_syncMarkerBytes]
  have inFile : headerSize + chainSize chain + syncMarkerSize ≤ file.length := by
    have length := holds.2
    omega
  have small : ∀ mutation ∈ current, mutation.serializedSize < 2 ^ 32 := by
    intro mutation member
    have size := entrySize_le_entriesSize member
    have whole := layout.addressable
    unfold entrySize entryOverhead at size
    unfold headerSize syncMarkerSize at *
    omega
  rw [← append_assoc] at split
  have inLast := @readSection_entriesBytes crc file.length file _ log.segment.id _ _ split small
  have behind : headerSize + chainSize chain + syncMarkerSize + entriesSize current =
      log.segment.lastFlushed := by
    omega
  rw [length_append, length_frontBytes, length_syncMarkerBytes, behind] at inLast
  have allDurable : log.durable = log.appended := by
    rw [durable, filter_eq_self]
    intro entry member
    rw [decide_eq_true_eq, watermark]
    exact layout.end_le_position member
  have whole : (readSections crc log.segment.id file headerSize).entries =
      replayed log.segment.id log.durable ++
        (readSection crc log.segment.id file file.length log.segment.lastFlushed).entries := by
    rw [length_headerBytes] at inChain
    rw [inChain, readSections_of_last marked inFile, inLast holds.2,
      allDurable, layout.appended, head, replayed_append,
      append_assoc]
  exact ⟨_, _, readAll_of_open opened, whole, fun sound => sound.replayedFrom_readSection _ _ _⟩

end SegmentLog

end Ferrosa.CommitLog
