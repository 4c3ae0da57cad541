import Ferrosa.CommitLog.MutationLossless
import Ferrosa.CommitLog.Segment

/-!
# The layout of a segment

Whatever was appended and flushed, the buffer is the header, a chain of closed
sections, one open marker slot, the entries behind it and unwritten bytes.  The
watermark stands in front of a marker slot, or at the end of a chain whose last
marker is `0`.
-/

namespace Ferrosa.CommitLog

open Segment

open List

open Storage

def Mutation.entrySize (mutation : Mutation) : ℕ := entryOverhead + mutation.serializedSize

theorem Mutation.entrySize_pos (mutation : Mutation) : 0 < mutation.entrySize := by
  unfold Mutation.entrySize entryOverhead
  omega

def entriesSize (entries : List Mutation) : ℕ := (entries.map Mutation.entrySize).sum

def sectionSize (entries : List Mutation) : ℕ := syncMarkerSize + entriesSize entries

def chainSize (chain : List (List Mutation)) : ℕ := (chain.map sectionSize).sum

def entriesAt : ℕ → List Mutation → List (ℕ × Mutation)
  | _, [] => []
  | offset, mutation :: rest => (offset, mutation) :: entriesAt (offset + mutation.entrySize) rest

def chainEntries : ℕ → List (List Mutation) → List (ℕ × Mutation)
  | _, [] => []
  | offset, entries :: rest =>
    entriesAt (offset + syncMarkerSize) entries ++ chainEntries (offset + sectionSize entries) rest

@[simp] theorem entriesSize_nil : entriesSize [] = 0 := rfl

@[simp] theorem entriesSize_cons (mutation : Mutation) (rest : List Mutation) :
    entriesSize (mutation :: rest) = mutation.entrySize + entriesSize rest := by
  simp [entriesSize]

@[simp] theorem entriesSize_append (first second : List Mutation) :
    entriesSize (first ++ second) = entriesSize first + entriesSize second := by
  simp [entriesSize]

@[simp] theorem chainSize_nil : chainSize [] = 0 := rfl

@[simp] theorem chainSize_cons (entries : List Mutation) (rest : List (List Mutation)) :
    chainSize (entries :: rest) = sectionSize entries + chainSize rest := by
  simp [chainSize]

@[simp] theorem chainSize_append (first second : List (List Mutation)) :
    chainSize (first ++ second) = chainSize first + chainSize second := by
  simp [chainSize]

theorem entriesAt_append (offset : ℕ) (first second : List Mutation) :
    entriesAt offset (first ++ second) =
      entriesAt offset first ++ entriesAt (offset + entriesSize first) second := by
  induction first generalizing offset with
  | nil => simp [entriesAt]
  | cons mutation rest ih => simp [entriesAt, ih, Nat.add_assoc]

theorem chainEntries_append (offset : ℕ) (first second : List (List Mutation)) :
    chainEntries offset (first ++ second) =
      chainEntries offset first ++ chainEntries (offset + chainSize first) second := by
  induction first generalizing offset with
  | nil => simp [chainEntries]
  | cons entries rest ih => simp [chainEntries, ih, Nat.add_assoc]

variable {entry : ℕ × Mutation}

theorem entriesAt_bounds {offset : ℕ} {entries : List Mutation}
    (member : entry ∈ entriesAt offset entries) :
    offset ≤ entry.1 ∧ entry.1 + entry.2.entrySize ≤ offset + entriesSize entries := by
  induction entries generalizing offset with
  | nil => cases member
  | cons mutation rest ih =>
    rw [entriesSize_cons]
    rcases mem_cons.mp member with rfl | later
    · dsimp only
      omega
    · have bounds := ih later
      omega

theorem chainEntries_bounds {offset : ℕ} {chain : List (List Mutation)}
    (member : entry ∈ chainEntries offset chain) :
    offset + syncMarkerSize ≤ entry.1 ∧ entry.1 + entry.2.entrySize ≤ offset + chainSize chain := by
  induction chain generalizing offset with
  | nil => cases member
  | cons entries rest ih =>
    rw [chainSize_cons]
    unfold sectionSize
    rcases mem_append.mp member with first | later
    · have bounds := entriesAt_bounds first
      omega
    · have bounds := ih later
      unfold sectionSize at bounds
      omega

section Bytes

variable (crc : Bytes → UInt32)

def entriesBytes (entries : List Mutation) : Bytes :=
  entries.flatMap fun mutation => entryBytes crc mutation.bytes

/-- Closed sections, each marker linked to the end of its section. -/
def chainBytes (id : UInt64) : ℕ → List (List Mutation) → Bytes
  | _, [] => []
  | offset, entries :: rest =>
    syncMarkerBytes crc id (UInt32.ofNat (offset + sectionSize entries)) ++
      (entriesBytes crc entries ++ chainBytes id (offset + sectionSize entries) rest)

@[simp] theorem length_writeU64 (value : UInt64) : (writeU64 value).length = 8 :=
  length_bigEndian 8 _

@[simp] theorem length_headerBytes (id : UInt64) : (headerBytes crc id).length = headerSize := by
  simp [headerBytes, headerFields, headerSize]

@[simp] theorem length_syncMarkerBytes (id : UInt64) (next : UInt32) :
    (syncMarkerBytes crc id next).length = syncMarkerSize := by
  simp [syncMarkerBytes, syncMarkerSize]

theorem length_entryBytes (mutation : Mutation) :
    (entryBytes crc mutation.bytes).length = mutation.entrySize := by
  simp [entryBytes, sizeBytes, Mutation.entrySize, entryOverhead, length_bytes]
  omega

@[simp] theorem length_entriesBytes (entries : List Mutation) :
    (entriesBytes crc entries).length = entriesSize entries := by
  simp [entriesBytes, entriesSize, length_flatMap, length_entryBytes]

@[simp] theorem length_chainBytes (id : UInt64) (offset : ℕ) (chain : List (List Mutation)) :
    (chainBytes crc id offset chain).length = chainSize chain := by
  induction chain generalizing offset with
  | nil => rfl
  | cons entries rest ih =>
    simp [chainBytes, ih, sectionSize, Nat.add_assoc]

theorem chainBytes_append (id : UInt64) (offset : ℕ) (first second : List (List Mutation)) :
    chainBytes crc id offset (first ++ second) = chainBytes crc id offset first ++
        chainBytes crc id (offset + chainSize first) second := by
  induction first generalizing offset with
  | nil => simp [chainBytes]
  | cons entries rest ih => simp [chainBytes, ih, Nat.add_assoc]

def frontBytes (id : UInt64) (chain : List (List Mutation)) : Bytes :=
  headerBytes crc id ++ chainBytes crc id headerSize chain

@[simp] theorem length_frontBytes (id : UInt64) (chain : List (List Mutation)) :
    (frontBytes crc id chain).length = headerSize + chainSize chain := by
  simp [frontBytes]

theorem frontBytes_append (id : UInt64) (first second : List (List Mutation)) :
    frontBytes crc id (first ++ second) =
      frontBytes crc id first ++ chainBytes crc id (headerSize + chainSize first) second := by
  simp [frontBytes, chainBytes_append]

end Bytes

structure SegmentLog where
  segment : Segment
  appended : List (ℕ × Mutation)

inductive SegmentEvent where
  | append (mutation : Mutation)
  | flush (synced : Bool)
  | sealWrites

namespace SegmentLog

def step (crc : Bytes → UInt32) (log : SegmentLog) : SegmentEvent → Option SegmentLog
  | .append mutation =>
    (log.segment.append crc mutation).map fun (offset, segment) =>
      ⟨segment, log.appended ++ [(offset, mutation)]⟩
  | .flush synced => some { log with segment := (log.segment.flushToDisk crc synced).1 }
  | .sealWrites => some { log with segment := log.segment.sealWrites }

variable (crc : Bytes → UInt32)

def SectionEnd (chain : List (List Mutation)) (offset : ℕ) : Prop :=
  ∃ before after, chain = before ++ after ∧ offset = headerSize + chainSize before

/-- A watermark: no durable entry is cut, and the marker in front of it is written. -/
def Flushable (segment : Segment) (chain : List (List Mutation)) (offset : ℕ) : Prop :=
  SectionEnd chain offset ∨ (segment.chainClosed ∧ offset = segment.position)

structure Layout (log : SegmentLog) (chain : List (List Mutation)) (current : List Mutation) :
    Prop where
  /-- Every marker slot can be linked to. -/
  addressable : log.segment.capacity ≤ 2 ^ 32 + 7
  head : log.segment.headMarkerOffset = headerSize + chainSize chain
  position : log.segment.position = log.segment.headMarkerOffset + sectionSize current
  buffer : ∃ slot unwritten, slot.length = syncMarkerSize ∧
    log.segment.position + unwritten.length = log.segment.capacity ∧
    (log.segment.chainClosed → slot = syncMarkerBytes crc log.segment.id 0) ∧
    log.segment.buffer = frontBytes crc log.segment.id chain ++
      (slot ++ (entriesBytes crc current ++ unwritten))
  appended : log.appended = chainEntries headerSize chain ++
    entriesAt (log.segment.headMarkerOffset + syncMarkerSize) current
  headPublished : log.segment.headMarkerOffset ≤ log.segment.written
  allPublished : current ≠ [] → log.segment.written = log.segment.position
  written_le : log.segment.written ≤ log.segment.position
  closed : log.segment.chainClosed → log.segment.isSealed ∧ current ≠ []
  flushed : log.segment.lastFlushed = 0 ∨ Flushable log.segment chain log.segment.lastFlushed

variable {crc : Bytes → UInt32} {log : SegmentLog} {chain : List (List Mutation)}
  {current : List Mutation} {segment : Segment} {mutation : Mutation} {offset : ℕ}

theorem layout_new {id : UInt64} {capacity : ℕ}
    (created : Segment.new crc id capacity = some segment) (addressable : capacity ≤ 2 ^ 32 + 7) :
    Layout crc ⟨segment, []⟩ [] [] := by
  unfold new at created
  split_ifs at created with tooSmall
  cases created
  refine ⟨addressable, rfl, rfl, ?_, rfl, ?_, by simp, le_rfl, by simp, .inl rfl⟩
  · refine ⟨List.replicate 8 0, List.replicate (capacity - initialPosition) 0, rfl, ?_, by simp, ?_⟩
    · rw [length_replicate]
      unfold entryOverhead at tooSmall
      dsimp only
      omega
    · have zeros : capacity - headerSize = 8 + (capacity - initialPosition) := by
        unfold entryOverhead initialPosition syncMarkerSize at *
        omega
      simp only [overwrite, frontBytes, chainBytes, entriesBytes, length_headerBytes,
        take_zero, nil_append, append_nil, flatMap_nil, Nat.zero_add,
        drop_replicate, zeros, replicate_add]
  · simp [headerSize, initialPosition]

theorem serializeInto_eq_bytes {buf payload : Bytes} (short : buf.length ≤ mutation.serializedSize)
    (done : mutation.serializeInto buf = some payload) : payload = mutation.bytes := by
  unfold Mutation.serializeInto at done
  split_ifs at done
  cases done
  simp only [Mutation.writeOver, length_serializeFields]
  change mutation.bytes ++ buf.drop mutation.serializedSize = mutation.bytes
  rw [drop_eq_nil_of_le short, append_nil]

theorem append_eq_some {after : Segment}
    (done : segment.append crc mutation = some (offset, after)) :
    segment.isSealed = false ∧ segment.position + mutation.entrySize ≤ segment.capacity ∧
      offset = segment.position ∧
      after = { segment with
        position := segment.position + mutation.entrySize
        buffer := overwrite segment.buffer segment.position (entryBytes crc mutation.bytes)
        written := max segment.written (segment.position + mutation.entrySize) } := by
  simp only [Segment.append, allocateAndBeginWrite, allocate, writeEntry,
    publish, Option.bind_eq_bind, Option.bind_eq_some_iff, Option.pure_def,
    Option.some.injEq, Prod.exists, Prod.mk.injEq] at done
  rcases done with ⟨start, reserved, allocated, written, ⟨payload, serialized, rfl⟩, rfl, rfl⟩
  split_ifs at allocated with isSealed full
  obtain ⟨rfl, rfl⟩ := Prod.mk.inj (Option.some.inj allocated)
  have short : (slice segment.buffer (segment.position + 8) mutation.serializedSize).length ≤
      mutation.serializedSize := length_take_le _ _
  rw [serializeInto_eq_bytes short serialized]
  exact ⟨Bool.eq_false_iff.mpr isSealed, Nat.le_of_not_lt full, rfl, rfl⟩

theorem Layout.append (layout : Layout crc log chain current)
    (done : log.segment.append crc mutation = some (offset, segment)) :
    Layout crc ⟨segment, log.appended ++ [(offset, mutation)]⟩ chain (current ++ [mutation]) := by
  rcases append_eq_some done with ⟨notSealed, fits, rfl, rfl⟩
  have notClosed : ¬log.segment.chainClosed = true := by
    intro closed
    have isSealed := (layout.closed closed).1
    simp [notSealed] at isSealed
  have position := layout.position
  unfold sectionSize at position
  refine ⟨layout.addressable, layout.head, ?_, ?_, ?_, ?_, ?_, ?_, ?_, ?_⟩
  · simp only [sectionSize, entriesSize_append, entriesSize_cons, entriesSize_nil]
    omega
  · rcases layout.buffer with ⟨slot, unwritten, slotSize, room, -, contents⟩
    refine ⟨slot, unwritten.drop mutation.entrySize, slotSize, ?_, fun closed =>
      absurd closed notClosed, ?_⟩
    · rw [length_drop]
      dsimp only
      omega
    · have split : log.segment.buffer =
          (frontBytes crc log.segment.id chain ++ (slot ++ entriesBytes crc current)) ++
            (unwritten.take mutation.entrySize ++ unwritten.drop mutation.entrySize) := by
        simp [contents]
      have start : log.segment.position =
          (frontBytes crc log.segment.id chain ++ (slot ++ entriesBytes crc current)).length := by
        simp only [length_append, length_frontBytes, length_entriesBytes, slotSize]
        rw [position, layout.head]
      dsimp only
      rw [split, start, overwrite_append]
      · simp [entriesBytes]
      · rw [length_entryBytes, length_take]
        omega
  · simp only [layout.appended, entriesAt_append, append_assoc, entriesAt]
    rw [position, Nat.add_assoc]
  · exact layout.headPublished.trans (le_max_left _ _)
  · intro _
    apply max_eq_right
    exact layout.written_le.trans (Nat.le_add_right _ _)
  · apply max_le (layout.written_le.trans (Nat.le_add_right _ _)) le_rfl
  · intro closed
    exact absurd closed notClosed
  · rcases layout.flushed with never | sectionEnd | ⟨closed, -⟩
    · exact .inl never
    · exact .inr (.inl sectionEnd)
    · exact absurd closed notClosed

theorem SectionEnd.le (sectionEnd : SectionEnd chain offset) :
    offset ≤ headerSize + chainSize chain := by
  rcases sectionEnd with ⟨before, after, rfl, rfl⟩
  rw [chainSize_append]
  omega

def linked (crc : Bytes → UInt32) (segment : Segment) : Segment :=
  { segment with
    position := segment.position + syncMarkerSize
    headMarkerOffset := segment.position
    buffer := overwrite segment.buffer segment.headMarkerOffset
      (syncMarkerBytes crc segment.id (UInt32.ofNat segment.position))
    written := max segment.written (segment.headMarkerOffset + syncMarkerSize) }

def finished (crc : Bytes → UInt32) (segment : Segment) : Segment :=
  { segment with
    isSealed := true
    chainClosed := true
    buffer := overwrite segment.buffer segment.headMarkerOffset (syncMarkerBytes crc segment.id 0)
    written := max segment.written (segment.headMarkerOffset + syncMarkerSize) }

namespace Layout

section

variable (layout : Layout crc log chain current)

include layout

theorem length_buffer : log.segment.buffer.length = log.segment.capacity := by
  rcases layout.buffer with ⟨slot, unwritten, slotSize, room, -, contents⟩
  have position := layout.position
  have head := layout.head
  simp only [contents, length_append, length_frontBytes, length_entriesBytes, slotSize]
  unfold sectionSize at position
  omega

theorem lastFlushed_le_head (isOpen : log.segment.chainClosed = false) :
    log.segment.lastFlushed ≤ log.segment.headMarkerOffset := by
  rcases layout.flushed with never | sectionEnd | ⟨closed, -⟩
  · omega
  · exact layout.head ▸ sectionEnd.le
  · simp [isOpen] at closed

theorem lastFlushed_le : log.segment.lastFlushed ≤ log.segment.position := by
  have position := layout.position
  rcases layout.flushed with never | sectionEnd | ⟨-, whole⟩
  · omega
  · have inside := sectionEnd.le
    have head := layout.head
    omega
  · omega

theorem writeHeadMarker (segment : Segment) {next : ℕ}
    (small : next < 2 ^ 32) (same : segment.buffer = log.segment.buffer) :
    segment.writeHeadMarker crc log.segment.headMarkerOffset next = .ok { segment with
        buffer := overwrite log.segment.buffer log.segment.headMarkerOffset
          (syncMarkerBytes crc segment.id (UInt32.ofNat next))
        written := max segment.written (log.segment.headMarkerOffset + syncMarkerSize) } := by
  have inside : ¬segment.buffer.length < log.segment.headMarkerOffset + syncMarkerSize := by
    have position := layout.position
    rcases layout.buffer with ⟨slot, unwritten, -, room, -, -⟩
    rw [same, layout.length_buffer]
    unfold sectionSize at position
    omega
  rw [Segment.writeHeadMarker, if_neg (Nat.not_le_of_lt small), if_neg inside, same]
  rfl

theorem overwrite_head (next : UInt32) :
    ∃ unwritten, log.segment.position + unwritten.length = log.segment.capacity ∧
      overwrite log.segment.buffer log.segment.headMarkerOffset
          (syncMarkerBytes crc log.segment.id next) =
        frontBytes crc log.segment.id chain ++ (syncMarkerBytes crc log.segment.id next ++
            (entriesBytes crc current ++ unwritten)) := by
  rcases layout.buffer with ⟨slot, unwritten, slotSize, room, -, contents⟩
  refine ⟨unwritten, room, ?_⟩
  rw [contents, layout.head, ← length_frontBytes crc log.segment.id chain, overwrite_append]
  rw [slotSize, length_syncMarkerBytes]

theorem max_written_eq (nonempty : current ≠ []) :
    max log.segment.written (log.segment.headMarkerOffset + syncMarkerSize) =
      log.segment.position := by
  have position := layout.position
  unfold sectionSize at position
  rw [layout.allPublished nonempty, max_eq_left (by omega)]

theorem link (isOpen : log.segment.chainClosed = false) (nonempty : current ≠ [])
    (room : log.segment.position + syncMarkerSize ≤ log.segment.capacity) :
    Layout crc { log with segment := linked crc log.segment } (chain ++ [current]) [] := by
  have position := layout.position
  have slotOffset : log.segment.position = headerSize + chainSize (chain ++ [current]) := by
    rw [position, layout.head]
    simp [Nat.add_assoc]
  have published := layout.max_written_eq nonempty
  unfold linked
  refine ⟨layout.addressable, slotOffset, by simp [sectionSize], ?_, ?_, ?_, by simp, ?_, ?_, ?_⟩
  · rcases layout.overwrite_head (UInt32.ofNat log.segment.position) with
      ⟨unwritten, inside, contents⟩
    refine ⟨unwritten.take syncMarkerSize, unwritten.drop syncMarkerSize, ?_, ?_, ?_, ?_⟩
    · rw [length_take]
      omega
    · rw [length_drop]
      dsimp only
      omega
    · simp [isOpen]
    · dsimp only
      rw [contents, frontBytes_append]
      simp only [chainBytes, entriesBytes, flatMap_nil, nil_append, append_nil,
        append_assoc, take_append_drop]
      rw [← layout.head, ← position]
  · simp only [layout.appended, chainEntries_append, chainEntries, entriesAt, append_nil]
    rw [layout.head]
  · exact published.ge
  · exact published.le.trans (Nat.le_add_right _ _)
  · simp [isOpen]
  · rcases layout.flushed with never | sectionEnd | ⟨closed, -⟩
    · exact .inl never
    · rcases sectionEnd with ⟨before, after, isChain, isOffset⟩
      exact .inr (.inl ⟨before, after ++ [current], by simp [isChain], isOffset⟩)
    · simp [isOpen] at closed

theorem finish (isOpen : log.segment.chainClosed = false) (nonempty : current ≠ []) :
    Layout crc { log with segment := finished crc log.segment } chain current := by
  have published := layout.max_written_eq nonempty
  refine ⟨layout.addressable, layout.head, layout.position, ?_, layout.appended, ?_,
    fun _ => published, published.le, fun _ => ⟨rfl, nonempty⟩, ?_⟩
  · rcases layout.overwrite_head 0 with ⟨unwritten, inside, contents⟩
    exact ⟨_, unwritten, length_syncMarkerBytes _ _ _, inside, fun _ => rfl, contents⟩
  · exact layout.headPublished.trans (le_max_left _ _)
  · rcases layout.flushed with never | sectionEnd | ⟨closed, -⟩
    · exact .inl never
    · exact .inr (.inl sectionEnd)
    · simp [isOpen] at closed

end

/-- Closing a section leaves a layout with a watermark, and the bytes before the open slot. -/
structure Closed (crc : Bytes → UInt32) (log : SegmentLog) (closed : Segment) (stop : ℕ) :
    Prop where
  layout : ∃ chain current, Layout crc { log with segment := closed } chain current ∧
    Flushable closed chain stop
  published : stop ≤ closed.written
  covers : ∀ entry ∈ log.appended, entry.1 + entry.2.entrySize ≤ stop
  id : closed.id = log.segment.id
  watermark : closed.lastFlushed = log.segment.lastFlushed
  unchanged : closed.buffer.take log.segment.lastFlushed =
    log.segment.buffer.take log.segment.lastFlushed

section

variable (layout : Layout crc log chain current)

include layout

theorem take_overwrite_head (isOpen : log.segment.chainClosed = false) (marker : Bytes) :
    (overwrite log.segment.buffer log.segment.headMarkerOffset marker).take
        log.segment.lastFlushed = log.segment.buffer.take log.segment.lastFlushed := by
  apply take_overwrite _ (layout.lastFlushed_le_head isOpen)
  rcases layout.buffer with ⟨slot, unwritten, -, room, -, -⟩
  have position := layout.position
  rw [layout.length_buffer]
  omega

theorem position_ne (nonempty : current ≠ []) :
    log.segment.position ≠ log.segment.headMarkerOffset + syncMarkerSize := by
  have position := layout.position
  cases current with
  | nil => exact absurd rfl nonempty
  | cons mutation rest =>
    have positive := mutation.entrySize_pos
    simp only [sectionSize, entriesSize_cons] at position
    omega

theorem closeSection_eq_linked (isOpen : log.segment.chainClosed = false) (nonempty : current ≠ [])
    (notSealed : log.segment.isSealed = false)
    (room : log.segment.position + syncMarkerSize ≤ log.segment.capacity) :
    log.segment.closeSection crc = (linked crc log.segment, .ok log.segment.position) := by
  have small : log.segment.position < 2 ^ 32 := by
    have addressable := layout.addressable
    unfold syncMarkerSize at room
    omega
  have marked := layout.writeHeadMarker
    { log.segment with position := log.segment.position + syncMarkerSize } small rfl
  have allocated : log.segment.allocateAndBeginWrite syncMarkerSize = some (log.segment.position,
      { log.segment with position := log.segment.position + syncMarkerSize }) := by
    rw [allocateAndBeginWrite, if_neg (Bool.eq_false_iff.mp notSealed), allocate,
      if_neg (Nat.not_lt_of_le room)]
  rw [Segment.closeSection, if_neg (Bool.eq_false_iff.mp isOpen),
    if_neg (layout.position_ne nonempty), allocated]
  dsimp only at marked ⊢
  rw [marked]
  rfl

theorem closeSection_eq_finished (isOpen : log.segment.chainClosed = false)
    (nonempty : current ≠ []) (refused : log.segment.allocateAndBeginWrite syncMarkerSize = none) :
    log.segment.closeSection crc = (finished crc log.segment, .ok log.segment.position) := by
  have marked := layout.writeHeadMarker log.segment.sealWrites (Nat.two_pow_pos 32) rfl
  simp only [Segment.closeSection, isOpen, Bool.false_eq_true, if_false,
    if_neg (layout.position_ne nonempty), refused, marked]
  rfl

theorem end_le_position {entry : ℕ × Mutation} (member : entry ∈ log.appended) :
    entry.1 + entry.2.entrySize ≤ log.segment.position := by
  have position := layout.position
  have head := layout.head
  unfold sectionSize at position
  rw [layout.appended] at member
  rcases mem_append.mp member with inChain | inCurrent
  · have bounds := chainEntries_bounds inChain
    omega
  · have bounds := entriesAt_bounds inCurrent
    omega

end

theorem closeSection (layout : Layout crc log chain current) :
    ∃ closed stop, log.segment.closeSection crc = (closed, .ok stop) ∧
      Closed crc log closed stop := by
  by_cases chainClosed : log.segment.chainClosed
  · refine ⟨_, _, by rw [Segment.closeSection, if_pos chainClosed],
      ⟨chain, current, layout, .inr ⟨chainClosed, rfl⟩⟩, ?_, fun _ => layout.end_le_position,
      rfl, rfl, rfl⟩
    exact (layout.allPublished (layout.closed chainClosed).2).ge
  have isOpen := Bool.eq_false_iff.mpr chainClosed
  by_cases empty : current = []
  · subst empty
    have atHead : log.segment.position = log.segment.headMarkerOffset + syncMarkerSize :=
      layout.position
    refine ⟨_, _, by rw [Segment.closeSection, if_neg chainClosed, if_pos atHead],
      ⟨chain, [], layout, .inl ⟨chain, [], by simp, layout.head⟩⟩, layout.headPublished, ?_,
      rfl, rfl, rfl⟩
    intro entry member
    rw [layout.appended, entriesAt, append_nil] at member
    have bounds := chainEntries_bounds member
    have head := layout.head
    omega
  cases allocated : log.segment.allocateAndBeginWrite syncMarkerSize with
  | some pair =>
    unfold allocateAndBeginWrite allocate at allocated
    split_ifs at allocated with isSealed full
    have after := layout.link isOpen empty (Nat.le_of_not_lt full)
    refine ⟨_, _, layout.closeSection_eq_linked isOpen empty
      (Bool.eq_false_iff.mpr isSealed) (Nat.le_of_not_lt full),
      ⟨_, _, after, .inl ⟨_, [], by simp, after.head⟩⟩, after.headPublished,
      fun _ => layout.end_le_position, rfl, rfl, layout.take_overwrite_head isOpen _⟩
  | none =>
    have after := layout.finish isOpen empty
    exact ⟨_, _, layout.closeSection_eq_finished isOpen empty allocated,
      ⟨_, _, after, .inr ⟨rfl, rfl⟩⟩, (after.allPublished empty).ge,
      fun _ => layout.end_le_position, rfl, rfl, layout.take_overwrite_head isOpen _⟩

theorem setLastFlushed (layout : Layout crc log chain current) {stop : ℕ}
    (flushable : Flushable log.segment chain stop) :
    Layout crc { log with segment := { log.segment with lastFlushed := stop } } chain current :=
  { layout with flushed := .inr flushable }

theorem writeThrough (layout : Layout crc log chain current) {stop : ℕ} (synced : Bool)
    (flushable : Flushable log.segment chain stop) (published : stop ≤ log.segment.written) :
    Layout crc { log with segment := (log.segment.writeThrough stop synced).1 } chain current := by
  simp only [Segment.writeThrough, min_eq_left published]
  split_ifs
  · exact layout
  · exact layout
  · exact layout.setLastFlushed flushable
  · exact layout

end Layout

variable (crc)

def HasLayout (log : SegmentLog) : Prop := ∃ chain current, Layout crc log chain current

/-- No byte below the watermark is written again, neither in the buffer nor in the file. -/
structure KeepsDurableBytes (log : SegmentLog) : Prop where
  buffer : ∀ event next, log.step crc event = some next →
    next.segment.buffer.take log.segment.lastFlushed =
      log.segment.buffer.take log.segment.lastFlushed
  file : ∀ synced, ∀ write ∈ (log.segment.flushToDisk crc synced).2,
    log.segment.lastFlushed ≤ write.offset

variable {crc}

theorem HasLayout.flush (hasLayout : HasLayout crc log) (synced : Bool) :
    HasLayout crc { log with segment := (log.segment.flushToDisk crc synced).1 } := by
  rcases hasLayout with ⟨chain, current, layout⟩
  rcases layout.closeSection with ⟨closed, stop, closing, after⟩
  rcases after.layout with ⟨chain, current, closedLayout, flushable⟩
  unfold flushToDisk
  rw [closing]
  exact ⟨chain, current, closedLayout.writeThrough synced flushable after.published⟩

theorem HasLayout.step (hasLayout : HasLayout crc log) {event : SegmentEvent} {next : SegmentLog}
    (stepped : log.step crc event = some next) : HasLayout crc next := by
  cases event with
  | append mutation =>
    rcases hasLayout with ⟨chain, current, layout⟩
    rcases Option.map_eq_some_iff.mp stepped with ⟨⟨offset, segment⟩, done, rfl⟩
    exact ⟨chain, current ++ [mutation], layout.append done⟩
  | flush synced =>
    cases stepped
    exact hasLayout.flush synced
  | sealWrites =>
    cases stepped
    rcases hasLayout with ⟨chain, current, layout⟩
    exact ⟨chain, current,
      { layout with closed := fun closed => ⟨rfl, (layout.closed closed).2⟩ }⟩

theorem HasLayout.keepsDurableBytes (hasLayout : HasLayout crc log) :
    KeepsDurableBytes crc log := by
  rcases hasLayout with ⟨chain, current, layout⟩
  constructor
  · intro event next stepped
    cases event with
    | append mutation =>
      rcases Option.map_eq_some_iff.mp stepped with ⟨⟨offset, segment⟩, done, rfl⟩
      rcases append_eq_some done with ⟨-, fits, -, rfl⟩
      apply take_overwrite _ layout.lastFlushed_le
      rw [layout.length_buffer]
      omega
    | flush synced =>
      cases stepped
      rcases layout.closeSection with ⟨closed, stop, closing, after⟩
      dsimp only [flushToDisk]
      rw [closing]
      simp only [Segment.writeThrough]
      split_ifs
      all_goals exact after.unchanged
    | sealWrites =>
      cases stepped
      rfl
  · intro synced write issued
    rcases layout.closeSection with ⟨closed, stop, closing, after⟩
    simp only [flushToDisk, closing, Segment.writeThrough] at issued
    split_ifs at issued <;> cases issued <;> exact after.watermark.ge

end SegmentLog

end Ferrosa.CommitLog
