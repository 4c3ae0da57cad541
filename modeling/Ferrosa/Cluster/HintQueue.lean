import Ferrosa.Cluster.HintStore

/-!
# No stored hint is lost

What the hint store is for: a queue of pending hints per peer.  A drain covers everything that
is pending, and the cleanup that follows it removes what was covered.  The store keeps such a
queue in its segment files as long as no hint is cut off or too large for a segment and no
hint is stored into a segment file that is there already.
-/

namespace Ferrosa.Cluster.Hints

open Framing List PeerSlot SortedMap SegmentWriter
open Option hiding filter_map map_map

structure HintQueue where
  pending : List HintRecord
  covered : Option ℕ

namespace HintQueue

def new : HintQueue := ⟨[], none⟩

def store (queue : HintQueue) (record : HintRecord) : HintQueue :=
  { queue with pending := queue.pending ++ [record] }

def drain (queue : HintQueue) : HintQueue := { queue with covered := some queue.pending.length }

def cleanup (queue : HintQueue) : HintQueue := ⟨queue.pending.drop (queue.covered.getD 0), none⟩

def restart (queue : HintQueue) : HintQueue := { queue with covered := none }

end HintQueue

section Runs

variable (Peer : Type)

structure HintSystem where
  config : HintConfig
  slots : Peer → PeerSlot
  queues : Peer → HintQueue

inductive Event where
  | store (peer : Peer) (record : HintRecord)
  | drain (peer : Peer)
  | cleanup (peer : Peer)
  | restart (config : HintConfig)

end Runs

namespace HintSystem

variable {Peer : Type}

def new (config : HintConfig) : HintSystem Peer := ⟨config, fun _ => .new, fun _ => .new⟩

def update [DecidableEq Peer] (system : HintSystem Peer) (peer : Peer) (slot : PeerSlot)
    (queue : HintQueue) : HintSystem Peer :=
  { system with
    slots := Function.update system.slots peer slot
    queues := Function.update system.queues peer queue }

variable [DecidableEq Peer] (crc : Bytes → UInt32)

def step (system : HintSystem Peer) : Event Peer → HintSystem Peer
  | .store peer record =>
    let stored := PeerSlot.store crc system.config (system.slots peer) record
    let queue := system.queues peer
    system.update peer stored.2 (if stored.1.isOk then queue.store record else queue)
  | .drain peer =>
    system.update peer ((system.slots peer).drain crc).2 (system.queues peer).drain
  | .cleanup peer => system.update peer (system.slots peer).cleanup (system.queues peer).cleanup
  | .restart config =>
    { config
      slots := fun peer => (system.slots peer).reopen crc
      queues := fun peer => (system.queues peer).restart }

def run (system : HintSystem Peer) (events : List (Event Peer)) : HintSystem Peer :=
  events.foldl (step crc) system

/-- A complete drain of any peer yields the hints that are pending for it, and nothing else. -/
def Delivers (system : HintSystem Peer) : Prop :=
  ∀ peer, ((system.slots peer).drain crc).1 = (system.queues peer).pending

end HintSystem

/-- The hint fits into an empty segment, its segment is open or no file has its number, and the
numbers do not run out. -/
structure PeerSlot.Keeps (config : HintConfig) (slot : PeerSlot) (record : HintRecord) : Prop where
  fits : record.Fits
  small : encodedHintSize record ≤ config.maxSegmentBytes
  fresh : (slot.state.getD .new).writer = none →
    slot.files.get? (slot.state.getD .new).segmentCounter = none
  numbered : ∀ writer, (slot.state.getD .new).writer = some writer →
    writer.maxSizeBytes < writer.bytesWritten + encodedHintSize record →
    (slot.state.getD .new).segmentCounter ≠ 4294967295

namespace HintSystem

variable {Peer : Type}

/-- A hint is refused or kept by its segment, and a drain has a number left for the next segment. -/
def Careful (system : HintSystem Peer) : Event Peer → Prop
  | .store peer record =>
    system.config.overloaded ((system.slots peer).state.getD .new).totalBytes record ∨
      (system.slots peer).Keeps system.config record
  | .drain peer =>
    ∀ state, (system.slots peer).state = some state → state.segmentCounter ≠ 4294967295
  | .cleanup _ | .restart _ => True

def CarefulRun [DecidableEq Peer] (crc : Bytes → UInt32) :
    HintSystem Peer → List (Event Peer) → Prop
  | _, [] => True
  | system, event :: events =>
    system.Careful event ∧ CarefulRun crc (system.step crc event) events

end HintSystem

abbrev Group := UInt32 × List HintRecord

def hintsIn (groups : List Group) : List HintRecord := groups.flatMap (·.2)

@[simp] theorem hintsIn_nil : hintsIn [] = [] := rfl

@[simp] theorem hintsIn_append (front back : List Group) :
    hintsIn (front ++ back) = hintsIn front ++ hintsIn back := List.flatMap_append

@[simp] theorem hintsIn_singleton (segment : UInt32) (records : List HintRecord) :
    hintsIn [(segment, records)] = records := by
  simp [hintsIn]

def Group.file (crc : Bytes → UInt32) (group : Group) : UInt32 × Bytes :=
  (group.1, frames (group.2.map (encodeRecord crc)))

structure Stores (crc : Bytes → UInt32) (files : Directory) (groups : List Group) : Prop where
  entries : files.entries = groups.map (Group.file crc)
  fits : ∀ group ∈ groups, ∀ record ∈ group.2, record.Fits

namespace Stores

variable {crc : Bytes → UInt32} {files : Directory} {groups front : List Group} {segment : UInt32}
  {records : List HintRecord} {record : HintRecord} {writer : SegmentWriter}

theorem empty : Stores crc .empty [] := ⟨rfl, by simp⟩

theorem get?_last (stores : Stores crc files (front ++ [(segment, records)])) :
    files.get? segment = some (frames (records.map (encodeRecord crc))) := by
  rw [← mem_entries_iff, stores.entries]
  simp [Group.file]

theorem openSegment_eq (fits : ∀ record ∈ records, record.Fits) :
    openSegment crc (frames (records.map (encodeRecord crc))) =
      (records, frames (records.map (encodeRecord crc))) := by
  have decoded : ∀ record ∈ records, (encodeRecord crc record).length < payloadLimit ∧
      decodeRecord crc (encodeRecord crc record) = some record := by
    intro record member
    have size := length_encodeRecord crc record
    have body := (fits record member).body
    exact ⟨by rw [payloadLimit]; omega, decodeRecord_encodeRecord crc (fits record member)⟩
  have read := readFrames_frames_append decoded []
  simp only [append_nil, readFrames_nil] at read
  simp [openSegment, read]

section

variable (stores : Stores crc files groups)

include stores

theorem sorted : groups.Pairwise fun left right => left.1 < right.1 := by
  have ordered := files.sorted
  rw [stores.entries, pairwise_map] at ordered
  exact ordered

theorem lt_of_get?_eq_none (below : ∀ group ∈ groups, group.1 ≤ segment)
    (absent : files.get? segment = none) :
    ∀ group ∈ groups, group.1 < segment := by
  intro group member
  apply lt_of_le_of_ne (below group member)
  rintro rfl
  have present : files.get? group.1 = some (frames (group.2.map (encodeRecord crc))) := by
    rw [← mem_entries_iff, stores.entries]
    exact mem_map_of_mem member
  rw [absent] at present
  cases present

theorem hintsOf_eq : PeerSlot.hintsOf crc files = hintsIn groups := by
  rw [hintsOf, values, stores.entries, map_map, flatMap_map, hintsIn]
  apply flatMap_congr
  intro group member
  exact congrArg Prod.fst (openSegment_eq (stores.fits group member))

theorem scanned : Stores crc (PeerSlot.scanned crc files) groups := by
  refine ⟨?_, stores.fits⟩
  rw [PeerSlot.scanned, mapValues]
  simp only [stores.entries, map_map]
  apply map_congr_left
  intro group member
  simp only [Function.comp_apply, Group.file, openSegment_eq (stores.fits group member)]

theorem create (above : ∀ group ∈ groups, group.1 < segment) :
    Stores crc (files.insert segment []) (groups ++ [(segment, [])]) := by
  refine ⟨?_, ?_⟩
  · have entriesAbove : ∀ entry ∈ files.entries, entry.1 < segment := by
      intro entry member
      rw [stores.entries] at member
      rcases mem_map.mp member with ⟨group, isGroup, rfl⟩
      exact above group isGroup
    change insertEntry _ _ files.entries = _
    rw [insertEntry_of_forall_lt entriesAbove, stores.entries]
    simp [Group.file]
  · simp only [forall_mem_append, forall_mem_singleton]
    exact ⟨stores.fits, by simp⟩

end

section

variable (stores : Stores crc files (front ++ [(segment, records)]))

include stores

theorem rewrite {now : List HintRecord} (fits : ∀ record ∈ now, record.Fits) :
    Stores crc (files.insert segment (frames (now.map (encodeRecord crc))))
      (front ++ [(segment, now)]) := by
  refine ⟨?_, ?_⟩
  · have last : files.entries =
        front.map (Group.file crc) ++ [(segment, frames (records.map (encodeRecord crc)))] := by
      simp [stores.entries, Group.file]
    rw [entries_insert_of_concat last]
    simp [Group.file]
  · have before := stores.fits
    simp only [forall_mem_append, forall_mem_singleton] at before ⊢
    exact ⟨before.1, fits⟩

theorem fits_last : ∀ record ∈ records, record.Fits :=
  stores.fits (segment, records) (by simp)

theorem appendTo_full (full : writer.hasRoom (encodeRecord crc record) = false) :
    ∃ after, PeerSlot.appendTo crc files segment writer record = (.segmentFull, writer, after) ∧
      Stores crc after (front ++ [(segment, records)]) := by
  refine ⟨files.insert segment (frames (records.map (encodeRecord crc))), ?_,
    stores.rewrite stores.fits_last⟩
  simp [appendTo, append, full, stores.get?_last]

theorem appendTo_ok (fits : record.Fits) (room : writer.hasRoom (encodeRecord crc record) = true) :
    ∃ written after, PeerSlot.appendTo crc files segment writer record = (.ok, written, after) ∧
      Stores crc after (front ++ [(segment, records ++ [record])]) := by
  have fitsAll : ∀ hint ∈ records ++ [record], hint.Fits := by
    simp only [forall_mem_append, forall_mem_singleton]
    exact ⟨stores.fits_last, fits⟩
  refine ⟨{ writer with
      bytesWritten := writer.bytesWritten + (4 + (encodeRecord crc record).length) },
    files.insert segment (frames ((records ++ [record]).map (encodeRecord crc))), ?_,
    stores.rewrite fitsAll⟩
  simp only [appendTo, append, room, if_true, stores.get?_last, getD_some]
  simp

end

end Stores

def through (segment : UInt32) (groups : List Group) : List Group :=
  groups.filter fun group => group.1 ≤ segment

/-- No file is numbered above the counter, an open segment is the last one, and the drain mark
separates the hints that were covered from later ones. -/
structure Tracks (state : PeerHintState) (groups : List Group) (covered : ℕ) : Prop where
  below : ∀ group ∈ groups, group.1 ≤ state.segmentCounter
  writing : ∀ writer, state.writer = some writer →
    ∃ front records, groups = front ++ [(state.segmentCounter, records)]
  unmarked : state.drained = none → covered = 0
  marked : ∀ mark, state.drained = some mark → mark.throughSegment < state.segmentCounter ∧
    covered = (hintsIn (through mark.throughSegment groups)).length

theorem tracks_new : Tracks .new [] 0 :=
  ⟨by simp, by simp [PeerHintState.new], fun _ => rfl, by simp [PeerHintState.new]⟩

theorem through_concat_of_lt {segment last : UInt32} (later : segment < last) (front : List Group)
    (records : List HintRecord) :
    through segment (front ++ [(last, records)]) = through segment front := by
  simp [through, not_le.mpr later]

theorem Tracks.grow {state : PeerHintState} {groups front : List Group} {covered : ℕ}
    (tracks : Tracks state groups covered) {segment : UInt32} {records : List HintRecord}
    (writer : SegmentWriter) (later : state.segmentCounter ≤ segment)
    (below : ∀ group ∈ front, group.1 ≤ segment)
    (same : ∀ earlier < state.segmentCounter, through earlier front = through earlier groups) :
    Tracks { state with writer := some writer, segmentCounter := segment }
      (front ++ [(segment, records)]) covered where
  below := by
    simp only [forall_mem_append, forall_mem_singleton]
    exact ⟨below, le_refl segment⟩
  writing := fun _ _ => ⟨front, records, rfl⟩
  unmarked := tracks.unmarked
  marked := by
    intro mark isMark
    rcases tracks.marked mark isMark with ⟨before, count⟩
    have after : mark.throughSegment < segment := lt_of_lt_of_le before later
    exact ⟨after, by rw [through_concat_of_lt after, same _ before, count]⟩

section Append

variable {crc : Bytes → UInt32} {config : HintConfig} {state : PeerHintState} {files : Directory}
  {groups : List Group} {record : HintRecord} {covered : ℕ}

theorem hasRoom_create (crc : Bytes → UInt32)
    (small : encodedHintSize record ≤ config.maxSegmentBytes) :
    (SegmentWriter.create config.maxSegmentBytes).hasRoom (encodeRecord crc record) = true := by
  simpa [hasRoom, SegmentWriter.create, length_encodeRecord] using small

section

variable (small : encodedHintSize record ≤ config.maxSegmentBytes)
  (numbered : ∀ writer, state.writer = some writer →
    writer.maxSizeBytes < writer.bytesWritten + encodedHintSize record →
    state.segmentCounter ≠ 4294967295)
  (stores : Stores crc files groups) (tracks : Tracks state groups covered)
  (fresh : state.writer = none → files.get? state.segmentCounter = none)

include stores tracks fresh in
theorem opened : ∃ front records, hintsIn front ++ records = hintsIn groups ∧
      Stores crc (PeerSlot.openWriter config state files).2
        (front ++ [(state.segmentCounter, records)]) ∧
      ∀ earlier < state.segmentCounter, through earlier front = through earlier groups := by
  cases writing : state.writer with
  | none =>
    refine ⟨groups, [], append_nil _, ?_, fun _ _ => rfl⟩
    simp only [openWriter, writing]
    exact stores.create (stores.lt_of_get?_eq_none tracks.below (fresh writing))
  | some writer =>
    rcases tracks.writing writer writing with ⟨front, records, rfl⟩
    refine ⟨front, records, by simp, ?_, ?_⟩
    · simpa only [openWriter, writing] using stores
    · intro earlier before
      rw [through_concat_of_lt before]

include small numbered

theorem counter_of_full
    (full : (PeerSlot.openWriter config state files).1.hasRoom (encodeRecord crc record) = false) :
    state.segmentCounter ≠ 4294967295 := by
  cases writing : state.writer with
  | none =>
    have room := hasRoom_create crc small
    simp only [openWriter, writing, room] at full
    cases full
  | some writer =>
    apply numbered writer writing
    simpa [openWriter, writing, hasRoom, length_encodeRecord] using full

include stores tracks fresh

theorem appended (fits : record.Fits) : ∃ writer segment after now,
      PeerSlot.appendRollingOver crc config state files record =
        ({ state with writer := some writer, segmentCounter := segment }, after) ∧
      Stores crc after now ∧ hintsIn now = hintsIn groups ++ [record] ∧
      Tracks { state with writer := some writer, segmentCounter := segment } now covered := by
  rcases opened stores tracks fresh with ⟨front, records, sameHints, isOpen, sameBefore⟩
  have frontBelow : ∀ group ∈ front, group.1 ≤ state.segmentCounter := by
    intro group member
    exact le_of_lt ((pairwise_append.mp isOpen.sorted).2.2 group member _ mem_cons_self)
  simp only [appendRollingOver]
  cases room : (openWriter config state files).1.hasRoom (encodeRecord crc record) with
  | true =>
    rcases isOpen.appendTo_ok fits room with ⟨written, after, result, storesAfter⟩
    refine ⟨written, state.segmentCounter, after, _, by rw [result], storesAfter, ?_, ?_⟩
    · simp [← sameHints]
    · exact tracks.grow written (le_refl _) frontBelow sameBefore
  | false =>
    have next := lt_add_one_of_ne_max (counter_of_full small numbered room)
    rcases isOpen.appendTo_full room with ⟨full, result, storesFull⟩
    have above : ∀ group ∈ front ++ [(state.segmentCounter, records)],
        group.1 < state.segmentCounter + 1 := by
      simp only [forall_mem_append, forall_mem_singleton]
      exact ⟨fun group member => lt_of_le_of_lt (frontBelow group member) next, next⟩
    rcases (storesFull.create above).appendTo_ok fits (hasRoom_create crc small) with
      ⟨written, after, resultNext, storesAfter⟩
    refine ⟨written, state.segmentCounter + 1, after, _, ?_, storesAfter, ?_, ?_⟩
    · simp only [result, resultNext]
    · simp only [hintsIn_append, hintsIn_singleton, nil_append, sameHints]
    · apply tracks.grow written (le_of_lt next)
      · exact fun group member => le_of_lt (above group member)
      · intro earlier before
        rw [through_concat_of_lt before, sameBefore earlier before]

end

end Append

structure Holds (crc : Bytes → UInt32) (slot : PeerSlot) (queue : HintQueue)
    (groups : List Group) : Prop where
  stores : Stores crc slot.files groups
  pending : queue.pending = hintsIn groups
  tracks : Tracks (slot.state.getD .new) groups (queue.covered.getD 0)
  unknown : slot.state = none → groups = []

namespace Holds

variable {crc : Bytes → UInt32} {config : HintConfig} {slot : PeerSlot} {queue : HintQueue}
  {groups : List Group} {record : HintRecord}

theorem new : Holds crc .new .new [] := ⟨Stores.empty, rfl, tracks_new, fun _ => rfl⟩

theorem store_ok (holds : Holds crc slot queue groups) (keeps : slot.Keeps config record)
    (room : config.overloaded (slot.state.getD .new).totalBytes record = false) :
    (PeerSlot.store crc config slot record).1.isOk = true ∧
      ∃ now, Holds crc (PeerSlot.store crc config slot record).2 (queue.store record) now := by
  rcases appended keeps.small keeps.numbered holds.stores holds.tracks keeps.fresh keeps.fits with
    ⟨writer, segment, after, now, result, stores, hints, tracks⟩
  simp only [PeerSlot.store, room, Bool.false_eq_true, if_false, result]
  refine ⟨rfl, now, stores, ?_, ?_, by simp⟩
  · simp [HintQueue.store, holds.pending, hints]
  · exact { tracks with }

theorem store (holds : Holds crc slot queue groups)
    (careful : config.overloaded (slot.state.getD .new).totalBytes record = true ∨
      slot.Keeps config record) :
    ∃ now, Holds crc (PeerSlot.store crc config slot record).2
      (if (PeerSlot.store crc config slot record).1.isOk then queue.store record else queue) now := by
  by_cases full : config.overloaded (slot.state.getD .new).totalBytes record = true
  · simp only [PeerSlot.store, full, if_true]
    exact ⟨groups, holds.stores, holds.pending, holds.tracks, by simp⟩
  · rcases holds.store_ok (careful.resolve_left full) (Bool.eq_false_of_not_eq_true full) with
      ⟨accepted, now, after⟩
    exact ⟨now, by rw [accepted]; exact after⟩

theorem files_map_scanned (slot : PeerSlot) (state : Option PeerHintState) :
    (⟨state, slot.directory.map (PeerSlot.scanned crc)⟩ : PeerSlot).files =
      PeerSlot.scanned crc slot.files := by
  cases directory : slot.directory with
  | none => simp [PeerSlot.files, directory, PeerSlot.scanned, mapValues, SortedMap.empty]
  | some files => simp [PeerSlot.files, directory]

section

variable (holds : Holds crc slot queue groups)

include holds

theorem keys_eq : slot.files.keys = groups.map (·.1) := by
  rw [SortedMap.keys, holds.stores.entries, map_map]
  rfl

theorem le_getLastD (default : UInt32) :
    ∀ group ∈ groups, group.1 ≤ slot.files.keys.getLastD default := by
  rw [holds.keys_eq]
  rcases eq_nil_or_concat groups with rfl | ⟨front, last, rfl⟩
  · simp
  · have ordered := holds.stores.sorted
    simp only [concat_eq_append, pairwise_append] at ordered ⊢
    simp only [forall_mem_append, forall_mem_singleton, map_append,
      map_singleton, getLastD_concat, le_refl, and_true]
    exact fun group member => le_of_lt (ordered.2.2 group member last mem_cons_self)

theorem getLastD_le {segment : UInt32}
    (below : ∀ group ∈ groups, group.1 ≤ segment) : slot.files.keys.getLastD segment ≤ segment := by
  rw [holds.keys_eq]
  rcases eq_nil_or_concat groups with rfl | ⟨front, last, rfl⟩
  · simp
  · simpa using below last (by simp)

theorem drain_snd
    (numbered : ∀ state, slot.state = some state → state.segmentCounter ≠ 4294967295) :
    Holds crc (slot.drain crc).2 queue.drain groups := by
  have tracks := holds.tracks
  refine ⟨?_, holds.pending, ?_, ?_⟩
  · rw [PeerSlot.drain, files_map_scanned]
    exact holds.stores.scanned
  · cases known : slot.state with
    | none =>
      have none : groups = [] := holds.unknown known
      subst none
      simpa [PeerSlot.drain, known, HintQueue.drain, holds.pending] using tracks_new
    | some state =>
      simp only [known, getD_some] at tracks
      have last := holds.getLastD_le tracks.below
      have next := lt_add_one_of_ne_max (numbered state known)
      have all : through (slot.files.keys.getLastD state.segmentCounter) groups = groups := by
        simpa [through] using holds.le_getLastD state.segmentCounter
      simp only [PeerSlot.drain, known, map_some, getD_some, HintQueue.drain,
        afterDrain, max_eq_left last]
      refine ⟨?_, by simp, by simp, ?_⟩
      · exact fun group member => le_of_lt (lt_of_le_of_lt (tracks.below group member) next)
      · rintro mark ⟨⟩
        exact ⟨lt_of_le_of_lt last next, by rw [all, holds.pending]⟩
  · intro unknown
    exact holds.unknown (map_eq_none_iff.mp unknown)

theorem reopen : Holds crc (slot.reopen crc) queue.restart groups := by
  have noFiles : slot.directory = none → groups = [] := by
    intro noDirectory
    have entries := holds.stores.entries
    rw [PeerSlot.files, noDirectory] at entries
    exact map_eq_nil_iff.mp entries.symm
  refine ⟨?_, holds.pending, ?_, ?_⟩
  · rw [PeerSlot.reopen, files_map_scanned]
    exact holds.stores.scanned
  · cases directory : slot.directory with
    | none =>
      have none := noFiles directory
      subst none
      simpa [PeerSlot.reopen, directory, HintQueue.restart] using tracks_new
    | some files =>
      have keys := holds.keys_eq
      rw [PeerSlot.files, directory, getD_some] at keys
      simp only [PeerSlot.reopen, directory, map_some, getD_some,
        HintQueue.restart, getD_none, keys]
      refine ⟨?_, by simp [PeerHintState.new], fun _ => rfl, by simp [PeerHintState.new]⟩
      exact fun group member => le_foldl_max (Or.inr (mem_map_of_mem member))
  · intro unknown
    exact noFiles (map_eq_none_iff.mp unknown)

theorem stores_retain (segment : UInt32) :
    Stores crc (slot.files.retain fun file => segment < file.1)
      (groups.filter fun group => segment < group.1) := by
  refine ⟨?_, ?_⟩
  · simp only [retain, holds.stores.entries, filter_map]
    rfl
  · intro group member
    exact holds.stores.fits group (mem_of_mem_filter member)

theorem through_append_later (segment : UInt32) :
    through segment groups ++ groups.filter (fun group => segment < group.1) = groups := by
  have down : ∀ low high, low < high → decide (high ≤ segment) = true →
      decide (low ≤ segment) = true := by
    intro low high order below
    exact decide_eq_true (order.le.trans (of_decide_eq_true below))
  simpa only [through, ← decide_not, not_le] using filter_append_filter_not down holds.stores.sorted

end

variable {state : PeerHintState}

theorem files_cleanup {mark : DrainMark} (known : slot.state = some state)
    (isMark : state.drained = some mark) :
    slot.cleanup.files.entries =
      (slot.files.retain fun file => mark.throughSegment < file.1).entries := by
  cases directory : slot.directory with
  | none => simp [PeerSlot.cleanup, known, isMark, directory, PeerSlot.files, retain,
      SortedMap.empty]
  | some files =>
    simp only [PeerSlot.cleanup, known, isMark, directory, PeerSlot.files, map_some,
      any_some, getD_some]
    split_ifs with removed
    · simp only [Bool.and_eq_true, List.isEmpty_iff] at removed
      exact removed.2.symm
    · rfl

section

variable (holds : Holds crc slot queue groups)

include holds

theorem cleanup_of_drained {mark : DrainMark}
    (known : slot.state = some state) (isMark : state.drained = some mark) :
    Holds crc slot.cleanup queue.cleanup
      (groups.filter fun group => mark.throughSegment < group.1) := by
  have tracks := holds.tracks
  simp only [known, getD_some] at tracks
  rcases tracks.marked mark isMark with ⟨before, count⟩
  have retained := holds.stores_retain mark.throughSegment
  refine ⟨⟨?_, retained.fits⟩, ?_, ?_, ?_⟩
  · rw [files_cleanup known isMark]
    exact retained.entries
  · have split : hintsIn groups = hintsIn (through mark.throughSegment groups) ++
        hintsIn (groups.filter fun group => mark.throughSegment < group.1) := by
      rw [← hintsIn_append, holds.through_append_later]
    rw [HintQueue.cleanup, holds.pending, split, count]
    exact drop_left
  · simp only [PeerSlot.cleanup, known, isMark, getD_some]
    refine ⟨?_, ?_, fun _ => rfl, by simp⟩
    · intro group member
      exact tracks.below group (mem_of_mem_filter member)
    · intro writer isOpen
      rcases tracks.writing writer isOpen with ⟨front, records, rfl⟩
      exact ⟨front.filter fun group => mark.throughSegment < group.1, records, by simp [before]⟩
  · simp [PeerSlot.cleanup, known, isMark]

theorem cleanup_of_undrained (unmarked : (slot.state.getD .new).drained = none) :
    Holds crc slot.cleanup queue.cleanup groups := by
  have uncovered := holds.tracks.unmarked unmarked
  have unchanged : slot.cleanup = slot := by
    cases known : slot.state with
    | none => simp [PeerSlot.cleanup, known]
    | some state =>
      simp only [known, getD_some] at unmarked
      simp [PeerSlot.cleanup, known, unmarked]
  rw [unchanged]
  refine ⟨holds.stores, ?_, ?_, holds.unknown⟩
  · simp [HintQueue.cleanup, uncovered, holds.pending]
  · simpa [HintQueue.cleanup, uncovered] using holds.tracks

theorem cleanup : ∃ now, Holds crc slot.cleanup queue.cleanup now := by
  cases known : slot.state with
  | none => exact ⟨groups, holds.cleanup_of_undrained (by rw [known]; rfl)⟩
  | some state =>
    cases isMark : state.drained with
    | none => exact ⟨groups, holds.cleanup_of_undrained (by rw [known]; exact isMark)⟩
    | some mark => exact ⟨_, holds.cleanup_of_drained known isMark⟩

theorem drain_fst : (slot.drain crc).1 = queue.pending := by
  rw [PeerSlot.drain, holds.stores.hintsOf_eq, holds.pending]

end

end Holds

namespace HintSystem

variable {Peer : Type} [DecidableEq Peer] {crc : Bytes → UInt32} {system : HintSystem Peer}

def Consistent (crc : Bytes → UInt32) (system : HintSystem Peer) : Prop :=
  ∀ peer, ∃ groups, Holds crc (system.slots peer) (system.queues peer) groups

theorem Consistent.update (consistent : system.Consistent crc) {peer : Peer} {slot : PeerSlot}
    {queue : HintQueue} (holds : ∃ groups, Holds crc slot queue groups) :
    (system.update peer slot queue).Consistent crc := by
  intro other
  by_cases same : other = peer
  · subst same
    simpa [HintSystem.update] using holds
  · simpa [HintSystem.update, same] using consistent other

theorem Consistent.step (consistent : system.Consistent crc) {event : Event Peer}
    (careful : system.Careful event) : (system.step crc event).Consistent crc := by
  cases event with
  | store peer record =>
    rcases consistent peer with ⟨groups, holds⟩
    exact consistent.update (holds.store careful)
  | drain peer =>
    rcases consistent peer with ⟨groups, holds⟩
    exact consistent.update ⟨groups, holds.drain_snd careful⟩
  | cleanup peer =>
    rcases consistent peer with ⟨groups, holds⟩
    exact consistent.update holds.cleanup
  | restart config =>
    intro peer
    rcases consistent peer with ⟨groups, holds⟩
    exact ⟨groups, holds.reopen⟩

theorem Consistent.run (consistent : system.Consistent crc) {events : List (Event Peer)}
    (careful : system.CarefulRun crc events) : (system.run crc events).Consistent crc := by
  induction events generalizing system with
  | nil => exact consistent
  | cons event events ih => exact ih (consistent.step careful.1) careful.2

/-- A complete drain of any peer yields the hints stored for it and not cleaned up, in order. -/
theorem delivers_of_run (crc : Bytes → UInt32) (config : HintConfig) (events : List (Event Peer))
    (careful : CarefulRun crc (new config) events) :
    ((new config).run crc events).Delivers crc := by
  have start : (new config : HintSystem Peer).Consistent crc := fun _ => ⟨[], Holds.new⟩
  intro peer
  rcases start.run careful peer with ⟨groups, holds⟩
  exact holds.drain_fst

def sampleConfig : HintConfig := ⟨0, 1⟩

def firstHint : HintRecord := ⟨1, "k", "t", [1], [1]⟩

def secondHint : HintRecord := ⟨2, "k", "t", [2], [2]⟩

theorem firstHint_fits : firstHint.Fits := ⟨by decide, by decide, by decide, by decide, by decide⟩

theorem secondHint_fits : secondHint.Fits := ⟨by decide, by decide, by decide, by decide, by decide⟩

def restartEvents : List (Event Unit) :=
  [.store () firstHint, .restart sampleConfig, .store () secondHint]

theorem store_closed (crc : Bytes → UInt32) {slot : PeerSlot} {record : HintRecord}
    (created : Stores crc (slot.files.insert 0 []) [(0, [])])
    (counter : (slot.state.getD .new).segmentCounter = 0)
    (closed : (slot.state.getD .new).writer = none) (fits : record.Fits)
    (small : encodedHintSize record ≤ sampleConfig.maxSegmentBytes) :
    ∃ state after, PeerSlot.store crc sampleConfig slot record =
        (.ok (), ⟨some state, some after⟩) ∧ Stores crc after [(0, [record])] := by
  have unlimited : ∀ bytes, sampleConfig.overloaded bytes record = false := by
    intro bytes
    simp [HintConfig.overloaded, HintConfig.capBytes, sampleConfig]
  rcases @Stores.appendTo_ok crc _ [] 0 [] record _ created fits (hasRoom_create crc small) with
    ⟨writer, after, result, stores⟩
  have stored : PeerSlot.store crc sampleConfig slot record = (.ok (), ⟨some
        { slot.state.getD .new with
          writer := some writer
          totalBytes := (slot.state.getD .new).totalBytes + encodedHintSize record
          recordCount := (slot.state.getD .new).recordCount + 1 }, some after⟩) := by
    simp only [PeerSlot.store, unlimited, Bool.false_eq_true, if_false, appendRollingOver,
      openWriter, closed, counter, result]
  exact ⟨_, after, stored, stores⟩

/-- The hint stored before a restart is cut off by the first store behind it. -/
theorem not_delivers_restart :
    (∀ crc, (((new sampleConfig).run crc restartEvents).queues ()).pending =
      [firstHint, secondHint]) ∧
    (∀ crc, ((((new sampleConfig).run crc restartEvents).slots ()).drain crc).1 = [secondHint]) ∧
    ∀ crc, ¬ ((new sampleConfig).run crc restartEvents).Delivers crc := by
  have runs : ∀ crc, (((new sampleConfig).run crc restartEvents).queues ()).pending =
      [firstHint, secondHint] ∧
      ((((new sampleConfig).run crc restartEvents).slots ()).drain crc).1 = [secondHint] := by
    intro crc
    have empty : Stores crc (PeerSlot.new.files.insert 0 []) [(0, [])] :=
      Stores.empty.create (by simp)
    rcases store_closed crc empty rfl rfl firstHint_fits (by decide) with
      ⟨state, files, first, stores⟩
    have keys : files.keys = [0] := by simp [SortedMap.keys, stores.entries, Group.file]
    have scanned := stores.scanned
    have cutOff : Stores crc ((PeerSlot.reopen crc ⟨some state, some files⟩).files.insert 0 [])
        [(0, [])] := @Stores.rewrite crc _ [] 0 [firstHint] scanned [] (by simp)
    rcases store_closed crc cutOff (by simp [PeerSlot.reopen, keys])
      (by simp [PeerSlot.reopen, PeerHintState.new]) secondHint_fits (by decide) with
      ⟨stateAfter, filesAfter, second, storesAfter⟩
    have after : ((new sampleConfig).run crc restartEvents).slots () =
        ⟨some stateAfter, some filesAfter⟩ := by
      simp [run, restartEvents, step, update, new, first, second]
    refine ⟨?_, ?_⟩
    · simp [run, restartEvents, step, update, new, first, second, HintQueue.store, HintQueue.new,
        HintQueue.restart, Except.isOk, Except.toBool]
    · rw [after]
      exact storesAfter.hintsOf_eq.trans (hintsIn_singleton 0 [secondHint])
  refine ⟨fun crc => (runs crc).1, fun crc => (runs crc).2, ?_⟩
  intro crc delivers
  have same := delivers ()
  rw [(runs crc).1, (runs crc).2] at same
  exact absurd same (by decide)

def deliveryEvents : List (Event Unit) :=
  [.store () firstHint, .drain (), .store () secondHint, .cleanup ()]

def noChecksum : Bytes → UInt32 := fun _ => 0

set_option maxRecDepth 4000 in
theorem delivers_deliveryEvents :
    ((((new sampleConfig).run noChecksum deliveryEvents).slots ()).drain noChecksum).1 =
      [secondHint] := by
  have stored : (((new sampleConfig).step noChecksum (.store () firstHint)).slots ()).state.map
      (·.segmentCounter) = some 0 := by decide
  have closed : (((((new sampleConfig).step noChecksum (.store () firstHint)).step noChecksum
      (.drain ())).slots ()).state.getD .new).writer = none := by decide
  have careful : CarefulRun noChecksum (new sampleConfig) deliveryEvents := by
    refine ⟨Or.inr ⟨firstHint_fits, by decide, fun _ => rfl, ?_⟩, ?_,
      Or.inr ⟨secondHint_fits, by decide, fun _ => by decide, ?_⟩, trivial, trivial⟩
    · intro writer isOpen
      cases isOpen
    · intro state known
      rw [known, map_some, Option.some.injEq] at stored
      simp [stored]
    · intro writer isOpen
      rw [closed] at isOpen
      cases isOpen
  exact (delivers_of_run noChecksum sampleConfig deliveryEvents careful ()).trans (by decide)

end HintSystem

end Ferrosa.Cluster.Hints
