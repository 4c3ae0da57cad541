import Ferrosa.Cluster.HintSegment

/-!
# The hint store

Hints for an unreachable peer are appended to numbered segment files in the peer's directory.
A drain closes the open segment, reads every file in order and moves later hints to a fresh
segment; a cleanup removes the files the last drain covered.  `PeerSlot` is what the store
holds for one peer, in memory and on disk; the operations on it are those of `HintStore` for
that peer, and `HintStore::new` finds every peer's directory by itself.
-/

namespace Ferrosa.Cluster.Hints

open Framing

abbrev Directory := SortedMap UInt32 Bytes

structure DrainMark where
  throughSegment : UInt32
  records : ℕ
  bytes : ℕ
deriving DecidableEq, Repr

structure PeerHintState where
  writer : Option SegmentWriter
  segmentCounter : UInt32
  totalBytes : ℕ
  recordCount : ℕ
  drained : Option DrainMark
deriving DecidableEq, Repr

def PeerHintState.new : PeerHintState := ⟨none, 0, 0, 0, none⟩

structure HintConfig where
  maxPerPeerMb : UInt64
  segmentSizeMb : UInt64
deriving DecidableEq, Repr

/-- The size limit of a segment; the product keeps its low 64 bits. -/
def HintConfig.maxSegmentBytes (config : HintConfig) : ℕ :=
  (config.segmentSizeMb * 1024 * 1024).toNat

/-- `max_per_peer_mb.saturating_mul(1024 * 1024)`. -/
def HintConfig.capBytes (config : HintConfig) : ℕ :=
  min (config.maxPerPeerMb.toNat * (1024 * 1024)) (2 ^ 64 - 1)

def HintConfig.overloaded (config : HintConfig) (totalBytes : ℕ) (record : HintRecord) : Bool :=
  0 < config.capBytes && config.capBytes < min (totalBytes + encodedHintSize record) (2 ^ 64 - 1)

structure PeerSlot where
  state : Option PeerHintState
  directory : Option Directory

inductive HintError where
  | overloaded
deriving DecidableEq, Repr

namespace PeerSlot

def new : PeerSlot := ⟨none, none⟩

def files (slot : PeerSlot) : Directory := slot.directory.getD .empty

section Operations

variable (crc : Bytes → UInt32)

def appendTo (files : Directory) (segment : UInt32) (writer : SegmentWriter) (record : HintRecord) :
    AppendResult × SegmentWriter × Directory :=
  let (result, written, file) := writer.append crc ((files.get? segment).getD []) record
  (result, written, files.insert segment file)

/-- The open writer, or a new one on the segment the counter names, which is cut to nothing. -/
def openWriter (config : HintConfig) (state : PeerHintState) (files : Directory) :
    SegmentWriter × Directory :=
  match state.writer with
  | some writer => (writer, files)
  | none => (.create config.maxSegmentBytes, files.insert state.segmentCounter [])

/-- A full segment is followed by the next one, and the answer of the append to that is not looked
at. -/
def appendRollingOver (config : HintConfig) (state : PeerHintState) (files : Directory)
    (record : HintRecord) : PeerHintState × Directory :=
  let (writer, opened) := openWriter config state files
  match appendTo crc opened state.segmentCounter writer record with
  | (.ok, written, appended) => ({ state with writer := some written }, appended)
  | (.segmentFull, _, full) =>
    let next := state.segmentCounter + 1
    let (_, written, appended) := appendTo crc (full.insert next []) next
      (.create config.maxSegmentBytes) record
    ({ state with writer := some written, segmentCounter := next }, appended)

def store (config : HintConfig) (slot : PeerSlot) (record : HintRecord) :
    Except HintError Unit × PeerSlot :=
  let state := slot.state.getD .new
  if config.overloaded state.totalBytes record then
    (.error .overloaded, { slot with state := some state })
  else
    let (appended, files) := appendRollingOver crc config state slot.files record
    (.ok (),
      { state := some
          { appended with
            totalBytes := appended.totalBytes + encodedHintSize record
            recordCount := appended.recordCount + 1 }
        directory := some files })

def scanned (files : Directory) : Directory :=
  files.mapValues fun _ file => (openSegment crc file).2

def hintsOf (files : Directory) : List HintRecord :=
  files.values.flatMap fun file => (openSegment crc file).1

def afterDrain (state : PeerHintState) (files : Directory) : PeerHintState :=
  let through := files.keys.getLastD state.segmentCounter
  { state with
    writer := none
    segmentCounter := max state.segmentCounter through + 1
    drained := some ⟨through, state.recordCount, state.totalBytes⟩ }

def drain (slot : PeerSlot) : List HintRecord × PeerSlot :=
  (hintsOf crc slot.files,
    { state := slot.state.map fun state => afterDrain state slot.files
      directory := slot.directory.map (scanned crc) })

def cleanup (slot : PeerSlot) : PeerSlot :=
  match slot.state with
  | none => slot
  | some state =>
    match state.drained with
    | none => slot
    | some mark =>
      let kept := slot.directory.map (SortedMap.retain fun file => mark.throughSegment < file.1)
      let recordCount := state.recordCount - mark.records
      let removed := recordCount == 0 && state.writer.isNone &&
        kept.any fun files => files.entries.isEmpty
      { state := some
          { state with
            drained := none
            recordCount
            totalBytes := state.totalBytes - mark.bytes }
        directory := if removed then none else kept }

/-- What `HintStore::new` recovers from a peer's directory. -/
def reopen (slot : PeerSlot) : PeerSlot where
  state := slot.directory.map fun files =>
    { PeerHintState.new with
      segmentCounter := files.keys.foldl max 0
      totalBytes := (files.values.map List.length).sum
      recordCount := (hintsOf crc files).length }
  directory := slot.directory.map (scanned crc)

end Operations

end PeerSlot

end Ferrosa.Cluster.Hints
