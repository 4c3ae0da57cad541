import Ferrosa.CommitLog.TrackedLog

/-!
# The invariant of a node

Files hold the durable bytes of the segments they come from; ids are never shared;
and an entry of the checkpoint either stands for a discard that is recent enough or
lies below the segments it could be held against.
-/

namespace Ferrosa.CommitLog

open Storage SegmentLog CommitLogCheckpoint List

/-- Against a segment of this generation and id every entry of the checkpoint stands for a
discard, or lies before the segment. -/
def CheckpointCovers (checkpoint : CheckpointFile) (discards : List Discard) (generation : ℕ)
    (id : UInt64) : Prop :=
  ∀ tableId : TableId, ∀ position, tableId.Undotted →
    checkpoint.lookup tableId.display = some position →
    (∃ discard ∈ discards, discard.tableId = tableId ∧ position ≤ discard.position ∧
      generation ≤ discard.generation) ∨ position.segmentId < id

namespace CheckpointCovers

variable {checkpoint : CheckpointFile} {discards : List Discard} {generation : ℕ} {id : UInt64}

section

variable (covers : CheckpointCovers checkpoint discards generation id)

include covers

theorem mono {later : UInt64}
    (above : id ≤ later) : CheckpointCovers checkpoint discards generation later := by
  intro tableId position undotted found
  rcases covers tableId position undotted found with discarded | below
  · exact .inl discarded
  · exact .inr (below.trans_le above)

theorem discard {tableId : TableId} (undotted : tableId.Undotted) (position : CommitLogPosition)
    {current : ℕ} (recent : generation ≤ current) {saved : CheckpointFile}
    (isSaved : saved = checkpoint ∨ ((load checkpoint).map fun positions =>
      save (advance positions tableId position)) = some saved) :
    CheckpointCovers saved (⟨tableId, position, current⟩ :: discards) generation id := by
  have earlier : ∀ table found, table.Undotted → checkpoint.lookup table.display = some found →
      (∃ discard ∈ (⟨tableId, position, current⟩ :: discards : List Discard),
        discard.tableId = table ∧ found ≤ discard.position ∧ generation ≤ discard.generation) ∨
      found.segmentId < id := by
    intro table found tableUndotted isFound
    rcases covers table found tableUndotted isFound with ⟨discard, member, reaches⟩ | below
    · exact .inl ⟨discard, mem_cons_of_mem _ member, reaches⟩
    · exact .inr below
  rcases isSaved with rfl | advanced
  · exact earlier
  · rcases Option.map_eq_some_iff.mp advanced with ⟨positions, loaded, rfl⟩
    intro table found tableUndotted isFound
    rcases lookup_save isFound with ⟨other, isOther, sameText⟩
    rcases lookup_advance isOther with old | ⟨rfl, rfl⟩
    · rcases lookup_load loaded old with ⟨inFile, otherUndotted⟩
      rw [eq_of_display_eq tableUndotted otherUndotted sameText.symm]
      exact earlier other found otherUndotted inFile
    · have same := eq_of_display_eq undotted tableUndotted sameText
      exact .inl ⟨_, mem_cons_self, same, le_rfl, recent⟩

theorem covered_of_dominated {positions : Positions}
    (loaded : load checkpoint = some positions) {position : CommitLogPosition}
    {mutation : Mutation} (inSegment : position.segmentId = id)
    (isDominated : dominated positions position mutation = true) :
    Covered discards generation (position, mutation) := by
  unfold dominated at isDominated
  split at isDominated
  · rename_i flushed found
    have reached := of_decide_eq_true isDominated
    rcases lookup_load loaded found with ⟨inFile, undotted⟩
    rcases covers _ flushed undotted inFile with ⟨discard, member, table, later, recent⟩ | below
    · exact ⟨discard, member, table, reached.trans later, recent⟩
    · exfalso
      rw [← inSegment] at below
      exact absurd (CommitLogPosition.le_of_segmentId_lt below) (by
        intro before
        have same := le_antisymm reached before
        rw [same] at below
        exact lt_irrefl _ below)
  · cases isDominated

end

end CheckpointCovers

structure StoredFile.Sound (crc : Bytes → UInt32) (file : StoredFile) : Prop where
  id : file.id = file.source.segment.id
  source : SegmentLog.Sound crc file.source
  holds : HoldsDurable file.source file.bytes
  rejects : ChecksumsReject crc file.source file.bytes

section Leaves

variable {crc : Bytes → UInt32} {generation : ℕ} {mayVanish : SegmentLog → Prop}
  {segments : List LiveSegment} {left : List StoredFile}

section

variable (leaves : Leaves crc generation mayVanish segments left)

include leaves

theorem Leaves.file {file : StoredFile} (member : file ∈ left) :
    ∃ segment ∈ segments, file.id = segment.id ∧ file.source = segment.log ∧
      file.generation = generation ∧ HoldsDurable file.source file.bytes ∧
      ChecksumsReject crc file.source file.bytes := by
  induction leaves with
  | nil => cases member
  | vanish _ _ ih =>
    rcases ih member with ⟨segment, isSegment, facts⟩
    exact ⟨segment, mem_cons_of_mem _ isSegment, facts⟩
  | leave bytes holds rejects _ ih =>
    rcases mem_cons.mp member with rfl | later
    · exact ⟨_, mem_cons_self, rfl, rfl, rfl, holds, rejects⟩
    · rcases ih later with ⟨segment, isSegment, facts⟩
      exact ⟨segment, mem_cons_of_mem _ isSegment, facts⟩

theorem Leaves.sublist : (left.map StoredFile.id).Sublist (segments.map LiveSegment.id) := by
  induction leaves with
  | nil => exact .slnil
  | vanish _ _ ih => exact ih.cons _
  | leave bytes _ _ _ ih => exact ih.cons_cons _

theorem Leaves.vanish_or_left {segment : LiveSegment} (member : segment ∈ segments) :
    mayVanish segment.log ∨
      ∃ file ∈ left, file.source = segment.log ∧ file.generation = generation := by
  induction leaves with
  | nil => cases member
  | vanish allowed _ ih =>
    rcases mem_cons.mp member with rfl | later
    · exact .inl allowed
    · exact ih later
  | leave bytes _ _ _ ih =>
    rcases mem_cons.mp member with rfl | later
    · exact .inr ⟨_, mem_cons_self, rfl, rfl⟩
    · rcases ih later with allowed | ⟨file, isFile, facts⟩
      · exact .inl allowed
      · exact .inr ⟨file, mem_cons_of_mem _ isFile, facts⟩

end

end Leaves

def Phase.log? : Phase → Option Log
  | .down => none
  | .replaying log _ => some log
  | .running log => some log

def Replay.files (replay : Replay) : List StoredFile :=
  (replay.current.map CurrentFile.file).toList ++ replay.remaining

section

variable (crc : Bytes → UInt32) (files : List StoredFile) (checkpoint : CheckpointFile)
  (discards : List Discard) (generation : ℕ)

structure FilesConsistent : Prop where
  sound : ∀ file ∈ files, file.Sound crc
  generations : ∀ file ∈ files, file.generation ≤ generation
  distinct : (files.map StoredFile.id).Nodup
  covers : ∀ file ∈ files, CheckpointCovers checkpoint discards file.generation file.id

structure LogConsistent (log : Log) : Prop where
  tracked : log.Tracked crc discards generation
  filesBelow : ∀ file ∈ files, file.id < log.nextSegmentId
  disjoint : ∀ file ∈ files, ∀ segment ∈ log.segments, file.id ≠ segment.id
  covers : ∀ segment ∈ log.segments, CheckpointCovers checkpoint discards generation segment.id
  coversNext : CheckpointCovers checkpoint discards generation log.nextSegmentId

structure ReplayConsistent (log : Log) (replay : Replay) : Prop where
  loaded : CommitLogCheckpoint.load checkpoint = some replay.checkpoint
  needed : ∀ file ∈ replay.files, file ∈ files
  distinct : (replay.files.map StoredFile.id).Nodup
  pending : ∀ current ∈ replay.current, current.pending ⊆ current.file.source.members
  newer : ∀ file ∈ files, ∀ segment ∈ log.segments, file.id < segment.id
  closed : log.ClosedDurable

end

structure Node.Consistent (crc : Bytes → UInt32) (node : Node) : Prop where
  addressable : node.segmentSize ≤ 2 ^ 32 + 7
  files : FilesConsistent crc node.files node.checkpoint node.discards node.generation
  log : ∀ log ∈ node.phase.log?,
    LogConsistent crc node.files node.checkpoint node.discards node.generation log
  replay : ∀ log replay, node.phase = .replaying log replay →
    ReplayConsistent node.files node.checkpoint log replay

variable {crc : Bytes → UInt32} {files left : List StoredFile} {checkpoint : CheckpointFile}
  {discards : List Discard} {generation : ℕ} {log after : Log} {deleted : List LiveSegment}

theorem LogConsistent.grow (consistent : LogConsistent crc files checkpoint discards generation log)
    (tracked : after.Tracked crc discards generation) (grows : log.Grows after) :
    LogConsistent crc files checkpoint discards generation after where
  tracked := tracked
  filesBelow := fun file member => (consistent.filesBelow file member).trans_le grows.next
  disjoint := by
    intro file isFile segment member
    rcases grows.ids segment member with ⟨earlier, isEarlier, same⟩ | fresh
    · rw [same]
      exact consistent.disjoint file isFile earlier isEarlier
    · exact ((consistent.filesBelow file isFile).trans_le fresh).ne
  covers := by
    intro segment member
    rcases grows.ids segment member with ⟨earlier, isEarlier, same⟩ | fresh
    · rw [same]
      exact consistent.covers earlier isEarlier
    · exact consistent.coversNext.mono fresh
  coversNext := consistent.coversNext.mono grows.next

section Discard

variable {tableId : TableId} {position : CommitLogPosition} {saved : CheckpointFile}
  (undotted : tableId.Undotted)
  (isSaved : saved = checkpoint ∨ ((CommitLogCheckpoint.load checkpoint).map fun positions =>
    CommitLogCheckpoint.save (CommitLogCheckpoint.advance positions tableId position)) = some saved)

include undotted isSaved

theorem FilesConsistent.discard
    (consistent : FilesConsistent crc files checkpoint discards generation) :
    FilesConsistent crc files saved (⟨tableId, position, generation⟩ :: discards) generation :=
  { consistent with
    covers := fun file member => (consistent.covers file member).discard undotted position
      (consistent.generations file member) isSaved }

theorem LogConsistent.discard
    (consistent : LogConsistent crc files checkpoint discards generation log) :
    LogConsistent crc files saved (⟨tableId, position, generation⟩ :: discards) generation log :=
  { consistent with
    tracked := consistent.tracked.cons _
    covers := fun segment member =>
      (consistent.covers segment member).discard undotted position le_rfl isSaved
    coversNext := consistent.coversNext.discard undotted position le_rfl isSaved }

end Discard

theorem LiveSegment.id_eq_of_log_eq {segment other : LiveSegment}
    (same : segment.log = other.log) : segment.id = other.id :=
  congrArg (fun log : SegmentLog => log.segment.id) same

theorem FilesConsistent.leave
    (consistent : FilesConsistent crc files checkpoint discards generation)
    (logConsistent : LogConsistent crc files checkpoint discards generation log)
    {segments : List LiveSegment} {mayVanish : SegmentLog → Prop}
    (leaves : Leaves crc generation mayVanish segments left)
    (origin : ∀ segment ∈ segments, ∃ earlier ∈ log.segments, segment.log = earlier.log)
    (distinct : (segments.map LiveSegment.id).Nodup) :
    FilesConsistent crc (files ++ left) checkpoint discards generation := by
  have source : ∀ file ∈ left, ∃ earlier ∈ log.segments, file.id = earlier.id ∧
      file.source = earlier.log ∧ file.generation = generation ∧
      HoldsDurable file.source file.bytes ∧ ChecksumsReject crc file.source file.bytes := by
    intro file member
    rcases leaves.file member with ⟨segment, isSegment, sameId, sameLog, facts⟩
    rcases origin segment isSegment with ⟨earlier, isEarlier, same⟩
    exact ⟨earlier, isEarlier, sameId.trans (LiveSegment.id_eq_of_log_eq same),
      sameLog.trans same, facts⟩
  refine ⟨?_, ?_, ?_, ?_⟩
  · refine forall_mem_append.mpr ⟨consistent.sound, fun file new => ?_⟩
    rcases source file new with ⟨earlier, isEarlier, sameId, sameLog, -, holds, rejects⟩
    refine ⟨?_, ?_, holds, rejects⟩
    · rw [sameId, sameLog]
      rfl
    · rw [sameLog]
      exact (logConsistent.tracked.segments earlier isEarlier).sound
  · refine forall_mem_append.mpr ⟨consistent.generations, fun file new => ?_⟩
    rcases source file new with ⟨-, -, -, -, sameGeneration, -⟩
    exact sameGeneration.le
  · rw [map_append]
    refine List.Nodup.append consistent.distinct (leaves.sublist.nodup distinct) ?_
    rintro id isOld isNew
    rcases mem_map.mp isOld with ⟨file, isFile, rfl⟩
    rcases mem_map.mp isNew with ⟨other, isOther, same⟩
    rcases source other isOther with ⟨earlier, isEarlier, sameId, -⟩
    exact logConsistent.disjoint file isFile earlier isEarlier (same.symm.trans sameId)
  · refine forall_mem_append.mpr ⟨consistent.covers, fun file new => ?_⟩
    rcases source file new with ⟨earlier, isEarlier, sameId, -, sameGeneration, -⟩
    rw [sameId, sameGeneration]
    exact logConsistent.covers earlier isEarlier

section Delete

variable (discarded : Log.Discarded crc discards generation log after deleted)
include discarded

theorem Log.Discarded.origin : ∀ segment ∈ after.segments ++ deleted,
    ∃ earlier ∈ log.segments, segment.log = earlier.log := by
  intro segment member
  have inLogs := discarded.logs.mem_iff.mp (mem_map_of_mem member)
  rcases mem_map.mp inLogs with ⟨earlier, isEarlier, same⟩
  exact ⟨earlier, isEarlier, same.symm⟩

theorem Log.Discarded.distinct (tracked : log.Tracked crc discards generation) :
    (after.segments.map LiveSegment.id ++ deleted.map LiveSegment.id).Nodup := by
  have all := (discarded.logs.map fun log => log.segment.id).nodup_iff.mpr
    (Log.map_id_segments log.segments ▸ tracked.distinct)
  rw [← Log.map_id_segments, map_append] at all
  exact all

theorem LogConsistent.delete
    (consistent : LogConsistent crc files checkpoint discards generation log)
    {mayVanish : SegmentLog → Prop} (leaves : Leaves crc generation mayVanish deleted left) :
    LogConsistent crc (files ++ left) checkpoint discards generation after := by
  have origin := discarded.origin
  refine ⟨discarded.tracked, ?_, ?_, ?_, ?_⟩
  · rw [discarded.next]
    refine forall_mem_append.mpr ⟨consistent.filesBelow, fun file new => ?_⟩
    rcases leaves.file new with ⟨segment, isSegment, fileId, -⟩
    rcases origin segment (mem_append_right _ isSegment) with ⟨earlier, isEarlier, same⟩
    rw [fileId, LiveSegment.id_eq_of_log_eq same]
    exact consistent.tracked.below earlier isEarlier
  · intro file member segment isSegment
    rcases mem_append.mp member with old | new
    · rcases origin segment (mem_append_left _ isSegment) with ⟨earlier, isEarlier, same⟩
      rw [LiveSegment.id_eq_of_log_eq same]
      exact consistent.disjoint file old earlier isEarlier
    · rcases leaves.file new with ⟨gone, isGone, fileId, -⟩
      rw [fileId]
      intro same
      apply disjoint_of_nodup_append (discarded.distinct consistent.tracked)
        (mem_map_of_mem isSegment)
      rw [← same]
      exact mem_map_of_mem isGone
  · intro segment isSegment
    rcases origin segment (mem_append_left _ isSegment) with ⟨earlier, isEarlier, same⟩
    rw [LiveSegment.id_eq_of_log_eq same]
    exact consistent.covers earlier isEarlier
  · rw [discarded.next]
    exact consistent.coversNext

end Delete

end Ferrosa.CommitLog
