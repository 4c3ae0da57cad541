import Ferrosa.CommitLog.NodeConsistency

/-!
# Where a logged mutation is

A record moves from the log into a file when the node crashes, and from the file back
into the log when the file is replayed.  No step loses it on the way, unless a discard
reached it.
-/

namespace Ferrosa.CommitLog

open Storage SegmentLog List

structure Record where
  position : CommitLogPosition
  mutation : Mutation
  generation : ℕ

namespace Record

def Discarded (record : Record) (discards : List Discard) : Prop :=
  Covered discards record.generation (record.position, record.mutation)

/-- A copy, at a position that is no earlier, among the members logged by a generation. -/
def CopyIn (record : Record) (generation : ℕ) (members : List (CommitLogPosition × Mutation)) :
    Prop :=
  record.generation ≤ generation ∧
    ∃ position, record.position ≤ position ∧ (position, record.mutation) ∈ members

def Delivered (record : Record) (delivered : List (CommitLogPosition × Mutation)) : Prop :=
  ∃ position, record.position ≤ position ∧ (position, record.mutation) ∈ delivered

/-- A durable copy is in the log, and a mutation of an earlier generation was delivered. -/
structure Relogged (record : Record) (generation : ℕ)
    (delivered : List (CommitLogPosition × Mutation)) (log : Log) : Prop where
  durable : ∃ segment ∈ log.segments, record.CopyIn generation segment.log.durableMembers
  delivered : record.generation < generation → record.Delivered delivered

inductive InReplay (record : Record) (generation : ℕ)
    (delivered : List (CommitLogPosition × Mutation)) (log : Log) (replay : Replay) : Prop where
  | remaining {file} : file ∈ replay.remaining →
      record.CopyIn file.generation file.source.durableMembers →
      InReplay record generation delivered log replay
  | pending {current} : replay.current = some current →
      record.CopyIn current.file.generation current.file.source.durableMembers →
      record.CopyIn current.file.generation current.pending →
      InReplay record generation delivered log replay
  | delivered {current segment} : replay.current = some current →
      record.CopyIn current.file.generation current.file.source.durableMembers →
      record.Delivered delivered → segment ∈ log.segments →
      record.CopyIn generation segment.log.members →
      InReplay record generation delivered log replay
  | relogged : record.Relogged generation delivered log →
      InReplay record generation delivered log replay

end Record

namespace Node

def Holds (node : Node) (record : Record) : Prop :=
  match node.phase with
  | .down => ∃ file ∈ node.files, record.CopyIn file.generation file.source.durableMembers
  | .replaying log replay => record.InReplay node.generation node.delivered log replay
  | .running log => record.Relogged node.generation node.delivered log

def Accounted (node : Node) (record : Record) : Prop :=
  record.Discarded node.discards ∨ node.Holds record

end Node

namespace Record

variable {crc : Bytes → UInt32} {record : Record} {generation : ℕ}
  {members : List (CommitLogPosition × Mutation)} {discards : List Discard}
  {delivered : List (CommitLogPosition × Mutation)} {log after : Log} {replay : Replay}
  {files left : List StoredFile}

theorem CopyIn.mono (copy : record.CopyIn generation members)
    {more : List (CommitLogPosition × Mutation)} (subset : members ⊆ more) :
    record.CopyIn generation more := by
  rcases copy with ⟨recent, position, later, isMember⟩
  exact ⟨recent, position, later, subset isMember⟩

theorem CopyIn.discarded (copy : record.CopyIn generation members)
    (covered : ∀ member ∈ members, Covered discards generation member) :
    record.Discarded discards := by
  rcases copy with ⟨recent, position, later, isMember⟩
  exact (covered _ isMember).mono later recent

theorem not_copyIn_nil : ¬record.CopyIn generation [] := by
  rintro ⟨-, position, -, isMember⟩
  cases isMember

theorem Delivered.cons (isDelivered : record.Delivered delivered)
    (first : CommitLogPosition × Mutation) : record.Delivered (first :: delivered) := by
  rcases isDelivered with ⟨position, later, isMember⟩
  exact ⟨position, later, mem_cons_of_mem _ isMember⟩

theorem Relogged.grow (relogged : record.Relogged generation delivered log)
    (grows : log.Grows after) : record.Relogged generation delivered after := by
  rcases relogged.durable with ⟨segment, isSegment, copy⟩
  rcases grows.segments segment isSegment with ⟨later, isLater, extended⟩
  exact ⟨⟨later, isLater, copy.mono extended.durableMembers⟩, relogged.delivered⟩

theorem InReplay.grow (inReplay : record.InReplay generation delivered log replay)
    (grows : log.Grows after) : record.InReplay generation delivered after replay := by
  cases inReplay with
  | remaining isFile copy => exact .remaining isFile copy
  | pending isCurrent copy isPending => exact .pending isCurrent copy isPending
  | delivered isCurrent copy isDelivered isSegment logged =>
    rcases grows.segments _ isSegment with ⟨later, isLater, extended⟩
    exact .delivered isCurrent copy isDelivered isLater (logged.mono extended.members)
  | relogged relogged => exact .relogged (relogged.grow grows)

theorem Relogged.discard (relogged : record.Relogged generation delivered log)
    {deleted : List LiveSegment}
    (discarded : Log.Discarded crc discards generation log after deleted) :
    record.Discarded discards ∨ record.Relogged generation delivered after := by
  rcases relogged.durable with ⟨segment, isSegment, copy⟩
  have inLogs := discarded.logs.mem_iff.mpr (mem_map_of_mem isSegment)
  rcases mem_map.mp inLogs with ⟨later, isLater, same⟩
  rw [← same] at copy
  rcases mem_append.mp isLater with kept | isDeleted
  · exact .inr ⟨⟨later, kept, copy⟩, relogged.delivered⟩
  · exact .inl ((copy.mono (durableMembers_subset later.log)).discarded
      (discarded.covered later isDeleted))

def Kept (record : Record) (files : List StoredFile) (generation : ℕ) (log : Log) : Prop :=
  (∃ file ∈ files, record.CopyIn file.generation file.source.durableMembers) ∨
    ∃ segment ∈ log.segments, record.CopyIn generation segment.log.durableMembers

theorem InReplay.kept {checkpoint : CheckpointFile}
    (inReplay : record.InReplay generation delivered log replay)
    (consistent : ReplayConsistent files checkpoint log replay) :
    record.Kept files generation log := by
  cases inReplay with
  | remaining isFile copy =>
    exact .inl ⟨_, consistent.needed _ (mem_append_right _ isFile), copy⟩
  | pending isCurrent copy => exact .inl ⟨_, consistent.current_mem isCurrent, copy⟩
  | delivered isCurrent copy => exact .inl ⟨_, consistent.current_mem isCurrent, copy⟩
  | relogged relogged => exact .inr relogged.durable

theorem Kept.grow (kept : record.Kept files generation log) (grows : log.Grows after) :
    record.Kept files generation after := by
  rcases kept with inFile | ⟨segment, isSegment, copy⟩
  · exact .inl inFile
  · rcases grows.segments segment isSegment with ⟨later, isLater, extended⟩
    exact .inr ⟨later, isLater, copy.mono extended.durableMembers⟩

theorem Kept.leave (kept : record.Kept files generation log)
    (leaves : Leaves crc generation (fun source => source.segment.lastFlushed = 0) log.segments
      left) :
    ∃ file ∈ files ++ left, record.CopyIn file.generation file.source.durableMembers := by
  rcases kept with ⟨file, isFile, copy⟩ | ⟨segment, isSegment, copy⟩
  · exact ⟨file, mem_append_left _ isFile, copy⟩
  rcases leaves.vanish_or_left isSegment with never | ⟨file, isLeft, same, sameGeneration⟩
  · rw [durableMembers, durable_eq_nil never, flatMap_nil] at copy
    exact absurd copy not_copyIn_nil
  · refine ⟨file, mem_append_right _ isLeft, ?_⟩
    rw [same, sameGeneration]
    exact copy

end Record

namespace Node

variable {crc : Bytes → UInt32} {node next : Node} {record : Record} {event : NodeEvent}
  {log : Log} {replay : Replay}

theorem accounted_running (phase : node.phase = .running log) : node.Accounted record ↔
    record.Discarded node.discards ∨ record.Relogged node.generation node.delivered log := by
  rw [Accounted, Holds, phase]

theorem accounted_replaying (phase : node.phase = .replaying log replay) : node.Accounted record ↔
    record.Discarded node.discards ∨
      record.InReplay node.generation node.delivered log replay := by
  rw [Accounted, Holds, phase]

theorem accounted_down (phase : node.phase = .down) : node.Accounted record ↔
    record.Discarded node.discards ∨
      ∃ file ∈ node.files, record.CopyIn file.generation file.source.durableMembers := by
  rw [Accounted, Holds, phase]

section Replaying

variable (consistent : node.Consistent crc) (phase : node.phase = .replaying log replay)
  (inReplay : record.InReplay node.generation node.delivered log replay)

include consistent phase inReplay

variable {rest : List StoredFile} {file : StoredFile}

omit inReplay in
theorem sound_of_remaining (remaining : replay.remaining = file :: rest) : file.Sound crc :=
  consistent.files.sound _ ((consistent.replay _ _ phase).needed _
    (mem_append_right _ (remaining ▸ mem_cons_self)))

omit consistent phase in
theorem inReplay_next (noCurrent : replay.current = none)
    (remaining : replay.remaining = file :: rest) {current : Option CurrentFile}
    (first : record.CopyIn file.generation file.source.durableMembers →
      record.InReplay node.generation node.delivered log { replay with current, remaining := rest }) :
    record.InReplay node.generation node.delivered log
      { replay with current, remaining := rest } := by
  cases inReplay with
  | remaining isFile copy =>
    rw [remaining] at isFile
    rcases mem_cons.mp isFile with rfl | later
    · exact first copy
    · exact .remaining later copy
  | pending isCurrent => cases noCurrent.symm.trans isCurrent
  | delivered isCurrent => cases noCurrent.symm.trans isCurrent
  | relogged relogged => exact .relogged relogged

variable {current : CurrentFile} (isCurrent : replay.current = some current)
  {position : CommitLogPosition} {mutation : Mutation}
  {pending : List (CommitLogPosition × Mutation)}

include isCurrent

theorem inReplay_skipDominated (isPending : current.pending = (position, mutation) :: pending)
    (isDominated : dominated replay.checkpoint position mutation = true) :
    record.Discarded node.discards ∨ record.InReplay node.generation node.delivered log
        { replay with current := some { current with pending } } := by
  have replayConsistent := consistent.replay _ _ phase
  have isFile := replayConsistent.current_mem isCurrent
  cases inReplay with
  | remaining isRemaining copy => exact .inr (.remaining isRemaining copy)
  | pending isSame copy inPending =>
    cases isCurrent.symm.trans isSame
    rcases inPending with ⟨recent, found, later, isMember⟩
    rw [isPending] at isMember
    rcases mem_cons.mp isMember with isFirst | inRest
    · left
      cases isFirst
      have inSegment := consistent.pending_segmentId phase isCurrent isPending
      have covered := (consistent.files.covers _ isFile).covered_of_dominated
        replayConsistent.loaded inSegment isDominated
      exact covered.mono later recent
    · exact .inr (.pending rfl copy ⟨recent, found, later, inRest⟩)
  | delivered isSame copy isDelivered isSegment logged =>
    cases isCurrent.symm.trans isSame
    exact .inr (.delivered rfl copy isDelivered isSegment logged)
  | relogged relogged => exact .inr (.relogged relogged)

theorem inReplay_deliver (isPending : current.pending = (position, mutation) :: pending)
    {synced : Bool} {appended : Log} {retained : CommitLogPosition}
    (done : log.appendRecord crc mutation none synced = some (appended, .ok retained)) :
    record.InReplay node.generation ((position, mutation) :: node.delivered) appended
      { replay with current := some { current with pending } } := by
  have replayConsistent := consistent.replay _ _ phase
  have isFile := replayConsistent.current_mem isCurrent
  have tracked := (consistent.replaying phase).tracked
  have loggable := consistent.pending_loggable phase isCurrent isPending
  have append := tracked.appendRecord loggable.appendable done
  cases inReplay.grow append.grows with
  | remaining isRemaining copy => exact .remaining isRemaining copy
  | pending isSame copy inPending =>
    cases isCurrent.symm.trans isSame
    rcases inPending with ⟨recent, found, later, isMember⟩
    rw [isPending] at isMember
    rcases mem_cons.mp isMember with isFirst | inRest
    · cases isFirst
      have newer : position.segmentId < appended.active.id := by
        rw [consistent.pending_segmentId phase isCurrent isPending]
        exact append.grows.above tracked (replayConsistent.newer _ isFile) _ mem_cons_self
      have logged : (⟨appended.active.id, retained.offset⟩, record.mutation) ∈
          appended.active.log.members := by
        apply append.members retained rfl
        rw [loggable.recordEntries]
        exact mem_cons_self
      refine .delivered rfl copy ⟨position, later, mem_cons_self⟩ mem_cons_self ?_
      exact ⟨recent.trans (consistent.files.generations _ isFile), _,
        later.trans (CommitLogPosition.le_of_segmentId_lt newer), logged⟩
    · exact .pending rfl copy ⟨recent, found, later, inRest⟩
  | delivered isSame copy isDelivered isSegment logged =>
    cases isCurrent.symm.trans isSame
    exact .delivered rfl copy (isDelivered.cons _) isSegment logged
  | relogged relogged =>
    exact .relogged ⟨relogged.durable, fun older => (relogged.delivered older).cons _⟩

theorem inReplay_finishFile (finished : current.pending = []) {synced : Bool}
    (succeeds : log.forceSyncSucceeds crc synced = true) :
    record.InReplay node.generation node.delivered (log.forceSync crc synced)
      { replay with current := none } := by
  have replayConsistent := consistent.replay _ _ phase
  have tracked := (consistent.replaying phase).tracked
  cases inReplay.grow (tracked.grows_forceSync synced) with
  | remaining isRemaining copy => exact .remaining isRemaining copy
  | pending isSame copy inPending =>
    cases isCurrent.symm.trans isSame
    rw [finished] at inPending
    exact absurd inPending Record.not_copyIn_nil
  | delivered isSame copy isDelivered isSegment logged =>
    refine .relogged ⟨⟨_, isSegment, logged.mono ?_⟩, fun _ => isDelivered⟩
    rcases mem_cons.mp isSegment with rfl | isClosed
    · exact tracked.active.sound.layout.members_durable succeeds
    · exact replayConsistent.closed _ isClosed
  | relogged relogged => exact .relogged relogged

end Replaying

theorem Accounted.kept (consistent : node.Consistent crc) (accounted : node.Accounted record)
    (isUp : node.phase = .running log ∨ ∃ replay, node.phase = .replaying log replay) :
    record.Discarded node.discards ∨ record.Kept node.files node.generation log := by
  rcases isUp with phase | ⟨replay, phase⟩
  · exact ((accounted_running phase).mp accounted).imp_right fun relogged => .inr relogged.durable
  · exact ((accounted_replaying phase).mp accounted).imp_right fun inReplay =>
      inReplay.kept (consistent.replay _ _ phase)

theorem Accounted.grow (accounted : node.Accounted record) (phase : node.phase = .running log)
    {after : Log} (grows : log.Grows after) :
    Accounted { node with phase := .running after } record :=
  ((accounted_running phase).mp accounted).imp_right fun relogged => relogged.grow grows

theorem Accounted.step (accounted : node.Accounted record) (consistent : node.Consistent crc)
    (sound : event.Sound) (step : Step crc event node next) : next.Accounted record := by
  cases step with
  | append phase done =>
    have appended := (consistent.running phase).tracked.appendRecord
      (Mutation.Loggable.appendable sound) done
    exact accounted.grow phase appended.grows
  | transaction phase encoded done =>
    have appended := (consistent.running phase).tracked.appendRecord
      (LoggableBatch.appendable sound encoded) done
    exact accounted.grow phase appended.grows
  | rotate phase done =>
    exact accounted.grow phase ((consistent.running phase).tracked.grows_forceRotate done)
  | sync synced phase =>
    exact accounted.grow phase ((consistent.running phase).tracked.grows_forceSync synced)
  | @discardCompleted _ log tableId position _ _ phase leaves saved =>
    rcases (accounted_running phase).mp accounted with discarded | relogged
    · exact .inl (Covered.cons discarded _)
    · exact relogged.discard ((consistent.running phase).tracked.discardTable tableId position)
  | discardCompletedSegments phase leaves =>
    rcases (accounted_running phase).mp accounted with discarded | relogged
    · exact .inl discarded
    · exact relogged.discard (consistent.running phase).tracked.discardCompletedSegments
  | markArchived phase => exact accounted.grow phase { Log.Grows.refl _ with }
  | retainForArchive phase => exact accounted.grow phase { Log.Grows.refl _ with }
  | @crash _ log left phase leaves =>
    exact (accounted.kept consistent phase).imp_right fun kept => kept.leave leaves
  | openLog phase loaded first opened =>
    refine ((accounted_down phase).mp accounted).imp_right fun ⟨file, isFile, copy⟩ => ?_
    exact .remaining (mem_scanSegmentFiles.mpr isFile) copy
  | replaySync synced phase =>
    refine ((accounted_replaying phase).mp accounted).imp_right fun inReplay => ?_
    exact inReplay.grow ((consistent.replaying phase).tracked.grows_forceSync synced)
  | skipTorn unlinked phase noCurrent remaining torn =>
    refine ((accounted_replaying phase).mp accounted).imp_right fun inReplay => ?_
    have sound := sound_of_remaining consistent phase remaining
    refine inReplay_next inReplay noCurrent remaining fun copy => ?_
    rw [sound.source.layout.durableMembers_of_torn sound.holds torn] at copy
    exact absurd copy Record.not_copyIn_nil
  | readFile phase noCurrent remaining whole isRead =>
    refine ((accounted_replaying phase).mp accounted).imp_right fun inReplay => ?_
    have sound := sound_of_remaining consistent phase remaining
    have entries := sound.source.readAll sound.holds sound.rejects isRead
    exact inReplay_next inReplay noCurrent remaining fun copy =>
      .pending rfl copy (copy.mono entries.1)
  | skipDominated phase isCurrent isPending isDominated =>
    rcases (accounted_replaying phase).mp accounted with discarded | inReplay
    · exact .inl discarded
    · exact inReplay_skipDominated consistent phase inReplay isCurrent isPending isDominated
  | deliver phase isCurrent isPending notDominated done =>
    refine ((accounted_replaying phase).mp accounted).imp_right fun inReplay => ?_
    exact inReplay_deliver consistent phase inReplay isCurrent isPending done
  | failReplay phase isCurrent isPending notDominated done leaves =>
    have tracked := (consistent.replaying phase).tracked
    have loggable := consistent.pending_loggable phase isCurrent isPending
    have grows := (tracked.appendRecord loggable.appendable done).grows
    exact (accounted.kept consistent (.inr ⟨_, phase⟩)).imp_right fun kept =>
      (kept.grow grows).leave leaves
  | finishFile unlinked phase isCurrent isPending succeeds =>
    refine ((accounted_replaying phase).mp accounted).imp_right fun inReplay => ?_
    exact inReplay_finishFile consistent phase inReplay isCurrent isPending succeeds
  | finishReplay phase noCurrent finished =>
    refine ((accounted_replaying phase).mp accounted).imp_right fun inReplay => ?_
    cases inReplay with
    | remaining isRemaining =>
      rw [finished] at isRemaining
      cases isRemaining
    | pending isCurrent => cases noCurrent.symm.trans isCurrent
    | delivered isCurrent => cases noCurrent.symm.trans isCurrent
    | relogged relogged => exact relogged

end Node

end Ferrosa.CommitLog
