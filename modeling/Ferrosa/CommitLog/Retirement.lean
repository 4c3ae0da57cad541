import Ferrosa.CommitLog.RecordAccounting

/-!
# No synced mutation is lost

At every point of a run a synced mutation was discarded, or a durable copy of it is
in a file or in the log.  Once a replay is over the copy is in the log, and the
mutation was handed to the replay callback.
-/

namespace Ferrosa.CommitLog

open Storage SegmentLog Log List Segment

namespace Node

variable {crc : Bytes → UInt32} {node next : Node} {record : Record} {event : NodeEvent}
  {log : Log} {replay : Replay}

def Synced (node : Node) (record : Record) : Prop :=
  (∃ file ∈ node.files, record.generation = file.generation ∧
    (record.position, record.mutation) ∈ file.source.durableMembers) ∨
  ∃ log ∈ node.phase.log?, record.generation = node.generation ∧
    ∃ segment ∈ log.segments, (record.position, record.mutation) ∈ segment.log.durableMembers

def HasDurableCopy (node : Node) (record : Record) : Prop :=
  (∃ file ∈ node.files, record.CopyIn file.generation file.source.durableMembers) ∨
    ∃ log ∈ node.phase.log?, ∃ segment ∈ log.segments,
      record.CopyIn node.generation segment.log.durableMembers

/-- Discarded, or still durable; and when no replay is going on, in the log and delivered. -/
def Retains (node : Node) (record : Record) : Prop :=
  record.Discarded node.discards ∨ node.HasDurableCopy record ∧
    ∀ log, node.phase = .running log → record.Relogged node.generation node.delivered log

theorem accounted_of_live (isUp : log ∈ node.phase.log?)
    (sameGeneration : record.generation = node.generation)
    (durable : ∃ segment ∈ log.segments,
      (record.position, record.mutation) ∈ segment.log.durableMembers) : node.Accounted record := by
  rcases durable with ⟨segment, isSegment, isMember⟩
  have relogged : record.Relogged node.generation node.delivered log :=
    ⟨⟨segment, isSegment, sameGeneration.le, _, le_rfl, isMember⟩,
      fun older => absurd sameGeneration older.ne⟩
  cases phase : node.phase with
  | down =>
    rw [phase] at isUp
    cases isUp
  | replaying other replay =>
    rw [phase] at isUp
    cases isUp
    exact (accounted_replaying phase).mpr (.inr (.relogged relogged))
  | running other =>
    rw [phase] at isUp
    cases isUp
    exact (accounted_running phase).mpr (.inr relogged)

section

variable (consistent : node.Consistent crc)

include consistent

theorem Step.file_origin (step : Step crc event node next)
    {file : StoredFile} (isFile : file ∈ next.files) :
    next.phase = .down ∨ file ∈ node.files ∨ ∃ log ∈ node.phase.log?,
      ∃ segment ∈ log.segments, file.source = segment.log ∧ file.generation = node.generation := by
  cases step with
  | @discardCompleted _ log tableId position left _ phase leaves saved =>
    rcases mem_append.mp isFile with old | new
    · exact .inr (.inl old)
    · rcases leaves.file new with ⟨gone, isGone, -, source, generation, -⟩
      have discarded := (consistent.running phase).tracked.discardTable tableId position
      rcases discarded.origin gone (mem_append_right _ isGone) with ⟨segment, isSegment, same⟩
      exact .inr (.inr ⟨log, phase ▸ rfl, segment, isSegment, source.trans same, generation⟩)
  | @discardCompletedSegments _ log left phase leaves =>
    rcases mem_append.mp isFile with old | new
    · exact .inr (.inl old)
    · rcases leaves.file new with ⟨gone, isGone, -, source, generation, -⟩
      have discarded := (consistent.running phase).tracked.discardCompletedSegments
      rcases discarded.origin gone (mem_append_right _ isGone) with ⟨segment, isSegment, same⟩
      exact .inr (.inr ⟨log, phase ▸ rfl, segment, isSegment, source.trans same, generation⟩)
  | crash => exact .inl rfl
  | failReplay => exact .inl rfl
  | skipTorn unlinked => exact .inr (.inl ((unlinks_ite _ _ unlinked).sublist.subset isFile))
  | finishFile unlinked => exact .inr (.inl ((unlinks_ite _ _ _).sublist.subset isFile))
  | _ => exact .inr (.inl isFile)

theorem synced_accounted_step
    (accounted : ∀ record, node.Synced record → node.Accounted record) (sound : event.Sound)
    (step : Step crc event node next) : ∀ record, next.Synced record → next.Accounted record := by
  intro record synced
  rcases synced with ⟨file, isFile, sameGeneration, isMember⟩ | ⟨log, isUp, sameGeneration, durable⟩
  · rcases step.file_origin consistent isFile with down | before | ⟨log, isUp, segment, isSegment,
      source, generation⟩
    · exact (accounted_down down).mpr
        (.inr ⟨file, isFile, sameGeneration.le, _, le_rfl, isMember⟩)
    · exact (accounted record (.inl ⟨file, before, sameGeneration, isMember⟩)).step consistent sound
        step
    · refine (accounted record (.inr ⟨log, isUp, sameGeneration.trans generation, segment,
        isSegment, ?_⟩)).step consistent sound step
      rw [← source]
      exact isMember
  · exact accounted_of_live isUp sameGeneration durable

theorem Accounted.retains (accounted : node.Accounted record) :
    node.Retains record := by
  unfold Retains HasDurableCopy
  cases phase : node.phase with
  | down =>
    exact ((accounted_down phase).mp accounted).imp_right fun inFile => ⟨.inl inFile, by simp⟩
  | replaying log replay =>
    refine (accounted.kept consistent (.inr ⟨_, phase⟩)).imp_right fun kept => ⟨?_, by simp⟩
    exact kept.imp_right fun inLog => ⟨log, rfl, inLog⟩
  | running log =>
    refine ((accounted_running phase).mp accounted).imp_right fun relogged => ?_
    refine ⟨.inr ⟨log, rfl, relogged.durable⟩, ?_⟩
    rintro _ ⟨⟩
    exact relogged

def Steps (crc : Bytes → UInt32) (node next : Node) : Prop :=
  ∃ event, Step crc event node next

def SoundSteps (crc : Bytes → UInt32) (node next : Node) : Prop :=
  ∃ event : NodeEvent, event.Sound ∧ Step crc event node next

theorem invariant_of_run (Holds : Node → Prop) (holds : Holds node)
    (keeps : ∀ {event node next}, node.Consistent crc → Holds node → event.Sound →
      Step crc event node next → Holds next)
    (run : Relation.ReflTransGen (SoundSteps crc) node next) :
    next.Consistent crc ∧ Holds next := by
  induction run with
  | refl => exact ⟨consistent, holds⟩
  | tail _ step ih =>
    rcases step with ⟨event, sound, step⟩
    exact ⟨ih.1.step sound step, keeps ih.1 ih.2 sound step⟩

end

/-- In every run a record that was synced at some point is retained from then on. -/
theorem retains_of_run {segmentSize : ℕ} {archiveEnabled : Bool} {later : Node}
    (addressable : segmentSize ≤ 2 ^ 32 + 7)
    (reached : Relation.ReflTransGen (SoundSteps crc) (fresh segmentSize archiveEnabled) node)
    (synced : node.Synced record) (run : Relation.ReflTransGen (SoundSteps crc) node later) :
    later.Retains record := by
  have start := @consistent_fresh crc segmentSize addressable archiveEnabled
  have noneSynced : ∀ record, (fresh segmentSize archiveEnabled).Synced record →
      (fresh segmentSize archiveEnabled).Accounted record := by
    rintro record (⟨file, isFile, -⟩ | ⟨log, isUp, -⟩)
    · cases isFile
    · cases isUp
  rcases invariant_of_run start _ noneSynced synced_accounted_step reached with
    ⟨consistent, accounted⟩
  rcases invariant_of_run consistent (·.Accounted record) (accounted record synced)
    (fun consistent accounted => accounted.step consistent) run with ⟨consistent, accounted⟩
  exact accounted.retains consistent

def withAppended (log : Log) (record : Mutation) (offset : ℕ) (segment : Segment) : Log :=
  { log with
    active := LiveSegment.markTableDirty
      ⟨⟨segment, log.active.log.appended ++ [(offset, record)]⟩, log.active.dirtyTables⟩
      record.tableId offset }

theorem appendRecord_of_append {record : Mutation} {offset : ℕ} {segment : Segment}
    (accepts : Mutation.acceptsRows record.rows)
    (small : record.entrySize ≤ maxEntrySize log.segmentSize)
    (appended : log.active.log.segment.append crc record = some (offset, segment)) (synced : Bool) :
    log.appendRecord crc record none synced =
      some (withAppended log record offset segment, .ok ⟨log.active.id, offset⟩) := by
  have active : log.appendActive crc record none =
      some (withAppended log record offset segment, ⟨log.active.id, offset⟩) := by
    rw [appendActive, appended]
    rfl
  rw [appendRecord, if_pos accepts, if_neg (Nat.not_lt_of_le small), active]

def firstRunning (segmentSize : ℕ) (log : Log) : Node :=
  ⟨segmentSize, false, ∅, [], .running log, 1, [], []⟩

structure OneSynced (crc : Bytes → UInt32) (segmentSize : ℕ) (mutation : Mutation) (log : Log) :
    Prop where
  run : Relation.ReflTransGen (SoundSteps crc) (fresh segmentSize false)
    (firstRunning segmentSize log)
  closed : log.closedSegments = []
  single : SingleRecord crc 1 mutation log.active.log

theorem exists_oneSynced {segmentSize : ℕ} {mutation : Mutation} (loggable : mutation.Loggable)
    (addressable : segmentSize ≤ 2 ^ 32 + 7)
    (room : initialPosition + mutation.entrySize + syncMarkerSize ≤ segmentSize) :
    ∃ log, OneSynced crc segmentSize mutation log := by
  have accepts := acceptsRows_of_plain loggable.plain
  have record := @exists_singleRecord crc mutation 1 segmentSize accepts addressable room
  rcases record with ⟨segment, written, flushed, created, appended, synced, single⟩
  rcases Option.map_eq_some_iff.mp appended with ⟨⟨offset, after⟩, append, rfl⟩
  cases synced
  let empty : Log := ⟨segmentSize, false, false, ⟨⟨segment, []⟩, ∅⟩, [], 2, []⟩
  have opened : newWithFirstSegmentId crc segmentSize false 1 = some empty := by
    simp only [newWithFirstSegmentId, newSegment, created]
    rfl
  have small : mutation.entrySize ≤ maxEntrySize empty.segmentSize := by
    change _ ≤ maxEntrySize segmentSize
    unfold maxEntrySize
    omega
  have appends := @appendRecord_of_append crc empty mutation offset after accepts small append true
  refine ⟨(withAppended empty mutation offset after).forceSync crc true, ?_, rfl, single⟩
  have first : firstSegmentId (scanSegmentFiles []) ∅ = some 1 := by
    rw [scanSegmentFiles, mergeSort_nil]
    rfl
  let opening : Node :=
    ⟨segmentSize, false, ∅, [], .replaying empty ⟨∅, none, scanSegmentFiles []⟩, 1, [], []⟩
  have opens : SoundSteps crc (fresh segmentSize false) opening :=
    ⟨.openLog, trivial, .openLog rfl rfl first opened⟩
  have starts : SoundSteps crc opening (firstRunning segmentSize empty) :=
    ⟨.finishReplay, trivial, .finishReplay rfl rfl mergeSort_nil⟩
  have appends : SoundSteps crc (firstRunning segmentSize empty)
      (firstRunning segmentSize (withAppended empty mutation offset after)) :=
    ⟨.append mutation, loggable, .append rfl appends⟩
  exact ((((Relation.ReflTransGen.single opens).tail starts).tail appends).tail
    ⟨.sync, trivial, .sync true rfl⟩)

namespace OneSynced

variable {segmentSize : ℕ} {mutation : Mutation} (one : OneSynced crc segmentSize mutation log)
  (loggable : mutation.Loggable)

include one loggable

theorem durableMembers : log.active.log.durableMembers = [(⟨1, initialPosition⟩, mutation)] := by
  rw [SegmentLog.durableMembers, one.single.durable_eq, one.single.id]
  simp [loggable.recordEntries]

theorem synced : (firstRunning segmentSize log).Synced ⟨⟨1, initialPosition⟩, mutation, 1⟩ := by
  refine .inr ⟨log, rfl, rfl, log.active, mem_cons_self, ?_⟩
  rw [one.durableMembers loggable]
  exact mem_cons_self

end OneSynced

def durableFile (source : SegmentLog) : StoredFile :=
  ⟨source.segment.id, source.durableBytes, source, 1⟩

theorem retains_sampleMutation :
    ∃ node later record, Relation.ReflTransGen (SoundSteps tagChecksum) (fresh 1024 false) node ∧
      node.Synced record ∧ Relation.ReflTransGen (SoundSteps tagChecksum) node later ∧
      later.phase = .down ∧ later.Retains record := by
  have loggable : (sampleMutation [9]).Loggable :=
    ⟨by decide, by decide, ordinary_sampleMutation _⟩
  have addressable : 1024 ≤ 2 ^ 32 + 7 := by decide
  have synced := @exists_oneSynced tagChecksum 1024 (sampleMutation [9]) loggable addressable
    (by decide)
  rcases synced with ⟨log, one⟩
  have rejects := one.single.checksumsReject (by decide +kernel)
  let crashed : Node := ⟨1024, false, ∅, [durableFile log.active.log], .down, 1, [], []⟩
  have crash : SoundSteps tagChecksum (firstRunning 1024 log) crashed := by
    refine ⟨.crash, trivial, .crash (.inl rfl) ?_⟩
    rw [Log.segments, one.closed]
    exact .leave _ one.single.holdsDurable rejects .nil
  have run := Relation.ReflTransGen.single crash
  exact ⟨_, crashed, _, one.run, one.synced loggable, run, rfl,
    retains_of_run addressable one.run (one.synced loggable) run⟩

/-! ## Two tables with one text

The discard of table `c` in keyspace `a.b` is read back as one of table `b.c` in
keyspace `a`. -/

def dottedMutation : Mutation := { sampleMutation [9] with keyspace := "a", table := "b.c" }

def dottedTable : TableId := ⟨"a.b", "c"⟩

def dottedPositions : Positions := AList.insert dottedMutation.tableId ⟨1, 1024⟩ ∅

theorem dominated_dotted :
    dominated dottedPositions ⟨1, initialPosition⟩ dottedMutation = true := by
  have found : dottedPositions.lookup dottedMutation.tableId = some ⟨1, 1024⟩ :=
    AList.lookup_insert _
  rw [dominated, found]
  decide

theorem exists_opened (id : UInt64) {next : UInt64} (follows : Log.followingId id = some next) :
    ∃ log, Log.newWithFirstSegmentId crc 1024 false id = some log := by
  have large : ¬1024 < initialPosition + entryOverhead := by decide
  simp only [newWithFirstSegmentId, newSegment, Segment.new, if_neg large, follows]
  exact ⟨_, rfl⟩

theorem loggable_dottedMutation : dottedMutation.Loggable :=
  ⟨by decide, by decide, by decide⟩

def dottedNode (files : List StoredFile) (phase : Phase) (generation : ℕ) : Node :=
  ⟨1024, false, CommitLogCheckpoint.save (CommitLogCheckpoint.advance ∅ dottedTable ⟨1, 1024⟩),
    files, phase, generation, [⟨dottedTable, ⟨1, 1024⟩, 1⟩], []⟩

section Dotted

variable (one : OneSynced tagChecksum 1024 dottedMutation log)
include one

theorem dotted_crash : ∃ file, file.id = 1 ∧ file.bytes = log.active.log.durableBytes ∧
      Relation.ReflTransGen (Steps tagChecksum) (firstRunning 1024 log)
        (dottedNode [file] .down 1) := by
  have rejects := one.single.checksumsReject (by decide +kernel)
  have sameLog := LiveSegment.log_discard log.active dottedTable ⟨1, 1024⟩
  have discard : Steps tagChecksum (firstRunning 1024 log)
      (dottedNode [] (.running (log.discardTable dottedTable ⟨1, 1024⟩).1) 1) := by
    refine ⟨.discardCompleted dottedTable ⟨1, 1024⟩, .discardCompleted rfl ?_ (.inr rfl)⟩
    simp only [discardTable, deleteSegments, one.closed, map_nil, filter_nil]
    exact .nil
  have segments : (log.discardTable dottedTable ⟨1, 1024⟩).1.segments =
      [(log.active.discard dottedTable ⟨1, 1024⟩).1] := by
    simp [Log.segments, discardTable, deleteSegments, one.closed]
  let file : StoredFile := ⟨(log.active.discard dottedTable ⟨1, 1024⟩).1.id,
    log.active.log.durableBytes, (log.active.discard dottedTable ⟨1, 1024⟩).1.log, 1⟩
  have crash : Steps tagChecksum
      (dottedNode [] (.running (log.discardTable dottedTable ⟨1, 1024⟩).1) 1)
      (dottedNode [file] .down 1) := by
    refine ⟨.crash, .crash (.inl rfl) ?_⟩
    rw [segments]
    refine .leave _ ?_ ?_ .nil
    · rw [sameLog]
      exact one.single.holdsDurable
    · rw [sameLog]
      exact rejects
  exact ⟨file, (LiveSegment.id_eq_of_log_eq sameLog).trans one.single.id, rfl,
    (Relation.ReflTransGen.single discard).tail crash⟩

theorem dotted_replay {file : StoredFile} (fileId : file.id = 1)
    (bytes : file.bytes = log.active.log.durableBytes) :
    ∃ opened, Log.newWithFirstSegmentId tagChecksum 1024 false 2 = some opened ∧
      Relation.ReflTransGen (Steps tagChecksum) (dottedNode [file] .down 1)
        (dottedNode [] (.running (opened.forceSync tagChecksum true)) 2) := by
  rcases @exists_opened tagChecksum 2 3 rfl with ⟨opened, isOpened⟩
  have scan : scanSegmentFiles [file] = [file] := mergeSort_singleton _
  have first : firstSegmentId (scanSegmentFiles [file]) dottedPositions = some 2 := by
    rw [scan]
    change followingId ([file.id, 1].foldl max 0) = some 2
    rw [fileId]
    rfl
  have read : readAll tagChecksum file.bytes =
      .ok ⟨[(⟨1, initialPosition⟩, dottedMutation)], false⟩ := by
    rw [bytes, one.single.durableFile_eq]
    decide +kernel
  have whole : skipTornSegment file.bytes = false := by
    rw [bytes, one.single.durableFile_eq]
    decide +kernel
  have succeeds : opened.forceSyncSucceeds tagChecksum true = true :=
    (@tracked_of_opened tagChecksum [] 0 opened _ _ _ isOpened
      (by decide)).active.sound.layout.flushSucceeds
  have removed : removeFile [file] file = [] := by
    simp [removeFile]
  let entry : CommitLogPosition × Mutation := (⟨1, initialPosition⟩, dottedMutation)
  let scanned : Replay := ⟨dottedPositions, none, scanSegmentFiles [file]⟩
  let reading : Replay := ⟨dottedPositions, some ⟨file, false, [entry]⟩, []⟩
  let skipped : Replay := ⟨dottedPositions, some ⟨file, false, []⟩, []⟩
  let finished : Replay := ⟨dottedPositions, none, []⟩
  have opens : Steps tagChecksum (dottedNode [file] .down 1)
      (dottedNode [file] (.replaying opened scanned) 2) :=
    ⟨.openLog, .openLog rfl rfl first isOpened⟩
  have reads : Steps tagChecksum (dottedNode [file] (.replaying opened scanned) 2)
      (dottedNode [file] (.replaying opened reading) 2) :=
    ⟨.readFile, @Step.readFile _ _ opened scanned file [] _ rfl rfl scan whole read⟩
  have skips : Steps tagChecksum (dottedNode [file] (.replaying opened reading) 2)
      (dottedNode [file] (.replaying opened skipped) 2) :=
    ⟨.skipDominated, @Step.skipDominated _ _ opened reading ⟨file, false, [entry]⟩ _ _ [] rfl rfl
      rfl dominated_dotted⟩
  have finishes : Steps tagChecksum (dottedNode [file] (.replaying opened skipped) 2)
      (dottedNode (removeFile [file] file)
        (.replaying (opened.forceSync tagChecksum true) finished) 2) :=
    ⟨.finishFile, @Step.finishFile _ _ opened skipped ⟨file, false, []⟩ true true rfl rfl rfl
      succeeds⟩
  rw [removed] at finishes
  have ends : Steps tagChecksum
      (dottedNode [] (.replaying (opened.forceSync tagChecksum true) finished) 2)
      (dottedNode [] (.running (opened.forceSync tagChecksum true)) 2) :=
    ⟨.finishReplay, @Step.finishReplay _ _ _ finished rfl rfl rfl⟩
  exact ⟨opened, isOpened, (((((Relation.ReflTransGen.single opens).tail reads).tail skips).tail
    finishes).tail ends)⟩

end Dotted

theorem not_retains_dottedMutation : ∃ node later record,
      Relation.ReflTransGen (SoundSteps tagChecksum) (fresh 1024 false) node ∧
      node.Synced record ∧ record.mutation.tableId = ⟨"a", "b.c"⟩ ∧
      Relation.ReflTransGen (Steps tagChecksum) node later ∧
      later.discards = [⟨⟨"a.b", "c"⟩, ⟨1, 1024⟩, 1⟩] ∧ (∃ log, later.phase = .running log) ∧
      later.files = [] ∧ later.delivered = [] ∧ ¬later.Retains record := by
  have synced := @exists_oneSynced tagChecksum 1024 dottedMutation loggable_dottedMutation
    (by decide) (by decide)
  rcases synced with ⟨log, one⟩
  rcases dotted_crash one with ⟨file, fileId, bytes, crash⟩
  rcases dotted_replay one fileId bytes with ⟨opened, isOpened, replay⟩
  refine ⟨_, _, _, one.run, one.synced loggable_dottedMutation, rfl, crash.trans replay, rfl,
    ⟨_, rfl⟩, rfl, rfl, ?_⟩
  rintro (⟨discard, isDiscard, sameTable, -⟩ | ⟨-, running⟩)
  · rw [mem_singleton.mp isDiscard] at sameTable
    exact absurd sameTable (by decide)
  · rcases (running _ rfl).delivered Nat.one_lt_two with ⟨position, -, isDelivered⟩
    cases isDelivered

end Node

end Ferrosa.CommitLog
