import Ferrosa.CommitLog.NodeInvariant

/-!
# Every step keeps a node consistent

Provided that what is appended can be read back and that the tables of discards have
no dot in their keyspace.
-/

namespace Ferrosa.CommitLog

open Storage SegmentLog List Log

variable {files : List StoredFile} {file : StoredFile}

theorem mem_scanSegmentFiles : file ∈ scanSegmentFiles files ↔ file ∈ files :=
  mem_mergeSort

theorem id_le_getLast_scanSegmentFiles (member : file ∈ files) :
    ∃ last, (scanSegmentFiles files).getLast? = some last ∧ file.id ≤ last.id := by
  have isScanned := mem_scanSegmentFiles.mpr member
  have nonempty : scanSegmentFiles files ≠ [] := ne_nil_of_mem isScanned
  refine ⟨_, getLast?_eq_some_getLast nonempty, ?_⟩
  have sorted : (scanSegmentFiles files).Pairwise fun first second =>
      decide (first.id ≤ second.id) = true := by
    apply pairwise_mergeSort
    · intro first second third left right
      simp only [decide_eq_true_eq] at left right ⊢
      exact left.trans right
    · intro first second
      simp only [Bool.or_eq_true, decide_eq_true_eq]
      exact le_total _ _
  have reached := sorted.rel_getLast_of_rel_getLast_getLast isScanned (by simp)
  exact of_decide_eq_true reached

theorem id_lt_firstSegmentId {files : List StoredFile} {positions : Positions} {firstId : UInt64}
    (first : firstSegmentId (scanSegmentFiles files) positions = some firstId) {file : StoredFile}
    (member : file ∈ files) : file.id < firstId := by
  rcases id_le_getLast_scanSegmentFiles member with ⟨last, isLast, below⟩
  apply lt_of_le_of_lt (below.trans _) (lt_of_followingId first)
  apply le_foldl_max
  right
  rw [isLast]
  exact mem_cons_self

variable {crc : Bytes → UInt32} {files left kept : List StoredFile} {checkpoint : CheckpointFile}
  {discards : List Discard} {generation : ℕ} {log after : Log} {replay : Replay}
  {file : StoredFile}

section Open

variable {positions : Positions} {firstId : UInt64} {segmentSize : ℕ} {archiveEnabled : Bool}
  (loaded : CommitLogCheckpoint.load checkpoint = some positions)
  (first : firstSegmentId (scanSegmentFiles files) positions = some firstId)
  (opened : Log.newWithFirstSegmentId crc segmentSize archiveEnabled firstId = some log)

include loaded first

theorem coversFirst : CheckpointCovers checkpoint discards generation firstId := by
  intro tableId position undotted found
  right
  have entry := (CommitLogCheckpoint.lookup_foldlM_iff checkpoint.nodupKeys loaded).mpr
    (.inl ⟨_, AList.mem_lookup_iff.mp found, parseTableId_display undotted⟩)
  apply lt_of_le_of_lt _ (lt_of_followingId first)
  apply le_foldl_max
  right
  exact mem_append_right _ (mem_map_of_mem (AList.mem_lookup_iff.mp entry))

include opened

theorem logConsistent_of_opened (addressable : segmentSize ≤ 2 ^ 32 + 7) :
    LogConsistent crc files checkpoint discards generation log := by
  rcases newWithFirstSegmentId_eq_some opened with ⟨-, -, -, follows⟩
  have next := lt_of_followingId follows
  refine ⟨tracked_of_opened opened addressable, ?_, ?_, ?_, ?_⟩
  · intro file member
    exact (id_lt_firstSegmentId first member).trans next
  · intro file member segment isSegment
    rw [id_of_opened opened isSegment]
    exact (id_lt_firstSegmentId first member).ne
  · intro segment isSegment
    rw [id_of_opened opened isSegment]
    exact coversFirst loaded first
  · exact (coversFirst loaded first).mono next.le

theorem replayConsistent_of_opened (distinct : (files.map StoredFile.id).Nodup) :
    ReplayConsistent files checkpoint log ⟨positions, none, scanSegmentFiles files⟩ := by
  refine ⟨loaded, ?_, ?_, by simp, ?_, ?_⟩
  · intro file member
    exact mem_scanSegmentFiles.mp member
  · exact ((mergeSort_perm files _).map _).nodup_iff.mpr distinct
  · intro file member segment isSegment
    rw [id_of_opened opened isSegment]
    exact id_lt_firstSegmentId first member
  · rcases newWithFirstSegmentId_eq_some opened with ⟨-, closed, -, -⟩
    intro segment member
    rw [closed] at member
    cases member

end Open

structure Unlinks (file : StoredFile) (before after : List StoredFile) : Prop where
  sublist : after.Sublist before
  kept : ∀ other ∈ before, other.id ≠ file.id → other ∈ after

theorem unlinks_ite (file : StoredFile) (files : List StoredFile) (unlinked : Bool) :
    Unlinks file files (if unlinked then removeFile files file else files) := by
  split_ifs
  · refine ⟨filter_sublist, ?_⟩
    intro other member differs
    exact mem_filter.mpr ⟨member, decide_eq_true differs⟩
  · exact ⟨.refl _, fun _ member _ => member⟩

theorem FilesConsistent.sublist
    (consistent : FilesConsistent crc files checkpoint discards generation)
    (sublist : kept.Sublist files) :
    FilesConsistent crc kept checkpoint discards generation where
  sound := fun file member => consistent.sound file (sublist.subset member)
  generations := fun file member => consistent.generations file (sublist.subset member)
  distinct := (sublist.map _).nodup consistent.distinct
  covers := fun file member => consistent.covers file (sublist.subset member)

theorem LogConsistent.sublist
    (consistent : LogConsistent crc files checkpoint discards generation log)
    (sublist : kept.Sublist files) :
    LogConsistent crc kept checkpoint discards generation log :=
  { consistent with
    filesBelow := fun file member => consistent.filesBelow file (sublist.subset member)
    disjoint := fun file member => consistent.disjoint file (sublist.subset member) }

namespace ReplayConsistent

variable (consistent : ReplayConsistent files checkpoint log replay)
include consistent

theorem grow (tracked : log.Tracked crc discards generation) (grows : log.Grows after)
    (closed : after.ClosedDurable) : ReplayConsistent files checkpoint after replay :=
  { consistent with
    newer := fun file member => grows.above tracked (consistent.newer file member)
    closed }

theorem drop {next : Replay} (isFirst : replay.files = file :: next.files)
    (sameCheckpoint : next.checkpoint = replay.checkpoint) (noCurrent : next.current = none)
    (unlinks : Unlinks file files kept) : ReplayConsistent kept checkpoint log next := by
  have distinct := consistent.distinct
  rw [isFirst, map_cons, nodup_cons] at distinct
  refine ⟨sameCheckpoint ▸ consistent.loaded, ?_, distinct.2, by simp [noCurrent], ?_,
    consistent.closed⟩
  · intro other member
    apply unlinks.kept other (consistent.needed other _)
    · intro same
      exact distinct.1 (same ▸ mem_map_of_mem member)
    · rw [isFirst]
      exact mem_cons_of_mem _ member
  · intro other member
    exact consistent.newer other (unlinks.sublist.subset member)

theorem sameFiles {next : Replay} (same : next.files = replay.files)
    (sameCheckpoint : next.checkpoint = replay.checkpoint)
    (pending : ∀ current ∈ next.current, current.pending ⊆ current.file.source.members) :
    ReplayConsistent files checkpoint log next :=
  { consistent with
    loaded := sameCheckpoint ▸ consistent.loaded
    needed := same ▸ consistent.needed
    distinct := same ▸ consistent.distinct
    pending }

variable {current : CurrentFile}

theorem current_mem (isCurrent : replay.current = some current) : current.file ∈ files := by
  apply consistent.needed
  rw [Replay.files, isCurrent]
  exact mem_cons_self

theorem pendingTail (isCurrent : replay.current = some current)
    {first : CommitLogPosition × Mutation} {pending : List (CommitLogPosition × Mutation)}
    (isPending : current.pending = first :: pending) :
    ReplayConsistent files checkpoint log
      { replay with current := some { current with pending } } := by
  apply consistent.sameFiles
  · simp [Replay.files, isCurrent]
  · rfl
  · rintro _ ⟨⟩ member inPending
    apply consistent.pending current isCurrent
    rw [isPending]
    exact mem_cons_of_mem _ inPending

end ReplayConsistent

/-- What a caller has to observe: mutations that can be read back, and tables whose names
the checkpoint keeps. -/
def NodeEvent.Sound : NodeEvent → Prop
  | .append mutation => mutation.Loggable
  | .transaction members => LoggableBatch members
  | .discardCompleted tableId _ => tableId.Undotted
  | _ => True

namespace Node

variable {node next : Node}

section Phases

variable (addressable : node.segmentSize ≤ 2 ^ 32 + 7) (filesConsistent :
    FilesConsistent crc node.files node.checkpoint node.discards node.generation)

include addressable filesConsistent

theorem consistent_of_down (phase : node.phase = .down) : node.Consistent crc where
  addressable := addressable
  files := filesConsistent
  log := by simp [phase, Phase.log?]
  replay := by simp [phase]

theorem consistent_of_running (phase : node.phase = .running log) (logConsistent :
      LogConsistent crc node.files node.checkpoint node.discards node.generation log) :
    node.Consistent crc where
  addressable := addressable
  files := filesConsistent
  log := by
    rw [phase]
    rintro _ ⟨⟩
    exact logConsistent
  replay := by simp [phase]

theorem consistent_of_replaying (phase : node.phase = .replaying log replay)
    (logConsistent : LogConsistent crc node.files node.checkpoint node.discards node.generation log)
    (replayConsistent : ReplayConsistent node.files node.checkpoint log replay) :
    node.Consistent crc where
  addressable := addressable
  files := filesConsistent
  log := by
    rw [phase]
    rintro _ ⟨⟩
    exact logConsistent
  replay := by
    intro other otherReplay isPhase
    cases phase.symm.trans isPhase
    exact replayConsistent

end Phases

namespace Consistent

variable (consistent : node.Consistent crc)
include consistent

theorem running (phase : node.phase = .running log) :
    LogConsistent crc node.files node.checkpoint node.discards node.generation log :=
  consistent.log log (by rw [phase]; rfl)

theorem replaying (phase : node.phase = .replaying log replay) :
    LogConsistent crc node.files node.checkpoint node.discards node.generation log :=
  consistent.log log (by rw [phase]; rfl)

theorem growRunning (phase : node.phase = .running log)
    (tracked : after.Tracked crc node.discards node.generation) (grows : log.Grows after) :
    Consistent crc { node with phase := .running after } :=
  consistent_of_running consistent.addressable consistent.files rfl
    ((consistent.running phase).grow tracked grows)

theorem crash
    (logConsistent : LogConsistent crc node.files node.checkpoint node.discards node.generation log)
    {mayVanish : SegmentLog → Prop}
    (leaves : Leaves crc node.generation mayVanish log.segments left) :
    Consistent crc { node with phase := .down, files := node.files ++ left } :=
  consistent_of_down consistent.addressable
    (consistent.files.leave logConsistent leaves (fun segment member => ⟨segment, member, rfl⟩)
      logConsistent.tracked.distinct) rfl

section Pending

variable (phase : node.phase = .replaying log replay) {current : CurrentFile}
  (isCurrent : replay.current = some current) {position : CommitLogPosition} {mutation : Mutation}
  {pending : List (CommitLogPosition × Mutation)}
  (isPending : current.pending = (position, mutation) :: pending)

include phase isCurrent isPending

theorem pending_mem : (position, mutation) ∈ current.file.source.members := by
  apply (consistent.replay log replay phase).pending current isCurrent
  rw [isPending]
  exact mem_cons_self

theorem pending_loggable : mutation.Loggable :=
  (consistent.files.sound _ ((consistent.replay log replay phase).current_mem
    isCurrent)).source.loggable (consistent.pending_mem phase isCurrent isPending)

theorem pending_segmentId : position.segmentId = current.file.id := by
  rw [(consistent.files.sound _ ((consistent.replay log replay phase).current_mem isCurrent)).id]
  exact segmentId_of_mem_members (consistent.pending_mem phase isCurrent isPending)

end Pending

theorem step {event : NodeEvent} (sound : event.Sound) (step : Step crc event node next) :
    next.Consistent crc := by
  cases step with
  | append phase done =>
    have appended := (consistent.running phase).tracked.appendRecord
      (Mutation.Loggable.appendable sound) done
    exact consistent.growRunning phase appended.tracked appended.grows
  | transaction phase encoded done =>
    have appended := (consistent.running phase).tracked.appendRecord
      (LoggableBatch.appendable sound encoded) done
    exact consistent.growRunning phase appended.tracked appended.grows
  | rotate phase done =>
    have tracked := (consistent.running phase).tracked
    exact consistent.growRunning phase (tracked.forceRotate done) (tracked.grows_forceRotate done)
  | sync synced phase =>
    have tracked := (consistent.running phase).tracked
    exact consistent.growRunning phase (tracked.forceSync synced) (tracked.grows_forceSync synced)
  | @discardCompleted _ log tableId position left checkpoint phase leaves saved =>
    have logConsistent := (consistent.running phase).discard sound saved
    have discarded := (consistent.running phase).tracked.discardTable tableId position
    have distinct := discarded.distinct logConsistent.tracked
    refine consistent_of_running consistent.addressable ?_ rfl
      (logConsistent.delete discarded leaves)
    exact (consistent.files.discard sound saved).leave logConsistent leaves
      (fun segment member => discarded.origin segment (mem_append_right _ member))
      distinct.of_append_right
  | discardCompletedSegments phase leaves =>
    have logConsistent := consistent.running phase
    have discarded := logConsistent.tracked.discardCompletedSegments
    have distinct := discarded.distinct logConsistent.tracked
    refine consistent_of_running consistent.addressable ?_ rfl
      (logConsistent.delete discarded leaves)
    exact consistent.files.leave logConsistent leaves
      (fun segment member => discarded.origin segment (mem_append_right _ member))
      distinct.of_append_right
  | markArchived phase | retainForArchive phase =>
    exact consistent.growRunning phase { (consistent.running phase).tracked with }
      { Grows.refl _ with }
  | crash phase leaves =>
    rcases phase with running | ⟨replay, replaying⟩
    · exact consistent.crash (consistent.running running) leaves
    · exact consistent.crash (consistent.replaying replaying) leaves
  | openLog phase loaded first opened =>
    have files := consistent.files
    refine consistent_of_replaying consistent.addressable ?_ rfl
      (logConsistent_of_opened loaded first opened consistent.addressable)
      (replayConsistent_of_opened loaded first opened files.distinct)
    exact ⟨files.sound, fun file member => (files.generations file member).trans (Nat.le_succ _),
      files.distinct, files.covers⟩
  | replaySync synced phase =>
    have tracked := (consistent.replaying phase).tracked
    refine consistent_of_replaying consistent.addressable consistent.files rfl ?_ ?_
    · exact (consistent.replaying phase).grow (tracked.forceSync synced)
        (tracked.grows_forceSync synced)
    · exact (consistent.replay _ _ phase).grow tracked (tracked.grows_forceSync synced)
        (consistent.replay _ _ phase).closed
  | @skipTorn _ log replay file rest unlinked phase noCurrent remaining torn =>
    have unlinks := unlinks_ite file node.files unlinked
    refine consistent_of_replaying consistent.addressable
      (consistent.files.sublist unlinks.sublist) rfl ?_ ?_
    · exact (consistent.replaying phase).sublist unlinks.sublist
    · refine (consistent.replay _ _ phase).drop ?_ rfl noCurrent unlinks
      simp [Replay.files, noCurrent, remaining]
  | @readFile _ log replay file rest read phase noCurrent remaining whole isRead =>
    have replayConsistent := consistent.replay _ _ phase
    have needed : replay.files = file :: rest := by
      simp [Replay.files, noCurrent, remaining]
    have isFile : file ∈ node.files := by
      apply replayConsistent.needed
      rw [needed]
      exact mem_cons_self
    have sound := consistent.files.sound file isFile
    refine consistent_of_replaying consistent.addressable consistent.files rfl
      (consistent.replaying phase) ?_
    refine replayConsistent.sameFiles needed.symm rfl ?_
    rintro _ ⟨⟩
    exact (sound.source.readAll sound.holds sound.rejects isRead).2
  | skipDominated phase isCurrent isPending isDominated =>
    exact consistent_of_replaying consistent.addressable consistent.files rfl
      (consistent.replaying phase) ((consistent.replay _ _ phase).pendingTail isCurrent isPending)
  | deliver phase isCurrent isPending notDominated done =>
    have tracked := (consistent.replaying phase).tracked
    have loggable := consistent.pending_loggable phase isCurrent isPending
    have appended := tracked.appendRecord loggable.appendable done
    have replayConsistent := consistent.replay _ _ phase
    refine consistent_of_replaying consistent.addressable consistent.files rfl ?_ ?_
    · exact (consistent.replaying phase).grow appended.tracked appended.grows
    · exact (replayConsistent.grow tracked appended.grows
        (appended.closedDurable _ rfl replayConsistent.closed)).pendingTail isCurrent isPending
  | failReplay phase isCurrent isPending notDominated done leaves =>
    have tracked := (consistent.replaying phase).tracked
    have loggable := consistent.pending_loggable phase isCurrent isPending
    have appended := tracked.appendRecord loggable.appendable done
    exact consistent.crash
      ((consistent.replaying phase).grow appended.tracked appended.grows) leaves
  | @finishFile _ log replay current synced unlinked phase isCurrent isPending succeeds =>
    have unlinks := unlinks_ite current.file node.files (unlinked && !current.rejected)
    have tracked := (consistent.replaying phase).tracked
    have grows := tracked.grows_forceSync synced
    have replayConsistent := consistent.replay _ _ phase
    refine consistent_of_replaying consistent.addressable
      (consistent.files.sublist unlinks.sublist) rfl ?_ ?_
    · exact ((consistent.replaying phase).grow (tracked.forceSync synced) grows).sublist
        unlinks.sublist
    · refine (replayConsistent.grow tracked grows replayConsistent.closed).drop ?_ rfl rfl unlinks
      simp [Replay.files, isCurrent]
  | finishReplay phase noCurrent finished =>
    exact consistent_of_running consistent.addressable consistent.files rfl
      (consistent.replaying phase)

end Consistent

theorem consistent_fresh {segmentSize : ℕ} (addressable : segmentSize ≤ 2 ^ 32 + 7)
    (archiveEnabled : Bool) : (fresh segmentSize archiveEnabled).Consistent crc := by
  refine consistent_of_down addressable ⟨?_, ?_, nodup_nil, ?_⟩ rfl
  all_goals
    intro file member
    cases member

end Node

end Ferrosa.CommitLog
