import Ferrosa.CommitLog.DirtyTracking
import Ferrosa.CommitLog.TransactionRoundTrip

/-!
# Logs that track their members

Appends, rotations and syncs only add to a log: every segment stays, perhaps in a
later state, and new segments get new ids.  A discard removes segments whose members
it covers.
-/

namespace Ferrosa.CommitLog

open Storage SegmentLog List LiveSegment
open Option hiding map_map

namespace Log

structure Tracked (crc : Bytes → UInt32) (discards : List Discard) (generation : ℕ)
    (log : Log) : Prop where
  addressable : log.segmentSize ≤ 2 ^ 32 + 7
  segments : ∀ segment ∈ log.segments, segment.Tracked crc discards generation
  below : ∀ segment ∈ log.segments, segment.id < log.nextSegmentId
  distinct : (log.segments.map LiveSegment.id).Nodup

structure Grows (before after : Log) : Prop where
  segments : ∀ segment ∈ before.segments, ∃ later ∈ after.segments,
    SegmentLog.Extends segment.log later.log
  ids : ∀ later ∈ after.segments, (∃ segment ∈ before.segments, later.id = segment.id) ∨
    before.nextSegmentId ≤ later.id
  next : before.nextSegmentId ≤ after.nextSegmentId

def ClosedDurable (log : Log) : Prop :=
  ∀ segment ∈ log.closedSegments, segment.log.members ⊆ segment.log.durableMembers

variable {crc : Bytes → UInt32} {discards : List Discard} {generation : ℕ} {log : Log}

theorem Grows.refl (log : Log) : Grows log log where
  segments := fun segment member => ⟨segment, member, .refl _⟩
  ids := fun segment member => .inl ⟨segment, member, rfl⟩
  next := le_rfl

theorem Grows.trans {first second third : Log} (left : Grows first second)
    (right : Grows second third) : Grows first third where
  segments := by
    intro segment member
    rcases left.segments segment member with ⟨middle, inMiddle, early⟩
    rcases right.segments middle inMiddle with ⟨later, inLater, late⟩
    exact ⟨later, inLater, early.trans late⟩
  ids := by
    intro later member
    rcases right.ids later member with ⟨middle, inMiddle, same⟩ | fresh
    · rcases left.ids middle inMiddle with ⟨segment, inFirst, sameToo⟩ | fresh
      · exact .inl ⟨segment, inFirst, same.trans sameToo⟩
      · exact .inr (same ▸ fresh)
    · exact .inr (left.next.trans fresh)
  next := left.next.trans right.next

variable {id : UInt64} {segment : LiveSegment} {segmentSize : ℕ}

theorem Grows.above {before after : Log} (grows : Grows before after)
    (tracked : before.Tracked crc discards generation)
    (above : ∀ segment ∈ before.segments, id < segment.id) :
    ∀ later ∈ after.segments, id < later.id := by
  intro later member
  rcases grows.ids later member with ⟨segment, inBefore, same⟩ | fresh
  · rw [same]
    exact above segment inBefore
  · have active : before.active ∈ before.segments := mem_cons_self
    exact ((above _ active).trans (tracked.below _ active)).trans_le fresh

theorem Tracked.cons (tracked : log.Tracked crc discards generation) (discard : Discard) :
    log.Tracked crc (discard :: discards) generation :=
  { tracked with
    segments := fun segment member => (tracked.segments segment member).cons discard }

theorem Tracked.setActive (tracked : log.Tracked crc discards generation) {active : LiveSegment}
    (sameId : active.id = log.active.id) (isTracked : active.Tracked crc discards generation) :
    Tracked crc discards generation { log with active } where
  addressable := tracked.addressable
  segments := forall_mem_cons.mpr ⟨isTracked, (forall_mem_cons.mp tracked.segments).2⟩
  below := by
    rcases forall_mem_cons.mp tracked.below with ⟨active, closed⟩
    exact forall_mem_cons.mpr ⟨sameId ▸ active, closed⟩
  distinct := by
    have distinct := tracked.distinct
    simp only [Log.segments, map_cons] at distinct ⊢
    rw [sameId]
    exact distinct

theorem grows_setActive {active : LiveSegment}
    (extended : SegmentLog.Extends log.active.log active.log) : Grows log { log with active } where
  segments := List.forall_mem_cons.mpr ⟨⟨active, List.mem_cons_self, extended⟩,
    fun segment closed => ⟨segment, mem_cons_of_mem _ closed, .refl _⟩⟩
  ids := forall_mem_cons.mpr ⟨.inl ⟨log.active, mem_cons_self, extended.id⟩,
    fun later closed => .inl ⟨later, mem_cons_of_mem _ closed, rfl⟩⟩
  next := le_rfl

section

variable (tracked : log.Tracked crc discards generation)

include tracked

theorem Tracked.active :
    log.active.Tracked crc discards generation :=
  tracked.segments log.active mem_cons_self

theorem Tracked.extends_active (synced : Bool) :
    SegmentLog.Extends log.active.log (flushSegment crc log.active synced).log :=
  tracked.active.sound.layout.extends_flushed synced

theorem Tracked.forceSync (synced : Bool) :
    (log.forceSync crc synced).Tracked crc discards generation :=
  tracked.setActive (tracked.extends_active synced).id (tracked.active.flushSegment synced)

theorem Tracked.grows_forceSync (synced : Bool) : Grows log (log.forceSync crc synced) :=
  grows_setActive (tracked.extends_active synced)

end

theorem lt_of_followingId {next : UInt64} (follows : followingId id = some next) : id < next := by
  unfold followingId at follows
  split_ifs at follows with inside
  cases follows
  rw [UInt64.lt_iff_toNat_lt, UInt64.toNat_add, UInt64.toNat_one]
  omega

theorem newSegment_eq_some (created : newSegment crc id segmentSize = some segment) :
    segment.id = id ∧ segment.log.appended = [] := by
  rcases map_eq_some_iff.mp created with ⟨empty, isNew, rfl⟩
  unfold Segment.new at isNew
  split_ifs at isNew
  cases isNew
  exact ⟨rfl, rfl⟩

theorem tracked_newSegment (created : newSegment crc id segmentSize = some segment)
    (addressable : segmentSize ≤ 2 ^ 32 + 7) : segment.Tracked crc discards generation where
  sound := by
    rcases map_eq_some_iff.mp created with ⟨empty, isNew, rfl⟩
    exact ⟨⟨[], [], layout_new isNew addressable⟩, by simp⟩
  dirty := by
    rw [SegmentLog.members, (newSegment_eq_some created).2, flatMap_nil]
    simp

theorem forceRotate_eq_some {synced flushed : Bool} {rotated : Log}
    (done : log.forceRotate crc synced = some (rotated, flushed)) :
    ∃ active nextSegmentId, newSegment crc log.nextSegmentId log.segmentSize = some active ∧
      followingId log.nextSegmentId = some nextSegmentId ∧
      rotated = { log with
        active, nextSegmentId
        closedSegments :=
          log.closedSegments ++ [flushSegment crc (sealSegment log.active) synced] } ∧
      flushed = (sealSegment log.active).log.segment.flushSucceeds crc synced := by
  unfold forceRotate at done
  rcases bind_eq_some_iff.mp done with ⟨active, created, rest⟩
  rcases bind_eq_some_iff.mp rest with ⟨nextSegmentId, follows, made⟩
  cases made
  exact ⟨active, nextSegmentId, created, follows, rfl, rfl⟩

section Rotate

variable {synced flushed : Bool} {rotated : Log}

theorem Tracked.extends_sealed (tracked : log.Tracked crc discards generation) (synced : Bool) :
    SegmentLog.Extends log.active.log (flushSegment crc (sealSegment log.active) synced).log := by
  have extended := tracked.active.sealSegment.sound.layout.extends_flushed synced
  exact ⟨extended.id, extended.appended, extended.lastFlushed⟩

section

variable (done : log.forceRotate crc synced = some (rotated, flushed))

include done

theorem Tracked.grows_forceRotate (tracked : log.Tracked crc discards generation) :
    Grows log rotated := by
  rcases forceRotate_eq_some done with ⟨active, next, created, follows, rfl, -⟩
  refine ⟨?_, ?_, (lt_of_followingId follows).le⟩
  · intro segment member
    rcases mem_cons.mp member with rfl | closed
    · refine ⟨_, mem_cons_of_mem _ (mem_append_right _ (mem_singleton_self _)), ?_⟩
      exact tracked.extends_sealed synced
    · exact ⟨segment, mem_cons_of_mem _ (mem_append_left _ closed), .refl _⟩
  · refine forall_mem_cons.mpr ⟨?_, forall_mem_append.mpr ⟨?_, forall_mem_singleton.mpr ?_⟩⟩
    · exact .inr (newSegment_eq_some created).1.ge
    · exact fun later closed => .inl ⟨later, mem_cons_of_mem _ closed, rfl⟩
    · exact .inl ⟨log.active, mem_cons_self, (tracked.extends_sealed synced).id⟩

theorem Tracked.forceRotate (tracked : log.Tracked crc discards generation) :
    rotated.Tracked crc discards generation := by
  rcases forceRotate_eq_some done with ⟨active, next, created, follows, rfl, -⟩
  have newId := (newSegment_eq_some created).1
  have oldId : (flushSegment crc (sealSegment log.active) synced).id = log.active.id :=
    (tracked.extends_sealed synced).id
  refine ⟨tracked.addressable, ?_, ?_, ?_⟩
  · refine forall_mem_cons.mpr ⟨?_, forall_mem_append.mpr ⟨?_, forall_mem_singleton.mpr ?_⟩⟩
    · exact tracked_newSegment created tracked.addressable
    · exact (forall_mem_cons.mp tracked.segments).2
    · exact tracked.active.sealSegment.flushSegment synced
  · have step := lt_of_followingId follows
    have below := fun segment member => (tracked.below segment member).trans step
    refine forall_mem_cons.mpr ⟨?_, forall_mem_append.mpr ⟨?_, forall_mem_singleton.mpr ?_⟩⟩
    · rw [newId]
      exact step
    · exact (forall_mem_cons.mp below).2
    · rw [oldId]
      exact below log.active mem_cons_self
  · have distinct := tracked.distinct
    simp only [Log.segments, map_cons, map_append, map_nil, newId, oldId] at distinct ⊢
    have old : (log.closedSegments.map LiveSegment.id ++ [log.active.id]).Nodup :=
      (perm_append_singleton _ _).nodup_iff.mpr distinct
    refine nodup_cons.mpr ⟨?_, old⟩
    intro member
    rcases mem_append.mp member with closed | isActive
    · rcases mem_map.mp closed with ⟨segment, isClosed, same⟩
      exact (tracked.below segment (mem_cons_of_mem _ isClosed)).ne same
    · exact (tracked.below log.active mem_cons_self).ne (mem_singleton.mp isActive).symm

end

theorem Tracked.closedDurable_forceRotate (tracked : log.Tracked crc discards generation)
    (closed : log.ClosedDurable) (done : log.forceRotate crc synced = some (rotated, true)) :
    rotated.ClosedDurable := by
  rcases forceRotate_eq_some done with ⟨active, next, created, follows, rfl, succeeds⟩
  exact forall_mem_append.mpr ⟨closed, forall_mem_singleton.mpr
    (tracked.active.sealSegment.sound.layout.members_durable succeeds.symm)⟩

end Rotate

section Append

variable {record : Mutation} {batchTables : Option (List TableId)} {after : Log}
  {position : CommitLogPosition}

/-- What an append into the active segment does: the tables of the record's members are
marked, at their offsets. -/
structure AppendedActive (crc : Bytes → UInt32) (log : Log) (record : Mutation)
    (batchTables : Option (List TableId)) (after : Log) (position : CommitLogPosition) : Prop where
  replaced : ∃ active, after = { log with active }
  segmentId : position.segmentId = log.active.id
  written : ∃ segment, log.active.log.segment.append crc record = some (position.offset, segment) ∧
    after.active.log = ⟨segment, log.active.log.appended ++ [(position.offset, record)]⟩
  keeps : ∀ tableId offset, log.active.DirtyFrom tableId offset →
    after.active.DirtyFrom tableId offset
  marksBatch : ∀ tables ∈ batchTables, ∀ index tableId, tables[index]? = some tableId →
    after.active.DirtyFrom tableId (position.offset + index)
  marksSingle : batchTables = none → after.active.DirtyFrom record.tableId position.offset

theorem appendedActive (done : log.appendActive crc record batchTables = some (after, position)) :
    AppendedActive crc log record batchTables after position := by
  unfold appendActive at done
  rcases bind_eq_some_iff.mp done with ⟨⟨offset, segment⟩, appended, made⟩
  cases batchTables with
  | none =>
    cases made
    refine ⟨⟨_, rfl⟩, rfl, ⟨segment, appended, rfl⟩, ?_, by simp, ?_⟩
    · intro tableId offset dirty
      exact LiveSegment.DirtyFrom.markTableDirty dirty _ _
    · intro _
      exact dirtyFrom_markTableDirty _ _ _
  | some tables =>
    cases made
    refine ⟨⟨_, rfl⟩, rfl, ⟨segment, appended, ?_⟩, ?_, ?_, by simp⟩
    · exact log_markTablesDirty _ _ _
    · intro tableId earlier dirty
      have written : LiveSegment.DirtyFrom
          ⟨⟨segment, log.active.log.appended ++ [(offset, record)]⟩, log.active.dirtyTables⟩
          tableId earlier := dirty
      exact written.markTablesDirty offset tables
    · rintro others ⟨⟩ index tableId found
      exact dirtyFrom_markTablesDirty _ _ found

namespace AppendedActive

variable (appended : AppendedActive crc log record batchTables after position)
include appended

theorem extendsActive : SegmentLog.Extends log.active.log after.active.log := by
  rcases appended.written with ⟨segment, done, written⟩
  rw [written]
  exact extends_append done

theorem members : after.active.log.members =
    log.active.log.members ++ recordEntries log.active.id (position.offset, record) := by
  rcases appended.written with ⟨segment, done, written⟩
  have sameId := (SegmentLog.extends_append done).id
  dsimp only at sameId
  rw [written]
  simp [SegmentLog.members, sameId, LiveSegment.id]

theorem grows : Grows log after := by
  have extended := appended.extendsActive
  rcases appended.replaced with ⟨active, rfl⟩
  exact grows_setActive extended

theorem dirty (appendable : record.Appendable batchTables) {member : CommitLogPosition × Mutation}
    (isMember : member ∈ recordEntries log.active.id (position.offset, record)) :
    after.active.DirtyFrom member.2.tableId member.1.offset := by
  cases batchTables with
  | none =>
    rw [(appendable.ordinary rfl).recordEntries] at isMember
    rw [mem_singleton.mp isMember]
    exact appended.marksSingle rfl
  | some tables =>
    rcases appendable.logged.replayable.record with ⟨members, decoded⟩
    have sameTables := appendable.tables tables rfl members decoded
    simp only [recordEntries, decoded] at isMember
    rcases mem_mapIdx.mp isMember with ⟨index, inside, rfl⟩
    apply appended.marksBatch tables rfl
    rw [sameTables, getElem?_map, getElem?_eq_getElem inside, map_some]

theorem tracked (appendable : record.Appendable batchTables)
    (before : log.Tracked crc discards generation) : after.Tracked crc discards generation := by
  have extended := appended.extendsActive
  have isTracked : after.active.Tracked crc discards generation := by
    constructor
    · rcases appended.written with ⟨segment, done, written⟩
      rw [written]
      exact before.active.sound.append done appendable.logged
    · intro member isMember
      rw [appended.members] at isMember
      rcases mem_append.mp isMember with old | new
      · rcases before.active.dirty member old with covered | dirty
        · exact .inl covered
        · exact .inr (appended.keeps _ _ dirty)
      · exact .inr (appended.dirty appendable new)
  rcases appended.replaced with ⟨active, rfl⟩
  exact before.setActive extended.id isTracked

theorem closedDurable (closed : log.ClosedDurable) : after.ClosedDurable := by
  rcases appended.replaced with ⟨active, rfl⟩
  exact closed

end AppendedActive

structure Appended (crc : Bytes → UInt32) (discards : List Discard) (generation : ℕ)
    (before : Log) (record : Mutation) (after : Log) (result : Except LogError CommitLogPosition) :
    Prop where
  tracked : after.Tracked crc discards generation
  grows : Grows before after
  closedDurable : ∀ position, result = .ok position → before.ClosedDurable → after.ClosedDurable
  members : ∀ position, result = .ok position →
    recordEntries after.active.id (position.offset, record) ⊆ after.active.log.members

theorem AppendedActive.appended (appendable : record.Appendable batchTables)
    (before : log.Tracked crc discards generation)
    (appended : AppendedActive crc log record batchTables after position) :
    Appended crc discards generation log record after (.ok position) where
  tracked := appended.tracked appendable before
  grows := appended.grows
  closedDurable := fun _ _ closed => appended.closedDurable closed
  members := by
    rintro other ⟨⟩
    rw [appended.members]
    have sameId : after.active.id = log.active.id := appended.extendsActive.id
    rw [sameId]
    exact subset_append_right _ _

theorem Tracked.appendRecord (tracked : log.Tracked crc discards generation)
    (appendable : record.Appendable batchTables) {synced : Bool}
    {result : Except LogError CommitLogPosition}
    (done : log.appendRecord crc record batchTables synced = some (after, result)) :
    Appended crc discards generation log record after result := by
  unfold Log.appendRecord at done
  split_ifs at done with accepts tooLarge
  · cases done
    exact ⟨tracked, .refl _, by simp, by simp⟩
  cases fits : log.appendActive crc record batchTables with
  | some appended =>
    rw [fits] at done
    cases done
    exact (appendedActive fits).appended appendable tracked
  | none =>
    rw [fits] at done
    rcases bind_eq_some_iff.mp done with ⟨⟨rotated, flushed⟩, rotates, rest⟩
    have grows := tracked.grows_forceRotate rotates
    have rotatedTracked := tracked.forceRotate rotates
    cases flushed with
    | false =>
      cases rest
      exact ⟨rotatedTracked, grows, by simp, by simp⟩
    | true =>
      rcases bind_eq_some_iff.mp rest with ⟨⟨last, position⟩, appends, made⟩
      cases made
      have appended := (appendedActive appends).appended appendable rotatedTracked
      exact ⟨appended.tracked, grows.trans appended.grows, fun other same closed =>
        appended.closedDurable other same (tracked.closedDurable_forceRotate closed rotates),
        appended.members⟩

end Append

section Discard

variable {tableId : TableId} {position : CommitLogPosition}

/-- What a discard leaves of a log: the segments it deletes only have covered members. -/
structure Discarded (crc : Bytes → UInt32) (discards : List Discard) (generation : ℕ)
    (before after : Log) (deleted : List LiveSegment) : Prop where
  tracked : after.Tracked crc discards generation
  logs : ((after.segments ++ deleted).map LiveSegment.log).Perm
    (before.segments.map LiveSegment.log)
  next : after.nextSegmentId = before.nextSegmentId
  covered : ∀ segment ∈ deleted, ∀ member ∈ segment.log.members, Covered discards generation member

theorem map_id_segments (segments : List LiveSegment) : segments.map LiveSegment.id =
      (segments.map LiveSegment.log).map fun log => log.segment.id := by
  rw [map_map]
  rfl

theorem Tracked.of_logs (tracked : log.Tracked crc discards generation) (after : Log)
    (deleted : List LiveSegment) {discards' : List Discard}
    (size : after.segmentSize = log.segmentSize) (next : after.nextSegmentId = log.nextSegmentId)
    (logs : ((after.segments ++ deleted).map LiveSegment.log).Perm
      (log.segments.map LiveSegment.log))
    (segments : ∀ segment ∈ after.segments, segment.Tracked crc discards' generation) :
    after.Tracked crc discards' generation where
  addressable := size ▸ tracked.addressable
  segments := segments
  below := by
    intro segment member
    have inLogs : segment.log ∈ log.segments.map LiveSegment.log :=
      logs.mem_iff.mp (mem_map_of_mem (mem_append_left _ member))
    rcases mem_map.mp inLogs with ⟨earlier, isEarlier, same⟩
    have below := tracked.below earlier isEarlier
    rw [next]
    rw [LiveSegment.id, same] at below
    exact below
  distinct := by
    have all := (logs.map fun log => log.segment.id).nodup_iff.mpr
      (map_id_segments log.segments ▸ tracked.distinct)
    rw [← map_id_segments, map_append] at all
    exact all.of_append_left

theorem Tracked.deleteSegments (tracked : log.Tracked crc discards generation)
    (kept deleted : List LiveSegment) (parts : (kept ++ deleted).Perm log.closedSegments)
    (clean : ∀ segment ∈ deleted, segment.isDirtyEmpty = true) :
    Discarded crc discards generation log (log.deleteSegments kept deleted).1 deleted := by
  have all : (((log.deleteSegments kept deleted).1.segments ++ deleted)).Perm log.segments :=
    parts.cons log.active
  have isSegment : ∀ segment ∈ (log.deleteSegments kept deleted).1.segments ++ deleted,
      segment ∈ log.segments := fun segment member => all.mem_iff.mp member
  refine ⟨?_, all.map _, rfl, ?_⟩
  · apply tracked.of_logs (log.deleteSegments kept deleted).1 deleted rfl rfl (all.map _)
    intro segment member
    exact tracked.segments segment (isSegment segment (mem_append_left _ member))
  · intro segment member
    have isTracked := tracked.segments segment (isSegment segment (mem_append_right _ member))
    exact isTracked.covered_of_isDirtyEmpty (clean segment member)

def discardMarks (log : Log) (tableId : TableId) (position : CommitLogPosition) : Log :=
  { log with
    active := (log.active.discard tableId position).1
    closedSegments := log.closedSegments.map fun segment => (segment.discard tableId position).1 }

theorem log_discardMarks : (log.discardMarks tableId position).segments.map LiveSegment.log =
      log.segments.map LiveSegment.log := by
  simp [discardMarks, Log.segments, log_discard, Function.comp_def]

section

variable (tracked : log.Tracked crc discards generation)

include tracked

theorem Tracked.discardMarks (tableId : TableId) (position : CommitLogPosition) :
    (log.discardMarks tableId position).Tracked crc
      (⟨tableId, position, generation⟩ :: discards) generation := by
  apply tracked.of_logs (log.discardMarks tableId position) [] rfl rfl
  · rw [append_nil, log_discardMarks]
  · intro segment member
    rcases mem_cons.mp member with rfl | closed
    · exact tracked.active.discard tableId position
    · rcases mem_map.mp closed with ⟨earlier, isEarlier, rfl⟩
      exact (tracked.segments earlier (mem_cons_of_mem _ isEarlier)).discard tableId position

theorem Tracked.discardTable (tableId : TableId) (position : CommitLogPosition) :
    Discarded crc (⟨tableId, position, generation⟩ :: discards) generation log
      (log.discardTable tableId position).1 (log.discardTable tableId position).2 := by
  have discarded := (tracked.discardMarks tableId position).deleteSegments
    (log.discardTable tableId position).1.closedSegments (log.discardTable tableId position).2
    ?_ ?_
  · exact ⟨discarded.tracked, log_discardMarks ▸ discarded.logs, rfl, discarded.covered⟩
  · have parts := perm_append_comm.trans (filter_append_perm (fun (segment : LiveSegment × Bool) =>
        segment.2 && log.dominatedByArchive segment.1.id)
        (log.closedSegments.map fun segment => segment.discard tableId position))
    have mapped := parts.map Prod.fst
    rw [map_append, map_map] at mapped
    exact mapped
  · intro segment member
    rcases mem_map.mp member with ⟨pair, inDeleted, rfl⟩
    rcases mem_filter.mp inDeleted with ⟨isDiscarded, deleted⟩
    rcases mem_map.mp isDiscarded with ⟨earlier, -, rfl⟩
    rw [Bool.and_eq_true] at deleted
    have clean := deleted.1
    unfold LiveSegment.discard at clean ⊢
    split_ifs at clean ⊢
    · exact clean
    · exact clean

theorem Tracked.discardCompletedSegments :
    Discarded crc discards generation log log.discardCompletedSegments.1
      log.discardCompletedSegments.2 := by
  apply tracked.deleteSegments
  · exact (perm_append_comm).trans (filter_append_perm _ _)
  · intro segment member
    have deleted := (mem_filter.mp member).2
    rw [Bool.and_eq_true] at deleted
    exact deleted.1

end

end Discard

theorem newWithFirstSegmentId_eq_some {archiveEnabled : Bool} {firstSegmentId : UInt64}
    (opened : newWithFirstSegmentId crc segmentSize archiveEnabled firstSegmentId = some log) :
    log.segmentSize = segmentSize ∧ log.closedSegments = [] ∧
      newSegment crc firstSegmentId segmentSize = some log.active ∧
      followingId firstSegmentId = some log.nextSegmentId := by
  rcases bind_eq_some_iff.mp opened with ⟨active, created, rest⟩
  rcases bind_eq_some_iff.mp rest with ⟨next, follows, made⟩
  cases made
  exact ⟨rfl, rfl, created, follows⟩

section Open

variable {segmentSize : ℕ} {archiveEnabled : Bool} {firstSegmentId : UInt64}
  (opened : newWithFirstSegmentId crc segmentSize archiveEnabled firstSegmentId = some log)

include opened

theorem eq_active_of_opened {segment : LiveSegment} (member : segment ∈ log.segments) :
    segment = log.active := by
  rcases newWithFirstSegmentId_eq_some opened with ⟨-, closed, -, -⟩
  rw [Log.segments, closed] at member
  exact mem_singleton.mp member

theorem tracked_of_opened (addressable : segmentSize ≤ 2 ^ 32 + 7) :
    log.Tracked crc discards generation := by
  rcases newWithFirstSegmentId_eq_some opened with ⟨size, closed, created, follows⟩
  refine ⟨size ▸ addressable, ?_, ?_, ?_⟩
  · intro segment member
    rw [eq_active_of_opened opened member]
    exact tracked_newSegment created addressable
  · intro segment member
    rw [eq_active_of_opened opened member, (newSegment_eq_some created).1]
    exact lt_of_followingId follows
  · rw [Log.segments, closed]
    exact nodup_singleton _

theorem id_of_opened {segment : LiveSegment} (member : segment ∈ log.segments) :
    segment.id = firstSegmentId := by
  rcases newWithFirstSegmentId_eq_some opened with ⟨-, -, created, -⟩
  rw [eq_active_of_opened opened member]
  exact (newSegment_eq_some created).1

end Open

end Log

end Ferrosa.CommitLog
