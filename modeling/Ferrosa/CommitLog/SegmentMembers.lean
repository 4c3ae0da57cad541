import Ferrosa.CommitLog.Recovery

/-!
# The members of a segment

A segment is seen as the list of the mutations logged in it, each with its position,
and the part of that list that is durable.  Later states of a segment only add to
both; a flush that succeeds makes everything durable.
-/

namespace Ferrosa.CommitLog

open Storage List TransactionRecord

/-- Decodes to itself and is no transaction envelope. -/
structure Mutation.Loggable (mutation : Mutation) : Prop where
  plain : mutation.Plain
  fits : mutation.Fits
  ordinary : mutation.keyspace ≠ TransactionRecord.reservedKeyspace

structure Mutation.LoggedRecord (record : Mutation) : Prop where
  replayable : record.Replayable
  members : ∀ members, TransactionRecord.decode record = .ok members →
    ∀ member ∈ members, member.Loggable

variable {mutation : Mutation} {member : CommitLogPosition × Mutation} {segmentId : UInt64}

theorem Mutation.Loggable.loggedRecord (loggable : mutation.Loggable) :
    mutation.LoggedRecord := by
  have decoded := decode_of_ordinary loggable.ordinary
  refine ⟨⟨loggable.plain, loggable.fits, _, decoded⟩, ?_⟩
  intro members isDecoded member inMembers
  rw [decoded] at isDecoded
  cases isDecoded
  rw [mem_singleton.mp inMembers]
  exact loggable

theorem Mutation.Loggable.recordEntries (loggable : mutation.Loggable)
    (segmentId : UInt64) (offset : ℕ) :
    recordEntries segmentId (offset, mutation) = [(⟨segmentId, offset⟩, mutation)] := by
  simp [CommitLog.recordEntries, decode_of_ordinary loggable.ordinary]

theorem segmentId_of_mem_recordEntries {entry : ℕ × Mutation}
    (isMember : member ∈ recordEntries segmentId entry) :
    member.1.segmentId = segmentId := by
  unfold recordEntries at isMember
  split at isMember
  · rcases mem_mapIdx.mp isMember with ⟨index, _, rfl⟩
    rfl
  · rw [mem_singleton.mp isMember]

theorem Mutation.LoggedRecord.loggable_of_mem {record : Mutation} (logged : record.LoggedRecord)
    {offset : ℕ} (isMember : member ∈ recordEntries segmentId (offset, record)) :
    member.2.Loggable := by
  rcases logged.replayable.record with ⟨members, decoded⟩
  simp only [recordEntries, decoded] at isMember
  rcases mem_mapIdx.mp isMember with ⟨index, inside, rfl⟩
  exact logged.members members decoded _ (getElem_mem inside)

namespace SegmentLog

variable {crc : Bytes → UInt32} {log : SegmentLog} {file : Bytes}

def members (log : SegmentLog) : List (CommitLogPosition × Mutation) :=
  log.appended.flatMap (recordEntries log.segment.id)

def durableMembers (log : SegmentLog) : List (CommitLogPosition × Mutation) :=
  log.durable.flatMap (recordEntries log.segment.id)

theorem durableMembers_subset (log : SegmentLog) : log.durableMembers ⊆ log.members := by
  intro member isMember
  rcases mem_flatMap.mp isMember with ⟨entry, durable, inEntry⟩
  exact mem_flatMap.mpr ⟨entry, mem_of_mem_filter durable, inEntry⟩

variable {member : CommitLogPosition × Mutation}

theorem segmentId_of_mem_members (isMember : member ∈ log.members) :
    member.1.segmentId = log.segment.id := by
  rcases mem_flatMap.mp isMember with ⟨entry, -, inEntry⟩
  exact segmentId_of_mem_recordEntries inEntry

structure Sound (crc : Bytes → UInt32) (log : SegmentLog) : Prop where
  layout : HasLayout crc log
  logged : ∀ entry ∈ log.appended, entry.2.LoggedRecord

theorem Sound.loggable (sound : Sound crc log) (isMember : member ∈ log.members) :
    member.2.Loggable := by
  rcases mem_flatMap.mp isMember with ⟨entry, appended, inEntry⟩
  exact (sound.logged entry appended).loggable_of_mem inEntry

structure Extends (before after : SegmentLog) : Prop where
  id : after.segment.id = before.segment.id
  appended : before.appended ⊆ after.appended
  lastFlushed : before.segment.lastFlushed ≤ after.segment.lastFlushed

theorem Extends.refl (log : SegmentLog) : Extends log log :=
  ⟨rfl, List.Subset.refl _, le_rfl⟩

theorem Extends.trans {first second third : SegmentLog} (left : Extends first second)
    (right : Extends second third) : Extends first third :=
  ⟨right.id.trans left.id, fun _ member => right.appended (left.appended member),
    left.lastFlushed.trans right.lastFlushed⟩

theorem Extends.members {before after : SegmentLog} (extended : Extends before after) :
    before.members ⊆ after.members := by
  intro member isMember
  rcases mem_flatMap.mp isMember with ⟨entry, appended, inEntry⟩
  exact mem_flatMap.mpr ⟨entry, extended.appended appended, extended.id ▸ inEntry⟩

theorem Extends.durableMembers {before after : SegmentLog} (extended : Extends before after) :
    before.durableMembers ⊆ after.durableMembers := by
  intro member isMember
  rcases mem_flatMap.mp isMember with ⟨entry, durable, inEntry⟩
  rcases mem_filter.mp durable with ⟨appended, below⟩
  rw [decide_eq_true_eq] at below
  refine mem_flatMap.mpr ⟨entry, mem_filter.mpr ⟨extended.appended appended, ?_⟩,
    extended.id ▸ inEntry⟩
  rw [decide_eq_true_eq]
  exact below.trans extended.lastFlushed

def flushed (crc : Bytes → UInt32) (log : SegmentLog) (synced : Bool) : SegmentLog :=
  { log with segment := (log.segment.flushToDisk crc synced).1 }

section

variable (hasLayout : HasLayout crc log)

include hasLayout

theorem HasLayout.flushToDisk (synced : Bool) : ∃ closed stop, Layout.Closed crc log closed stop ∧
      log.segment.flushToDisk crc synced = closed.writeThrough stop synced ∧
      (log.segment.flushSucceeds crc synced = true →
        stop ≤ (closed.writeThrough stop synced).1.lastFlushed) := by
  rcases hasLayout with ⟨chain, current, layout⟩
  rcases layout.closeSection with ⟨closed, stop, closing, after⟩
  refine ⟨closed, stop, after, by rw [Segment.flushToDisk, closing], ?_⟩
  intro succeeds
  simp only [Segment.flushSucceeds, closing, min_eq_left after.published, Bool.or_eq_true,
    decide_eq_true_eq, Bool.and_eq_true] at succeeds
  simp only [Segment.writeThrough, min_eq_left after.published]
  rcases succeeds with durable | ⟨inBuffer, rfl⟩
  · rw [if_pos durable]
    exact durable
  · rw [if_neg (Nat.not_lt_of_le inBuffer), if_pos (rfl : true = true)]
    split_ifs with durable
    · exact durable
    · exact le_rfl

theorem HasLayout.extends_flushed (synced : Bool) : Extends log (flushed crc log synced) := by
  rcases hasLayout.flushToDisk synced with ⟨closed, stop, after, flush, -⟩
  refine ⟨?_, List.Subset.refl _, ?_⟩
  · dsimp only [flushed]
    rw [flush, ← after.id]
    simp only [Segment.writeThrough]
    split_ifs <;> rfl
  · dsimp only [flushed]
    rw [flush, ← after.watermark]
    simp only [Segment.writeThrough]
    split_ifs with durable
    · exact le_rfl
    · exact le_rfl
    · exact (Nat.lt_of_not_le durable).le
    · exact le_rfl

theorem HasLayout.members_durable {synced : Bool}
    (succeeds : log.segment.flushSucceeds crc synced = true) :
    (flushed crc log synced).members ⊆ (flushed crc log synced).durableMembers := by
  rcases hasLayout.flushToDisk synced with ⟨closed, stop, after, flush, reaches⟩
  intro member isMember
  rcases mem_flatMap.mp isMember with ⟨entry, appended, inEntry⟩
  refine mem_flatMap.mpr ⟨entry, mem_filter.mpr ⟨appended, ?_⟩, inEntry⟩
  rw [decide_eq_true_eq]
  dsimp only [flushed]
  rw [flush]
  exact (after.covers entry appended).trans (reaches succeeds)

theorem HasLayout.flushSucceeds : log.segment.flushSucceeds crc true = true := by
  rcases hasLayout with ⟨chain, current, layout⟩
  rcases layout.closeSection with ⟨closed, stop, closing, after⟩
  rcases after.layout with ⟨_, _, closedLayout, -⟩
  have length := closedLayout.length_buffer
  have written := closedLayout.written_le
  rcases closedLayout.buffer with ⟨-, unwritten, -, room, -, -⟩
  dsimp only at length written room
  have published := after.published
  have inBuffer : stop ≤ closed.buffer.length := by omega
  simp [Segment.flushSucceeds, closing, min_eq_left published, inBuffer]

end

theorem Sound.flushed (sound : Sound crc log) (synced : Bool) :
    Sound crc (flushed crc log synced) :=
  ⟨sound.layout.flush synced, sound.logged⟩

theorem Sound.sealWrites (sound : Sound crc log) :
    Sound crc { log with segment := log.segment.sealWrites } := by
  have stepped : log.step crc .sealWrites =
      some { log with segment := log.segment.sealWrites } := rfl
  exact ⟨sound.layout.step stepped, sound.logged⟩

section Append

variable {mutation : Mutation} {offset : ℕ} {segment : Segment}
  (done : log.segment.append crc mutation = some (offset, segment))

include done

theorem Sound.append (sound : Sound crc log) (logged : mutation.LoggedRecord) :
    Sound crc ⟨segment, log.appended ++ [(offset, mutation)]⟩ := by
  have stepped : log.step crc (.append mutation) =
      some ⟨segment, log.appended ++ [(offset, mutation)]⟩ := by
    rw [step, done]
    rfl
  exact ⟨sound.layout.step stepped,
    forall_mem_append.mpr ⟨sound.logged, forall_mem_singleton.mpr logged⟩⟩

theorem extends_append : Extends log ⟨segment, log.appended ++ [(offset, mutation)]⟩ := by
  rcases append_eq_some done with ⟨-, -, -, rfl⟩
  exact ⟨rfl, subset_append_left _ _, le_rfl⟩

end Append

theorem HasLayout.durableMembers_of_torn (hasLayout : HasLayout crc log)
    (holds : HoldsDurable log file) (torn : skipTornSegment file = true) :
    log.durableMembers = [] := by
  rcases Nat.eq_zero_or_pos log.segment.lastFlushed with never | flushed
  · rw [durableMembers, durable_eq_nil never, flatMap_nil]
  exfalso
  rcases hasLayout with ⟨chain, current, layout⟩
  have header : headerSize ≤ log.segment.lastFlushed := by
    have position := layout.position
    have head := layout.head
    rcases layout.flushed with never | ⟨before, after, -, watermark⟩ | ⟨-, watermark⟩
    · omega
    · omega
    · omega
  have length := holds.2
  have first : file.head? = some formatVersion := by
    rcases layout.buffer with ⟨slot, unwritten, -, -, -, contents⟩
    have same := congrArg List.head? holds.1
    rw [head?_take, head?_take, if_neg flushed.ne', if_neg flushed.ne', contents] at same
    exact same
  simp only [skipTornSegment, Bool.or_eq_true, decide_eq_true_eq, all_eq_true, beq_iff_eq] at torn
  rcases torn with short | zeros
  · omega
  · have zero := zeros formatVersion (mem_of_mem_head? first)
    cases zero

theorem Sound.readAll (sound : Sound crc log) (holds : HoldsDurable log file)
    (rejects : ChecksumsReject crc log file) {read : SegmentRead}
    (isRead : readAll crc file = .ok read) :
    log.durableMembers ⊆ read.entries ∧ read.entries ⊆ log.members := by
  have replay := sound.layout.durableEntriesReplay
    (fun entry appended => (sound.logged entry appended).replayable) holds rejects
  rcases replay.replays read isRead with ⟨extra, entries, isAppended⟩
  rw [entries]
  refine ⟨subset_append_left _ _, append_subset.mpr ⟨durableMembers_subset log, ?_⟩⟩
  intro yielded member
  rcases isAppended yielded member with ⟨entry, appended, -, inEntry⟩
  exact mem_flatMap.mpr ⟨entry, appended, inEntry⟩

end SegmentLog

end Ferrosa.CommitLog
