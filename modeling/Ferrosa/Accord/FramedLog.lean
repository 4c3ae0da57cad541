import Ferrosa.Lib.Framing

/-!
# The framed protocol log

`FileSyncWriter` appends one frame per call behind a magic that is stamped when the file is
empty, and `read_framed_log` splits the file back into records.  A call that fails may leave
any part of its bytes in the file, and a crash keeps at least what was synced.  The writer
never repairs a torn tail, so records are only read back when no call meets one.
-/

namespace Ferrosa.Accord

open Framing List

namespace FramedLog

abbrev Record := List UInt8

/-- `FACCLOG1` -/
def framedLogMagic : List UInt8 := [0x46, 0x41, 0x43, 0x43, 0x4C, 0x4F, 0x47, 0x31]

structure FramedLogRead where
  records : List Record
  truncatedTail : Bool
deriving DecidableEq, Repr

inductive FramedLogError where
  | legacyUnframed (bytes : ℕ)
deriving DecidableEq, Repr

/-- A missing file reads as an empty one. -/
def readFramedLog (file : List UInt8) : Except FramedLogError FramedLogRead :=
  if file.isEmpty then .ok ⟨[], false⟩
  else if file.length < framedLogMagic.length ∨
      file.take framedLogMagic.length ≠ framedLogMagic then
    .error (.legacyUnframed file.length)
  else
    let read := readFrames some (file.drop framedLogMagic.length)
    .ok ⟨read.1, !read.2.isEmpty⟩

def returnedRecords (file : List UInt8) : List Record :=
  match readFramedLog file with
  | .ok read => read.records
  | .error _ => []

def outgoing (file : List UInt8) (data : Record) : List UInt8 :=
  (if file.isEmpty then framedLogMagic else []) ++ frame data

@[simp] theorem outgoing_nil (data : Record) :
    outgoing [] data = framedLogMagic ++ frame data := rfl

@[simp] theorem outgoing_magic_append (bytes : List UInt8) (data : Record) :
    outgoing (framedLogMagic ++ bytes) data = frame data := rfl

structure LogState where
  file : List UInt8
  syncedLength : ℕ
  acknowledged : List Record
  unacknowledged : List Record
deriving DecidableEq

namespace LogState

def new : LogState := ⟨[], 0, [], []⟩

/-- `write_and_sync` returns `Ok`. -/
def writeAndSync (state : LogState) (data : Record) : LogState :=
  let file := state.file ++ outgoing state.file data
  { state with
    file
    syncedLength := file.length
    acknowledged := state.acknowledged ++ [data] }

/-- `write_and_sync` does not return `Ok`, and `written` bytes reached the file. -/
def failedWrite (state : LogState) (data : Record) (written : ℕ) : LogState :=
  { state with
    file := state.file ++ (outgoing state.file data).take written
    unacknowledged := state.unacknowledged ++ [data] }

def crash (state : LogState) (survived : ℕ) : LogState :=
  { state with file := state.file.take survived, syncedLength := survived }

end LogState

inductive Event where
  | writeAndSync (data : Record)
  | failedWrite (data : Record) (written : ℕ)
  | crash (survived : ℕ)
deriving DecidableEq, Repr

inductive Step : LogState → Event → LogState → Prop where
  | writeAndSync (state : LogState) (data : Record) :
      Step state (.writeAndSync data) (state.writeAndSync data)
  | failedWrite (state : LogState) (data : Record) (written : ℕ) :
      Step state (.failedWrite data written) (state.failedWrite data written)
  | crash (state : LogState) (survived : ℕ) (synced : state.syncedLength ≤ survived)
      (inside : survived ≤ state.file.length) :
      Step state (.crash survived) (state.crash survived)

/-- Acknowledged records are returned, in order, and any other one was passed to a failed call. -/
def ReadsBack (acknowledged unacknowledged returned : List Record) : Prop :=
  ∃ entries : List (Record × Bool), entries.map (·.1) = returned ∧
    (entries.filter (·.2)).map (·.1) = acknowledged ∧
    ∀ entry ∈ entries, entry.2 = false → entry.1 ∈ unacknowledged

def Whole (file : List UInt8) : Prop :=
  file = [] ∨ ∃ records : List Record, (∀ record ∈ records, record.length < payloadLimit) ∧
    file = framedLogMagic ++ frames records

/-- A call finds a file without a torn tail, and its record has a length of 32 bits. -/
def Undamaged (state : LogState) : Event → Prop
  | .writeAndSync data | .failedWrite data _ => Whole state.file ∧ data.length < payloadLimit
  | .crash _ => True

def UndamagedStep (before after : LogState) : Prop :=
  ∃ event, Undamaged before event ∧ Step before event after

variable {records : List Record}

theorem readFrames_records_append (fits : ∀ record ∈ records, record.length < payloadLimit)
    (rest : List UInt8) :
    (readFrames some (frames records ++ rest)).1 = records ++ (readFrames some rest).1 := by
  have read := @readFrames_frames_append Record some records id
    (fun record member => ⟨fits record member, rfl⟩) rest
  rw [map_id] at read
  rw [read]

theorem readFrames_records_of_isPrefix {bytes : List UInt8}
    (fits : ∀ record ∈ records, record.length < payloadLimit) (cut : bytes <+: frames records) :
    (readFrames some bytes).1 <+: records := by
  apply @readFrames_of_isPrefix Record some bytes records id
    (fun record member => ⟨fits record member, rfl⟩)
  rwa [map_id]

theorem returnedRecords_magic_append (bytes : List UInt8) :
    returnedRecords (framedLogMagic ++ bytes) = (readFrames some bytes).1 := by
  have long : ¬ (framedLogMagic ++ bytes).length < framedLogMagic.length := by simp
  have front : (framedLogMagic ++ bytes).take framedLogMagic.length = framedLogMagic := by simp
  have behind : (framedLogMagic ++ bytes).drop framedLogMagic.length = bytes := by simp
  have nonempty : (framedLogMagic ++ bytes).isEmpty = false := rfl
  simp only [returnedRecords, readFramedLog, nonempty, long, front, behind, ne_eq,
    not_true_eq_false, or_self, if_false, Bool.false_eq_true]

/-- The file is a part of the frames of records, marked by whether they were acknowledged; those
that were are among the `kept`. -/
structure Holds (state : LogState) (kept dropped : List (Record × Bool)) : Prop where
  fits : ∀ entry ∈ kept ++ dropped, entry.1.length < payloadLimit
  cut : state.file <+: framedLogMagic ++ frames ((kept ++ dropped).map (·.1))
  synced : state.syncedLength ≤ state.file.length
  keptSynced : kept = [] ∨ (framedLogMagic ++ frames (kept.map (·.1))).length ≤ state.syncedLength
  acknowledged : (kept.filter (·.2)).map (·.1) = state.acknowledged
  droppedFailed : ∀ entry ∈ dropped, entry.2 = false
  failed : ∀ entry ∈ kept ++ dropped, entry.2 = false → entry.1 ∈ state.unacknowledged

theorem holds_new : Holds .new [] [] where
  fits := by simp
  cut := nil_prefix
  synced := Nat.le_refl 0
  keptSynced := Or.inl rfl
  acknowledged := rfl
  droppedFailed := by simp
  failed := by simp

namespace Holds

variable {state : LogState} {kept dropped : List (Record × Bool)}

section

variable (holds : Holds state kept dropped)

include holds

/-- Either the magic itself is torn, or the file continues behind the kept frames. -/
theorem file_eq : (state.file.length < framedLogMagic.length ∧ kept = []) ∨
      ∃ rest, state.file = framedLogMagic ++ (frames (kept.map (·.1)) ++ rest) ∧
        rest <+: frames (dropped.map (·.1)) := by
  have whole : framedLogMagic ++ frames (kept.map (·.1)) <+:
      framedLogMagic ++ frames ((kept ++ dropped).map (·.1)) := by
    simp
  rcases Nat.lt_or_ge state.file.length
    (framedLogMagic ++ frames (kept.map (·.1))).length with short | long
  · have none : kept = [] := by
      rcases holds.keptSynced with none | synced
      · exact none
      · have := holds.synced
        omega
    subst none
    exact Or.inl ⟨by simpa using short, rfl⟩
  · right
    rcases prefix_of_prefix_length_le whole holds.cut long with ⟨rest, same⟩
    refine ⟨rest, by simpa using same.symm, ?_⟩
    have cut := holds.cut
    rw [← same, map_append, frames_append, ← append_assoc, prefix_append_right_inj] at cut
    exact cut

theorem fits_kept : ∀ record ∈ kept.map (·.1), record.length < payloadLimit := by
  intro record member
  rcases mem_map.mp member with ⟨entry, inKept, rfl⟩
  exact holds.fits entry (mem_append_left dropped inKept)

theorem fits_dropped : ∀ record ∈ dropped.map (·.1), record.length < payloadLimit := by
  intro record member
  rcases mem_map.mp member with ⟨entry, inDropped, rfl⟩
  exact holds.fits entry (mem_append_right kept inDropped)

theorem returnedRecords_eq :
    ∃ more, more <+: dropped ∧ returnedRecords state.file = (kept ++ more).map (·.1) := by
  rcases holds.file_eq with ⟨short, rfl⟩ | ⟨rest, same, cut⟩
  · refine ⟨[], nil_prefix, ?_⟩
    simp only [returnedRecords, readFramedLog, short, true_or, if_true]
    split_ifs <;> rfl
  · have read := readFrames_records_of_isPrefix holds.fits_dropped cut
    refine ⟨dropped.take (readFrames some rest).1.length, take_prefix _ _, ?_⟩
    rw [same, returnedRecords_magic_append, readFrames_records_append holds.fits_kept,
      map_append, map_take, ← prefix_iff_eq_take.mp read]

theorem readsBack :
    ReadsBack state.acknowledged state.unacknowledged (returnedRecords state.file) := by
  rcases holds.returnedRecords_eq with ⟨more, part, returned⟩
  refine ⟨kept ++ more, returned.symm, ?_, ?_⟩
  · have noneMore : more.filter (·.2) = [] := by
      apply filter_eq_nil_iff.mpr
      intro entry member
      simp [holds.droppedFailed entry (part.subset member)]
    simp only [filter_append, noneMore, append_nil, holds.acknowledged]
  · intro entry member
    apply holds.failed entry
    rcases mem_append.mp member with inKept | inMore
    · exact mem_append_left dropped inKept
    · exact mem_append_right kept (part.subset inMore)

theorem whole (isWhole : Whole state.file) :
    (state.file = [] ∧ Holds state [] []) ∨ ∃ more, Holds state kept more ∧
      state.file = framedLogMagic ++ frames ((kept ++ more).map (·.1)) := by
  rcases isWhole with empty | ⟨records, fits, same⟩
  · left
    have noneKept : kept = [] := by
      rcases holds.keptSynced with none | synced
      · exact none
      · have := holds.synced
        simp [empty, framedLogMagic] at this synced
        omega
    subst noneKept
    exact ⟨empty, by simp, by simp [empty], holds.synced, Or.inl rfl, holds.acknowledged,
      by simp, by simp⟩
  · right
    rcases holds.returnedRecords_eq with ⟨more, part, returned⟩
    have read := readFrames_records_append fits []
    rw [append_nil, readFrames_nil, append_nil] at read
    rw [same, returnedRecords_magic_append, read] at returned
    subst returned
    have fewer : ∀ entry ∈ kept ++ more, entry ∈ kept ++ dropped := by
      intro entry member
      rcases mem_append.mp member with inKept | inMore
      · exact mem_append_left dropped inKept
      · exact mem_append_right kept (part.subset inMore)
    refine ⟨more, ⟨fun entry member => holds.fits entry (fewer entry member), ?_, holds.synced,
      holds.keptSynced, holds.acknowledged,
      fun entry member => holds.droppedFailed entry (part.subset member),
      fun entry member => holds.failed entry (fewer entry member)⟩, same⟩
    simp only [same, prefix_rfl]

end

variable {data : Record}

theorem of_acknowledged {before after : LogState} {entries : List (Record × Bool)}
    (fits : ∀ entry ∈ entries ++ [(data, true)], entry.1.length < payloadLimit)
    (file : after.file = framedLogMagic ++ frames ((entries ++ [(data, true)]).map (·.1)))
    (synced : after.syncedLength = after.file.length)
    (acknowledged : (entries.filter (·.2)).map (·.1) = before.acknowledged)
    (recorded : after.acknowledged = before.acknowledged ++ [data])
    (failed : ∀ entry ∈ entries, entry.2 = false → entry.1 ∈ after.unacknowledged) :
    Holds after (entries ++ [(data, true)]) [] where
  fits := by simpa using fits
  cut := by simp only [file, append_nil, prefix_rfl]
  synced := Nat.le_of_eq synced
  keptSynced := Or.inr (Nat.le_of_eq (by rw [synced, file]))
  acknowledged := by simp [acknowledged, recorded]
  droppedFailed := by simp
  failed := by
    intro entry member isFailed
    rw [append_nil] at member
    rcases mem_append.mp member with before | last
    · exact failed entry before isFailed
    · simp [mem_singleton.mp last] at isFailed

section

variable (holds : Holds state kept dropped)

include holds

theorem writeAndSync (isWhole : Whole state.file) (small : data.length < payloadLimit) :
    ∃ kept, Holds (state.writeAndSync data) kept [] := by
  rcases holds.whole isWhole with ⟨empty, holds⟩ | ⟨more, holds, same⟩
  · refine ⟨[] ++ [(data, true)], of_acknowledged (by simpa using small) ?_ rfl
      holds.acknowledged rfl (by simp)⟩
    simp [LogState.writeAndSync, empty]
  · refine ⟨(kept ++ more) ++ [(data, true)], of_acknowledged ?_ ?_ rfl ?_ rfl holds.failed⟩
    · exact forall_mem_append.mpr ⟨holds.fits, forall_mem_singleton.mpr small⟩
    · simp only [LogState.writeAndSync, same, outgoing_magic_append, append_assoc,
        map_append, frames_append]
      simp
    · have noneMore : more.filter (·.2) = [] := by
        apply filter_eq_nil_iff.mpr
        intro entry member
        simp [holds.droppedFailed entry member]
      simp only [filter_append, noneMore, append_nil, holds.acknowledged]

theorem of_failed {written : ℕ} (small : data.length < payloadLimit)
    (cut : (state.failedWrite data written).file <+:
      framedLogMagic ++ frames ((kept ++ (dropped ++ [(data, false)])).map (·.1))) :
    Holds (state.failedWrite data written) kept (dropped ++ [(data, false)]) where
  fits := by
    rw [← append_assoc]
    exact forall_mem_append.mpr ⟨holds.fits, forall_mem_singleton.mpr small⟩
  cut := cut
  synced := by
    have synced := holds.synced
    simp only [LogState.failedWrite, length_append]
    omega
  keptSynced := holds.keptSynced
  acknowledged := holds.acknowledged
  droppedFailed := forall_mem_append.mpr ⟨holds.droppedFailed, forall_mem_singleton.mpr rfl⟩
  failed := by
    intro entry member isFailed
    rw [← append_assoc] at member
    simp only [LogState.failedWrite, mem_append]
    rcases mem_append.mp member with before | last
    · exact Or.inl (holds.failed entry before isFailed)
    · simp [mem_singleton.mp last]

theorem failedWrite {written : ℕ}
    (isWhole : Whole state.file) (small : data.length < payloadLimit) :
    ∃ kept dropped, Holds (state.failedWrite data written) kept dropped := by
  rcases holds.whole isWhole with ⟨empty, holds⟩ | ⟨more, holds, same⟩
  · refine ⟨[], [] ++ [(data, false)], holds.of_failed small ?_⟩
    simp [LogState.failedWrite, empty, take_prefix]
  · refine ⟨kept, more ++ [(data, false)], holds.of_failed small ?_⟩
    simp only [LogState.failedWrite, same, outgoing_magic_append, append_assoc,
      map_append, frames_append, prefix_append_right_inj]
    simpa using take_prefix written (frame data)

theorem crash {survived : ℕ}
    (synced : state.syncedLength ≤ survived) (inside : survived ≤ state.file.length) :
    Holds (state.crash survived) kept dropped :=
  { holds with
    cut := ( take_prefix survived state.file).trans holds.cut
    synced := by simp [LogState.crash, inside]
    keptSynced := holds.keptSynced.imp_right fun onDisk => Nat.le_trans onDisk synced }

end

theorem step {before after : LogState} (holds : Holds before kept dropped)
    (taken : UndamagedStep before after) : ∃ kept dropped, Holds after kept dropped := by
  rcases taken with ⟨event, undamaged, step⟩
  cases step with
  | writeAndSync data =>
    rcases holds.writeAndSync undamaged.1 undamaged.2 with ⟨kept, holds⟩
    exact ⟨kept, [], holds⟩
  | failedWrite data written => exact holds.failedWrite undamaged.1 undamaged.2
  | crash survived synced inside => exact ⟨kept, dropped, holds.crash synced inside⟩

theorem of_run (run : Relation.ReflTransGen UndamagedStep .new state) :
    ∃ kept dropped, Holds state kept dropped := by
  induction run with
  | refl => exact ⟨[], [], holds_new⟩
  | tail _ taken ih =>
    rcases ih with ⟨kept, dropped, holds⟩
    exact holds.step taken

end Holds

/-- As long as no call meets a torn tail and records have 32-bit lengths, every acknowledged
record is read back. -/
theorem readsBack_of_run {state : LogState} (run : Relation.ReflTransGen UndamagedStep .new state) :
    ReadsBack state.acknowledged state.unacknowledged (returnedRecords state.file) := by
  rcases Holds.of_run run with ⟨kept, dropped, holds⟩
  exact holds.readsBack

/-- The first call stops two bytes behind the magic, and the second one returns `Ok`. -/
def tornState : LogState := (LogState.new.failedWrite [1] 10).writeAndSync [2]

/-- The two bytes left by the first call make the length of the second one unreadable. -/
theorem not_readsBack_tornState :
    (∃ torn, Step .new (.failedWrite [1] 10) torn ∧ Step torn (.writeAndSync [2]) tornState) ∧
      tornState.acknowledged = [[2]] ∧ returnedRecords tornState.file = [] ∧
      ¬ ReadsBack tornState.acknowledged tornState.unacknowledged
        (returnedRecords tornState.file) := by
  have acknowledged : tornState.acknowledged = [[2]] := by decide
  have returned : returnedRecords tornState.file = [] := by decide
  refine ⟨⟨_, .failedWrite .new [1] 10, .writeAndSync _ [2]⟩, acknowledged, returned, ?_⟩
  rintro ⟨entries, all, some, _⟩
  rw [returned, map_eq_nil_iff] at all
  rw [all, acknowledged] at some
  simp at some

/-- The second call leaves a torn tail, and the crash that follows cuts it off. -/
def recoveredState : LogState :=
  ((((LogState.new.writeAndSync [1]).failedWrite [2] 4).crash 13).writeAndSync [3])

theorem readsBack_recoveredState :
    ReadsBack [[1], [3]] [[2]] (returnedRecords recoveredState.file) := by
  have small : ∀ byte : UInt8, [byte].length < payloadLimit := fun byte => by simp [payloadLimit]
  have first : UndamagedStep .new (LogState.new.writeAndSync [1]) :=
    ⟨.writeAndSync [1], ⟨Or.inl rfl, small 1⟩, .writeAndSync _ [1]⟩
  have whole : Whole (framedLogMagic ++ frames [[1]]) := Or.inr ⟨[[1]], by simpa using small 1, rfl⟩
  have second : UndamagedStep (LogState.new.writeAndSync [1])
      ((LogState.new.writeAndSync [1]).failedWrite [2] 4) :=
    ⟨.failedWrite [2] 4, ⟨whole, small 2⟩, .failedWrite _ [2] 4⟩
  have third : UndamagedStep ((LogState.new.writeAndSync [1]).failedWrite [2] 4)
      (((LogState.new.writeAndSync [1]).failedWrite [2] 4).crash 13) :=
    ⟨.crash 13, trivial, .crash _ 13 (by decide) (by decide)⟩
  have fourth : UndamagedStep (((LogState.new.writeAndSync [1]).failedWrite [2] 4).crash 13)
      recoveredState :=
    ⟨.writeAndSync [3], ⟨whole, small 3⟩, .writeAndSync _ [3]⟩
  exact readsBack_of_run ((((Relation.ReflTransGen.single first).tail second).tail third).tail fourth)

end FramedLog

end Ferrosa.Accord
