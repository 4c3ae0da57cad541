import Ferrosa.Lib.Runs
import Ferrosa.Lib.WriteCache
import Ferrosa.Raft.LogStore

/-!
# What the Raft log store keeps across crashes

The vote and the committed id are flushed before they are acknowledged.  An append is
acknowledged when its batch has been issued, so it survives a crash only if a vote or a committed
id has been saved in between.
-/

namespace Ferrosa.Raft

open List WriteCache Trees

variable {D : Type}

namespace Trees

variable (trees : Trees D)

def Reaches (index : ℕ) : Prop := ∃ last ∈ trees.lastLogId, index ≤ last.index
  deriving Decidable

def CommittedWithin : Prop := ∀ logId ∈ trees.readCommitted, trees.Reaches logId.index

theorem reaches_iff {index : ℕ} : trees.Reaches index ↔
      (∃ stored ∈ trees.log.keys, index ≤ stored) ∨
        trees.log.keys = [] ∧ ∃ point ∈ trees.lastPurged, index ≤ point.index := by
  simp only [Reaches, lastLogId]
  cases last : trees.log.lastEntryLogId with
  | none =>
    have absent := trees.log.lastEntryLogId_eq_none_iff.mp last
    have empty : trees.log.keys = [] := by
      apply eq_nil_iff_forall_not_mem.mpr
      intro stored isStored
      simp [trees.log.mem_keys_iff, absent] at isStored
    simp [empty]
  | some logId =>
    rcases trees.log.lastEntryLogId_eq_some last with ⟨⟨entry, found, -⟩, greatest⟩
    have isStored : logId.index ∈ trees.log.keys := by simp [trees.log.mem_keys_iff, found]
    have nonempty : trees.log.keys ≠ [] := ne_nil_of_mem isStored
    simp only [Option.some_or, Option.mem_def, Option.some.injEq, exists_eq_left', nonempty,
      false_and, or_false]
    constructor
    · intro below
      exact ⟨logId.index, isStored, below⟩
    · rintro ⟨stored, storedKey, below⟩
      exact below.trans (greatest stored (trees.log.mem_keys_iff.mp storedKey))

end Trees

inductive Event (D : Type) where
  | append (entries : List (Entry D)) (acknowledged : Bool)
  | truncate (logId : LogId)
  | purge (admission : RecoveryAdmission) (durable : ℕ) (logId : LogId)
  | saveVote (vote : Vote) (completed : Bool)
  | saveCommitted (committed : Option LogId) (completed : Bool)
  | crash (kept : ℕ)

/-- The acknowledged entries are those not truncated or purged, the votes those since the last save.
-/
structure Session (D : Type) where
  cache : WriteCache (Trees D) (Write D)
  acknowledged : List (Entry D)
  votes : List (Option Vote)

namespace Session

def start : Session D := ⟨⟨.empty, []⟩, [], [none]⟩

variable (session : Session D)

def trees : Trees D := session.cache.current Trees.apply

def saveMeta (write : Write D) (completed : Bool) : WriteCache (Trees D) (Write D) :=
  if completed then (session.cache.issue write).flush Trees.apply else session.cache.issue write

def step : Event D → Session D
  | .append entries acknowledged =>
    { session with
      cache := session.cache.issueAll (appendWrites entries)
      acknowledged :=
        if acknowledged then session.acknowledged ++ entries else session.acknowledged }
  | .truncate logId =>
    { session with
      cache := session.cache.issueAll (session.trees.truncateWrites logId)
      acknowledged := session.acknowledged.filter fun entry => entry.logId.index < logId.index }
  | .purge admission durable logId =>
    { session with
      cache := session.cache.issueAll (session.trees.purgeWrites admission durable logId)
      acknowledged :=
        match session.trees.purgedThrough admission durable logId with
        | some point => session.acknowledged.filter fun entry => point.index < entry.logId.index
        | none => session.acknowledged }
  | .saveVote vote completed =>
    { session with
      cache := session.saveMeta (.vote vote) completed
      votes := if completed then [some vote] else session.votes ++ [some vote] }
  | .saveCommitted committed completed =>
    { session with cache := session.saveMeta (.committed committed) completed }
  | .crash kept => { session with cache := session.cache.crash kept }

/-- Every range reads the acknowledged entries it covers, the vote is not older than the last saved
one, and the committed id is within the log. -/
structure Recovered : Prop where
  entries : ∀ entry ∈ session.acknowledged, ∀ start stop : Bound,
    start.Below entry.logId.index → stop.Above entry.logId.index →
      ∃ read, session.trees.tryGetLogEntries start stop = some read ∧ entry ∈ read
  vote : session.trees.readVote ∈ session.votes
  committed : session.trees.CommittedWithin

end Session

def Write.inserted : Write D → List (Entry D)
  | .logBatch changes => changes.filterMap fun
      | .insert entry => some entry
      | .remove _ => none
  | _ => []

namespace Session

variable (session : Session D)

/-- An append replaces no acknowledged entry and stays above the purge point, a truncate leaves the
committed id, a full purge does not go back, a committed id is within the log, and acknowledged
entries are flushed before a crash. -/
def Careful : Event D → Prop
  | .append entries _ =>
    (entries.map (·.logId.index)).Nodup ∧ ∀ entry ∈ entries,
        (∀ old ∈ session.acknowledged, old.logId.index ≠ entry.logId.index) ∧
          ∀ point ∈ session.trees.lastPurged, point.index < entry.logId.index
  | .truncate logId =>
    ∀ committed ∈ session.trees.readCommitted,
      (∃ stored ∈ session.trees.log.keys, committed.index ≤ stored ∧ stored < logId.index) ∨
        (∀ stored ∈ session.trees.log.keys, logId.index ≤ stored) ∧
          ∃ point ∈ session.trees.lastPurged, committed.index ≤ point.index
  | .purge admission durable logId =>
    PurgedInFull admission durable logId →
      ∀ point ∈ session.trees.lastPurged, point.index ≤ logId.index
  | .saveVote _ _ => True
  | .saveCommitted committed _ => ∀ logId ∈ committed, session.trees.Reaches logId.index
  | .crash _ =>
    ∀ write ∈ session.cache.pending, ∀ entry ∈ write.inserted, entry ∉ session.acknowledged

instance [DecidableEq D] (event : Event D) : Decidable (session.Careful event) :=
  match event with
  | .append _ _ => inferInstanceAs (Decidable (_ ∧ _))
  | .truncate _ => inferInstanceAs (Decidable (∀ committed ∈ session.trees.readCommitted, _))
  | .purge _ _ _ => inferInstanceAs (Decidable (_ → _))
  | .saveVote _ _ => isTrue trivial
  | .saveCommitted committed _ => inferInstanceAs (Decidable (∀ logId ∈ committed, _))
  | .crash _ => inferInstanceAs (Decidable (∀ write ∈ session.cache.pending, _))

end Session

namespace Trees

variable {trees : Trees D} {index : ℕ} {logId point : LogId}

theorem mem_keys_apply_removals {keep : ℕ → Bool} {stored : ℕ} :
    stored ∈ (trees.apply (trees.removals keep)).log.keys ↔
      keep stored ∧ stored ∈ trees.log.keys := by
  simp only [LogTree.mem_keys_iff, get?_apply_removals]
  cases keep stored <;> simp

theorem Reaches.append {entries : List (Entry D)} (reaches : trees.Reaches index)
    (above : ∀ entry ∈ entries, ∀ point ∈ trees.lastPurged, point.index < entry.logId.index) :
    (trees.apply (.logBatch (entries.map Change.insert))).Reaches index := by
  have keys : ∀ stored, stored ∈ (trees.apply (.logBatch (entries.map Change.insert))).log.keys ↔
      stored ∈ entries.map (·.logId.index) ∨ stored ∈ trees.log.keys := by
    intro stored
    simp only [LogTree.mem_keys_iff]
    exact trees.log.isSome_get?_applyBatch_insert entries stored
  rcases trees.reaches_iff.mp reaches with ⟨stored, isStored, below⟩ | ⟨-, point, isPoint, below⟩
  · apply (reaches_iff _).mpr
    exact Or.inl ⟨stored, (keys stored).mpr (Or.inr isStored), below⟩
  · cases entries with
    | nil => exact reaches
    | cons first rest =>
      have higher := above first (by simp) point isPoint
      apply (reaches_iff _).mpr
      exact Or.inl ⟨first.logId.index, (keys _).mpr (by simp), by omega⟩

theorem Reaches.removals {keep : ℕ → Bool}
    (left : (∃ stored ∈ trees.log.keys, index ≤ stored ∧ keep stored) ∨
      (∀ stored ∈ trees.log.keys, ¬keep stored) ∧ ∃ point ∈ trees.lastPurged, index ≤ point.index) :
    (trees.apply (trees.removals keep)).Reaches index := by
  apply (reaches_iff _).mpr
  rcases left with ⟨stored, isStored, below, kept⟩ | ⟨dropped, purged⟩
  · exact Or.inl ⟨stored, mem_keys_apply_removals.mpr ⟨kept, isStored⟩, below⟩
  · right
    refine ⟨eq_nil_iff_forall_not_mem.mpr ?_, purged⟩
    intro stored isStored
    rcases mem_keys_apply_removals.mp isStored with ⟨kept, old⟩
    exact dropped stored old kept

theorem Reaches.lastPurged (reaches : trees.Reaches index)
    (forward : trees.log.keys = [] → ∀ last ∈ trees.lastPurged, last.index ≤ point.index) :
    (trees.apply (.lastPurged point)).Reaches index := by
  apply (reaches_iff _).mpr
  rcases trees.reaches_iff.mp reaches with inLog | ⟨empty, last, isLast, below⟩
  · exact Or.inl inLog
  · exact Or.inr ⟨empty, point, rfl, below.trans (forward empty last isLast)⟩

theorem Reaches.purge (reaches : trees.Reaches index) (atPoint : point ∈ trees.lastPurged) :
    (trees.apply (trees.removals fun index => point.index < index)).Reaches index := by
  apply Reaches.removals
  by_cases kept : ∃ stored ∈ trees.log.keys, index ≤ stored ∧ point.index < stored
  · exact Or.inl (by simpa using kept)
  · simp only [not_exists, not_and, not_lt] at kept
    have through : index ≤ point.index := by
      rcases trees.reaches_iff.mp reaches with ⟨stored, isStored, below⟩ | ⟨-, last, isLast, below⟩
      · exact below.trans (kept stored isStored below)
      · rwa [Option.mem_unique atPoint isLast]
    refine Or.inr ⟨fun stored isStored above => ?_, point, atPoint, through⟩
    have := kept stored isStored
    simp at above
    omega

end Trees

variable {entry : Entry D} {log : LogTree D} {index : ℕ} {entries : List (Entry D)}

theorem LogTree.get?_of_applyBatch {changes : List (Change D)}
    (found : (log.applyBatch changes).get? index = some entry)
    (absent : Change.insert entry ∉ changes) : log.get? index = some entry := by
  induction changes generalizing log with
  | nil => exact found
  | cons first rest ih =>
    have afterFirst := @ih (log.change first) found
      fun later => absent (mem_cons_of_mem first later)
    cases first with
    | insert other =>
      have different : other ≠ entry := by
        rintro rfl
        simp at absent
      simp only [change, get?_insert] at afterFirst
      split_ifs at afterFirst with same
      · exact absurd (Option.some.inj afterFirst) different
      · exact afterFirst
    | remove removed =>
      simp only [change, get?_remove] at afterFirst
      split_ifs at afterFirst
      exact afterFirst

theorem Trees.get?_of_apply {trees : Trees D} {write : Write D}
    (found : (trees.apply write).log.get? index = some entry) (absent : entry ∉ write.inserted) :
    trees.log.get? index = some entry := by
  cases write with
  | logBatch changes =>
    apply LogTree.get?_of_applyBatch found
    intro inserted
    exact absent (mem_filterMap.mpr ⟨_, inserted, rfl⟩)
  | vote vote => exact found
  | committed committed => exact found
  | lastPurged logId => exact found

theorem LogTree.get?_applyBatch_insert_of_mem (distinct : (entries.map (·.logId.index)).Nodup)
    (listed : entry ∈ entries) :
    (log.applyBatch (entries.map Change.insert)).get? entry.logId.index = some entry := by
  rw [get?_applyBatch_insert]
  cases found : entries.reverse.find? fun other => other.logId.index = entry.logId.index with
  | none =>
    have absent := find?_eq_none.mp found entry (mem_reverse.mpr listed)
    simp at absent
  | some other =>
    have isListed := mem_reverse.mp (mem_of_find?_eq_some found)
    have same := find?_some found
    rw [inj_on_of_nodup_map distinct isListed listed (by simpa using same)]
    rfl

theorem LogTree.get?_applyBatch_insert_of_forall_ne
    (absent : ∀ entry ∈ entries, index ≠ entry.logId.index) :
    (log.applyBatch (entries.map Change.insert)).get? index = log.get? index := by
  have unseen : (entries.reverse.find? fun entry => entry.logId.index = index) = none := by
    apply find?_eq_none.mpr
    intro entry isAdded
    simpa [eq_comm] using absent entry (mem_reverse.mp isAdded)
  rw [get?_applyBatch_insert, unseen]
  rfl

namespace Session

/-- Acknowledged entries are readable; whatever a crash leaves has a saved vote and a committed
id within its log. -/
structure Sound (session : Session D) : Prop where
  acknowledged : ∀ entry ∈ session.acknowledged,
    session.trees.log.get? entry.logId.index = some entry
  votes : session.cache.Withstands Trees.apply fun trees => trees.readVote ∈ session.votes
  committed : session.cache.Withstands Trees.apply Trees.CommittedWithin

variable {session : Session D}

theorem sound_start : (start : Session D).Sound where
  acknowledged := by simp [start]
  votes := by
    intro kept
    simp [start, WriteCache.crash, current, Trees.empty, readVote]
  committed := by
    intro kept
    simp [start, WriteCache.crash, current, Trees.empty, readCommitted, Trees.CommittedWithin]

theorem current_saveMeta (write : Write D) (completed : Bool) :
    (session.saveMeta write completed).current Trees.apply = session.trees.apply write := by
  cases completed <;> simp [saveMeta, trees]

theorem withstands_saveMeta {holds : Trees D → Prop} {write : Write D}
    {completed : Bool} (before : session.cache.Withstands Trees.apply holds)
    (after : holds (session.trees.apply write)) :
    (session.saveMeta write completed).Withstands Trees.apply holds := by
  cases completed with
  | true =>
    apply WriteCache.Withstands.flush
    rw [current_issue]
    exact after
  | false => exact before.issue after

namespace Sound

section

variable (sound : session.Sound)

include sound

theorem recovered : session.Recovered where
  entries := by
    intro entry isAcknowledged start stop below above
    have present := SortedMap.mem_entries_iff.mpr (sound.acknowledged entry isAcknowledged)
    have inOrder : Bound.reversed start stop = false := by
      cases start <;> cases stop <;>
        simp [Bound.reversed, Bound.index?, Bound.Below, Bound.Above] at below above ⊢ <;> omega
    refine ⟨_, by rw [tryGetLogEntries, inOrder]; rfl, ?_⟩
    apply mem_map.mpr
    exact ⟨_, mem_filter.mpr ⟨present, by simp [below, above]⟩, rfl⟩
  vote := sound.votes.current
  committed := sound.committed.current

theorem append {entries : List (Entry D)} {acknowledged : Bool}
    (careful : session.Careful (.append entries acknowledged)) :
    (session.step (.append entries acknowledged)).Sound where
  acknowledged := by
    have inserted : (session.step (.append entries acknowledged)).trees =
        session.trees.apply (.logBatch (entries.map Change.insert)) := by
      simp [step, trees, appendWrites]
    rw [inserted]
    intro entry isAcknowledged
    have either : entry ∈ session.acknowledged ∨ entry ∈ entries := by
      cases acknowledged
      · exact Or.inl isAcknowledged
      · exact mem_append.mp isAcknowledged
    rcases either with old | new
    · rw [← sound.acknowledged entry old]
      apply LogTree.get?_applyBatch_insert_of_forall_ne
      intro added isAdded
      exact (careful.2 added isAdded).1 entry old
    · exact LogTree.get?_applyBatch_insert_of_mem careful.1 new
  votes := sound.votes.issue sound.votes.current
  committed := by
    apply sound.committed.issue
    intro logId isCommitted
    apply (sound.committed.current logId isCommitted).append
    intro entry isAdded
    exact (careful.2 entry isAdded).2

theorem truncate {logId : LogId}
    (careful : session.Careful (.truncate logId)) : (session.step (.truncate logId)).Sound where
  acknowledged := by
    intro entry isAcknowledged
    rcases mem_filter.mp isAcknowledged with ⟨old, kept⟩
    have removed := session.trees.get?_apply_removals (fun index => index < logId.index)
      entry.logId.index
    rw [if_pos kept, sound.acknowledged entry old] at removed
    simpa [step, trees, truncateWrites] using removed
  votes := sound.votes.issue sound.votes.current
  committed := by
    apply sound.committed.issue
    intro committed isCommitted
    apply Trees.Reaches.removals
    simpa [trees] using careful committed isCommitted

theorem purge {admission : RecoveryAdmission} {durable : ℕ}
    {logId : LogId} (careful : session.Careful (.purge admission durable logId)) :
    (session.step (.purge admission durable logId)).Sound := by
  cases purged : session.trees.purgedThrough admission durable logId with
  | none =>
    have unchanged : session.step (.purge admission durable logId) = session := by
      simp [step, purged, purgeWrites, issueAll]
    rwa [unchanged]
  | some point =>
    have forward : session.trees.log.keys = [] →
        ∀ last ∈ session.trees.lastPurged, last.index ≤ point.index := by
      intro empty
      rcases purgedThrough_eq_some purged with ⟨inFull, rfl⟩ | ⟨-, -, -, isStored⟩
      · exact careful inFull
      · simp [← LogTree.mem_keys_iff, empty] at isStored
    have issued : (session.step (.purge admission durable logId)).cache =
        (session.cache.issue (.lastPurged point)).issue
          (session.trees.removals fun index => point.index < index) := by
      simp [step, purgeWrites, purged, issueAll]
    constructor
    · intro entry isAcknowledged
      simp only [step, purged, mem_filter] at isAcknowledged
      rcases isAcknowledged with ⟨old, kept⟩
      have removed := get?_purge purged entry.logId.index
      rw [if_pos (by simpa using kept), sound.acknowledged entry old] at removed
      simpa [step, trees, applyAll] using removed
    · rw [issued]
      have first : (session.trees.apply (.lastPurged point)).readVote ∈ session.votes :=
        sound.votes.current
      apply (sound.votes.issue first).issue
      rw [current_issue]
      exact first
    · rw [issued]
      have first : (session.trees.apply (.lastPurged point)).CommittedWithin := by
        intro committed isCommitted
        exact (sound.committed.current committed isCommitted).lastPurged forward
      apply (sound.committed.issue first).issue
      rw [current_issue]
      intro committed isCommitted
      exact (first committed isCommitted).purge rfl

theorem saveVote (vote : Vote) (completed : Bool) :
    (session.step (.saveVote vote completed)).Sound where
  acknowledged := by
    intro entry isAcknowledged
    rw [step, trees, current_saveMeta]
    exact sound.acknowledged entry isAcknowledged
  votes := by
    cases completed with
    | true =>
      apply WriteCache.Withstands.flush
      simp [step, Trees.apply, readVote]
    | false =>
      apply WriteCache.Withstands.issue
      · exact fun kept => mem_append_left _ (sound.votes kept)
      · simp [step, Trees.apply, readVote]
  committed := withstands_saveMeta sound.committed sound.committed.current

theorem saveCommitted {committed : Option LogId} {completed : Bool}
    (careful : session.Careful (.saveCommitted committed completed)) :
    (session.step (.saveCommitted committed completed)).Sound where
  acknowledged := by
    intro entry isAcknowledged
    rw [step, trees, current_saveMeta]
    exact sound.acknowledged entry isAcknowledged
  votes := withstands_saveMeta sound.votes sound.votes.current
  committed := withstands_saveMeta sound.committed careful

theorem crash {kept : ℕ} (careful : session.Careful (.crash kept)) :
    (session.step (.crash kept)).Sound where
  acknowledged := by
    intro entry isAcknowledged
    have withstands : session.cache.Withstands Trees.apply fun trees =>
        trees.log.get? entry.logId.index = some entry := by
      apply withstands_of_current
      · intro write issued state found
        apply Trees.get?_of_apply found
        intro inserted
        exact careful write issued entry inserted isAcknowledged
      · exact sound.acknowledged entry isAcknowledged
    exact withstands kept
  votes := sound.votes.crash kept
  committed := sound.committed.crash kept

theorem step {event : Event D} (careful : session.Careful event) : (session.step event).Sound := by
  cases event with
  | append entries acknowledged => exact sound.append careful
  | truncate logId => exact sound.truncate careful
  | purge admission durable logId => exact sound.purge careful
  | saveVote vote completed => exact sound.saveVote vote completed
  | saveCommitted committed completed => exact sound.saveCommitted careful
  | crash kept => exact sound.crash careful

end

end Sound

/-- In a run of careful events the store is recovered after every event, reopens included. -/
theorem recovered_throughout (events : List (Event D))
    (run : Runs.Throughout step Careful start events) :
    Runs.Throughout step (fun session event => (session.step event).Recovered) start events :=
  Runs.Throughout.of_invariant (fun _ _ sound careful => sound.step careful)
    (fun _ _ sound careful => (sound.step careful).recovered) sound_start run

def flushedAppends : List (Event Unit) :=
  [.append [⟨⟨1, 1, 0⟩, ()⟩, ⟨⟨1, 1, 1⟩, ()⟩] true, .saveCommitted (some ⟨1, 1, 1⟩) true,
    .append [⟨⟨1, 1, 2⟩, ()⟩] false, .crash 0, .purge ⟨true, true⟩ 1 ⟨1, 1, 0⟩,
    .saveVote ⟨2, 1, false⟩ true, .crash 0]

theorem recovered_flushedAppends : (flushedAppends.foldl step start).trees.log.keys = [1] ∧
      Runs.Throughout step (fun session event => (session.step event).Recovered) start
        flushedAppends :=
  ⟨by decide, recovered_throughout flushedAppends (by decide)⟩

def unflushedAppend : List (Event Unit) := [.append [⟨⟨1, 1, 0⟩, ()⟩] true, .crash 0]

theorem not_recovered_unflushedAppend :
    (unflushedAppend.foldl step start).acknowledged = [⟨⟨1, 1, 0⟩, ()⟩] ∧
      ¬ (unflushedAppend.foldl step start).Recovered := by
  refine ⟨by decide, ?_⟩
  intro recovered
  have nothing : (unflushedAppend.foldl step start).trees.tryGetLogEntries .unbounded .unbounded =
      some [] := by
    decide
  rcases recovered.entries ⟨⟨1, 1, 0⟩, ()⟩ (by decide) .unbounded .unbounded trivial trivial with
    ⟨read, isRead, found⟩
  rw [nothing] at isRead
  simp [← Option.some.inj isRead] at found

end Session

end Ferrosa.Raft
