import Ferrosa.Accord.FailedWrites
import Ferrosa.Lib.Runs

/-!
# The history of a transaction's record

What a call does to the records of a replica and to its conflict index, said once for all the
handlers, and what follows for one record: from its creation until it is pruned, its phase and
its ballots do not go back, an outbid Accept leaves the proposal alone, and nothing changes what
is committed.
-/

namespace Ferrosa.Accord

open AccordStateMachine Option FiniteMap Function

open Function (update)
open Journal (sampleTxn sampleTimestamp)

structure TxnState.Follows (before after : TxnState) : Prop where
  phase : before.phase.rank ≤ after.phase.rank
  seen : before.maxBallotSeen ≤ after.maxBallotSeen
  accepted : before.acceptedBallot ≤ after.acceptedBallot
  locked : before.IsLocked → after.t = before.t ∧ after.deps = before.deps

theorem TxnPhase.rank_le_raiseTo (phase target : TxnPhase) :
    phase.rank ≤ (phase.raiseTo target).rank := by
  cases phase <;> cases target <;> decide

theorem TxnState.isLocked_iff {state : TxnState} : state.IsLocked ↔ 2 ≤ state.phase.rank := by
  unfold IsLocked
  cases state.phase <;> decide

namespace TxnState.Follows

variable {before middle after : TxnState}

theorem refl (state : TxnState) : state.Follows state :=
  ⟨le_rfl, le_rfl, le_rfl, fun _ => ⟨rfl, rfl⟩⟩

theorem trans (first : before.Follows middle) (second : middle.Follows after) :
    before.Follows after where
  phase := first.phase.trans second.phase
  seen := first.seen.trans second.seen
  accepted := first.accepted.trans second.accepted
  locked isLocked := by
    have stays : middle.IsLocked := isLocked_iff.mpr ((isLocked_iff.mp isLocked).trans first.phase)
    rw [(second.locked stays).1, (second.locked stays).2]
    exact first.locked isLocked

variable {state : TxnState} {t : Timestamp} {deps : List TxnId} {ballot : BallotNumber}

theorem preAccept (fresh : state.phase = .preAccepted) : state.Follows (state.preAccept t deps) := by
  refine ⟨state.phase.rank_le_raiseTo .preAccepted, le_rfl, le_rfl, fun locked => ?_⟩
  simp [IsLocked, fresh] at locked

theorem accept (unlocked : ¬ state.IsLocked) (current : ¬ ballot < state.maxBallotSeen) :
    state.Follows (state.accept ballot t deps) where
  phase := state.phase.rank_le_raiseTo _
  seen := le_max_left _ _
  accepted := state.accepted_le_seen.trans (not_lt.mp current)
  locked isLocked := absurd isLocked unlocked

theorem commit (unlocked : ¬ state.IsLocked) : state.Follows (state.commit t deps) :=
  ⟨state.phase.rank_le_raiseTo _, le_rfl, le_rfl, fun isLocked => absurd isLocked unlocked⟩

theorem apply (state : TxnState) (result : Bytes) : state.Follows (state.apply result) :=
  ⟨state.phase.rank_le_raiseTo _, le_rfl, le_rfl, fun _ => ⟨rfl, rfl⟩⟩

end TxnState.Follows

def AccordStateMachine.record (machine : AccordStateMachine) (txnId : TxnId) : Option TxnState :=
  machine.txnStates.lookup txnId

namespace Replica

def Creates (call : Call) (txnId : TxnId) (t0 : Timestamp) : Prop :=
  (∃ t deps ballot, call = .accept txnId t0 t deps ballot) ∨
    (∃ t deps, call = .commit txnId t0 t deps) ∨
    (∃ t deps keys, call = .commitLocally txnId t0 t deps keys) ∨
    ∃ ballot, call = .recover txnId t0 ballot

/-- The records and the conflict index a call leaves, before it marks transactions as applied. -/
inductive Change (machine : AccordStateMachine) :
    Call → (TxnId → Option TxnState) → ConflictIndex → Prop where
  | same {call} : Change machine call machine.record machine.conflictIndex
  | created {call txnId t0} (creates : Creates call txnId t0) :
      Change machine call (update machine.record txnId (machine.withState txnId t0).1)
        machine.conflictIndex
  | preAccepted {txnId t0 keys ballot snapshotTs}
      (fresh : ∀ state ∈ machine.record txnId, state.phase = .preAccepted ∧ state.t0 ≠ t0) :
      Change machine (.preAccept txnId t0 keys ballot snapshotTs)
        (update machine.record txnId ((machine.withState txnId t0).1.preAccept
          (machine.proposedTimestamp t0 keys) (machine.proposedDeps t0 keys)))
        (AccordStateMachine.registerKeys machine.conflictIndex keys
          ⟨txnId, t0, machine.proposedTimestamp t0 keys, .preAccepted⟩)
  | preAcceptFailed {txnId t0 keys ballot snapshotTs}
      (fresh : ∀ state ∈ machine.record txnId, state.phase = .preAccepted ∧ state.t0 ≠ t0) :
      Change machine (.preAccept txnId t0 keys ballot snapshotTs)
        (update machine.record txnId ((machine.record txnId).map fun state =>
          state.preAccept (machine.proposedTimestamp t0 keys) (machine.proposedDeps t0 keys)))
        (machine.conflictIndex.remove txnId)
  | accepted {txnId t0 t deps ballot} (merged : List TxnId)
      (unlocked : ¬ (machine.withState txnId t0).1.IsLocked)
      (current : ¬ ballot < (machine.withState txnId t0).1.maxBallotSeen) :
      Change machine (.accept txnId t0 t deps ballot)
        (update machine.record txnId ((machine.withState txnId t0).1.accept ballot t merged))
        (machine.conflictIndex.setCommitTs txnId t)
  | committed {call txnId t0 t deps} (isCommit : call = .commit txnId t0 t deps ∨
        ∃ keys, call = .commitLocally txnId t0 t deps keys)
      (unlocked : ¬ (machine.withState txnId t0).1.IsLocked) :
      Change machine call
        (update machine.record txnId ((machine.withState txnId t0).1.commit t deps.dedup))
        (machine.conflictIndex.setCommitTs txnId t)
  | finalized {call txnId} (isApply : ∃ writes, call = .apply txnId writes ∨
        call = .beginApply txnId writes) (unknown : machine.record txnId = none) :
      Change machine call machine.record (machine.conflictIndex.remove txnId)
  | recovered {txnId t0 ballot} : Change machine (.recover txnId t0 ballot)
      (update machine.record txnId ((machine.withState txnId t0).1.joinBallot ballot))
      machine.conflictIndex
  | pruned {now} : Change machine (.prune now)
      (fun id => (machine.record id).filter fun state => state.phase ≠ .applied)
      machine.conflictIndex.gcApplied

theorem Change.congr {machine : AccordStateMachine} {call : Call}
    {records records' : TxnId → Option TxnState} {index : ConflictIndex}
    (change : Change machine call records index) (same : ∀ id, records' id = records id) :
    Change machine call records' index :=
  funext same ▸ change

end Replica

namespace AccordStateMachine

variable {machine : AccordStateMachine} {env : Environment} {txnId : TxnId} {t0 t : Timestamp}
  {deps : List TxnId} {keys : List Bytes} {ballot : BallotNumber} {snapshotTs : Option Timestamp}
  {now : Option Timestamp}

theorem record_withState (id : TxnId) : (machine.withState txnId t0).2.record id =
    update machine.record txnId (machine.withState txnId t0).1 id := by
  simp only [record, withState, lookup_orInsert, update_apply]

theorem lookup_modify_withState (change : TxnState → TxnState) (id : TxnId) :
    (FiniteMap.modify (machine.withState txnId t0).2.txnStates txnId change).lookup id =
      update machine.record txnId (change (machine.withState txnId t0).1) id := by
  simp only [record, withState, lookup_modify, lookup_orInsert, if_true, map_some, update_apply]
  split_ifs <;> rfl

theorem change_handlePreaccept : Replica.Change machine (.preAccept txnId t0 keys ballot snapshotTs)
      (machine.handlePreaccept env txnId t0 keys ballot snapshotTs).2.record
      (machine.handlePreaccept env txnId t0 keys ballot snapshotTs).2.conflictIndex := by
  rcases machine.handlePreaccept_cases env txnId t0 keys ballot snapshotTs with
    ⟨_, same, _⟩ | ⟨current, _, fresh, isFresh⟩
  · rw [same]
    exact .same
  rw [isFresh]
  cases durable : env.fsync with
  | true =>
    simp only [preAcceptFresh, current, durable, Bool.false_eq_true, if_false, if_true]
    exact (Replica.Change.preAccepted fresh).congr (lookup_modify_withState _)
  | false =>
    rw [(preAcceptFresh_of_failed durable current).1]
    refine (Replica.Change.preAcceptFailed fresh).congr fun id => ?_
    rw [update_apply]
    exact (preAcceptFresh_of_failed durable current).2 id

theorem change_handleAccept : Replica.Change machine (.accept txnId t0 t deps ballot)
    (machine.handleAccept env txnId t0 t deps ballot).2.record
    (machine.handleAccept env txnId t0 t deps ballot).2.conflictIndex := by
  have created : Replica.Change machine (.accept txnId t0 t deps ballot)
      (machine.withState txnId t0).2.record machine.conflictIndex :=
    (Replica.Change.created (Or.inl ⟨t, deps, ballot, rfl⟩)).congr record_withState
  simp only [handleAccept]
  split_ifs with locked outbid durable
  · exact created
  · exact created
  · exact (Replica.Change.accepted _ locked outbid).congr (lookup_modify_withState _)
  · exact created

theorem change_handleRecover : Replica.Change machine (.recover txnId t0 ballot)
    (machine.handleRecover txnId t0 ballot).2.record
    (machine.handleRecover txnId t0 ballot).2.conflictIndex := by
  simp only [handleRecover]
  split_ifs
  · exact (Replica.Change.created (.inr (.inr (.inr ⟨ballot, rfl⟩)))).congr record_withState
  · exact Replica.Change.recovered.congr (lookup_modify_withState _)

theorem record_pruneAppliedIdempotency (machine : AccordStateMachine) :
    machine.pruneAppliedIdempotency.record = machine.record ∧
      machine.pruneAppliedIdempotency.conflictIndex = machine.conflictIndex := by
  unfold pruneAppliedIdempotency
  split <;> exact ⟨rfl, rfl⟩

theorem change_pruneApplied : Replica.Change machine (.prune now)
    (machine.pruneApplied env now).record (machine.pruneApplied env now).conflictIndex := by
  change Replica.Change machine (.prune now) (pruneAppliedIdempotency _).record
    (pruneAppliedIdempotency _).conflictIndex
  rw [(record_pruneAppliedIdempotency _).1, (record_pruneAppliedIdempotency _).2]
  refine Replica.Change.pruned.congr fun id => ?_
  simp only [record, lookup_eraseAll, appliedIds, env.order.mem_visit, List.mem_filter]
  cases found : machine.txnStates.lookup id with
  | none => simp
  | some state =>
    have listed : id ∈ machine.txnStates.keys :=
      AList.mem_keys.mp (AList.lookup_isSome.mp (by simp [found]))
    by_cases applied : state.phase = .applied <;> simp [listed, applied, Option.filter]

theorem record_mark (machine : AccordStateMachine) (txnId : TxnId) (result : Bytes) :
    (machine.mark txnId result).record =
      update machine.record txnId ((machine.record txnId).map fun state => state.apply result) := by
  funext id
  simp only [record, mark, lookup_modify, update_apply]

end AccordStateMachine

namespace Replica

/-- The replica after a call; a call without the work it continues does nothing. -/
def after (replica : Replica) (call : Environment × Call) : Replica :=
  ((replica.run call.1 call.2).map Prod.snd).getD replica

section Induction

variable {replica : Replica} {env : Environment} {call : Call}
  {P : (TxnId → Option TxnState) → ConflictIndex → Prop}
  (changes : ∀ {records index}, Change replica.machine call records index → P records index)
  (marks : ∀ {records index} txnId result, P records index →
    P (update records txnId ((records txnId).map fun state => state.apply result))
      (index.markApplied txnId))

include marks

theorem holds_bookkeepAppliedDedup {machine : AccordStateMachine}
    (start : P machine.record machine.conflictIndex) (bookkept : List TxnId)
    (applied : List (TxnId × Bytes)) :
    P (bookkeepAppliedDedup env bookkept applied machine).record
      (bookkeepAppliedDedup env bookkept applied machine).conflictIndex := by
  refine bookkeepAppliedDedup_induction
    (P := fun marked => P marked.record marked.conflictIndex) ?_ start bookkept applied
  intro marked txnId result holds
  rw [AccordStateMachine.record_mark]
  exact marks txnId result holds

theorem holds_settle {machine : AccordStateMachine} {ran : List (TxnId × Bytes) × DepWaitApplier}
    (start : P machine.record machine.conflictIndex) :
    P (machine.settle env ran).record (machine.settle env ran).conflictIndex :=
  @holds_bookkeepAppliedDedup env P marks { machine with applyEngine := ran.2 } start [] ran.1

include changes

theorem holds_handleCommit {txnId : TxnId} {t0 t : Timestamp} {deps : List TxnId}
    (isCommit : call = .commit txnId t0 t deps ∨
      ∃ keys, call = .commitLocally txnId t0 t deps keys) :
    P (replica.machine.handleCommit env txnId t0 t deps).2.record
      (replica.machine.handleCommit env txnId t0 t deps).2.conflictIndex := by
  have created : P (replica.machine.withState txnId t0).2.record replica.machine.conflictIndex := by
    refine changes (Change.congr (.created ?_) AccordStateMachine.record_withState)
    rcases isCommit with rfl | ⟨keys, rfl⟩
    · exact .inr (.inl ⟨t, deps, rfl⟩)
    · exact .inr (.inr (.inl ⟨t, deps, keys, rfl⟩))
  simp only [handleCommit]
  split_ifs with locked durable
  · exact created
  · refine holds_settle marks (changes ?_)
    exact (Change.committed isCommit locked).congr (AccordStateMachine.lookup_modify_withState _)
  · exact created

theorem holds_handleApplyWriteset {txnId : TxnId} {writes : List Bytes}
    (isApply : call = .apply txnId writes ∨ call = .beginApply txnId writes) :
    P (replica.machine.handleApplyWriteset env txnId writes).2.record
      (replica.machine.handleApplyWriteset env txnId writes).2.conflictIndex := by
  unfold handleApplyWriteset
  split
  · exact changes .same
  · rename_i plan
    refine holds_settle marks (changes (.finalized ⟨writes, isApply⟩ ?_))
    unfold planApply at plan
    split at plan
    · split_ifs at plan
    · assumption
  · unfold noWriteFinalize bookkeepApplied
    split_ifs
    · refine holds_settle marks ?_
      have marked := marks txnId [] (changes .same)
      rwa [← AccordStateMachine.record_mark] at marked
    · exact changes .same
  · split_ifs
    · exact changes .same
    · dsimp only
      split
      · exact changes .same
      · exact holds_settle marks (changes .same)

theorem holds_finishApply {txnId : TxnId} {outcome : ApplyDurableOutcome} :
    P (replica.machine.finishApply env txnId outcome).record
      (replica.machine.finishApply env txnId outcome).conflictIndex := by
  have start : P replica.machine.record replica.machine.conflictIndex := changes .same
  simp only [finishApply]
  generalize isFree : List.filter _ (List.filter _ replica.machine.applying) = free
  have bookkept := @holds_bookkeepAppliedDedup env P marks
    { replica.machine with applying := free } start [] outcome.applied
  split_ifs
  · exact bookkept
  · unfold releaseParkedFromDepsOrderedAfter
    split
    · split_ifs
      · exact holds_settle marks bookkept
      · exact bookkept
    · exact bookkept
  · exact start

/-- What every change of a call, marking a transaction and registering a commit keep, a call
keeps. -/
theorem after_induction (registers : ∀ {txnId t0 t deps keys} (machine : AccordStateMachine),
      call = .commitLocally txnId t0 t deps keys → P machine.record machine.conflictIndex →
      P machine.record (machine.registerCommittedConflicts txnId t0 keys t).conflictIndex) :
    P (replica.after (env, call)).machine.record
      (replica.after (env, call)).machine.conflictIndex := by
  cases call with
  | preAccept => exact changes AccordStateMachine.change_handlePreaccept
  | accept => exact changes AccordStateMachine.change_handleAccept
  | commit => exact holds_handleCommit changes marks (Or.inl rfl)
  | commitLocally txnId t0 t deps keys =>
    exact registers _ rfl (holds_handleCommit changes marks (Or.inr ⟨keys, rfl⟩))
  | apply => exact holds_handleApplyWriteset changes marks (Or.inl rfl)
  | beginApply txnId writes =>
    simp only [after, run, AccordStateMachine.beginApply, map_some, getD_some]
    split
    · exact changes .same
    · exact holds_handleApplyWriteset changes marks (Or.inr rfl)
    · exact holds_handleApplyWriteset changes marks (Or.inr rfl)
    · split_ifs <;> exact changes .same
  | durable work =>
    simp only [after, run, executeApplyDurability]
    split_ifs
    · split <;> exact changes .same
    · exact changes .same
  | finish txnId outcome =>
    simp only [after, run]
    split_ifs
    · exact holds_finishApply changes marks
    · exact changes .same
  | recover => exact changes AccordStateMachine.change_handleRecover
  | prune => exact changes AccordStateMachine.change_pruneApplied
  | pruneIdempotency =>
    simp only [after, run, reply, map_some, getD_some,
      AccordStateMachine.record_pruneAppliedIdempotency]
    exact changes .same

end Induction

variable {replica : Replica} {txnId : TxnId}

theorem follows_update {records : TxnId → Option TxnState} {id : TxnId} {changed : Option TxnState}
    {state : TxnState} (others : ∀ next ∈ records txnId, state.Follows next)
    (own : id = txnId → ∀ next ∈ changed, state.Follows next) :
    ∀ next ∈ update records id changed txnId, state.Follows next := by
  by_cases same : txnId = id
  · subst same
    rw [update_self]
    exact own rfl
  · rw [update_of_ne same]
    exact others

theorem follows_after {call : Environment × Call} {state next : TxnState}
    (found : state ∈ replica.machine.record txnId)
    (kept : next ∈ (replica.after call).machine.record txnId) : state.Follows next := by
  rcases call with ⟨env, call⟩
  have start : ∀ next ∈ replica.machine.record txnId, state.Follows next :=
    fun next isNext => mem_unique found isNext ▸ .refl state
  have held : ∀ t0, (replica.machine.withState txnId t0).1 = state := fun t0 =>
    congrArg (Option.getD · (TxnState.new txnId t0)) found
  refine after_induction (P := fun records _ => ∀ next ∈ records txnId, state.Follows next)
    ?_ ?_ ?_ next kept
  · intro records index change
    cases change with
    | same => exact start
    | created =>
      refine follows_update start ?_
      rintro rfl next ⟨⟩
      rw [held]
      exact .refl state
    | preAccepted fresh =>
      refine follows_update start ?_
      rintro rfl next ⟨⟩
      rw [held]
      exact .preAccept (fresh state found).1
    | preAcceptFailed fresh =>
      refine follows_update start ?_
      rintro rfl next isNext
      rw [mem_def.mp found] at isNext
      cases isNext
      exact .preAccept (fresh state found).1
    | accepted merged unlocked current =>
      refine follows_update start ?_
      rintro rfl next ⟨⟩
      rw [held] at unlocked current ⊢
      exact .accept unlocked current
    | committed isCommit unlocked =>
      refine follows_update start ?_
      rintro rfl next ⟨⟩
      rw [held] at unlocked ⊢
      exact .commit unlocked
    | finalized => exact start
    | recovered =>
      refine follows_update start ?_
      rintro rfl next ⟨⟩
      rw [held]
      exact ⟨le_rfl, le_max_left _ _, le_rfl, fun _ => ⟨rfl, rfl⟩⟩
    | pruned =>
      intro next isNext
      exact start next (mem_filter_iff.mp isNext).1
  · intro records index id result follows
    refine follows_update follows ?_
    rintro rfl next isNext
    rcases mem_map.mp isNext with ⟨before, isBefore, rfl⟩
    exact (follows before isBefore).trans (.apply before result)
  · exact fun _ _ holds => holds

theorem accept_of_outbid {env : Environment} {t0 t : Timestamp} {deps : List TxnId}
    {ballot : BallotNumber} {state : TxnState} (found : state ∈ replica.machine.record txnId)
    (outbid : ballot < state.maxBallotSeen) :
    (replica.after (env, .accept txnId t0 t deps ballot)).machine.record txnId = some state := by
  have stored : replica.machine.txnStates.lookup txnId = some state := found
  have known : (replica.machine.withState txnId t0).1 = state := by
    simp [AccordStateMachine.withState, stored]
  have kept : (replica.machine.withState txnId t0).2.txnStates.lookup txnId = some state := by
    simp [AccordStateMachine.withState, lookup_orInsert, stored]
  simp only [AccordStateMachine.record, after, run, reply, AccordStateMachine.handleAccept, known,
    if_pos outbid, map_some, getD_some]
  split_ifs <;> exact kept

/-- A record that no call prunes has changed as records may, keeps its ballots in order, and is not
changed by an outbid Accept. -/
theorem follows_run (replica : Replica) (txnId : TxnId) (calls : List (Environment × Call))
    (kept : Runs.Throughout after (fun replica call => txnId ∈ (replica.after call).machine.txnStates)
      replica calls) :
    (∀ state ∈ replica.machine.record txnId, ∃ next ∈ (calls.foldl after replica).machine.record txnId,
      state.Follows next ∧ next.acceptedBallot ≤ next.maxBallotSeen) ∧
    Runs.Throughout after (fun replica call =>
      ∀ t0 t deps ballot, call.2 = .accept txnId t0 t deps ballot →
        ∀ state ∈ replica.machine.record txnId, ballot < state.maxBallotSeen →
          (replica.after call).machine.record txnId = some state) replica calls := by
  induction calls generalizing replica with
  | nil =>
    refine ⟨fun state found => ⟨state, found, .refl state, state.accepted_le_seen⟩, trivial⟩
  | cons call calls ih =>
    rcases kept with ⟨stays, later⟩
    rcases ih (replica.after call) later with ⟨follow, outbids⟩
    refine ⟨fun state found => ?_, ?_, outbids⟩
    · rcases isSome_iff_exists.mp (AList.lookup_isSome.mpr stays) with ⟨middle, isMiddle⟩
      rcases follow middle isMiddle with ⟨next, isNext, follows, bounded⟩
      exact ⟨next, isNext, (follows_after found isMiddle).trans follows, bounded⟩
    · rcases call with ⟨env, call⟩
      rintro t0 t deps ballot ⟨⟩ state found outbid
      exact accept_of_outbid found outbid

def acceptedReplica : Replica :=
  (Replica.new 1 (.new 16)).after (.healthy, .accept sampleTxn sampleTimestamp sampleTimestamp [] 1)

def sampleCalls : List (Environment × Call) :=
  [(.healthy, .recover sampleTxn sampleTimestamp 3),
    (.healthy, .accept sampleTxn sampleTimestamp sampleTimestamp [] 2),
    (.healthy, .commit sampleTxn sampleTimestamp sampleTimestamp [])]

theorem follows_run_sampleCalls :
    ∃ next ∈ (sampleCalls.foldl after acceptedReplica).machine.record sampleTxn,
      1 ≤ next.acceptedBallot ∧ next.acceptedBallot ≤ next.maxBallotSeen := by
  have follow := (follows_run acceptedReplica sampleTxn sampleCalls (by decide)).1
  rcases follow _ rfl with ⟨next, isNext, follows, bounded⟩
  exact ⟨next, isNext, follows.accepted, bounded⟩

end Replica

end Ferrosa.Accord
