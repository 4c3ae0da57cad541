import Ferrosa.Accord.ProtocolJournal

/-!
# When the protocol log fails

What a replica keeps of a call whose record did not reach the log, and what its acknowledgement
of a Commit is worth.
-/

namespace Ferrosa.Accord

open FiniteMap AList Option AccordStateMachine

open Journal (sampleTxn sampleTimestamp)

/-- Two records of a transaction that differ at most in the order of the dependencies. -/
def TxnState.Same (a b : TxnState) : Prop :=
  { a with deps := b.deps } = b ∧ ∀ dep, dep ∈ a.deps ↔ dep ∈ b.deps

/-- The index answers every question about writes in the same way. -/
structure ConflictIndex.SameAnswers (before after : ConflictIndex) : Prop where
  hasWrite : ∀ key txnId, after.hasWrite key txnId = before.hasWrite key txnId
  depsBeforeT0 : ∀ key t0 dep, dep ∈ after.depsBeforeT0 key t0 ↔ dep ∈ before.depsBeforeT0 key t0
  depsBeforeT : ∀ key t dep, dep ∈ after.depsBeforeT key t ↔ dep ∈ before.depsBeforeT key t

structure AccordStateMachine.Unchanged (before after : AccordStateMachine) : Prop where
  states : ∀ txnId, Option.Rel TxnState.Same (after.txnStates.lookup txnId)
    (before.txnStates.lookup txnId)
  answers : before.conflictIndex.SameAnswers after.conflictIndex

namespace ConflictIndex

variable {index : ConflictIndex} {txnId : TxnId}

theorem remove_eq_self (absent : ∀ key, index.hasWrite key txnId = false) :
    index.remove txnId = index := by
  simp only [remove, mapWrites]
  congr 1
  funext key
  have kept : (index.singleKey key).writes.filter (fun write => write.txnId ≠ txnId) =
      (index.singleKey key).writes := by
    simpa [hasWrite, List.filter_eq_self] using absent key
  rw [kept]

theorem remove_registerKeys {entry : InFlightWrite} (own : entry.txnId = txnId)
    (keys : List Bytes) :
    (registerKeys index keys entry).remove txnId = index.remove txnId := by
  induction keys generalizing index with
  | nil => rfl
  | cons key keys ih =>
    rw [registerKeys, List.foldl_cons]
    refine ih.trans ?_
    simp only [remove, mapWrites, register]
    congr 1
    funext other
    split_ifs <;> simp [own]

theorem sameAnswers_remove_iff :
    index.SameAnswers (index.remove txnId) ↔ ∀ key, index.hasWrite key txnId = false := by
  constructor
  · intro same key
    rw [← same.hasWrite key txnId]
    simp [hasWrite, remove, mapWrites]
  · intro absent
    rw [remove_eq_self absent]
    exact ⟨fun _ _ => rfl, fun _ _ _ => Iff.rfl, fun _ _ _ => Iff.rfl⟩

end ConflictIndex

namespace AccordStateMachine

variable {machine : AccordStateMachine} {env : Environment} {txnId : TxnId} {t0 t : Timestamp}
  {deps : List TxnId} {keys : List Bytes} {ballot : BallotNumber} {snapshotTs : Option Timestamp}

theorem same_refl : ∀ state : Option TxnState, Option.Rel TxnState.Same state state
  | none => .none
  | some _ => .some ⟨rfl, fun _ => Iff.rfl⟩

theorem unchanged_withState_iff :
    machine.Unchanged (machine.withState txnId t0).2 ↔ txnId ∈ machine.txnStates := by
  rw [← lookup_isSome]
  constructor
  · intro unchanged
    have own := unchanged.states txnId
    simp only [withState, lookup_orInsert, if_true] at own
    cases found : machine.txnStates.lookup txnId with
    | some state => rfl
    | none =>
      rw [found] at own
      cases own
  · intro known
    refine ⟨fun id => ?_, ⟨fun _ _ => rfl, fun _ _ _ => Iff.rfl, fun _ _ _ => Iff.rfl⟩⟩
    rcases isSome_iff_exists.mp known with ⟨state, found⟩
    simp only [withState, lookup_orInsert]
    split_ifs with same
    · rw [same, found]
      exact same_refl (some state)
    · exact same_refl _

theorem handleCommit_of_failed (failed : env.fsync = false) :
    (machine.handleCommit env txnId t0 t deps).2 = (machine.withState txnId t0).2 := by
  simp only [handleCommit, failed, Bool.false_eq_true, if_false]
  split_ifs <;> rfl

/-- The replica already holds what it would propose for a PreAccept. -/
structure Proposes (machine : AccordStateMachine) (t0 : Timestamp) (keys : List Bytes)
    (state : TxnState) : Prop where
  t : state.t = machine.proposedTimestamp t0 keys
  tMax : state.t ≤ state.tMax
  deps : ∀ dep, dep ∈ state.deps ↔ dep ∈ machine.proposedDeps t0 keys

theorem same_preAccept_iff {state : TxnState} :
    (state.preAccept (machine.proposedTimestamp t0 keys) (machine.proposedDeps t0 keys)).Same
      state ↔ machine.Proposes t0 keys state := by
  constructor
  · rintro ⟨same, deps⟩
    have isT := congrArg TxnState.t same
    have isMax := congrArg TxnState.tMax same
    simp only [TxnState.preAccept] at isT isMax deps
    exact ⟨isT.symm, by rwa [max_eq_left_iff, isT] at isMax, fun dep => (deps dep).symm⟩
  · intro proposes
    refine ⟨?_, fun dep => (proposes.deps dep).symm⟩
    simp [TxnState.preAccept, ← proposes.t, proposes.tMax]

/-- A PreAccept changes nothing and writes nothing, or it is the first one with its timestamp. -/
theorem handlePreaccept_cases (machine : AccordStateMachine) (env : Environment) (txnId : TxnId)
    (t0 : Timestamp) (keys : List Bytes) (ballot : BallotNumber) (snapshotTs : Option Timestamp) :
    (machine.preAcceptMarkers txnId t0 keys ballot snapshotTs = [] ∧
      (machine.handlePreaccept env txnId t0 keys ballot snapshotTs).2 = machine ∧
      ∀ id t deps,
        (machine.handlePreaccept env txnId t0 keys ballot snapshotTs).1 = .preAcceptOk id t deps →
        id = txnId ∧ ∃ state ∈ machine.txnStates.lookup txnId, state.phase = .preAccepted ∧
          state.t0 = t0 ∧ t = state.t ∧ deps = state.deps) ∨
    (machine.isSnapshotStale keys snapshotTs = false ∧ machine.finalized.decided txnId = none ∧
      (∀ state ∈ machine.txnStates.lookup txnId, state.phase = .preAccepted ∧ state.t0 ≠ t0) ∧
      machine.handlePreaccept env txnId t0 keys ballot snapshotTs =
        machine.preAcceptFresh env txnId t0 keys snapshotTs) := by
  by_cases stale : machine.isSnapshotStale keys snapshotTs = true
  · left
    simp only [preAcceptMarkers, preAcceptFreshMarkers, handlePreaccept, preAcceptFresh, stale]
    rcases machine.finalized.decided txnId with _ | by_
    · rcases machine.txnStates.lookup txnId with _ | state
      · simp
      · simp only
        split_ifs <;> simp_all
    · simp
  · simp only [preAcceptMarkers, preAcceptFreshMarkers, handlePreaccept, stale]
    rcases machine.finalized.decided txnId with _ | by_
    · rcases machine.txnStates.lookup txnId with _ | state
      · simp
      · by_cases outbid : ballot < state.maxBallotSeen
        · simp [outbid]
        · by_cases repeated : state.phase = .preAccepted ∧ state.t0 = t0
          · simp [outbid, repeated]
          · by_cases late : TxnPhase.accepted.rank ≤ state.phase.rank
            · simp [outbid, repeated, late]
            · have fresh : state.phase = .preAccepted := by
                revert late
                cases state.phase <;> simp [TxnPhase.rank]
              have different : state.t0 ≠ t0 := fun same => repeated ⟨fresh, same⟩
              right
              exact ⟨by simp, rfl, by simp [fresh, different], by simp [outbid, repeated, late]⟩
    · simp

theorem preAcceptFresh_of_failed (failed : env.fsync = false)
    (current : machine.isSnapshotStale keys snapshotTs = false) :
    (machine.preAcceptFresh env txnId t0 keys snapshotTs).2.conflictIndex =
        machine.conflictIndex.remove txnId ∧
      ∀ id, (machine.preAcceptFresh env txnId t0 keys snapshotTs).2.txnStates.lookup id =
        if id = txnId then (machine.txnStates.lookup txnId).map fun state =>
          state.preAccept (machine.proposedTimestamp t0 keys) (machine.proposedDeps t0 keys)
        else machine.txnStates.lookup id := by
  simp only [preAcceptFresh, current, failed, Bool.false_eq_true, if_false]
  refine ⟨ConflictIndex.remove_registerKeys rfl keys, fun id => ?_⟩
  cases found : machine.txnStates.lookup txnId with
  | none =>
    have unknown : txnId ∉ machine.txnStates := lookup_eq_none.mp found
    simp only [unknown, if_false, lookup_erase_ite, lookup_modify, lookup_orInsert, map_none]
    split_ifs <;> rfl
  | some state =>
    have known : txnId ∈ machine.txnStates := lookup_isSome.mp (by simp [found])
    simp only [known, if_true, lookup_modify, lookup_orInsert, found,
      getD_some, map_some]
    split_ifs <;> rfl

theorem unchanged_handlePreaccept_iff (failed : env.fsync = false)
    (written : machine.preAcceptMarkers txnId t0 keys ballot snapshotTs ≠ []) :
    machine.Unchanged (machine.handlePreaccept env txnId t0 keys ballot snapshotTs).2 ↔
      (∀ key, machine.conflictIndex.hasWrite key txnId = false) ∧
        ∀ state ∈ machine.txnStates.lookup txnId, machine.Proposes t0 keys state := by
  rcases machine.handlePreaccept_cases env txnId t0 keys ballot snapshotTs with
    ⟨silent, _⟩ | ⟨current, _, _, isFresh⟩
  · exact absurd silent written
  have index := (@preAcceptFresh_of_failed machine env txnId t0 keys _ failed current).1
  have states := (@preAcceptFresh_of_failed machine env txnId t0 keys _ failed current).2
  rw [isFresh, ← ConflictIndex.sameAnswers_remove_iff, ← index]
  constructor
  · intro unchanged
    refine ⟨unchanged.answers, fun state found => ?_⟩
    have own := unchanged.states txnId
    rw [states, if_pos rfl, found] at own
    cases own with
    | some same => exact same_preAccept_iff.mp same
  · rintro ⟨answers, proposes⟩
    refine ⟨fun id => ?_, answers⟩
    rw [states]
    split_ifs with same
    · subst same
      cases found : machine.txnStates.lookup id with
      | none => exact .none
      | some state => exact .some (same_preAccept_iff.mpr (proposes state found))
    · exact same_refl _

/-- A lost record leaves nothing behind exactly if Accept and Commit know the transaction, and
PreAccept neither finds it in the conflict index nor holds it otherwise than proposed. -/
theorem unchanged_iff (machine : AccordStateMachine) (failed : env.fsync = false) :
    (∀ txnId t0 keys ballot snapshotTs,
      machine.preAcceptMarkers txnId t0 keys ballot snapshotTs ≠ [] →
      (machine.Unchanged (machine.handlePreaccept env txnId t0 keys ballot snapshotTs).2 ↔
        (∀ key, machine.conflictIndex.hasWrite key txnId = false) ∧
          ∀ state ∈ machine.txnStates.lookup txnId, machine.Proposes t0 keys state)) ∧
    (∀ txnId t0 t deps ballot,
      machine.Unchanged (machine.handleAccept env txnId t0 t deps ballot).2 ↔
        txnId ∈ machine.txnStates) ∧
    ∀ txnId t0 t deps, machine.Unchanged (machine.handleCommit env txnId t0 t deps).2 ↔
        txnId ∈ machine.txnStates := by
  refine ⟨?_, ?_, ?_⟩
  · intro txnId t0 keys ballot snapshotTs written
    exact unchanged_handlePreaccept_iff failed written
  · intro txnId t0 t deps ballot
    simp only [handleAccept, failed, Bool.false_eq_true, if_false]
    split_ifs <;> exact unchanged_withState_iff
  · intro txnId t0 t deps
    rw [handleCommit_of_failed failed]
    exact unchanged_withState_iff

def brokenLog : Environment := { Environment.healthy with fsync := false }

def emptyReplica : AccordStateMachine := new 1 (.new 16)

theorem unchanged_iff_emptyReplica : emptyReplica.Unchanged
    (emptyReplica.handlePreaccept brokenLog sampleTxn sampleTimestamp [[1]] 0 none).2 := by
  refine ((@unchanged_iff brokenLog emptyReplica rfl).1 _ _ _ _ _ ?_).mpr ⟨?_, ?_⟩
  · decide
  · exact fun _ => rfl
  · rintro state ⟨⟩

/-- An Accept for an unknown transaction leaves a record of it. -/
theorem not_unchanged_acceptUnknown :
    emptyReplica.acceptMarkers sampleTxn sampleTimestamp sampleTimestamp 1 ≠ [] ∧
      ¬ emptyReplica.Unchanged
        (emptyReplica.handleAccept brokenLog sampleTxn sampleTimestamp sampleTimestamp [] 1).2 := by
  refine ⟨by decide, fun unchanged => ?_⟩
  have own := unchanged.states sampleTxn
  have known : lookup sampleTxn
      (emptyReplica.handleAccept brokenLog sampleTxn sampleTimestamp sampleTimestamp [] 1).2.txnStates =
    some (TxnState.new sampleTxn sampleTimestamp) := rfl
  rw [known] at own
  cases own

structure CommitOkPayload where
  txnId : TxnId
  replica : NodeId

/-- A Commit is acknowledged whatever the state machine made of it. -/
def accordCommit (machine : AccordStateMachine) (env : Environment) (txnId : TxnId)
    (t0 t : Timestamp) (deps : List TxnId) : CommitOkPayload × AccordStateMachine :=
  (⟨txnId, machine.nodeId⟩, (machine.handleCommit env txnId t0 t deps).2)

structure RecordedCommit where
  txnId : TxnId
  t : Timestamp
  deps : List TxnId

/-- The commits in the log after a Commit: it writes a record unless the decision is locked. -/
def recordedAfter (machine : AccordStateMachine) (env : Environment) (recorded : List RecordedCommit)
    (txnId : TxnId) (t0 t : Timestamp) (deps : List TxnId) : List RecordedCommit :=
  if machine.commitMarkers env txnId t0 t deps ≠ [] ∧ env.fsync then recorded ++ [⟨txnId, t, deps⟩]
  else recorded

/-- The replica has recorded a commit of the transaction and holds what was committed. -/
def HoldsCommit (machine : AccordStateMachine) (recorded : List RecordedCommit) (txnId : TxnId) :
    Prop :=
  ∃ commit ∈ recorded, commit.txnId = txnId ∧ ∃ state ∈ machine.txnStates.lookup txnId,
    state.IsLocked ∧ state.t = commit.t ∧ ∀ dep, dep ∈ state.deps ↔ dep ∈ commit.deps

theorem locked_withState_iff : (machine.withState txnId t0).1.IsLocked ↔
    ∃ state ∈ machine.txnStates.lookup txnId, state.IsLocked := by
  simp only [withState]
  cases machine.txnStates.lookup txnId with
  | some state => simp
  | none => simp [TxnState.IsLocked, TxnState.new]

theorem holdsCommit_withState_iff {recorded : List RecordedCommit} :
    (machine.withState txnId t0).2.HoldsCommit recorded txnId ↔
      machine.HoldsCommit recorded txnId := by
  simp only [HoldsCommit, withState, lookup_orInsert, if_true]
  cases machine.txnStates.lookup txnId with
  | some state => rfl
  | none => simp [TxnState.IsLocked, TxnState.new]

theorem holdsCommit_handleCommit (recorded : List RecordedCommit) (durable : env.fsync = true)
    (unlocked : ¬ (machine.withState txnId t0).1.IsLocked) :
    (machine.handleCommit env txnId t0 t deps).2.HoldsCommit (recorded ++ [⟨txnId, t, deps⟩])
      txnId := by
  have phase : ((machine.withState txnId t0).1.phase.raiseTo .committed) = .committed := by
    revert unlocked
    simp only [TxnState.IsLocked]
    cases (machine.withState txnId t0).1.phase <;> decide
  have committed : lookup txnId (modify (machine.withState txnId t0).2.txnStates txnId
      fun state => state.commit t deps.dedup) =
        some ((machine.withState txnId t0).1.commit t deps.dedup) := by
    simp [withState, lookup_modify, lookup_orInsert]
  simp only [handleCommit, if_neg unlocked, durable, if_true, releaseWaitersOrderedBefore]
  apply settle_induction (P := fun marked => marked.HoldsCommit _ txnId)
  · rintro marked id result ⟨commit, written, isOf, state, found, locked, same⟩
    refine ⟨commit, written, isOf, ?_⟩
    simp only [mark, lookup_modify]
    split_ifs with own
    · rw [← own, mem_def.mp found]
      exact ⟨_, rfl, Or.inr (TxnPhase.raiseTo_applied _), same⟩
    · exact ⟨state, found, locked, same⟩
  · exact ⟨⟨txnId, t, deps⟩, by simp, rfl, _, committed, Or.inl phase, rfl, fun _ => List.mem_dedup⟩

/-- An acknowledged Commit is recorded or finalized exactly if it was before, or its decision was
open and the record reached the log. -/
theorem commitOk_durable_iff (machine : AccordStateMachine) (env : Environment)
    (recorded : List RecordedCommit) (txnId : TxnId) (t0 t : Timestamp) (deps : List TxnId) :
    ((machine.finalized.decided (machine.accordCommit env txnId t0 t deps).1.txnId).isSome ∨
      (machine.accordCommit env txnId t0 t deps).2.HoldsCommit
        (machine.recordedAfter env recorded txnId t0 t deps)
        (machine.accordCommit env txnId t0 t deps).1.txnId) ↔
    (machine.finalized.decided txnId).isSome ∨ machine.HoldsCommit recorded txnId ∨
      (env.fsync = true ∧ ∀ state ∈ machine.txnStates.lookup txnId, ¬ state.IsLocked) := by
  simp only [accordCommit, recordedAfter]
  apply or_congr_right
  by_cases locked : (machine.withState txnId t0).1.IsLocked
  · have silent : machine.commitMarkers env txnId t0 t deps = [] := if_pos locked
    have same : (machine.handleCommit env txnId t0 t deps).2 = (machine.withState txnId t0).2 := by
      simp only [handleCommit, if_pos locked]
    rw [if_neg (by simp [silent]), same, holdsCommit_withState_iff]
    have known := locked_withState_iff.mp locked
    simp only [iff_self_or, and_imp]
    rintro - unlocked
    rcases known with ⟨state, found, isLocked⟩
    exact absurd isLocked (unlocked state found)
  · have written : machine.commitMarkers env txnId t0 t deps ≠ [] := by
      simp [commitMarkers, if_neg locked]
    have isOpen : ∀ state ∈ machine.txnStates.lookup txnId, ¬ state.IsLocked := by
      intro state found isLocked
      exact locked (locked_withState_iff.mpr ⟨state, found, isLocked⟩)
    cases durable : env.fsync with
    | true =>
      rw [if_pos ⟨written, rfl⟩]
      exact iff_of_true (holdsCommit_handleCommit recorded durable locked) (Or.inr ⟨rfl, isOpen⟩)
    | false =>
      rw [if_neg (by simp), handleCommit_of_failed durable, holdsCommit_withState_iff]
      simp

/-- The first Commit that a replica sees is acknowledged although its record is lost. -/
theorem not_durable_brokenLog :
    let replied := emptyReplica.accordCommit brokenLog sampleTxn sampleTimestamp sampleTimestamp []
    replied.1 = ⟨sampleTxn, 1⟩ ∧ emptyReplica.finalized.decided sampleTxn = none ∧
      ¬ replied.2.HoldsCommit (emptyReplica.recordedAfter brokenLog [] sampleTxn sampleTimestamp
        sampleTimestamp []) sampleTxn := by
  refine ⟨rfl, rfl, ?_⟩
  rintro ⟨commit, recorded, _⟩
  exact List.not_mem_nil (show commit ∈ [] from recorded)

end AccordStateMachine

end Ferrosa.Accord
