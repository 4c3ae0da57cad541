import Ferrosa.Accord.ProtocolEntries
import Ferrosa.Accord.Replica

/-!
# What a replica writes to its protocol log

Every handler hands a line of text to the log before it answers.  `Marker` is such a line;
`Replica.markers` lists those of a call in their order, and a `Journal` is a replica with
the lines written and the answers given so far.  Replay expects the binary entries of
`ProtocolEntries` and reads none of the lines, so it restores a run only if the run wrote and
answered nothing.
-/

namespace Ferrosa.Accord

open List Option

open ProtocolLog (Record CrashRecoveryReplay)

inductive Marker where
  | preAccepted (txnId : TxnId) (t : Timestamp)
  | accepted (txnId : TxnId) (t : Timestamp) (ballot : BallotNumber)
  | committed (txnId : TxnId) (t : Timestamp)
  | applied (txnId : TxnId)
deriving DecidableEq

namespace Marker

def name : Marker → String
  | preAccepted .. => "PreAccepted:"
  | accepted .. => "Accepted:"
  | committed .. => "Committed:"
  | applied .. => "Applied:"

def fields : Marker → String
  | preAccepted txnId t => s!"{txnId.timestamp.time}:{t.time}"
  | accepted txnId t ballot => s!"{txnId.timestamp.time}:{t.time}:{ballot}"
  | committed txnId t => s!"{txnId.timestamp.time}:{t.time}"
  | applied txnId => s!"{txnId.timestamp.time}"

def record (marker : Marker) : Record := (marker.name ++ marker.fields).toByteArray.data.toList

end Marker

def appliedMarkers : List TxnId → List (TxnId × Bytes) → List Marker
  | _, [] => []
  | bookkept, (txnId, _) :: applied =>
    if txnId ∈ bookkept then appliedMarkers bookkept applied
    else .applied txnId :: appliedMarkers (txnId :: bookkept) applied

namespace AccordStateMachine

variable (machine : AccordStateMachine) (env : Environment)

variable (txnId : TxnId)

def preAcceptFreshMarkers (t0 : Timestamp) (keys : List Bytes) (snapshotTs : Option Timestamp) :
    List Marker :=
  if machine.isSnapshotStale keys snapshotTs then []
  else [.preAccepted txnId (machine.proposedTimestamp t0 keys)]

def preAcceptMarkers (t0 : Timestamp) (keys : List Bytes) (ballot : BallotNumber)
    (snapshotTs : Option Timestamp) : List Marker :=
  match machine.finalized.decided txnId with
  | some _ => []
  | none =>
    match machine.txnStates.lookup txnId with
    | some state =>
      if ballot < state.maxBallotSeen then []
      else if state.phase = .preAccepted ∧ state.t0 = t0 then []
      else if TxnPhase.accepted.rank ≤ state.phase.rank then []
      else machine.preAcceptFreshMarkers txnId t0 keys snapshotTs
    | none => machine.preAcceptFreshMarkers txnId t0 keys snapshotTs

def acceptMarkers (t0 t : Timestamp) (ballot : BallotNumber) : List Marker :=
  let state := (machine.withState txnId t0).1
  if state.IsLocked then []
  else if ballot < state.maxBallotSeen then []
  else [.accepted txnId t ballot]

def releaseWaitersMarkers (dep : TxnId) (depT : Timestamp) : List Marker :=
  let waiters := (machine.applyEngine.graph.waitersOf env.order dep).filter
    fun waiter => machine.executesBefore waiter depT
  appliedMarkers [] (waiveAll env (waiters.map fun waiter => (waiter, dep)) machine.applyEngine).1

def releaseParkedMarkers (waiter : TxnId) : List Marker :=
  match machine.txnStates.lookup waiter with
  | some state =>
    if state.phase = .committed then
      let deps := (machine.applyEngine.graph.depsOf env.order waiter).filter
        fun dep => machine.executesAfter dep state.t
      appliedMarkers [] (waiveAll env (deps.map fun dep => (waiter, dep)) machine.applyEngine).1
    else []
  | none => []

def commitMarkers (t0 t : Timestamp) (deps : List TxnId) : List Marker :=
  let (state, held) := machine.withState txnId t0
  if state.IsLocked then []
  else
    let committed :=
      { held with
        txnStates := FiniteMap.modify held.txnStates txnId fun state => state.commit t deps.dedup
        conflictIndex := held.conflictIndex.setCommitTs txnId t }
    .committed txnId t :: committed.releaseWaitersMarkers env txnId t

def applyMarkers (writes : List Bytes) : List Marker :=
  match machine.planApply txnId (isNoWrite writes) with
  | .done _ => []
  | .finalizeWithoutState => appliedMarkers [] (machine.applyEngine.notifyApplied env txnId).1
  | .noWriteFinalize =>
    .applied txnId :: appliedMarkers [] (machine.applyEngine.notifyApplied env txnId).1
  | .persist t deps =>
    if txnId ∈ machine.applying then []
    else
      let mutations := mutationsOf writes t (machine.orderedDeps deps t)
      appliedMarkers [] ((machine.applyEngine.tryApplyWriteset env txnId mutations).1.getD [])

def beginApplyMarkers (writes : List Bytes) : List Marker :=
  match machine.planApply txnId (isNoWrite writes) with
  | .done _ => []
  | .finalizeWithoutState => machine.applyMarkers env txnId writes
  | .noWriteFinalize => machine.applyMarkers env txnId writes
  | .persist .. => []

def finishMarkers (outcome : ApplyDurableOutcome) : List Marker :=
  if outcome.storageOk then
    let settled := bookkeepAppliedDedup env [] outcome.applied { machine with
        applying := (machine.applying.filter fun id => id ≠ txnId).filter
          fun id => id ∉ outcome.applied.map Prod.fst }
    appliedMarkers [] outcome.applied ++
      if txnId ∈ outcome.applied.map Prod.fst then [] else settled.releaseParkedMarkers env txnId
  else []

end AccordStateMachine

def Replica.markers (replica : Replica) (env : Environment) : Call → List Marker
  | .preAccept txnId t0 keys ballot snapshotTs =>
    replica.machine.preAcceptMarkers txnId t0 keys ballot snapshotTs
  | .accept txnId t0 t _ ballot => replica.machine.acceptMarkers txnId t0 t ballot
  | .commit txnId t0 t deps => replica.machine.commitMarkers env txnId t0 t deps
  | .commitLocally txnId t0 t deps _ => replica.machine.commitMarkers env txnId t0 t deps
  | .apply txnId writes => replica.machine.applyMarkers env txnId writes
  | .beginApply txnId writes => replica.machine.beginApplyMarkers env txnId writes
  | .finish txnId outcome => replica.machine.finishMarkers env txnId outcome
  | .durable _ | .recover .. | .prune _ | .pruneIdempotency => []

/-- A promise the replica sent out: the transaction has reached the phase at `t` with these
dependencies. -/
structure Answer where
  txnId : TxnId
  phase : TxnPhase
  t : Timestamp
  deps : List TxnId
deriving DecidableEq

/-- The promise in a reply. A Commit is always acknowledged; AcceptOk and CommitOk stand for the
timestamp the replica then holds. -/
def answerOf (call : Call) (response : SmResponse) (after : Replica) : Option Answer :=
  match call, response with
  | .preAccept .., .preAcceptOk txnId t deps => some ⟨txnId, .preAccepted, t, deps⟩
  | .accept .., .acceptOk txnId _ deps =>
    (after.machine.txnStates.lookup txnId).map fun state => ⟨txnId, .accepted, state.t, deps⟩
  | .commit txnId .., _ =>
    (after.machine.txnStates.lookup txnId).map fun state =>
      ⟨txnId, .committed, state.t, state.deps⟩
  | _, _ => none

/-- The replica, if it has not crashed, the lines in its log and the answers it gave, both
oldest first. -/
structure Journal where
  replica : Option Replica
  markers : List Marker
  answers : List Answer

namespace Journal

def new (nodeId : NodeId) (finalized : FinalizedTxns) : Journal :=
  ⟨some (.new nodeId finalized), [], []⟩

inductive Event where
  | call (env : Environment) (call : Call)
  | crash (env : Environment) (call : Call) (written : ℕ)

/-- A call is answered, or the process dies during it, with the first lines perhaps written. -/
inductive Step : Journal → Event → Journal → Prop where
  | call {replica after : Replica} {markers : List Marker} {answers : List Answer}
      {env : Environment} {call : Call} {response : SmResponse} (lossless : env.fsync = true)
      (ran : replica.run env call = some (response, after)) :
      Step ⟨some replica, markers, answers⟩ (.call env call)
        ⟨some after, markers ++ replica.markers env call,
          answers ++ (answerOf call response after).toList⟩
  | crash {replica : Replica} {markers : List Marker} {answers : List Answer}
      {env : Environment} {call : Call} (running : (replica.run env call).isSome) (written : ℕ) :
      Step ⟨some replica, markers, answers⟩ (.crash env call written)
        ⟨none, markers ++ (replica.markers env call).take written, answers⟩

def replayed (crc : Record → UInt32) (journal : Journal) : CrashRecoveryReplay :=
  .replay crc (journal.markers.map Marker.record)

def latest (journal : Journal) (txnId : TxnId) : Option Answer :=
  (journal.answers.filter fun answer => answer.txnId = txnId).getLast?

/-- Replay gives back every promise; `image` and `imageTs` translate to the types of the entries. -/
structure Restores (crc : Record → UInt32) (image : TxnId → ProtocolLog.TxnId)
    (imageTs : Timestamp → ProtocolLog.Timestamp) (journal : Journal) : Prop where
  unskipped : (journal.replayed crc).skippedCount = 0
  answered : ∀ txnId answer, journal.latest txnId = some answer → ∃ state,
    (journal.replayed crc).txnStates.lookup (image txnId) = some state ∧
      answer.phase.rank ≤ state.phase.rank ∧ state.t = imageTs answer.t ∧
      ∀ dep, dep ∈ state.deps ↔ dep ∈ answer.deps.map image
  applied : ∀ txnId, image txnId ∈ (journal.replayed crc).appliedTxnIds ↔
    Marker.applied txnId ∈ journal.markers

end Journal

/-- The replica writes and promises nothing: a PreAccept that is decided, outbid, or too old and new
to it; an outbid Accept; an Apply of an unknown transaction; no Commit. -/
def AccordStateMachine.TurnsDown (machine : AccordStateMachine) : Call → Prop
  | .preAccept txnId t0 keys ballot snapshotTs =>
    (machine.finalized.decided txnId).isSome ∨
      (∃ state ∈ machine.txnStates.lookup txnId, ballot < state.maxBallotSeen) ∨
      (machine.isSnapshotStale keys snapshotTs ∧
        ∀ state ∈ machine.txnStates.lookup txnId, ¬ (state.phase = .preAccepted ∧ state.t0 = t0))
  | .accept txnId _ _ _ ballot =>
    ∃ state ∈ machine.txnStates.lookup txnId, ¬ state.IsLocked ∧ ballot < state.maxBallotSeen
  | .commit .. | .commitLocally .. => False
  | .apply txnId _ | .beginApply txnId _ => machine.txnStates.lookup txnId = none
  | .durable _ | .finish .. | .recover .. | .prune _ | .pruneIdempotency => True

def Journal.Quiet (journal : Journal) : Journal.Event → Prop
  | .call _ call | .crash _ call _ => ∀ replica ∈ journal.replica, replica.machine.TurnsDown call

def Journal.QuietStep (before after : Journal) : Prop :=
  ∃ event, before.Step event after ∧ before.Quiet event

section Replay

variable (crc : Record → UInt32)

theorem ProtocolLog.AccordProtocolEntry.deserialize_unknown {first : UInt8} (rest : Record)
    (unknown : first ∉ [discPreAccepted, discAccepted, discCommitted]) :
    ∃ error, deserialize crc (first :: rest) = .error error := by
  simp only [mem_cons, not_mem_nil, or_false, not_or] at unknown
  simp only [deserialize, openEntry]
  split_ifs
  · exact ⟨_, rfl⟩
  · exact ⟨_, rfl⟩
  · refine ⟨.unknownDiscriminant first, ?_⟩
    simp [bind, Except.bind, fieldsOf, unknown]

theorem ProtocolLog.AccordAppliedEntry.deserialize_unknown {first : UInt8} (rest : Record)
    (unknown : first ≠ discApplied) : ∃ error, deserialize crc (first :: rest) = .error error := by
  simp only [deserialize, openEntry]
  split_ifs
  · exact ⟨_, rfl⟩
  · exact ⟨_, rfl⟩
  · refine ⟨.unknownDiscriminant first, ?_⟩
    simp [bind, Except.bind, fieldsOf, unknown]

/-- A line starts with a letter, and no letter is a discriminant. -/
theorem Marker.record_eq_cons (marker : Marker) : ∃ first rest, marker.record = first :: rest ∧
    first ∉ [ProtocolLog.discPreAccepted, ProtocolLog.discAccepted, ProtocolLog.discCommitted] ∧
    first ≠ ProtocolLog.discApplied := by
  simp only [record, String.toByteArray_append, ByteArray.data_append, Array.toList_append]
  cases marker with
  | preAccepted => exact ⟨_, _, rfl, by decide, by decide⟩
  | accepted => exact ⟨_, _, rfl, by decide, by decide⟩
  | committed => exact ⟨_, _, rfl, by decide, by decide⟩
  | applied => exact ⟨_, _, rfl, by decide, by decide⟩

theorem replayOne_record (replay : CrashRecoveryReplay) (marker : Marker) :
    replay.replayOne crc marker.record =
      { replay with skippedCount := replay.skippedCount + 1 } := by
  rcases marker.record_eq_cons with ⟨first, rest, isRecord, notEntry, notApplied⟩
  rcases ProtocolLog.AccordProtocolEntry.deserialize_unknown crc rest notEntry with ⟨error, noEntry⟩
  rcases ProtocolLog.AccordAppliedEntry.deserialize_unknown crc rest notApplied with
    ⟨error', noApplied⟩
  simp only [CrashRecoveryReplay.replayOne, isRecord, noEntry, noApplied]

theorem foldl_replayOne_records (markers : List Marker) (replay : CrashRecoveryReplay) :
    (markers.map Marker.record).foldl (CrashRecoveryReplay.replayOne crc) replay =
      { replay with skippedCount := replay.skippedCount + markers.length } := by
  induction markers generalizing replay with
  | nil => rfl
  | cons marker markers ih =>
    rw [map_cons, foldl_cons, replayOne_record, ih]
    simp only [length_cons, CrashRecoveryReplay.mk.injEq, true_and]
    omega

theorem Journal.replayed_eq (journal : Journal) : journal.replayed crc =
    { CrashRecoveryReplay.new with skippedCount := journal.markers.length } := by
  rw [replayed, CrashRecoveryReplay.replay, foldl_replayOne_records]
  simp [CrashRecoveryReplay.new]

theorem Journal.restores_iff {image : TxnId → ProtocolLog.TxnId}
    {imageTs : Timestamp → ProtocolLog.Timestamp} {journal : Journal} :
    Restores crc image imageTs journal ↔ journal.markers = [] ∧ journal.answers = [] := by
  constructor
  · intro restores
    have empty : journal.markers = [] := by
      have skipped := restores.unskipped
      rw [replayed_eq] at skipped
      exact eq_nil_of_length_eq_zero skipped
    refine ⟨empty, ?_⟩
    by_contra nonempty
    have given := getLast_mem nonempty
    have known : (journal.answers.filter fun answer =>
        answer.txnId = (journal.answers.getLast nonempty).txnId) ≠ [] := by
      apply ne_nil_of_mem
      exact mem_filter.mpr ⟨given, by simp⟩
    rcases restores.answered _ _ (getLast?_eq_some_getLast known) with ⟨state, found, _⟩
    rw [replayed_eq] at found
    exact absurd found (by simp [CrashRecoveryReplay.new])
  · rintro ⟨noMarkers, noAnswers⟩
    refine ⟨?_, ?_, ?_⟩
    · simp [replayed_eq, noMarkers]
    · simp [latest, noAnswers]
    · simp [replayed_eq, noMarkers, CrashRecoveryReplay.new]

end Replay

structure Replica.Idle (replica : Replica) : Prop where
  unparked : replica.machine.applyEngine.Unparked
  inFlight : replica.inFlight = []
  finished : replica.finished = []

namespace AccordStateMachine

variable {machine : AccordStateMachine} (env : Environment) {txnId : TxnId} {ballot : BallotNumber}

theorem preAccept_of_turnsDown {t0 : Timestamp} {keys : List Bytes} {snapshotTs : Option Timestamp}
    (turned : machine.TurnsDown (.preAccept txnId t0 keys ballot snapshotTs)) :
    machine.preAcceptMarkers txnId t0 keys ballot snapshotTs = [] ∧ ∀ id t deps,
      (machine.handlePreaccept env txnId t0 keys ballot snapshotTs).1 ≠ .preAcceptOk id t deps := by
  simp only [TurnsDown] at turned
  simp only [preAcceptMarkers, handlePreaccept, preAcceptFreshMarkers, preAcceptFresh]
  cases decided : machine.finalized.decided txnId with
  | some by_ => simp
  | none =>
    simp only [decided, isSome_none, Bool.false_eq_true, false_or] at turned
    cases found : machine.txnStates.lookup txnId with
    | none =>
      simp only [found, mem_def, reduceCtorEq, false_and, exists_false, false_or] at turned
      simp [turned.1]
    | some state =>
      simp only [found, mem_some_iff, exists_eq_left', forall_eq'] at turned
      rcases turned with outbid | ⟨stale, fresh⟩
      · simp [outbid]
      · simp only [fresh, stale, if_true, if_false]
        split_ifs <;> simp

theorem accept_of_turnsDown {t0 t : Timestamp} {deps : List TxnId}
    (turned : machine.TurnsDown (.accept txnId t0 t deps ballot)) :
    machine.acceptMarkers txnId t0 t ballot = [] ∧ ∀ id ballot' deps',
      (machine.handleAccept env txnId t0 t deps ballot).1 ≠ .acceptOk id ballot' deps' := by
  rcases turned with ⟨state, found, unlocked, outbid⟩
  simp only [mem_def] at found
  simp [acceptMarkers, handleAccept, withState, found, unlocked, outbid]

theorem applyMarkers_of_lookup_eq_none (writes : List Bytes)
    (unknown : machine.txnStates.lookup txnId = none) (idle : machine.applyEngine.Unparked) :
    machine.applyMarkers env txnId writes = [] := by
  have applied := (DepWaitApplier.notifyApplied_of_unparked env txnId idle).1
  simp only [applyMarkers, planApply, unknown]
  cases isNoWrite writes with
  | false => rfl
  | true => simp [applied, appliedMarkers]

theorem unparked_handleApplyWriteset (writes : List Bytes)
    (unknown : machine.txnStates.lookup txnId = none) (idle : machine.applyEngine.Unparked) :
    (machine.handleApplyWriteset env txnId writes).2.applyEngine.Unparked := by
  simp only [handleApplyWriteset, planApply, unknown]
  cases isNoWrite writes with
  | false => exact idle
  | true =>
    simp only [if_true, finalizeWithoutState, applyEngine_settle]
    exact (DepWaitApplier.notifyApplied_of_unparked env txnId idle).2

theorem unparked_pruneAppliedIdempotency (idle : machine.applyEngine.Unparked) :
    machine.pruneAppliedIdempotency.applyEngine.Unparked := by
  unfold pruneAppliedIdempotency
  split <;> exact idle

theorem beginApply_of_lookup_eq_none (writes : List Bytes)
    (unknown : machine.txnStates.lookup txnId = none) (idle : machine.applyEngine.Unparked) :
    machine.beginApplyMarkers env txnId writes = [] ∧
      (machine.beginApply env txnId writes).2 = none ∧
      (machine.beginApply env txnId writes).1.2.applyEngine.Unparked := by
  have silent := applyMarkers_of_lookup_eq_none env writes unknown idle
  have unparked := unparked_handleApplyWriteset env writes unknown idle
  simp only [beginApplyMarkers, beginApply, planApply, unknown, silent]
  cases isNoWrite writes with
  | false => exact ⟨rfl, rfl, idle⟩
  | true => exact ⟨rfl, rfl, unparked⟩

end AccordStateMachine

namespace Replica.Idle

variable {replica after : Replica} {env : Environment} {call : Call} {response : SmResponse}
  {ballot : BallotNumber}

theorem answerOf_preAccept {txnId : TxnId} {t0 : Timestamp} {keys : List Bytes}
    {snapshotTs : Option Timestamp} (refused : ∀ id t deps, response ≠ .preAcceptOk id t deps) :
    answerOf (.preAccept txnId t0 keys ballot snapshotTs) response after = none := by
  cases response with
  | preAcceptOk id t deps => exact absurd rfl (refused id t deps)
  | _ => rfl

theorem answerOf_accept {txnId : TxnId} {t0 t : Timestamp} {deps : List TxnId}
    (refused : ∀ id ballot deps, response ≠ .acceptOk id ballot deps) :
    answerOf (.accept txnId t0 t deps ballot) response after = none := by
  cases response with
  | acceptOk id ballot deps => exact absurd rfl (refused id ballot deps)
  | _ => rfl

theorem run (idle : replica.Idle) (turned : replica.machine.TurnsDown call)
    (ran : replica.run env call = some (response, after)) :
    after.Idle ∧ replica.markers env call = [] ∧ answerOf call response after = none := by
  cases call with
  | preAccept txnId t0 keys ballot snapshotTs =>
    cases ran
    have refused := AccordStateMachine.preAccept_of_turnsDown env turned
    have same := replica.machine.applyEngine_handlePreaccept env txnId t0 keys ballot snapshotTs
    exact ⟨{ idle with unparked := same ▸ idle.unparked }, refused.1, answerOf_preAccept refused.2⟩
  | accept txnId t0 t deps ballot =>
    cases ran
    have refused := AccordStateMachine.accept_of_turnsDown env turned
    have same := replica.machine.applyEngine_handleAccept env txnId t0 t deps ballot
    exact ⟨{ idle with unparked := same ▸ idle.unparked }, refused.1, answerOf_accept refused.2⟩
  | commit txnId t0 t deps => exact absurd turned id
  | commitLocally txnId t0 t deps keys => exact absurd turned id
  | apply txnId writes =>
    cases ran
    have silent := AccordStateMachine.applyMarkers_of_lookup_eq_none env writes turned idle.unparked
    exact ⟨⟨AccordStateMachine.unparked_handleApplyWriteset env writes turned idle.unparked,
      idle.inFlight, idle.finished⟩, silent, rfl⟩
  | beginApply txnId writes =>
    rcases AccordStateMachine.beginApply_of_lookup_eq_none env writes turned idle.unparked with
      ⟨silent, nothing, unparked⟩
    have noWork : replica.inFlight ++ (replica.machine.beginApply env txnId writes).2.toList =
        [] := by
      rw [nothing, idle.inFlight]
      rfl
    cases ran
    exact ⟨⟨unparked, noWork, idle.finished⟩, silent, rfl⟩
  | durable work => simp [Replica.run, idle.inFlight] at ran
  | finish txnId outcome => simp [Replica.run, idle.finished] at ran
  | recover txnId t0 ballot =>
    cases ran
    have same := replica.machine.applyEngine_handleRecover txnId t0 ballot
    exact ⟨{ idle with unparked := same ▸ idle.unparked }, rfl, rfl⟩
  | prune now =>
    cases ran
    exact ⟨⟨AccordStateMachine.unparked_pruneAppliedIdempotency idle.unparked, idle.inFlight,
      idle.finished⟩, rfl, rfl⟩
  | pruneIdempotency =>
    cases ran
    exact ⟨⟨AccordStateMachine.unparked_pruneAppliedIdempotency idle.unparked, idle.inFlight,
      idle.finished⟩, rfl, rfl⟩

end Replica.Idle

namespace Journal

structure Silent (journal : Journal) : Prop where
  markers : journal.markers = []
  answers : journal.answers = []
  idle : ∀ replica ∈ journal.replica, replica.Idle

theorem silent_new (nodeId : NodeId) (finalized : FinalizedTxns) :
    (new nodeId finalized).Silent := by
  refine ⟨rfl, rfl, ?_⟩
  rintro replica ⟨⟩
  exact ⟨fun _ => rfl, rfl, rfl⟩

theorem Silent.step {before after : Journal} (silent : before.Silent)
    (step : QuietStep before after) : after.Silent := by
  rcases silent with ⟨noMarkers, noAnswers, idle⟩
  rcases step with ⟨event, moved, quiet⟩
  cases moved with
  | call lossless ran =>
    rcases (idle _ rfl).run (quiet _ rfl) ran with ⟨idleAfter, noLine, noAnswer⟩
    refine ⟨?_, ?_, ?_⟩
    · simp_all
    · simp_all
    · rintro replica ⟨⟩
      exact idleAfter
  | crash running written =>
    rcases isSome_iff_exists.mp running with ⟨⟨response, after⟩, ran⟩
    have noLine := ((idle _ rfl).run (quiet _ rfl) ran).2.1
    refine ⟨?_, noAnswers, ?_⟩
    · simp_all
    · rintro replica ⟨⟩

/-- As long as every call is turned down, replay restores the replica's promises at every
point of the run. -/
theorem restores_of_run (crc : Record → UInt32) (image : TxnId → ProtocolLog.TxnId)
    (imageTs : Timestamp → ProtocolLog.Timestamp) {nodeId : NodeId} {finalized : FinalizedTxns}
    {journal : Journal} (run : Relation.ReflTransGen QuietStep (new nodeId finalized) journal) :
    journal.Restores crc image imageTs := by
  have silent : journal.Silent := by
    induction run with
    | refl => exact silent_new nodeId finalized
    | tail _ step ih => exact ih.step step
  exact (restores_iff crc).mpr ⟨silent.markers, silent.answers⟩

def sampleStart : Journal := new 1 (.new 16)

def sampleTimestamp : Timestamp := ⟨0, 1000, 0, 2⟩

def sampleTxn : TxnId := ⟨sampleTimestamp⟩

def firstPreAccept : Call := .preAccept sampleTxn sampleTimestamp [[1]] 0 none

/-- The PreAccept is answered and its line written, but replay skips the line. -/
theorem not_restores_firstPreAccept : ∃ journal : Journal,
    sampleStart.Step (.call .healthy firstPreAccept) journal ∧
      journal.markers = [.preAccepted sampleTxn sampleTimestamp] ∧
      journal.answers = [⟨sampleTxn, .preAccepted, sampleTimestamp, []⟩] ∧
      ∀ crc image imageTs, (journal.replayed crc).skippedCount = 1 ∧
        ¬ journal.Restores crc image imageTs := by
  refine ⟨_, .call rfl rfl, rfl, rfl, ?_⟩
  intro crc image imageTs
  refine ⟨?_, ?_⟩
  · rw [replayed_eq]
    rfl
  · rw [restores_iff]
    rintro ⟨noMarkers, _⟩
    cases noMarkers

def recoveredReplica : Replica :=
  ⟨((AccordStateMachine.new 1 (.new 16)).handleRecover sampleTxn sampleTimestamp 5).2, [], []⟩

/-- The recovery outbids an Accept with ballot 3. -/
theorem restores_outbidAccept : ∃ journal : Journal,
    sampleStart.Step (.call .healthy (.recover sampleTxn sampleTimestamp 5))
      ⟨some recoveredReplica, [], []⟩ ∧
    Step ⟨some recoveredReplica, [], []⟩
      (.call .healthy (.accept sampleTxn sampleTimestamp sampleTimestamp [] 3)) journal ∧
    journal.Restores (fun _ => 0) (fun _ => ⟨0, 0, 0⟩) (fun _ => ⟨0, 0⟩) := by
  have recovering : sampleStart.Step (.call .healthy (.recover sampleTxn sampleTimestamp 5))
      ⟨some recoveredReplica, [], []⟩ := .call rfl rfl
  have accepting : Step ⟨some recoveredReplica, [], []⟩
      (.call .healthy (.accept sampleTxn sampleTimestamp sampleTimestamp [] 3)) _ := .call rfl rfl
  refine ⟨_, recovering, accepting, ?_⟩
  refine restores_of_run _ _ _ ((Relation.ReflTransGen.single ⟨_, recovering, ?_⟩).tail
    ⟨_, accepting, ?_⟩)
  · rintro replica ⟨⟩
    exact ⟨_, rfl, by decide, by decide⟩
  · rintro replica ⟨⟩
    trivial

end Journal

end Ferrosa.Accord
