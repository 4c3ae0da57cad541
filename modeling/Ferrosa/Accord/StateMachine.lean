import Ferrosa.Accord.Apply
import Ferrosa.Accord.ConflictIndex
import Ferrosa.Accord.Finalized

/-!
# The replica's state machine

The handlers of a replica for PreAccept, Accept, Commit, Apply and Recover, and its
pruning.  A handler maps the machine to a response and the machine after the call.
The durable half of an inbound Apply runs without the state lock, between
`beginApply` and `finishApply`, so other calls can come in between; `Replica` adds
the applies that are under way.
-/

namespace Ferrosa.Accord

inductive SmResponse where
  | preAcceptOk (txnId : TxnId) (t : Timestamp) (deps : List TxnId)
  | acceptOk (txnId : TxnId) (ballot : BallotNumber) (deps : List TxnId)
  | nack (txnId : TxnId) (promised : BallotNumber)
  | snapshotStale
  | none
  | noWriteFinalized
  | alreadyDecided (txnId : TxnId) (by_ : DecidedBy)
  deriving DecidableEq

structure ApplyDurableWork where
  txnId : TxnId
  t : Timestamp
  deps : List TxnId
  writes : List Bytes
  deriving DecidableEq

def ApplyDurableWork.mutations (work : ApplyDurableWork) : List ApplyMutation :=
  work.writes.map fun data => ⟨data, work.t, work.deps⟩

structure ApplyDurableOutcome where
  applied : List (TxnId × Bytes)
  storageOk : Bool
  deriving DecidableEq

inductive ApplyDecision where
  | done (response : SmResponse)
  | finalizeWithoutState
  | noWriteFinalize
  | persist (t : Timestamp) (deps : List TxnId)

structure AccordStateMachine where
  nodeId : NodeId
  txnStates : FiniteMap TxnId TxnState
  conflictIndex : ConflictIndex
  applyEngine : DepWaitApplier
  applying : List TxnId
  finalized : FinalizedTxns

namespace AccordStateMachine

def new (nodeId : NodeId) (finalized : FinalizedTxns) : AccordStateMachine :=
  ⟨nodeId, ∅, .new, .new, [], finalized⟩

variable (machine : AccordStateMachine) (env : Environment) (txnId : TxnId) (t0 : Timestamp)
  (keys : List Bytes)

/-- Written keys and keys read, but neither protocol keys nor table watermarks. -/
def snapshotKeys : List Bytes :=
  ((keys.filter fun key =>
      key ≠ postgresTransactionMarkerKey ∧ key ≠ postgresTransactionBarrierKey).filter
    fun key => !isPostgresWriteTableKey key).map postgresReadLookupKey

def maxConflict : Option Timestamp :=
  maxOf (keys.map machine.conflictIndex.maxConflictingTimestamp)

def isSnapshotStale (snapshotTs : Option Timestamp) : Bool :=
  match snapshotTs, machine.maxConflict (snapshotKeys keys) with
  | some snapshot, some latest => snapshot < latest
  | _, _ => false

def proposedDeps : List TxnId :=
  (keys.flatMap fun key => machine.conflictIndex.depsBeforeT0 key t0).dedup

/-- The execution timestamp to propose: `t0`, or past the newest conflict on a key. -/
def proposedTimestamp : Timestamp :=
  match machine.maxConflict keys with
  | some conflict => if t0 ≤ conflict then t0.bumpPast conflict machine.nodeId else t0
  | none => t0

def registerKeys (index : ConflictIndex) (keys : List Bytes) (entry : InFlightWrite) :
    ConflictIndex :=
  keys.foldl (fun index key => index.register key entry) index

/-- PreAccept of a transaction that is not accepted here: it is registered under every key and
persisted before the reply. -/
def preAcceptFresh (snapshotTs : Option Timestamp) : SmResponse × AccordStateMachine :=
  if machine.isSnapshotStale keys snapshotTs then (.snapshotStale, machine)
  else
    let deps := machine.proposedDeps t0 keys
    let t := machine.proposedTimestamp t0 keys
    let index := registerKeys machine.conflictIndex keys ⟨txnId, t0, some t, .preAccepted⟩
    let states := FiniteMap.modify
      (FiniteMap.orInsert machine.txnStates txnId (TxnState.new txnId t0)) txnId
      fun state => state.preAccept t deps
    if env.fsync then
      (.preAcceptOk txnId t deps, { machine with conflictIndex := index, txnStates := states })
    else
      (.none, { machine with
          conflictIndex := index.remove txnId
          txnStates :=
            if txnId ∈ machine.txnStates then states else states.erase txnId })

def handlePreaccept (ballot : BallotNumber) (snapshotTs : Option Timestamp) :
    SmResponse × AccordStateMachine :=
  match machine.finalized.decided txnId with
  | some by_ => (.alreadyDecided txnId by_, machine)
  | none =>
    match machine.txnStates.lookup txnId with
    | some state =>
      if ballot < state.maxBallotSeen then (.nack txnId state.maxBallotSeen, machine)
      else if state.phase = .preAccepted ∧ state.t0 = t0 then
        (.preAcceptOk txnId state.t state.deps, machine)
      else if TxnPhase.accepted.rank ≤ state.phase.rank then
        (.nack txnId state.maxBallotSeen, machine)
      else machine.preAcceptFresh env txnId t0 keys snapshotTs
    | none => machine.preAcceptFresh env txnId t0 keys snapshotTs

def withState : TxnState × AccordStateMachine :=
  ((machine.txnStates.lookup txnId).getD (TxnState.new txnId t0), { machine with
      txnStates := FiniteMap.orInsert machine.txnStates txnId (TxnState.new txnId t0) })

def handleAccept (t0 t : Timestamp) (deps : List TxnId) (ballot : BallotNumber) :
    SmResponse × AccordStateMachine :=
  let (state, held) := machine.withState txnId t0
  if state.IsLocked then (.acceptOk txnId ballot state.deps, held)
  else if ballot < state.maxBallotSeen then (.nack txnId state.maxBallotSeen, held)
  else
    let acceptedDeps := (deps ++ state.deps).dedup
    if env.fsync then
      (.acceptOk txnId ballot acceptedDeps, { held with
          txnStates := FiniteMap.modify held.txnStates txnId
            fun state => state.accept ballot t acceptedDeps
          conflictIndex := held.conflictIndex.setCommitTs txnId t })
    else (.none, held)

/-- Record an apply; `false` when nothing durable records it. -/
def bookkeepApplied (result : Bytes) (rowsDurable : Bool) : Bool × AccordStateMachine :=
  if env.fsync || rowsDurable then
    (true, { machine with
        txnStates := FiniteMap.modify machine.txnStates txnId fun state => state.apply result
        conflictIndex := machine.conflictIndex.markApplied txnId })
  else (false, machine)

def bookkeepAppliedDedup (env : Environment) :
    List TxnId → List (TxnId × Bytes) → AccordStateMachine → AccordStateMachine
  | _, [], machine => machine
  | bookkept, (txnId, result) :: applied, machine =>
    if txnId ∈ bookkept then bookkeepAppliedDedup env bookkept applied machine
    else
      bookkeepAppliedDedup env (txnId :: bookkept) applied
        (machine.bookkeepApplied env txnId result true).2

def settle (ran : List (TxnId × Bytes) × DepWaitApplier) : AccordStateMachine :=
  bookkeepAppliedDedup env [] ran.1 { machine with applyEngine := ran.2 }

def executesAfter (dep : TxnId) (t : Timestamp) : Bool :=
  match machine.txnStates.lookup dep with
  | some state => state.phase = .committed ∧ t < state.t
  | none => false

def waiveAll (env : Environment) :
    List (TxnId × TxnId) → DepWaitApplier → List (TxnId × Bytes) × DepWaitApplier
  | [], engine => ([], engine)
  | (waiter, dep) :: waivers, engine =>
    let (applied, waived) := engine.waiveDependency env waiter dep
    let (rest, final) := waiveAll env waivers waived
    (applied ++ rest, final)

def executesBefore (waiter : TxnId) (t : Timestamp) : Bool :=
  match machine.txnStates.lookup waiter with
  | some state => state.phase = .committed ∧ state.t < t
  | none => false

def releaseWaitersOrderedBefore (dep : TxnId) (depT : Timestamp) : AccordStateMachine :=
  let waiters := (machine.applyEngine.graph.waitersOf env.order dep).filter
    fun waiter => machine.executesBefore waiter depT
  machine.settle env (waiveAll env (waiters.map fun waiter => (waiter, dep)) machine.applyEngine)

def releaseParkedFromDepsOrderedAfter (waiter : TxnId) : AccordStateMachine :=
  match machine.txnStates.lookup waiter with
  | some state =>
    if state.phase = .committed then
      let deps := (machine.applyEngine.graph.depsOf env.order waiter).filter
        fun dep => machine.executesAfter dep state.t
      machine.settle env (waiveAll env (deps.map fun dep => (waiter, dep)) machine.applyEngine)
    else machine
  | none => machine

def handleCommit (t0 t : Timestamp) (deps : List TxnId) : SmResponse × AccordStateMachine :=
  let (state, held) := machine.withState txnId t0
  if state.IsLocked then (.none, held)
  else if env.fsync then
    let committed :=
      { held with
        txnStates := FiniteMap.modify held.txnStates txnId fun state => state.commit t deps.dedup
        conflictIndex := held.conflictIndex.setCommitTs txnId t }
    (.none, committed.releaseWaitersOrderedBefore env txnId t)
  else (.none, held)

/-- Index a committed transaction whose PreAccept this replica never processed. -/
def registerCommittedConflicts (t : Timestamp) : AccordStateMachine :=
  { machine with
    conflictIndex := keys.foldl (fun index key =>
        if index.hasWrite key txnId then index
        else index.register key ⟨txnId, t0, some t, .committed⟩)
      machine.conflictIndex }

def planApply (noWrite : Bool) : ApplyDecision :=
  match machine.txnStates.lookup txnId with
  | some state =>
    if state.phase = .applied then .done .none
    else if noWrite then .noWriteFinalize
    else .persist state.t state.deps
  | none => if noWrite then .finalizeWithoutState else .done .none

def orderedDeps (deps : List TxnId) (t : Timestamp) : List TxnId :=
  deps.filter fun dep => !machine.executesAfter dep t && decide (dep ∈ machine.txnStates)

def isNoWrite (writes : List Bytes) : Bool := writes.all fun write => write.isEmpty

def mutationsOf (writes : List Bytes) (t : Timestamp) (deps : List TxnId) : List ApplyMutation :=
  (writes.filter fun data => !data.isEmpty).map fun data => ⟨data, t, deps⟩

def finalizeWithoutState : SmResponse × AccordStateMachine :=
  let recorded :=
    { machine with
      finalized := machine.finalized.record txnId
      conflictIndex := machine.conflictIndex.remove txnId }
  (.noWriteFinalized, recorded.settle env (recorded.applyEngine.notifyApplied env txnId))

def noWriteFinalize : SmResponse × AccordStateMachine :=
  match machine.bookkeepApplied env txnId [] false with
  | (false, _) => (.none, machine)
  | (true, marked) => (.none, marked.settle env (marked.applyEngine.notifyApplied env txnId))

def handleApplyWriteset (writes : List Bytes) : SmResponse × AccordStateMachine :=
  match machine.planApply txnId (isNoWrite writes) with
  | .done response => (response, machine)
  | .finalizeWithoutState => machine.finalizeWithoutState env txnId
  | .noWriteFinalize => machine.noWriteFinalize env txnId
  | .persist t deps =>
    if txnId ∈ machine.applying then (.none, machine)
    else
      let mutations := mutationsOf writes t (machine.orderedDeps deps t)
      match machine.applyEngine.tryApplyWriteset env txnId mutations with
      | (none, engine) => (.none, { machine with applyEngine := engine })
      | (some applied, engine) => (.none, machine.settle env (applied, engine))

/-- First phase of the lock-free apply: the work to do durably, if any. -/
def beginApply (writes : List Bytes) :
    (SmResponse × AccordStateMachine) × Option ApplyDurableWork :=
  match machine.planApply txnId (isNoWrite writes) with
  | .done response => ((response, machine), none)
  | .finalizeWithoutState => (machine.handleApplyWriteset env txnId writes, none)
  | .noWriteFinalize => (machine.handleApplyWriteset env txnId writes, none)
  | .persist t deps =>
    if txnId ∈ machine.applying then ((.none, machine), none)
    else
      ((.none, { machine with applying := txnId :: machine.applying }), some
          { txnId, t
            deps := machine.orderedDeps deps t
            writes := writes.filter fun write => !write.isEmpty })

/-- Second phase: the storage write, without the state lock. -/
def executeApplyDurability (work : ApplyDurableWork) : ApplyDurableOutcome × AccordStateMachine :=
  match machine.applyEngine.tryApplyWriteset env work.txnId work.mutations with
  | (some applied, engine) => (⟨applied, true⟩, { machine with applyEngine := engine })
  | (none, engine) => (⟨[], false⟩, { machine with applyEngine := engine })

/-- Third phase: record the outcome, and drop the waits of a parked write-set on
dependencies that execute after it. -/
def finishApply (outcome : ApplyDurableOutcome) : AccordStateMachine :=
  let released := { machine with applying := machine.applying.filter fun id => id ≠ txnId }
  if outcome.storageOk then
    let settled := bookkeepAppliedDedup env [] outcome.applied { released with
        applying := released.applying.filter fun id => id ∉ outcome.applied.map Prod.fst }
    if txnId ∈ outcome.applied.map Prod.fst then settled
    else settled.releaseParkedFromDepsOrderedAfter env txnId
  else released

def handleRecover (ballot : BallotNumber) : Option TxnState × AccordStateMachine :=
  let (state, held) := machine.withState txnId t0
  if ballot < state.maxBallotSeen then (none, held)
  else
    (some (state.joinBallot ballot), { held with
        txnStates := FiniteMap.modify held.txnStates txnId fun state => state.joinBallot ballot })

def appliedIds : List TxnId :=
  env.order.visit (machine.txnStates.keys.filter fun txnId =>
    match machine.txnStates.lookup txnId with
    | some state => state.phase = .applied
    | none => false)

def pruneAppliedIdempotency : AccordStateMachine :=
  match machine.finalized.floor with
  | some floor => { machine with applyEngine := machine.applyEngine.pruneAppliedBelow floor }
  | none => machine

/-- Drop the states of applied transactions; `now` is the node's clock, if it has one. -/
def pruneApplied (now : Option Timestamp) : AccordStateMachine :=
  let ids := machine.appliedIds env
  let recorded := ids.foldl (fun finalized txnId => finalized.recordApplied txnId) machine.finalized
  let pruned :=
    pruneAppliedIdempotency { machine with
        txnStates := FiniteMap.eraseAll machine.txnStates ids
        conflictIndex := machine.conflictIndex.gcApplied
        finalized :=
          match now with
          | some now => recorded.advanceHorizon now
          | none => recorded }
  { pruned with applyEngine := pruned.applyEngine.forgetGraphApplied ids }

section Engine

variable (machine : AccordStateMachine) (env : Environment) (txnId : TxnId) (t0 t : Timestamp)
  (keys : List Bytes) (deps : List TxnId) (ballot : BallotNumber) (snapshotTs : Option Timestamp)

theorem applyEngine_preAcceptFresh :
    (machine.preAcceptFresh env txnId t0 keys snapshotTs).2.applyEngine = machine.applyEngine := by
  simp only [preAcceptFresh]
  split_ifs <;> rfl

theorem applyEngine_handlePreaccept :
    (machine.handlePreaccept env txnId t0 keys ballot snapshotTs).2.applyEngine =
      machine.applyEngine := by
  unfold handlePreaccept
  split
  · rfl
  · split
    · split_ifs
      · rfl
      · rfl
      · rfl
      · exact applyEngine_preAcceptFresh machine env txnId t0 keys snapshotTs
    · exact applyEngine_preAcceptFresh machine env txnId t0 keys snapshotTs

theorem applyEngine_handleAccept :
    (machine.handleAccept env txnId t0 t deps ballot).2.applyEngine = machine.applyEngine := by
  unfold handleAccept
  dsimp only [withState]
  generalize (machine.txnStates.lookup txnId).getD (TxnState.new txnId t0) = state
  by_cases locked : state.IsLocked
  · rw [if_pos locked]
  · rw [if_neg locked]
    split
    · rfl
    · split <;> rfl

theorem applyEngine_handleRecover :
    (machine.handleRecover txnId t0 ballot).2.applyEngine = machine.applyEngine := by
  unfold handleRecover
  dsimp only [withState]
  generalize (machine.txnStates.lookup txnId).getD (TxnState.new txnId t0) = state
  split <;> rfl

end Engine

def mark (result : Bytes) : AccordStateMachine :=
  { machine with
    txnStates := FiniteMap.modify machine.txnStates txnId fun state => state.apply result
    conflictIndex := machine.conflictIndex.markApplied txnId }

section Marks

variable {P : AccordStateMachine → Prop} {machine : AccordStateMachine} {env : Environment}
  (marks : ∀ machine txnId result, P machine → P (machine.mark txnId result))

include marks

theorem bookkeepAppliedDedup_induction (start : P machine) (bookkept : List TxnId)
    (applied : List (TxnId × Bytes)) : P (bookkeepAppliedDedup env bookkept applied machine) := by
  induction applied generalizing bookkept machine with
  | nil => exact start
  | cons entry applied ih =>
    unfold bookkeepAppliedDedup
    split_ifs
    · exact ih start _
    · refine ih ?_ _
      unfold bookkeepApplied
      split_ifs
      · exact marks _ _ _ start
      · exact start

theorem settle_induction {ran : List (TxnId × Bytes) × DepWaitApplier}
    (start : P { machine with applyEngine := ran.2 }) : P (machine.settle env ran) :=
  bookkeepAppliedDedup_induction marks start ..

end Marks

theorem applyEngine_settle (ran : List (TxnId × Bytes) × DepWaitApplier) :
    (machine.settle env ran).applyEngine = ran.2 :=
  settle_induction (P := fun marked => marked.applyEngine = ran.2) (fun _ _ _ same => same) rfl

end AccordStateMachine

end Ferrosa.Accord
