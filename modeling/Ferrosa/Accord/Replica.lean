import Ferrosa.Accord.StateMachine

/-!
# Replicas and their calls

A replica is its state machine together with the lock-free applies that are between
their phases.  `Call` lists everything that can happen to a replica.
-/

namespace Ferrosa.Accord

structure Replica where
  machine : AccordStateMachine
  inFlight : List ApplyDurableWork
  finished : List (TxnId × ApplyDurableOutcome)

inductive Call where
  | preAccept (txnId : TxnId) (t0 : Timestamp) (keys : List Bytes) (ballot : BallotNumber)
      (snapshotTs : Option Timestamp)
  | accept (txnId : TxnId) (t0 t : Timestamp) (deps : List TxnId) (ballot : BallotNumber)
  | commit (txnId : TxnId) (t0 t : Timestamp) (deps : List TxnId)
  | commitLocally (txnId : TxnId) (t0 t : Timestamp) (deps : List TxnId) (keys : List Bytes)
  | apply (txnId : TxnId) (writes : List Bytes)
  | beginApply (txnId : TxnId) (writes : List Bytes)
  | durable (work : ApplyDurableWork)
  | finish (txnId : TxnId) (outcome : ApplyDurableOutcome)
  | recover (txnId : TxnId) (t0 : Timestamp) (ballot : BallotNumber)
  | prune (now : Option Timestamp)
  | pruneIdempotency
  deriving DecidableEq

namespace Replica

def new (nodeId : NodeId) (finalized : FinalizedTxns) : Replica :=
  ⟨.new nodeId finalized, [], []⟩

def reply (replica : Replica) (result : SmResponse × AccordStateMachine) : SmResponse × Replica :=
  (result.1, { replica with machine := result.2 })

/-- One call on the replica; `none` if there is no such work to continue. -/
def run (replica : Replica) (env : Environment) : Call → Option (SmResponse × Replica)
  | .preAccept txnId t0 keys ballot snapshotTs =>
    some (replica.reply (replica.machine.handlePreaccept env txnId t0 keys ballot snapshotTs))
  | .accept txnId t0 t deps ballot =>
    some (replica.reply (replica.machine.handleAccept env txnId t0 t deps ballot))
  | .commit txnId t0 t deps =>
    some (replica.reply (replica.machine.handleCommit env txnId t0 t deps))
  | .commitLocally txnId t0 t deps keys =>
    some (replica.reply (.none,
      (replica.machine.handleCommit env txnId t0 t deps).2.registerCommittedConflicts
        txnId t0 keys t))
  | .apply txnId writes =>
    some (replica.reply (replica.machine.handleApplyWriteset env txnId writes))
  | .beginApply txnId writes =>
    let (result, work) := replica.machine.beginApply env txnId writes
    some (result.1,
      { replica with machine := result.2, inFlight := replica.inFlight ++ work.toList })
  | .durable work =>
    if work ∈ replica.inFlight then
      let (outcome, machine) := replica.machine.executeApplyDurability env work
      some (.none,
        { machine
          inFlight := replica.inFlight.erase work
          finished := replica.finished ++ [(work.txnId, outcome)] })
    else none
  | .finish txnId outcome =>
    if (txnId, outcome) ∈ replica.finished then
      some (.none, { replica with
          machine := replica.machine.finishApply env txnId outcome
          finished := replica.finished.erase (txnId, outcome) })
    else none
  | .recover txnId t0 ballot =>
    some (replica.reply (.none, (replica.machine.handleRecover txnId t0 ballot).2))
  | .prune now => some (replica.reply (.none, replica.machine.pruneApplied env now))
  | .pruneIdempotency =>
    some (replica.reply (.none, replica.machine.pruneAppliedIdempotency))

end Replica

end Ferrosa.Accord
