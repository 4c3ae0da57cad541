import Ferrosa.Accord.DepWait

/-!
# Dependency-ordered apply

The apply engine of a replica.  A write-set whose dependencies have all been
applied here is handed to the storage applier; otherwise it is parked until the
last of them is applied, and the cascade then hands it over.  What the disk and
the hash tables decide during a call is collected in an `Environment`.
-/

namespace Ferrosa.Accord

/-- What a call observes: whether the log reaches the disk, whether the applier takes a write-set,
whether one can be parked, and how hash sets are visited. -/
structure Environment where
  fsync : Bool
  storage : TxnId → Bool
  staging : Bool
  order : IterationOrder

def Environment.healthy : Environment := ⟨true, fun _ => true, true, .asStored⟩

structure ApplyMutation where
  data : Bytes
  t : Timestamp
  deps : List TxnId
  deriving DecidableEq, Repr

def accordCellTimestamp (t : Timestamp) : Int64 :=
  if t.time / 1000 ≤ 9223372036854775807 then (t.time / 1000).toInt64 else 9223372036854775807

/-- The write-sets the applier took, oldest first, and the payloads it remembers as persisted. -/
structure StorageApplier where
  handed : List (TxnId × List ApplyMutation)
  applied : List (TxnId × Bytes × UInt64)

namespace StorageApplier

def applyWriteset (applier : StorageApplier) (txnId : TxnId) (mutations : List ApplyMutation) :
    StorageApplier where
  handed := applier.handed ++ [(txnId, mutations)]
  applied := applier.applied ++ mutations.map fun mutation =>
    (txnId, mutation.data, mutation.t.time)

def pruneAppliedBelow (applier : StorageApplier) (watermark : Timestamp) : StorageApplier :=
  { applier with applied := applier.applied.filter fun entry => watermark < entry.1.timestamp }

end StorageApplier

structure DepWaitApplier where
  graph : DepWaitGraph
  applier : StorageApplier
  pending : FiniteMap TxnId (List ApplyMutation)

namespace DepWaitApplier

def new : DepWaitApplier := ⟨.new, ⟨[], []⟩, ∅⟩

variable (engine : DepWaitApplier) (env : Environment) (txnId : TxnId)

def handOver (mutations : List ApplyMutation) : DepWaitApplier :=
  { engine with applier := engine.applier.applyWriteset txnId mutations }

def unpark : DepWaitApplier :=
  { engine with pending := engine.pending.erase txnId }

def markApplied : List TxnId × DepWaitApplier :=
  let (woken, graph) := engine.graph.markApplied env.order txnId
  (woken, { engine with graph })

/-- Apply the parked write-sets of the queued transactions, and those this wakes in turn. -/
def applyUnblocked (env : Environment) :
    Nat → List TxnId → DepWaitApplier → List (TxnId × Bytes) × DepWaitApplier
  | 0, _, engine => ([], engine)
  | _ + 1, [], engine => ([], engine)
  | fuel + 1, waiter :: queue, engine =>
    match engine.pending.lookup waiter with
    | some mutations =>
      if env.storage waiter then
        let (woken, marked) :=
          ((engine.unpark waiter).handOver waiter mutations).markApplied env waiter
        let (applied, final) := applyUnblocked env fuel (queue ++ woken) marked
        (mutations.map (fun mutation => (waiter, mutation.data)) ++ applied, final)
      else applyUnblocked env fuel queue (engine.unpark waiter)
    | none =>
      let (woken, marked) := engine.markApplied env waiter
      applyUnblocked env fuel (queue ++ woken) marked

def reach (queue : List TxnId) : Nat :=
  queue.length + engine.graph.waitingOn.keys.length

def drainQueue (queue : List TxnId) : List (TxnId × Bytes) × DepWaitApplier :=
  applyUnblocked env (engine.reach queue) queue engine

def cascade (justApplied : TxnId) : List (TxnId × Bytes) × DepWaitApplier :=
  let (woken, marked) := engine.markApplied env justApplied
  marked.drainQueue env woken

def notifyApplied : List (TxnId × Bytes) × DepWaitApplier :=
  engine.cascade env txnId

def waiveDependency (waiter dep : TxnId) : List (TxnId × Bytes) × DepWaitApplier :=
  let (unblocked, graph) := engine.graph.waive waiter dep
  let waived := { engine with graph }
  if unblocked then waived.drainQueue env [waiter] else ([], waived)

/-- Wait for every dependency that is not applied here; the result says whether there was one, an
error carries the graph without these waits. -/
def registerWaitsOrRefuse (txnId : TxnId) :
    List TxnId → Bool → DepWaitGraph → Except DepWaitGraph (Bool × DepWaitGraph)
  | [], waiting, graph => .ok (waiting, graph)
  | dep :: deps, waiting, graph =>
    if graph.isApplied dep then registerWaitsOrRefuse txnId deps waiting graph
    else
      match graph.registerWait txnId dep with
      | .ok extended => registerWaitsOrRefuse txnId deps true extended
      | .error refused => .error (refused.clearWaits txnId)

def unionWriteSetDeps (mutations : List ApplyMutation) : List TxnId :=
  (mutations.flatMap fun mutation => mutation.deps).dedup

/-- Park the write-set, or hand it over and cascade; `none` is an apply error. -/
def tryApplyWriteset (mutations : List ApplyMutation) :
    Option (List (TxnId × Bytes)) × DepWaitApplier :=
  match registerWaitsOrRefuse txnId (unionWriteSetDeps mutations) false engine.graph with
  | .error graph => (none, { engine with graph })
  | .ok (true, graph) =>
    if env.staging then
      (some [], { engine with graph, pending := engine.pending.insert txnId mutations })
    else (none, { engine with graph := graph.clearWaits txnId })
  | .ok (false, graph) =>
    if env.storage txnId then
      let (applied, final) := ({ engine with graph }.handOver txnId mutations).cascade env txnId
      (some (((mutations.head?.map fun first => (txnId, first.data)).toList) ++ applied), final)
    else (none, { engine with graph })

def pruneAppliedBelow (watermark : Timestamp) : DepWaitApplier :=
  { engine with applier := engine.applier.pruneAppliedBelow watermark }

def forgetGraphApplied (txns : List TxnId) : DepWaitApplier :=
  { engine with graph := engine.graph.forget txns }

def Unparked : Prop := ∀ txnId, engine.pending.lookup txnId = none

theorem applyUnblocked_of_unparked (fuel : ℕ) (queue : List TxnId) {engine : DepWaitApplier}
    (idle : engine.Unparked) :
    (applyUnblocked env fuel queue engine).1 = [] ∧
      (applyUnblocked env fuel queue engine).2.Unparked := by
  induction fuel generalizing queue engine with
  | zero => exact ⟨rfl, idle⟩
  | succ fuel ih =>
    cases queue with
    | nil => exact ⟨rfl, idle⟩
    | cons waiter queue =>
      simp only [applyUnblocked, idle waiter]
      exact ih _ idle

theorem notifyApplied_of_unparked {engine : DepWaitApplier} (idle : engine.Unparked) :
    (engine.notifyApplied env txnId).1 = [] ∧ (engine.notifyApplied env txnId).2.Unparked :=
  applyUnblocked_of_unparked env _ _ idle

end DepWaitApplier

end Ferrosa.Accord
