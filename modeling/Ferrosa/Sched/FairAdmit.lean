import Ferrosa.Sched.RunQueue

/-!
# Fair admission to the scan pool

The state behind the lock, the operations on it, and the owners that call them: a scan waits in an
`admit` or `readmit` that can be cancelled, or in a blocking `reschedule`, or holds a slot, or is
a `Suspended` value.  One step is one section under the lock.
-/

namespace Ferrosa.Sched

structure Scan where
  group : ℕ
  weight : ℕ
  entity : SchedEntity
deriving DecidableEq, Repr

structure Suspended where
  id : ℕ
  scan : Scan
deriving DecidableEq, Repr

structure Notify where
  id : ℕ
  serial : ℕ
deriving DecidableEq, Repr

structure State where
  free : ℕ
  queue : GroupRunQueue
  running : SortedMap ℕ Scan
  waiters : SortedMap ℕ Notify
  nextId : ℕ
  nextSerial : ℕ
  permits : Notify → Bool

namespace State

variable (state : State)

def grant (picked : Picked) : State :=
  { state with
    free := state.free - 1
    running := state.running.insert picked.entity.id
      ⟨picked.group, picked.groupWeight, picked.entity⟩
    permits :=
      match state.waiters.get? picked.entity.id with
      | some notify => Function.update state.permits notify true
      | none => state.permits }

def consume (notify : Notify) : State :=
  { state with permits := Function.update state.permits notify false }

/-- At most `slots` rounds of the dispatch loop. -/
def dispatchLoop : ℕ → State → Except Panic State
  | 0, state => .ok state
  | slots + 1, state =>
    match state.queue.pickNext with
    | .ok (some picked, queue) =>
      dispatchLoop slots ({ state with queue := queue }.grant picked)
    | .ok (none, queue) => .ok { state with queue := queue }
    | .error panic => .error panic

def dispatch : Except Panic State := dispatchLoop state.free state

def holdsSlot (id : ℕ) : Bool := (state.running.get? id).isSome

def register (suspended : Suspended) : State :=
  let notify : Notify := ⟨suspended.id, state.nextSerial⟩
  { state with
    queue := state.queue.enqueue suspended.scan.group suspended.scan.weight suspended.scan.entity
    waiters := state.waiters.insert suspended.id notify
    nextSerial := state.nextSerial + 1
    permits := Function.update state.permits notify false }

/-- `none` if the slot was granted at once. -/
def enqueueWaiter (suspended : Suspended) : Except Panic (Option Notify × State) := do
  let dispatched ← (state.register suspended).dispatch
  if dispatched.holdsSlot suspended.id then
    pure (none, { dispatched with waiters := dispatched.waiters.erase suspended.id })
  else pure (some ⟨suspended.id, state.nextSerial⟩, dispatched)

def release (id : ℕ) : State :=
  { state with free := state.free + 1, running := state.running.erase id }

def cancelWaiter (id : ℕ) : Except Panic State :=
  let unregistered := { state with waiters := state.waiters.erase id }
  match unregistered.queue.removeById id with
  | some queue => .ok { unregistered with queue := queue }
  | none =>
    if unregistered.holdsSlot id then (unregistered.release id).dispatch else .ok unregistered

def account (scan : Scan) (service : ℕ) : Except Panic (Bool × Scan × State) := do
  let vruntime := advanceVruntime scan.entity.vruntime service scan.entity.weight
  let queue := state.queue.charge scan.group service
  let groupVruntime := (queue.groupVruntime scan.group).getD vruntime
  let least ← queue.peekMin
  let shouldYield := least.any fun least =>
    least.1 < groupVruntime || (least.1 == groupVruntime && least.2 < vruntime)
  pure (shouldYield, { scan with entity := { scan.entity with vruntime := vruntime } },
    { state with queue := queue })

def suspend (id : ℕ) : Except Panic (Option Suspended × State) :=
  match state.running.get? id with
  | none => .ok (none, state)
  | some scan => do
      let dispatched ← (state.release id).dispatch
      pure (some ⟨id, scan⟩, dispatched)

def charge (id service : ℕ) : Except Panic (Option Suspended × State) :=
  match state.running.get? id with
  | none => .ok (none, state)
  | some scan => do
      let (shouldYield, charged, accounted) ← state.account scan service
      if shouldYield then do
        let dispatched ← (accounted.release id).dispatch
        pure (some ⟨id, charged⟩, dispatched)
      else pure (none, { accounted with running := accounted.running.insert id charged })

/-- The notification to block on, if the scan yields and is not granted a slot at once. -/
def reschedule (id service : ℕ) : Except Panic (Option Notify × State) :=
  match state.running.get? id with
  | none => .ok (none, state)
  | some scan => do
      let (shouldYield, charged, accounted) ← state.account scan service
      if shouldYield then (accounted.release id).enqueueWaiter ⟨id, charged⟩
      else pure (none, { accounted with running := accounted.running.insert id charged })

def finish (id : ℕ) : Except Panic State :=
  (if state.holdsSlot id then state.release id else state).dispatch

end State

inductive Owner where
  | waiting (notify : Notify)
  | blocked (notify : Notify)
  | holding
  | suspended (suspended : Suspended)
deriving DecidableEq, Repr

structure System where
  capacity : ℕ
  maxWaiters : ℕ
  state : State
  owners : ℕ → Option Owner

inductive Event where
  | admitScan (group groupWeight : ℕ) (class_ : SchedClass)
  | wake (id : ℕ)
  | cancel (id : ℕ)
  | charge (id service : ℕ)
  | suspend (id : ℕ)
  | readmitScan (id : ℕ)
  | drop (id : ℕ)
  | reschedule (id service : ℕ)
  | finish (id : ℕ)
deriving DecidableEq, Repr

namespace System

def new (capacity boost maxWaiters : ℕ) : System where
  capacity := max capacity 1
  maxWaiters := max maxWaiters 1
  state := ⟨max capacity 1, .new boost, .empty, .empty, 0, 0, fun _ => false⟩
  owners := fun _ => none

variable (system : System)

def setOwner (id : ℕ) (owner : Option Owner) (state : State) : System :=
  { system with state := state, owners := Function.update system.owners id owner }

def overloaded : Bool :=
  system.state.free == 0 && system.maxWaiters ≤ system.state.queue.len

def admitScan (group groupWeight : ℕ) (class_ : SchedClass) : Except Panic System :=
  if system.overloaded then .ok system
  else do
    let id := system.state.nextId
    let (notify, state) ← { system.state with nextId := id + 1 }.enqueueWaiter
      ⟨id, group, groupWeight, .new id class_⟩
    pure (system.setOwner id (some (notify.elim .holding .waiting)) state)

def wake (id : ℕ) (notify : Notify) : System :=
  if system.state.permits notify then
    let state := system.state.consume notify
    if state.holdsSlot id then
      system.setOwner id (some .holding) { state with waiters := state.waiters.erase id }
    else { system with state := state }
  else system

/-- A step that the owner of the scan cannot take changes nothing. -/
def step : Event → Except Panic System
  | .admitScan group groupWeight class_ => system.admitScan group groupWeight class_
  | .wake id =>
    match system.owners id with
    | some (.waiting notify) => .ok (system.wake id notify)
    | some (.blocked notify) => .ok (system.wake id notify)
    | _ => .ok system
  | .cancel id =>
    match system.owners id with
    | some (.waiting _) => do
        let state ← system.state.cancelWaiter id
        pure (system.setOwner id none state)
    | _ => .ok system
  | .charge id service =>
    match system.owners id with
    | some .holding => do
        let (suspended, state) ← system.state.charge id service
        pure (system.setOwner id (some (suspended.elim .holding .suspended)) state)
    | _ => .ok system
  | .suspend id =>
    match system.owners id with
    | some .holding => do
        let (suspended, state) ← system.state.suspend id
        pure (system.setOwner id (some (suspended.elim .holding .suspended)) state)
    | _ => .ok system
  | .readmitScan id =>
    match system.owners id with
    | some (.suspended suspended) => do
        let (notify, state) ← system.state.enqueueWaiter suspended
        pure (system.setOwner id (some (notify.elim .holding .waiting)) state)
    | _ => .ok system
  | .drop id =>
    match system.owners id with
    | some (.suspended _) => .ok (system.setOwner id none system.state)
    | _ => .ok system
  | .reschedule id service =>
    match system.owners id with
    | some .holding => do
        let (notify, state) ← system.state.reschedule id service
        pure (system.setOwner id (some (notify.elim .holding .blocked)) state)
    | _ => .ok system
  | .finish id =>
    match system.owners id with
    | some .holding => do
        let state ← system.state.finish id
        pure (system.setOwner id none state)
    | _ => .ok system

end System

end Ferrosa.Sched
