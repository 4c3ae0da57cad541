import Ferrosa.Sched.FairAdmit
import Ferrosa.Sched.QueueContents

/-!
# The operations of the scan pool

Every operation on a scan is described by what it does to the slots, to the place of that scan and
to the places of the others.
-/

namespace Ferrosa.Sched

open SortedMap List Option

namespace State

variable (state : State)

def placed : List ℕ := state.queue.ids ++ state.running.keys

structure Coherent : Prop where
  wellFormed : state.queue.WellFormed
  placed : state.placed.Nodup
  keyed : ∀ id scan, state.running.get? id = some scan → scan.entity.id = id

structure Dispatched (before after : State) : Prop where
  coherent : after.Coherent
  placed : after.placed.Perm before.placed
  slots : after.free + after.running.keys.length = before.free + before.running.keys.length
  busy : 0 < after.free → after.queue.ids = []
  running : ∀ id scan, before.running.get? id = some scan → after.running.get? id = some scan
  waiters : after.waiters = before.waiters
  nextId : after.nextId = before.nextId
  permits : ∀ notify, before.permits notify → after.permits notify
  signalled : ∀ id notify, id ∈ before.queue.ids → id ∈ after.running.keys →
    before.waiters.get? id = some notify → after.permits notify

variable {state}

theorem permits_grant {picked : Picked} {notify : Notify} : (state.grant picked).permits notify ↔
      state.waiters.get? picked.entity.id = some notify ∨ state.permits notify := by
  simp only [grant]
  cases waiter : state.waiters.get? picked.entity.id with
  | none => simp
  | some other =>
    by_cases same : notify = other
    · simp [same]
    · simp [same, Ne.symm same]

variable {queue : GroupRunQueue} {before : State} {id : ℕ} {scan : Scan}

theorem Coherent.grant {picked : Picked} (coherent : state.Coherent)
    (wellFormed : queue.WellFormed) (split : state.queue.ids.Perm (picked.entity.id :: queue.ids)) :
    ({ state with queue := queue }.grant picked).Coherent ∧
      ({ state with queue := queue }.grant picked).placed.Perm state.placed ∧
      ({ state with queue := queue }.grant picked).running.keys.length =
        state.running.keys.length + 1 ∧ picked.entity.id ∉ state.running.keys := by
  have moved : state.placed.Perm (queue.ids ++ picked.entity.id :: state.running.keys) :=
    (split.append_right state.running.keys).trans perm_middle.symm
  have absent : picked.entity.id ∉ state.running.keys := by
    have nodup := (nodup_append.mp (moved.nodup_iff.mp coherent.placed)).2.1
    exact (nodup_cons.mp nodup).1
  have keys := keys_insert_perm absent (⟨picked.group, picked.groupWeight, picked.entity⟩ : Scan)
  have same : ({ state with queue := queue }.grant picked).placed.Perm state.placed :=
    (keys.append_left queue.ids).trans moved.symm
  refine ⟨⟨wellFormed, same.nodup_iff.mpr coherent.placed, ?_⟩, same, keys.length_eq, absent⟩
  intro id scan found
  simp only [State.grant, get?_insert] at found
  split_ifs at found with isPicked
  · rw [← Option.some.inj found, isPicked]
  · exact coherent.keyed id scan found

theorem dispatchLoop_spec (slots : ℕ) (coherent : state.Coherent) (free : state.free = slots) :
    ∃ after, dispatchLoop slots state = .ok after ∧ Dispatched state after := by
  induction slots generalizing state with
  | zero =>
    refine ⟨state, rfl, coherent, List.Perm.refl _, rfl, ?_, fun _ _ found => found, rfl, rfl,
      fun _ given => given, ?_⟩
    · omega
    · intro id notify queued running
      have disjoint := (nodup_append.mp coherent.placed).2.2
      exact absurd rfl (disjoint id queued id running)
  | succ slots ih =>
    rcases coherent.wellFormed.pickNext with
      ⟨picks, empty⟩ | ⟨picked, queue, picks, wellFormed, split⟩
    · refine ⟨state, by simp [dispatchLoop, picks], coherent, List.Perm.refl _, rfl,
        fun _ => empty, fun _ _ found => found, rfl, rfl, fun _ given => given, ?_⟩
      simp [empty]
    · rcases coherent.grant wellFormed split with ⟨granted, placed, count, absent⟩
      have freeAfter : ({ state with queue := queue }.grant picked).free = slots := by
        simp [State.grant, free]
      rcases ih granted freeAfter with ⟨after, loops, dispatched⟩
      refine ⟨after, by simp [dispatchLoop, picks, loops], dispatched.coherent,
        dispatched.placed.trans placed, ?_, dispatched.busy, ?_, dispatched.waiters,
        dispatched.nextId, ?_, ?_⟩
      · have := dispatched.slots
        omega
      · intro id scan found
        apply dispatched.running
        have different : id ≠ picked.entity.id := by
          rintro rfl
          exact absent (mem_keys_of_get? found)
        simpa [State.grant, get?_insert, different] using found
      · intro notify given
        exact dispatched.permits notify (permits_grant.mpr (Or.inr given))
      · intro id notify queued running waiter
        rcases mem_cons.mp (split.mem_iff.mp queued) with rfl | later
        · exact dispatched.permits notify (permits_grant.mpr (Or.inl waiter))
        · exact dispatched.signalled id notify later running waiter

theorem dispatch_spec (coherent : state.Coherent) :
    ∃ after, state.dispatch = .ok after ∧ Dispatched state after :=
  dispatchLoop_spec state.free coherent rfl

def Waits (state : State) (id : ℕ) (notify : Notify) : Prop :=
  notify.id = id ∧ (id ∈ state.queue.ids ∧ state.waiters.get? id = some notify ∨
      id ∈ state.running.keys ∧ state.permits notify)

def Agrees (state : State) (id : ℕ) : Option Owner → Prop
  | none => id ∉ state.placed
  | some (.waiting notify) => state.Waits id notify
  | some (.blocked notify) => state.Waits id notify
  | some .holding => id ∈ state.running.keys
  | some (.suspended suspended) =>
    id ∉ state.placed ∧ suspended.id = id ∧ suspended.scan.entity.id = id

variable {after : State} {owner : Option Owner} {suspended : Suspended}

theorem Waits.dispatched {notify : Notify}
    (waits : before.Waits id notify) (dispatched : Dispatched before after) :
    after.Waits id notify := by
  rcases waits with ⟨named, ⟨queued, waiter⟩ | ⟨running, permit⟩⟩
  · refine ⟨named, ?_⟩
    have still := dispatched.placed.mem_iff.mpr (mem_append_left _ queued)
    rcases mem_append.mp still with later | granted
    · exact Or.inl ⟨later, dispatched.waiters ▸ waiter⟩
    · exact Or.inr ⟨granted, dispatched.signalled id notify queued granted waiter⟩
  · rcases isSome_iff_exists.mp (mem_keys_iff.mp running) with ⟨scan, found⟩
    refine ⟨named, Or.inr ⟨?_, dispatched.permits notify permit⟩⟩
    exact mem_keys_of_get? (dispatched.running id scan found)

theorem Agrees.dispatched (agrees : before.Agrees id owner) (dispatched : Dispatched before after) :
    after.Agrees id owner := by
  have placed : id ∈ after.placed ↔ id ∈ before.placed := dispatched.placed.mem_iff
  rcases owner with _ | notify | notify | _ | suspended
  · exact placed.not.mpr agrees
  · exact Waits.dispatched agrees dispatched
  · exact Waits.dispatched agrees dispatched
  · rcases isSome_iff_exists.mp (mem_keys_iff.mp agrees) with ⟨scan, found⟩
    exact mem_keys_of_get? (dispatched.running id scan found)
  · exact ⟨placed.not.mpr agrees.1, agrees.2⟩

structure Elsewhere (id : ℕ) (before after : State) : Prop where
  queue : ∀ other, other ≠ id → (other ∈ after.queue.ids ↔ other ∈ before.queue.ids)
  running : ∀ other, other ≠ id → (other ∈ after.running.keys ↔ other ∈ before.running.keys)
  waiters : ∀ other, other ≠ id → after.waiters.get? other = before.waiters.get? other
  permits : ∀ notify : Notify, notify.id ≠ id → after.permits notify = before.permits notify

theorem Elsewhere.refl (id : ℕ) (state : State) : Elsewhere id state state :=
  ⟨fun _ _ => Iff.rfl, fun _ _ => Iff.rfl, fun _ _ => rfl, fun _ _ => rfl⟩

theorem Elsewhere.trans {middle : State} (first : Elsewhere id before middle)
    (second : Elsewhere id middle after) : Elsewhere id before after where
  queue := fun other differs => (second.queue other differs).trans (first.queue other differs)
  running := fun other differs =>
    (second.running other differs).trans (first.running other differs)
  waiters := fun other differs =>
    (second.waiters other differs).trans (first.waiters other differs)
  permits := fun notify differs =>
    (second.permits notify differs).trans (first.permits notify differs)

theorem elsewhere_eraseWaiter (id : ℕ) (state : State) :
    Elsewhere id state { state with waiters := state.waiters.erase id } := by
  refine ⟨fun _ _ => Iff.rfl, fun _ _ => Iff.rfl, ?_, fun _ _ => rfl⟩
  intro other different
  simp [get?_erase, different]

theorem Agrees.elsewhere {other : ℕ} (agrees : before.Agrees other owner)
    (elsewhere : Elsewhere id before after) (different : other ≠ id) :
    after.Agrees other owner := by
  have queue := elsewhere.queue other different
  have running := elsewhere.running other different
  have placed : other ∈ after.placed ↔ other ∈ before.placed := by
    simp [State.placed, queue, running]
  have waits : ∀ notify, before.Waits other notify → after.Waits other notify := by
    rintro notify ⟨named, place⟩
    have permits := elsewhere.permits notify (named ▸ different)
    refine ⟨named, ?_⟩
    rwa [queue, running, elsewhere.waiters other different, permits]
  rcases owner with _ | notify | notify | _ | suspended
  · exact placed.not.mpr agrees
  · exact waits notify agrees
  · exact waits notify agrees
  · exact running.mpr agrees
  · exact ⟨placed.not.mpr agrees.1, agrees.2⟩

structure Stepped (id : ℕ) (before after : State) : Prop where
  coherent : after.Coherent
  slots : after.free + after.running.keys.length = before.free + before.running.keys.length
  busy : 0 < after.free → after.queue.ids = []
  nextId : after.nextId = before.nextId
  agrees : ∀ other owner, other ≠ id → before.Agrees other owner → after.Agrees other owner
  signalled : ∀ other notify, other ∈ before.queue.ids → other ∈ after.running.keys →
    before.waiters.get? other = some notify → after.permits notify

theorem Dispatched.stepped {middle : State}
    (dispatched : Dispatched middle after) (elsewhere : Elsewhere id before middle)
    (slots : middle.free + middle.running.keys.length = before.free + before.running.keys.length)
    (nextId : middle.nextId = before.nextId) (unqueued : id ∉ before.queue.ids) :
    Stepped id before after where
  coherent := dispatched.coherent
  slots := dispatched.slots.trans slots
  busy := dispatched.busy
  nextId := dispatched.nextId.trans nextId
  agrees := fun other owner different agrees =>
    (agrees.elsewhere elsewhere different).dispatched dispatched
  signalled := by
    intro other notify queued running waiter
    have different : other ≠ id := by
      rintro rfl
      exact unqueued queued
    apply dispatched.signalled other notify ((elsewhere.queue other different).mpr queued) running
    rwa [elsewhere.waiters other different]

theorem Coherent.not_queued (coherent : state.Coherent)
    (found : state.running.get? id = some scan) : id ∉ state.queue.ids := by
  intro queued
  have disjoint := (nodup_append.mp coherent.placed).2.2
  exact disjoint id queued id (mem_keys_of_get? found) rfl

structure Removed (id : ℕ) (before after : State) : Prop where
  coherent : after.Coherent
  elsewhere : Elsewhere id before after
  unplaced : id ∉ after.placed
  slots : after.free + after.running.keys.length = before.free + before.running.keys.length

theorem Removed.dispatch {middle : State} (removed : Removed id before middle)
    (nextId : middle.nextId = before.nextId) (unqueued : id ∉ before.queue.ids) :
    ∃ after, middle.dispatch = .ok after ∧ Stepped id before after ∧ id ∉ after.placed := by
  rcases dispatch_spec removed.coherent with ⟨after, dispatches, dispatched⟩
  exact ⟨after, dispatches, dispatched.stepped removed.elsewhere removed.slots nextId unqueued,
    dispatched.placed.mem_iff.not.mpr removed.unplaced⟩

theorem Coherent.release (coherent : state.Coherent) (found : state.running.get? id = some scan) :
    Removed id state (state.release id) := by
  have keys := keys_erase_perm found
  have split : state.placed.Perm (id :: (state.release id).placed) :=
    (keys.append_left state.queue.ids).trans perm_middle
  have nodup := nodup_cons.mp (split.nodup_iff.mp coherent.placed)
  refine ⟨⟨coherent.wellFormed, nodup.2, ?_⟩, ⟨fun _ _ => Iff.rfl, ?_, fun _ _ => rfl,
    fun _ _ => rfl⟩, nodup.1, ?_⟩
  · intro other otherScan otherFound
    simp only [State.release, get?_erase] at otherFound
    split_ifs at otherFound
    exact coherent.keyed other otherScan otherFound
  · intro other different
    simp [State.release, mem_keys_iff, get?_erase, different]
  · have count := keys.length_eq
    simp only [length_cons] at count
    simp only [State.release]
    omega

theorem Coherent.register (coherent : state.Coherent) (unplaced : suspended.id ∉ state.placed)
    (named : suspended.scan.entity.id = suspended.id) :
    (state.register suspended).Coherent ∧ Elsewhere suspended.id state (state.register suspended) ∧
      (state.register suspended).Waits suspended.id ⟨suspended.id, state.nextSerial⟩ := by
  have ids := state.queue.ids_enqueue suspended.scan.group suspended.scan.weight
    suspended.scan.entity
  rw [named] at ids
  have placed : (state.register suspended).placed.Perm (suspended.id :: state.placed) :=
    ids.append_right state.running.keys
  refine ⟨⟨?_, ?_, coherent.keyed⟩, ⟨?_, fun _ _ => Iff.rfl, ?_, ?_⟩, rfl, Or.inl ⟨?_, ?_⟩⟩
  · exact coherent.wellFormed.enqueue _ _ _
  · exact placed.nodup_iff.mpr (nodup_cons.mpr ⟨unplaced, coherent.placed⟩)
  · intro other different
    rw [State.register, ids.mem_iff]
    simp [different]
  · intro other different
    simp [State.register, get?_insert, different]
  · intro notify different
    have other : notify ≠ ⟨suspended.id, state.nextSerial⟩ := by
      rintro rfl
      exact different rfl
    simp [State.register, other]
  · exact ids.mem_iff.mpr (mem_cons_self)
  · simp [State.register, get?_insert]

theorem Stepped.eraseWaiter (stepped : Stepped id before after) :
    Stepped id before { after with waiters := after.waiters.erase id } :=
  { stepped with
    coherent := { stepped.coherent with }
    agrees := fun other owner different agrees =>
      (stepped.agrees other owner different agrees).elsewhere (elsewhere_eraseWaiter id after)
        different }

theorem enqueueWaiter_spec (removed : Removed suspended.id before state)
    (named : suspended.scan.entity.id = suspended.id) (unqueued : suspended.id ∉ before.queue.ids) :
    ∃ notify after, state.enqueueWaiter suspended = .ok (notify, after) ∧
      Stepped suspended.id { before with nextId := state.nextId } after ∧
      notify.elim (suspended.id ∈ after.running.keys) (after.Waits suspended.id) := by
  rcases removed.coherent.register removed.unplaced named with ⟨registered, outside, waits⟩
  rcases dispatch_spec registered with ⟨after, dispatches, dispatched⟩
  have whole := removed.elsewhere.trans outside
  have stepped : Stepped suspended.id { before with nextId := state.nextId } after :=
    dispatched.stepped { whole with } removed.slots rfl unqueued
  by_cases granted : after.holdsSlot suspended.id
  · refine ⟨none, _, ?_, stepped.eraseWaiter, mem_keys_iff.mpr granted⟩
    simp [enqueueWaiter, dispatches, granted, bind, Except.bind, pure, Except.pure]
  · refine ⟨some ⟨suspended.id, state.nextSerial⟩, after, ?_, stepped, ?_⟩
    · simp [enqueueWaiter, dispatches, granted, bind, Except.bind, pure, Except.pure]
    · exact waits.dispatched dispatched

theorem Elsewhere.stepped (elsewhere : Elsewhere id before after)
    (coherent : before.Coherent) (coherentAfter : after.Coherent)
    (running : after.running.keys.Perm before.running.keys) (free : after.free = before.free)
    (busy : 0 < after.free → after.queue.ids = []) (nextId : after.nextId = before.nextId) :
    Stepped id before after where
  coherent := coherentAfter
  slots := by rw [running.length_eq, free]
  busy := busy
  nextId := nextId
  agrees := fun _ _ different agrees => agrees.elsewhere elsewhere different
  signalled := by
    intro other notify queued granted
    rw [running.mem_iff] at granted
    have disjoint := (nodup_append.mp coherent.placed).2.2
    exact absurd rfl (disjoint other queued other granted)

section

variable (coherent : state.Coherent)

include coherent

theorem cancelWaiter_spec (id : ℕ) (busy : 0 < state.free → state.queue.ids = []) :
    ∃ after, state.cancelWaiter id = .ok after ∧ Stepped id state after ∧ id ∉ after.placed := by
  have unregistered := elsewhere_eraseWaiter id state
  have coherentStill : { state with waiters := state.waiters.erase id : State }.Coherent :=
    { coherent with }
  cases removed : state.queue.removeById id with
  | some queue =>
    have ids := state.queue.ids_removeById removed
    have placed := nodup_cons.mp
      ((ids.append_right state.running.keys).nodup_iff.mp coherent.placed)
    refine ⟨{ state with waiters := state.waiters.erase id, queue := queue }, ?_, ?_, placed.1⟩
    · simp [cancelWaiter, removed]
    · refine Elsewhere.stepped ⟨?_, fun _ _ => Iff.rfl, unregistered.waiters, fun _ _ => rfl⟩
        coherent ⟨coherent.wellFormed.removeById removed, placed.2, coherent.keyed⟩
        (List.Perm.refl _) rfl ?_ rfl
      · intro other different
        simp [ids.mem_iff, different]
      · intro free
        simp [busy free] at ids
  | none =>
    have unqueued := state.queue.not_mem_of_removeById removed
    by_cases granted : state.holdsSlot id
    · rcases isSome_iff_exists.mp granted with ⟨scan, found⟩
      have released := coherentStill.release found
      have whole : Removed id state _ := ⟨released.coherent,
        unregistered.trans released.elsewhere, released.unplaced, released.slots⟩
      rcases whole.dispatch rfl unqueued with ⟨after, dispatches, stepped, unplaced⟩
      refine ⟨after, ?_, stepped, unplaced⟩
      have holds : State.holdsSlot { state with waiters := state.waiters.erase id } id := granted
      simp only [cancelWaiter, removed, holds, if_true]
      exact dispatches
    · refine ⟨{ state with waiters := state.waiters.erase id }, ?_, ?_, ?_⟩
      · have holds : ¬ State.holdsSlot { state with waiters := state.waiters.erase id } id :=
          granted
        simp [cancelWaiter, removed, holds]
      · exact unregistered.stepped coherent coherentStill (List.Perm.refl _) rfl busy rfl
      · simp only [State.placed, mem_append, not_or]
        exact ⟨unqueued, fun running => granted (mem_keys_iff.mp running)⟩

theorem account_spec (scan : Scan) (service : ℕ) : ∃ shouldYield charged queue,
      state.account scan service = .ok (shouldYield, charged, { state with queue := queue }) ∧
      charged.entity.id = scan.entity.id ∧ queue.WellFormed ∧ queue.ids.Perm state.queue.ids := by
  have wellFormed := coherent.wellFormed.charge scan.group service
  rcases wellFormed.peekMin with ⟨least, peeks⟩
  simp only [account, peeks, bind, Except.bind, pure, Except.pure]
  exact ⟨_, _, _, rfl, rfl, wellFormed, state.queue.ids_charge scan.group service⟩

theorem keep_spec {charged : Scan} (found : state.running.get? id = some scan)
    (named : charged.entity.id = scan.entity.id) (wellFormed : queue.WellFormed)
    (ids : queue.ids.Perm state.queue.ids) (busy : 0 < state.free → state.queue.ids = []) :
    Stepped id state { state with queue := queue, running := state.running.insert id charged } ∧
      id ∈ (state.running.insert id charged).keys := by
  have keys : (state.running.insert id charged).keys.Perm state.running.keys :=
    ((state.running.insert_perm_cons_erase id charged).map Prod.fst).trans
      (keys_erase_perm found).symm
  have placed := (ids.append keys).nodup_iff.mpr coherent.placed
  constructor
  · refine Elsewhere.stepped ⟨?_, ?_, fun _ _ => rfl, fun _ _ => rfl⟩ coherent
      ⟨wellFormed, placed, ?_⟩ keys rfl ?_ rfl
    · intro other _
      exact ids.mem_iff
    · intro other _
      exact keys.mem_iff
    · intro other otherScan otherFound
      rw [get?_insert] at otherFound
      split_ifs at otherFound with same
      · rw [← Option.some.inj otherFound, named, coherent.keyed id scan found, same]
      · exact coherent.keyed other otherScan otherFound
    · intro free
      exact List.Perm.eq_nil (ids.trans (by rw [busy free]))
  · exact keys.mem_iff.mpr (mem_keys_of_get? found)

theorem Coherent.yield (found : state.running.get? id = some scan)
    (wellFormed : queue.WellFormed) (ids : queue.ids.Perm state.queue.ids) :
    Removed id state (State.release { state with queue := queue } id) := by
  have placed := (ids.append_right state.running.keys).nodup_iff.mpr coherent.placed
  have coherentStill : { state with queue := queue : State }.Coherent :=
    ⟨wellFormed, placed, coherent.keyed⟩
  have released := coherentStill.release found
  have requeued : Elsewhere id state { state with queue := queue } :=
    ⟨fun _ _ => ids.mem_iff, fun _ _ => Iff.rfl, fun _ _ => rfl, fun _ _ => rfl⟩
  exact ⟨released.coherent, requeued.trans released.elsewhere, released.unplaced, released.slots⟩

section

variable (running : id ∈ state.running.keys)

include running

theorem charge_spec (service : ℕ) (busy : 0 < state.free → state.queue.ids = []) :
    ∃ suspended after, state.charge id service = .ok (suspended, after) ∧ Stepped id state after ∧
      after.Agrees id (some (suspended.elim .holding .suspended)) := by
  rcases isSome_iff_exists.mp (mem_keys_iff.mp running) with ⟨scan, found⟩
  rcases account_spec coherent scan service with
    ⟨shouldYield, charged, queue, accounts, named, wellFormed, ids⟩
  cases shouldYield with
  | false =>
    rcases keep_spec coherent found named wellFormed ids busy with ⟨stepped, held⟩
    refine ⟨none, _, ?_, stepped, held⟩
    simp [charge, found, accounts, bind, Except.bind, pure, Except.pure]
  | true =>
    rcases (coherent.yield found wellFormed ids).dispatch rfl (coherent.not_queued found) with
      ⟨after, dispatches, stepped, unplaced⟩
    refine ⟨some ⟨id, charged⟩, after, ?_, stepped, unplaced, rfl, ?_⟩
    · simp [charge, found, accounts, dispatches, bind, Except.bind, pure, Except.pure]
    · exact named.trans (coherent.keyed id scan found)

theorem suspend_spec :
    ∃ suspended after, state.suspend id = .ok (suspended, after) ∧ Stepped id state after ∧
      after.Agrees id (some (suspended.elim .holding .suspended)) := by
  rcases isSome_iff_exists.mp (mem_keys_iff.mp running) with ⟨scan, found⟩
  rcases (coherent.release found).dispatch rfl (coherent.not_queued found) with
    ⟨after, dispatches, stepped, unplaced⟩
  refine ⟨some ⟨id, scan⟩, after, ?_, stepped, unplaced, rfl, coherent.keyed id scan found⟩
  simp [suspend, found, dispatches, bind, Except.bind, pure, Except.pure]

theorem finish_spec :
    ∃ after, state.finish id = .ok after ∧ Stepped id state after ∧ id ∉ after.placed := by
  have holds : state.holdsSlot id := mem_keys_iff.mp running
  rcases isSome_iff_exists.mp holds with ⟨scan, found⟩
  rcases (coherent.release found).dispatch rfl (coherent.not_queued found) with
    ⟨after, dispatches, stepped, unplaced⟩
  refine ⟨after, ?_, stepped, unplaced⟩
  simp [finish, holds, dispatches]

theorem reschedule_spec (service : ℕ) (busy : 0 < state.free → state.queue.ids = []) :
    ∃ notify after, state.reschedule id service = .ok (notify, after) ∧ Stepped id state after ∧
      after.Agrees id (some (notify.elim .holding .blocked)) := by
  rcases isSome_iff_exists.mp (mem_keys_iff.mp running) with ⟨scan, found⟩
  rcases account_spec coherent scan service with
    ⟨shouldYield, charged, queue, accounts, named, wellFormed, ids⟩
  cases shouldYield with
  | false =>
    rcases keep_spec coherent found named wellFormed ids busy with ⟨stepped, held⟩
    refine ⟨none, _, ?_, stepped, held⟩
    simp [reschedule, found, accounts, bind, Except.bind, pure, Except.pure]
  | true =>
    rcases @enqueueWaiter_spec _ state ⟨id, charged⟩ (coherent.yield found wellFormed ids)
        (named.trans (coherent.keyed id scan found)) (coherent.not_queued found) with
      ⟨notify, after, enqueues, stepped, place⟩
    refine ⟨notify, after, ?_, stepped, ?_⟩
    · simpa [reschedule, found, accounts, bind, Except.bind, pure, Except.pure] using enqueues
    · cases notify <;> exact place

end

end

end State

end Ferrosa.Sched
