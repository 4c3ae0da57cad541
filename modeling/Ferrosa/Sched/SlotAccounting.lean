import Ferrosa.Lib.Runs
import Ferrosa.Sched.PoolOperations

/-!
# Slot accounting of the scan pool

After every step a slot is free or held by one running scan, every live scan is queued, running or
suspended, and no slot is free while a scan is queued.
-/

namespace Ferrosa.Sched

open List State SortedMap

namespace System

variable (system : System)

def suspendedCount (id : ℕ) : ℕ :=
  match system.owners id with
  | some (.suspended _) => 1
  | _ => 0

structure Accounted : Prop where
  slots : system.state.free + system.state.running.keys.length = system.capacity
  places : ∀ id, system.state.queue.ids.count id + system.state.running.keys.count id +
    system.suspendedCount id = if (system.owners id).isSome then 1 else 0
  busy : 0 < system.state.free → system.state.queue.ids = []
  waiters : ∀ id ∈ system.state.queue.ids, ∃ notify, system.state.waiters.get? id = some notify ∧
      (system.owners id = some (.waiting notify) ∨ system.owners id = some (.blocked notify))

structure StepSound (event : Event) (after : System) : Prop where
  accounted : after.Accounted
  overloaded : ∀ group groupWeight class_, event = .admitScan group groupWeight class_ →
    system.state.free = 0 → system.maxWaiters ≤ system.state.queue.ids.length → after = system
  cancelled : ∀ id notify, event = .cancel id → system.owners id = some (.waiting notify) →
    after.owners id = none ∧ id ∉ after.state.queue.ids ∧ id ∉ after.state.running.keys
  signalled : ∀ id ∈ system.state.queue.ids, id ∈ after.state.running.keys →
    ∃ notify, system.state.waiters.get? id = some notify ∧ after.state.permits notify

structure Sound : Prop where
  coherent : system.state.Coherent
  slots : system.state.free + system.state.running.keys.length = system.capacity
  busy : 0 < system.state.free → system.state.queue.ids = []
  agrees : ∀ id, system.state.Agrees id (system.owners id)
  fresh : ∀ id, system.state.nextId ≤ id → system.owners id = none

variable {system}

theorem sound_new (capacity boost maxWaiters : ℕ) : (new capacity boost maxWaiters).Sound where
  coherent := by
    refine ⟨GroupRunQueue.wellFormed_new boost, nodup_nil, ?_⟩
    simp [new, empty, get?]
  slots := rfl
  busy := fun _ => rfl
  agrees := by
    intro id
    exact not_mem_nil
  fresh := fun _ _ => rfl

namespace Sound

variable (sound : system.Sound)

include sound

variable {id : ℕ} {owner : Option Owner}

theorem waiters (queued : id ∈ system.state.queue.ids) :
    ∃ notify, system.state.waiters.get? id = some notify ∧
      (system.owners id = some (.waiting notify) ∨ system.owners id = some (.blocked notify)) := by
  have notRunning : id ∉ system.state.running.keys := fun running =>
    (nodup_append.mp sound.coherent.placed).2.2 id queued id running rfl
  have placed : id ∈ system.state.placed := mem_append_left _ queued
  have waits : ∀ notify, system.state.Waits id notify →
      system.state.waiters.get? id = some notify := by
    rintro notify ⟨-, ⟨-, waiter⟩ | ⟨running, -⟩⟩
    · exact waiter
    · exact absurd running notRunning
  have agrees := sound.agrees id
  rcases owner : system.owners id with _ | notify | notify | _ | suspended <;> rw [owner] at agrees
  · exact absurd placed agrees
  · exact ⟨notify, waits notify agrees, Or.inl rfl⟩
  · exact ⟨notify, waits notify agrees, Or.inr rfl⟩
  · exact absurd agrees notRunning
  · exact absurd placed agrees.1

theorem mem_placed_iff (id : ℕ) :
    id ∈ system.state.placed ↔ (system.owners id).isSome ∧ system.suspendedCount id = 0 := by
  have waits : ∀ notify, system.state.Waits id notify → id ∈ system.state.placed := by
    rintro notify ⟨-, ⟨queued, -⟩ | ⟨running, -⟩⟩
    · exact mem_append_left _ queued
    · exact mem_append_right _ running
  have agrees := sound.agrees id
  rcases owner : system.owners id with _ | notify | notify | _ | suspended <;> rw [owner] at agrees
  · have unplaced : id ∉ system.state.placed := agrees
    simp [unplaced]
  · simpa [suspendedCount, owner] using waits notify agrees
  · simpa [suspendedCount, owner] using waits notify agrees
  · have placed : id ∈ system.state.placed := mem_append_right _ agrees
    simpa [suspendedCount, owner] using placed
  · simpa [suspendedCount, owner] using agrees.1

theorem accounted : system.Accounted where
  slots := sound.slots
  busy := sound.busy
  waiters := fun id queued => sound.waiters queued
  places := by
    intro id
    have placed := sound.mem_placed_iff id
    rw [← count_append, ← State.placed, sound.coherent.placed.count]
    rcases owner : system.owners id with _ | notify | notify | _ | suspended <;>
      simp [suspendedCount, owner] at placed ⊢ <;> simp [placed]

theorem setOwner {after : State}
    (stepped : State.Stepped id system.state after) (agrees : after.Agrees id owner)
    (known : id < system.state.nextId) : (system.setOwner id owner after).Sound where
  coherent := stepped.coherent
  slots := stepped.slots.trans sound.slots
  busy := stepped.busy
  agrees := by
    intro other
    by_cases same : other = id
    · simpa [System.setOwner, same] using agrees
    · simpa [System.setOwner, same] using stepped.agrees other _ same (sound.agrees other)
  fresh := by
    intro other new
    simp only [System.setOwner, stepped.nextId] at new
    have different : other ≠ id := by omega
    simpa [System.setOwner, different] using sound.fresh other new

theorem lt_nextId {owner : Owner}
    (owned : system.owners id = some owner) : id < system.state.nextId := by
  by_contra new
  have unowned := sound.fresh id (by omega)
  simp [owned] at unowned

theorem stutter {event : Event}
    (notCancelled : ∀ id notify, event = .cancel id → system.owners id ≠ some (.waiting notify)) :
    ∃ after, (.ok system : Except Panic System) = .ok after ∧ after.Sound ∧
      system.StepSound event after := by
  refine ⟨system, rfl, sound, sound.accounted, fun _ _ _ _ _ _ => rfl, ?_, ?_⟩
  · intro id notify isCancel waits
    exact absurd waits (notCancelled id notify isCancel)
  · intro id queued running
    exact absurd rfl ((nodup_append.mp sound.coherent.placed).2.2 id queued id running)

theorem operate {event : Event} {state : State} (stepped : State.Stepped id system.state state)
    (agrees : state.Agrees id owner) (known : id < system.state.nextId)
    (notAdmit : ∀ group groupWeight class_, event ≠ .admitScan group groupWeight class_)
    (cancels : ∀ other, event = .cancel other → other = id ∧ owner = none) :
    ∃ after, (.ok (system.setOwner id owner state) : Except Panic System) = .ok after ∧
      after.Sound ∧ system.StepSound event after := by
  have soundAfter := sound.setOwner stepped agrees known
  refine ⟨_, rfl, soundAfter, soundAfter.accounted, ?_, ?_, ?_⟩
  · intro group groupWeight class_ isAdmit
    exact absurd isAdmit (notAdmit group groupWeight class_)
  · intro other notify isCancel _
    rcases cancels other isCancel with ⟨rfl, rfl⟩
    have unplaced : other ∉ state.placed := agrees
    simp only [State.placed, mem_append, not_or] at unplaced
    exact ⟨by simp [System.setOwner], unplaced⟩
  · intro other queued running
    rcases sound.waiters queued with ⟨notify, waiter, -⟩
    exact ⟨notify, waiter, stepped.signalled other notify queued running waiter⟩

theorem admitScan (group groupWeight : ℕ) (class_ : SchedClass) :
    ∃ after, system.admitScan group groupWeight class_ = .ok after ∧ after.Sound ∧
      system.StepSound (.admitScan group groupWeight class_) after := by
  by_cases overloaded : system.overloaded
  · simp only [System.admitScan, overloaded, if_true]
    exact sound.stutter (by simp)
  · have unowned := sound.fresh system.state.nextId (Nat.le_refl _)
    have unplaced : system.state.nextId ∉ system.state.placed := by
      have agrees := sound.agrees system.state.nextId
      rwa [unowned] at agrees
    have numbered : { system with
        state := { system.state with nextId := system.state.nextId + 1 } : System }.Sound :=
      ⟨⟨sound.coherent.wellFormed, sound.coherent.placed, sound.coherent.keyed⟩, sound.slots,
        sound.busy, sound.agrees, fun id new => sound.fresh id (Nat.le_of_succ_le new)⟩
    rcases @enqueueWaiter_spec _ system.state
        ⟨system.state.nextId, group, groupWeight, .new system.state.nextId class_⟩
        ⟨numbered.coherent, ⟨fun _ _ => Iff.rfl, fun _ _ => Iff.rfl, fun _ _ => rfl,
          fun _ _ => rfl⟩, unplaced, rfl⟩ rfl
        (fun queued => unplaced (mem_append_left _ queued)) with
      ⟨notify, state, enqueues, stepped, place⟩
    have agrees : state.Agrees system.state.nextId (some (notify.elim .holding .waiting)) := by
      cases notify <;> exact place
    have soundAfter := numbered.setOwner stepped agrees (Nat.lt_succ_self _)
    simp only [System.admitScan, overloaded, enqueues, bind, Except.bind, pure, Except.pure]
    refine ⟨_, rfl, soundAfter, soundAfter.accounted, ?_, by simp, ?_⟩
    · intro _ _ _ _ full queued
      rw [system.state.queue.length_ids] at queued
      simp [System.overloaded, full, queued] at overloaded
    · intro other queued running
      rcases sound.waiters queued with ⟨object, waiter, -⟩
      exact ⟨object, waiter, stepped.signalled other object queued running waiter⟩

theorem stepped {waiters : SortedMap ℕ Notify} {permits : Notify → Bool}
    (elsewhere : State.Elsewhere id system.state { system.state with waiters, permits })
    (coherent : State.Coherent { system.state with waiters, permits }) :
    State.Stepped id system.state { system.state with waiters, permits } :=
  elsewhere.stepped sound.coherent coherent (.refl _) rfl sound.busy rfl

theorem wake {notify : Notify} (owner : system.owners id = some (.waiting notify) ∨
      system.owners id = some (.blocked notify)) :
    ∃ after, (.ok (system.wake id notify) : Except Panic System) = .ok after ∧ after.Sound ∧
      system.StepSound (.wake id) after := by
  have waits : system.state.Waits id notify := by
    have agrees := sound.agrees id
    rcases owner with owner | owner <;> rwa [owner] at agrees
  have known : id < system.state.nextId := by
    rcases owner with owner | owner <;> exact sound.lt_nextId owner
  have consumed : ∀ other : Notify, other.id ≠ id →
      (system.state.consume notify).permits other = system.state.permits other := by
    intro other different
    have distinct : other ≠ notify := by
      rintro rfl
      exact different waits.1
    simp [consume, distinct]
  have coherent : (system.state.consume notify).Coherent := { sound.coherent with }
  simp only [System.wake]
  split_ifs with permit held
  · have woken : State.Stepped id system.state { system.state.consume notify with
        waiters := (system.state.consume notify).waiters.erase id } := by
      refine sound.stepped ⟨fun _ _ => Iff.rfl, fun _ _ => Iff.rfl, ?_, consumed⟩
        { coherent with }
      intro other different
      simp [consume, get?_erase, different]
    exact sound.operate woken (mem_keys_iff.mpr held) known (by simp) (by simp)
  · have still : (system.state.consume notify).Waits id notify := by
      rcases waits with ⟨named, queued | ⟨running, -⟩⟩
      · exact ⟨named, Or.inl queued⟩
      · exact absurd (mem_keys_iff.mp running) held
    have agrees : (system.state.consume notify).Agrees id (system.owners id) := by
      rcases owner with owner | owner <;> rw [owner] <;> exact still
    have woken : State.Stepped id system.state (system.state.consume notify) :=
      sound.stepped ⟨fun _ _ => Iff.rfl, fun _ _ => Iff.rfl, fun _ _ => rfl, consumed⟩ coherent
    have unchanged := @operate system sound id _ (.wake id) _ woken agrees known (by simp) (by simp)
    simpa [System.setOwner] using unchanged
  · exact sound.stutter (by simp)

theorem running_of_holding (owner : system.owners id = some .holding) :
    id ∈ system.state.running.keys := by
  have agrees := sound.agrees id
  rwa [owner] at agrees

theorem step (event : Event) :
    ∃ after, system.step event = .ok after ∧ after.Sound ∧ system.StepSound event after := by
  cases event with
  | admitScan group groupWeight class_ => exact sound.admitScan group groupWeight class_
  | wake id =>
    simp only [System.step]
    split
    · rename_i notify owner
      exact sound.wake (Or.inl owner)
    · rename_i notify owner
      exact sound.wake (Or.inr owner)
    · exact sound.stutter (by simp)
  | cancel id =>
    simp only [System.step]
    split
    · rename_i notify owner
      rcases cancelWaiter_spec sound.coherent id sound.busy with
        ⟨state, cancels, stepped, unplaced⟩
      simp only [cancels, bind, Except.bind, pure, Except.pure]
      exact sound.operate stepped unplaced (sound.lt_nextId owner) (by simp) (by simp)
    · rename_i notWaiting
      apply sound.stutter
      rintro other notify isCancel waits
      cases isCancel
      exact notWaiting notify waits
  | charge id service =>
    simp only [System.step]
    split
    · rename_i owner
      rcases charge_spec sound.coherent (sound.running_of_holding owner) service
        sound.busy with ⟨suspended, state, charges, stepped, agrees⟩
      simp only [charges, bind, Except.bind, pure, Except.pure]
      exact sound.operate stepped agrees (sound.lt_nextId owner) (by simp) (by simp)
    · exact sound.stutter (by simp)
  | suspend id =>
    simp only [System.step]
    split
    · rename_i owner
      rcases suspend_spec sound.coherent (sound.running_of_holding owner) with
        ⟨suspended, state, suspends, stepped, agrees⟩
      simp only [suspends, bind, Except.bind, pure, Except.pure]
      exact sound.operate stepped agrees (sound.lt_nextId owner) (by simp) (by simp)
    · exact sound.stutter (by simp)
  | readmitScan id =>
    simp only [System.step]
    split
    · rename_i suspended owner
      have agrees := sound.agrees id
      rw [owner] at agrees
      rcases agrees with ⟨unplaced, rfl, named⟩
      rcases @enqueueWaiter_spec _ system.state suspended
          ⟨sound.coherent, .refl _ _, unplaced, rfl⟩ named
          (fun queued => unplaced (mem_append_left _ queued)) with
        ⟨notify, state, enqueues, stepped, place⟩
      have place : state.Agrees suspended.id (some (notify.elim .holding .waiting)) := by
        cases notify <;> exact place
      simp only [enqueues, bind, Except.bind, pure, Except.pure]
      exact sound.operate stepped place (sound.lt_nextId owner) (by simp) (by simp)
    · exact sound.stutter (by simp)
  | drop id =>
    simp only [System.step]
    split
    · rename_i suspended owner
      have agrees := sound.agrees id
      rw [owner] at agrees
      have unchanged : State.Stepped id system.state system.state :=
        sound.stepped (.refl _ _) sound.coherent
      exact sound.operate unchanged agrees.1 (sound.lt_nextId owner) (by simp) (by simp)
    · exact sound.stutter (by simp)
  | reschedule id service =>
    simp only [System.step]
    split
    · rename_i owner
      rcases reschedule_spec sound.coherent (sound.running_of_holding owner) service
        sound.busy with ⟨notify, state, reschedules, stepped, agrees⟩
      simp only [reschedules, bind, Except.bind, pure, Except.pure]
      exact sound.operate stepped agrees (sound.lt_nextId owner) (by simp) (by simp)
    · exact sound.stutter (by simp)
  | finish id =>
    simp only [System.step]
    split
    · rename_i owner
      rcases finish_spec sound.coherent (sound.running_of_holding owner) with
        ⟨state, finishes, stepped, unplaced⟩
      simp only [finishes, bind, Except.bind, pure, Except.pure]
      exact sound.operate stepped unplaced (sound.lt_nextId owner) (by simp) (by simp)
    · exact sound.stutter (by simp)

end Sound

/-- From an empty pool, no step of any interleaving panics, and every one leaves slots and scans
accounted for. -/
theorem safeRun_new (capacity boost maxWaiters : ℕ) (events : List Event) :
    Runs.SafeRun step StepSound (new capacity boost maxWaiters) events :=
  Runs.SafeRun.of_invariant (fun _ event sound => sound.step event)
    (sound_new capacity boost maxWaiters) events

example : ([Event.admitScan 1 1024 .bulk, .admitScan 1 1024 .bulk, .finish 0].foldlM step
    (new 1 0 8)).toOption.map (fun system => (system.state.free, system.state.running.keys)) =
    some (0, [1]) := by
  decide

end System

end Ferrosa.Sched
