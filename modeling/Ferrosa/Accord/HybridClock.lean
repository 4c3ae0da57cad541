import Ferrosa.Accord.Types
import Ferrosa.Lib.Runs

/-!
# The hybrid logical clock

The clock mints timestamps from wall-clock readings and from the timestamps it
observes.  Its state is a time and a sequence number, ordered as a pair.  The
epoch is not part of the state, and the sequence number is not bounded by the
timestamps the clock adopts, so two kinds of remote timestamps break it.
-/

namespace Ferrosa.Accord

open Runs

structure ClockDriftError where
  remoteTime : UInt64
  localTime : UInt64
  maxDriftNs : UInt64

structure HybridLogicalClock where
  node : NodeId
  state : UInt64 ×ₗ UInt32
  maxDriftNs : UInt64

def Timestamp.clockState (timestamp : Timestamp) : UInt64 ×ₗ UInt32 :=
  toLex (timestamp.time, timestamp.seq)

namespace HybridLogicalClock

def new (node : NodeId) (maxDriftNs : UInt64) : HybridLogicalClock :=
  ⟨node, toLex (0, 0), if maxDriftNs = 0 then 500000000 else maxDriftNs⟩

variable (clock : HybridLogicalClock)

variable (phys : UInt64) (remote : Timestamp)

/-- At a wall-clock reading; `none` is the panic of an exhausted sequence number. -/
def now : Option (Timestamp × HybridLogicalClock) :=
  let (time, seq) := ofLex clock.state
  if time < phys then
    some (⟨0, phys, 0, clock.node⟩, { clock with state := toLex (phys, 0) })
  else if seq = 4294967295 then none
  else some (⟨0, time, seq + 1, clock.node⟩, { clock with state := toLex (time, seq + 1) })

def withinDrift : Bool :=
  !(phys < remote.time && clock.maxDriftNs < remote.time - phys)

def merge : Except ClockDriftError HybridLogicalClock :=
  if clock.withinDrift phys remote then
    .ok { clock with state := max clock.state remote.clockState }
  else .error ⟨remote.time, phys, clock.maxDriftNs⟩

def merged : HybridLogicalClock :=
  match clock.merge phys remote with
  | .ok next => next
  | .error _ => clock

/-- The wall clock is read twice. -/
def witness (mergePhys nowPhys : UInt64) (remote : Timestamp) :
    Option (Timestamp × HybridLogicalClock) :=
  (clock.merged mergePhys remote).now nowPhys

def observed : UInt64 ×ₗ UInt32 :=
  if clock.withinDrift phys remote then max clock.state remote.clockState else clock.state

theorem state_merged : (clock.merged phys remote).state = clock.observed phys remote := by
  unfold merged merge observed
  split_ifs <;> rfl

/-- A reading past the state's time, or a sequence number that is left. -/
def HasRoom (state : UInt64 ×ₗ UInt32) (phys : UInt64) : Prop :=
  (ofLex state).1 < phys ∨ (ofLex state).2 ≠ 4294967295
  deriving Decidable

variable {clock} {phys} {returned : List Timestamp} {remote : Option Timestamp}

theorem now_cases (clock : HybridLogicalClock) (phys : UInt64) :
    (∃ fresh next, clock.now phys = some (fresh, next) ∧ HasRoom clock.state phys ∧
      fresh.epoch = 0 ∧ fresh.clockState = next.state ∧ clock.state < next.state) ∨
    clock.now phys = none ∧ ¬HasRoom clock.state phys := by
  simp only [now, HasRoom]
  split_ifs with later exhausted
  · exact .inl ⟨_, _, rfl, .inl later, rfl, rfl, Prod.Lex.lt_iff.mpr (.inl later)⟩
  · exact .inr ⟨rfl, by simp [later, exhausted]⟩
  · exact .inl ⟨_, _, rfl, .inr exhausted, rfl, rfl,
      Prod.Lex.lt_iff.mpr (.inr ⟨rfl, lt_add_one_of_ne_max exhausted⟩)⟩

theorem lt_iff_epoch_eq_zero {other fresh : Timestamp} (epoch : fresh.epoch = 0)
    (below : other.clockState < fresh.clockState) : other < fresh ↔ other.epoch = 0 := by
  have notBelow : ¬other.epoch < 0 := UInt64.not_lt_zero
  change other.rank < fresh.rank ↔ _
  simp only [Timestamp.clockState, Timestamp.rank, Prod.Lex.toLex_lt_toLex, epoch] at below ⊢
  tauto

/-- A call returns a timestamp above all earlier ones and above the remote one. -/
def Returns (returned : List Timestamp) (remote : Option Timestamp)
    (result : Option (Timestamp × HybridLogicalClock)) : Prop :=
  ∃ fresh next, result = some (fresh, next) ∧ (∀ earlier ∈ returned, earlier < fresh) ∧
    ∀ other ∈ remote, other < fresh

def Bounds (clock : HybridLogicalClock) (returned : List Timestamp) : Prop :=
  ∀ earlier ∈ returned, earlier.epoch = 0 ∧ earlier.clockState ≤ clock.state

theorem returns_iff (bounds : clock.Bounds returned)
    (adopted : ∀ other ∈ remote, other.clockState ≤ clock.state) :
    Returns returned remote (clock.now phys) ↔
      HasRoom clock.state phys ∧ ∀ other ∈ remote, other.epoch = 0 := by
  rcases clock.now_cases phys with
    ⟨fresh, next, minted, room, epoch, isState, above⟩ | ⟨panics, full⟩
  · have below : ∀ {other : Timestamp}, other.clockState ≤ clock.state →
        (other < fresh ↔ other.epoch = 0) := fun le =>
      lt_iff_epoch_eq_zero epoch (isState ▸ le.trans_lt above)
    constructor
    · rintro ⟨_, _, same, -, aboveRemote⟩
      rw [minted] at same
      cases same
      exact ⟨room, fun other member =>
        (below (adopted other member)).mp (aboveRemote other member)⟩
    · rintro ⟨-, zero⟩
      exact ⟨fresh, next, minted,
        fun earlier member => (below (bounds earlier member).2).mpr (bounds earlier member).1,
        fun other member => (below (adopted other member)).mpr (zero other member)⟩
  · simp [Returns, panics, full]

end HybridLogicalClock

inductive ClockCall where
  | now (phys : UInt64)
  | merge (phys : UInt64) (remote : Timestamp)
  | witness (mergePhys nowPhys : UInt64) (remote : Timestamp)

structure ClockRun where
  clock : HybridLogicalClock
  returned : List Timestamp

namespace ClockRun

open HybridLogicalClock

/-- A panic ends the use of the clock: the run stays as it is. -/
def record (run : ClockRun) : Option (Timestamp × HybridLogicalClock) → ClockRun
  | some (fresh, clock) => ⟨clock, fresh :: run.returned⟩
  | none => run

def step (run : ClockRun) : ClockCall → ClockRun
  | .now phys => run.record (run.clock.now phys)
  | .merge phys remote => { run with clock := run.clock.merged phys remote }
  | .witness mergePhys nowPhys remote => run.record (run.clock.witness mergePhys nowPhys remote)

def accepted (run : ClockRun) (phys : UInt64) (remote : Timestamp) : Option Timestamp :=
  if run.clock.withinDrift phys remote then some remote else none

/-- No panic, and a timestamp above the others; `merge` always returns. -/
def Advances (run : ClockRun) : ClockCall → Prop
  | .now phys => Returns run.returned none (run.clock.now phys)
  | .merge _ _ => True
  | .witness mergePhys nowPhys remote =>
    Returns run.returned (run.accepted mergePhys remote)
      (run.clock.witness mergePhys nowPhys remote)

/-- A sequence number is left where one is needed, and a remote that `witness` accepts has
epoch 0. -/
def Admissible (run : ClockRun) : ClockCall → Prop
  | .now phys => HasRoom run.clock.state phys
  | .merge _ _ => True
  | .witness mergePhys nowPhys remote =>
    HasRoom (run.clock.observed mergePhys remote) nowPhys ∧
      ∀ other ∈ run.accepted mergePhys remote, other.epoch = 0

variable {run : ClockRun}

theorem bounds_merged (bounds : run.clock.Bounds run.returned) (phys : UInt64)
    (remote : Timestamp) : (run.clock.merged phys remote).Bounds run.returned := by
  intro earlier member
  refine ⟨(bounds earlier member).1, (bounds earlier member).2.trans ?_⟩
  rw [state_merged, observed]
  split_ifs
  · exact le_max_left _ _
  · exact le_rfl

theorem bounds_record {source : HybridLogicalClock} (bounds : source.Bounds run.returned)
    (kept : run.clock.Bounds run.returned) (phys : UInt64) :
    (run.record (source.now phys)).clock.Bounds (run.record (source.now phys)).returned := by
  rcases source.now_cases phys with
    ⟨fresh, next, minted, -, epoch, isState, above⟩ | ⟨panics, -⟩
  · rw [minted]
    intro earlier member
    rcases List.mem_cons.mp member with rfl | older
    · exact ⟨epoch, isState.le⟩
    · exact ⟨(bounds earlier older).1, (bounds earlier older).2.trans above.le⟩
  · rw [panics]
    exact kept

theorem bounds_step (bounds : run.clock.Bounds run.returned) (call : ClockCall) :
    (run.step call).clock.Bounds (run.step call).returned := by
  cases call with
  | now phys => exact bounds_record bounds bounds phys
  | merge phys remote => exact bounds_merged bounds phys remote
  | witness mergePhys nowPhys remote =>
    exact bounds_record (bounds_merged bounds mergePhys remote) bounds nowPhys

theorem advances_iff (bounds : run.clock.Bounds run.returned) (call : ClockCall) :
    run.Advances call ↔ run.Admissible call := by
  cases call with
  | now phys => simpa [Advances, Admissible] using @returns_iff _ phys _ none bounds (by simp)
  | merge phys remote => rfl
  | witness mergePhys nowPhys remote =>
    rw [Admissible, ← state_merged]
    refine returns_iff (bounds_merged bounds mergePhys remote) fun other isAccepted => ?_
    simp only [accepted, Option.mem_ite_none_right, Option.mem_some_iff] at isAccepted
    rcases isAccepted with ⟨within, rfl⟩
    rw [state_merged, observed, if_pos within]
    exact le_max_right _ _

/-- No call panics and every timestamp lies above the earlier ones and its remote one, exactly if
every call is admissible. -/
theorem throughout_advances_iff (node : NodeId) (maxDriftNs : UInt64) (calls : List ClockCall) :
    Throughout step Advances ⟨HybridLogicalClock.new node maxDriftNs, []⟩ calls ↔
      Throughout step Admissible ⟨HybridLogicalClock.new node maxDriftNs, []⟩ calls :=
  @Throughout.iff_of_invariant _ _ _ (fun run => run.clock.Bounds run.returned) _ _
    (fun _ call bounds _ => bounds_step bounds call)
    (fun _ call bounds => advances_iff bounds call) _ nofun _

/-- A remote with the last sequence number, and one with a later epoch. -/
theorem not_advances_lastSeq_laterEpoch :
    (HybridLogicalClock.new 1 0).withinDrift 5 ⟨0, 5, 4294967295, 2⟩ ∧
    ¬Throughout step Advances ⟨HybridLogicalClock.new 1 0, []⟩
      [.witness 5 5 ⟨0, 5, 4294967295, 2⟩] ∧
    (HybridLogicalClock.new 1 0).withinDrift 5 ⟨1, 5, 0, 2⟩ ∧
    ¬Throughout step Advances ⟨HybridLogicalClock.new 1 0, []⟩ [.witness 5 5 ⟨1, 5, 0, 2⟩] := by
  have initially : (HybridLogicalClock.new 1 0).Bounds [] := nofun
  refine ⟨by decide, fun ⟨advances, _⟩ => ?_, by decide, fun ⟨advances, _⟩ => ?_⟩
  · exact absurd ((advances_iff initially _).mp advances).1 (by decide)
  · exact absurd (((advances_iff initially _).mp advances).2 _ rfl) (by decide)

end ClockRun

end Ferrosa.Accord
