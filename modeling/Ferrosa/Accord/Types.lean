import Ferrosa.Lib.MachineOrder

/-!
# Timestamps, ballots and transaction states

The core types of the Accord protocol.  Timestamps are ordered by epoch, physical
time, sequence number and node, in this order, and a transaction is named by the
timestamp its coordinator proposed for it.  A set of transactions is kept as a
list; where the order in which a hash set is visited can matter, the visiting
order is an input (`IterationOrder`).
-/

namespace Ferrosa.Accord

abbrev Bytes := List UInt8

abbrev NodeId := UInt64

abbrev BallotNumber := UInt64

structure Timestamp where
  epoch : UInt64
  time : UInt64
  seq : UInt32
  node : NodeId
  deriving DecidableEq, Repr

namespace Timestamp

/-- The derived order compares the fields in their order of declaration. -/
def rank (timestamp : Timestamp) : UInt64 ×ₗ UInt64 ×ₗ UInt32 ×ₗ NodeId :=
  toLex (timestamp.epoch, toLex (timestamp.time, toLex (timestamp.seq, timestamp.node)))

theorem rank_injective : Function.Injective rank := by
  intro left right same
  rcases left with ⟨epoch, time, seq, node⟩
  rcases right with ⟨epoch', time', seq', node'⟩
  simp only [rank, EmbeddingLike.apply_eq_iff_eq, Prod.mk.injEq] at same
  obtain ⟨rfl, rfl, rfl, rfl⟩ := same
  rfl

instance : LinearOrder Timestamp := LinearOrder.lift' rank rank_injective

/-- `u32::saturating_add(1)`. -/
def nextSeq (seq : UInt32) : UInt32 := if seq = 4294967295 then seq else seq + 1

def bumpPast (_self other : Timestamp) (node : NodeId) : Timestamp :=
  { epoch := other.epoch, time := other.time, seq := nextSeq other.seq, node }

end Timestamp

structure TxnId where
  timestamp : Timestamp
  deriving DecidableEq, Repr

namespace TxnId

theorem timestamp_injective : Function.Injective TxnId.timestamp := by
  intro left right same
  cases left
  cases right
  exact congrArg TxnId.mk same

instance : LinearOrder TxnId := LinearOrder.lift' TxnId.timestamp timestamp_injective

end TxnId

/-- An order in which a hash set of transactions is visited, every member once. -/
structure IterationOrder where
  visit : List TxnId → List TxnId
  nodup : ∀ ids, (visit ids).Nodup
  mem_visit : ∀ {ids id}, id ∈ visit ids ↔ id ∈ ids

def IterationOrder.asStored : IterationOrder := ⟨List.dedup, List.nodup_dedup, List.mem_dedup⟩

inductive TxnPhase where
  | preAccepted
  | accepted
  | committed
  | applied
  deriving DecidableEq, Repr

namespace TxnPhase

def rank : TxnPhase → Nat
  | preAccepted => 0
  | accepted => 1
  | committed => 2
  | applied => 3

def raiseTo (phase target : TxnPhase) : TxnPhase :=
  if phase.rank < target.rank then target else phase

@[simp]
theorem raiseTo_preAccepted (phase : TxnPhase) : phase.raiseTo preAccepted = phase := by
  cases phase <;> rfl

@[simp]
theorem raiseTo_applied (phase : TxnPhase) : phase.raiseTo applied = applied := by
  cases phase <;> rfl

end TxnPhase

/-- A replica's record of one transaction.  The accepted ballot never passes the
highest ballot seen. -/
structure TxnState where
  txnId : TxnId
  t0 : Timestamp
  t : Timestamp
  tMax : Timestamp
  deps : List TxnId
  phase : TxnPhase
  maxBallotSeen : BallotNumber
  acceptedBallot : BallotNumber
  result : Option Bytes
  accepted_le_seen : acceptedBallot ≤ maxBallotSeen
  deriving DecidableEq

namespace TxnState

def new (txnId : TxnId) (t0 : Timestamp) : TxnState where
  txnId
  t0
  t := t0
  tMax := t0
  deps := []
  phase := .preAccepted
  maxBallotSeen := 0
  acceptedBallot := 0
  result := none
  accepted_le_seen := le_refl _

variable (state : TxnState)

def joinBallot (ballot : BallotNumber) : TxnState :=
  { state with
    maxBallotSeen := max state.maxBallotSeen ballot
    accepted_le_seen := le_trans state.accepted_le_seen (le_max_left _ _) }

def accept (ballot : BallotNumber) (t : Timestamp) (deps : List TxnId) : TxnState :=
  { state with
    maxBallotSeen := max state.maxBallotSeen ballot
    acceptedBallot := ballot
    accepted_le_seen := le_max_right _ _
    t
    tMax := max state.tMax t
    deps
    phase := state.phase.raiseTo .accepted }

def preAccept (t : Timestamp) (deps : List TxnId) : TxnState :=
  { state with t, tMax := max state.tMax t, deps, phase := state.phase.raiseTo .preAccepted }

def commit (t : Timestamp) (deps : List TxnId) : TxnState :=
  { state with t, tMax := max state.tMax t, deps, phase := state.phase.raiseTo .committed }

def apply (result : Bytes) : TxnState :=
  { state with phase := state.phase.raiseTo .applied, result := some result }

/-- The decision on the transaction is locked: Accept and Commit no longer change it. -/
def IsLocked : Prop := state.phase = .committed ∨ state.phase = .applied
  deriving Decidable

end TxnState

end Ferrosa.Accord
