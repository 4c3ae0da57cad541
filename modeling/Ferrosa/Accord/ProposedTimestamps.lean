import Ferrosa.Accord.Registrations

/-!
# The timestamps that PreAccept proposes

A replica answers with the initial timestamp, or with one past the newest conflict that it holds.
Sequence numbers end, and two transactions on different keys may be given one timestamp.
-/

namespace Ferrosa.Accord.AccordStateMachine

open Timestamp List

open Journal (sampleTxn)

section

variable (machine : AccordStateMachine) (txnId : TxnId) (t0 : Timestamp) (keys : List Bytes)

/-- The timestamp of another transaction registered for a key, or the mark of a key. -/
def IsConflict (conflict : Timestamp) : Prop :=
  ∃ key ∈ keys, (∃ write ∈ (machine.conflictIndex.singleKey key).writes,
    write.txnId ≠ txnId ∧ write.effective = conflict) ∨
    machine.conflictIndex.hwmOf key = some conflict

/-- The initial timestamp or a later one, past all conflicts. -/
def IsPast (t : Timestamp) : Prop :=
  t0 ≤ t ∧ ∀ conflict, machine.IsConflict txnId keys conflict → conflict < t

/-- No other transaction is registered with the timestamp, for any key. -/
def IsUnshared (t : Timestamp) : Prop :=
  ∀ key, ∀ write ∈ (machine.conflictIndex.singleKey key).writes,
    write.txnId ≠ txnId → write.effective ≠ t

/-- A record answered again lies past the conflicts; the newest conflict leaves a sequence number,
comes from a node below, or is the transaction's own. -/
def LeavesRoom : Prop :=
  match (machine.txnStates.lookup txnId).filter (·.t0 = t0), machine.maxConflict keys with
  | some state, _ => machine.IsPast txnId t0 keys state.t ∧ machine.IsUnshared txnId state.t
  | none, some newest =>
    if newest < t0 then machine.IsUnshared txnId t0
    else
      (newest.seq ≠ 4294967295 ∨ newest.node < machine.nodeId ∨
        machine.IsPast txnId t0 keys { newest with node := machine.nodeId }) ∧
      machine.IsUnshared txnId
        ⟨newest.epoch, newest.time, Timestamp.nextSeq newest.seq, machine.nodeId⟩
  | none, none => machine.IsUnshared txnId t0

end

variable {machine : AccordStateMachine} {txnId : TxnId} {t0 : Timestamp} {keys : List Bytes}

theorem reaches_of_isConflict {conflict : Timestamp}
    (isConflict : machine.IsConflict txnId keys conflict) :
    Reaches (machine.maxConflict keys) conflict := by
  rcases isConflict with ⟨key, listed, isHeld⟩
  refine reaches_maxOf_iff.mpr ⟨_, mem_map_of_mem listed, reaches_maxOption_iff.mpr ?_⟩
  rcases isHeld with ⟨write, registered, -, rfl⟩ | isMark
  · exact .inl (reaches_maxOf_iff.mpr
      ⟨_, mem_map_of_mem registered, write.effective, rfl, le_rfl⟩)
  · exact .inr ⟨conflict, isMark, le_rfl⟩

theorem isPast_of_lt {newest t : Timestamp} (isMax : machine.maxConflict keys = some newest)
    (start : t0 ≤ t) (past : newest < t) : machine.IsPast txnId t0 keys t := by
  refine ⟨start, fun conflict isConflict => ?_⟩
  rcases reaches_of_isConflict isConflict with ⟨bound, isBound, below⟩
  cases isMax.symm.trans isBound
  exact below.trans_lt past

theorem isPast_bumpPast_iff {newest : Timestamp} (isMax : machine.maxConflict keys = some newest)
    (late : t0 ≤ newest) :
    machine.IsPast txnId t0 keys (t0.bumpPast newest machine.nodeId) ↔
      newest.seq ≠ 4294967295 ∨ newest.node < machine.nodeId ∨
        machine.IsPast txnId t0 keys { newest with node := machine.nodeId } := by
  by_cases room : newest.seq = 4294967295
  · have same : t0.bumpPast newest machine.nodeId = { newest with node := machine.nodeId } := by
      simp [bumpPast, nextSeq, room]
    rw [same]
    refine ⟨fun past => .inr (.inr past), ?_⟩
    rintro (left | below | past)
    · exact absurd room left
    · have above : newest < { newest with node := machine.nodeId } := by
        change newest.rank < rank _
        simpa [rank, Prod.Lex.toLex_lt_toLex] using below
      exact isPast_of_lt isMax (late.trans above.le) above
    · exact past
  · have above := lt_bumpPast room t0 machine.nodeId
    exact iff_of_true (isPast_of_lt isMax (late.trans above.le) above) (.inl room)

def crowded (first second : Timestamp) : AccordStateMachine :=
  { AccordStateMachine.new 1 (.new 16) with
    conflictIndex := (ConflictIndex.new.register [1] ⟨⟨⟨0, 1, 0, 7⟩⟩, first, none, .preAccepted⟩)
      |>.register [2] ⟨⟨⟨0, 2, 0, 7⟩⟩, second, none, .preAccepted⟩ }

end Ferrosa.Accord.AccordStateMachine
