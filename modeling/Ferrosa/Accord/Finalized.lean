import Ferrosa.Accord.Types

/-!
# The record of decided transactions

A replica remembers the transactions whose fate is decided after it drops their
state: by a tombstone for each, and by a floor below which every transaction
counts as decided.  Tombstones only ever leave the record into the floor, so a
decided transaction stays decided.
-/

namespace Ferrosa.Accord

open List

inductive TombstoneKind where
  | noWriteFinalized
  | applied
  deriving DecidableEq, Repr

inductive DecidedBy where
  | floor
  | tombstone
  deriving DecidableEq, Repr

structure FinalizedTxns where
  tombstones : List (TxnId × TombstoneKind)
  floor : Option Timestamp
  capacity : Nat
  deriving DecidableEq, Repr

namespace FinalizedTxns

def new (capacity : Nat) : FinalizedTxns := ⟨[], none, capacity⟩

variable (finalized : FinalizedTxns) (txnId : TxnId)

def raiseFloor (target : Timestamp) : FinalizedTxns :=
  match finalized.floor with
  | none => { finalized with floor := some target }
  | some floor => if floor < target then { finalized with floor := some target } else finalized

def isBelowFloor : Bool :=
  match finalized.floor with
  | some floor => txnId.timestamp ≤ floor
  | none => false

def hasTombstone : Bool :=
  finalized.tombstones.any fun tombstone => tombstone.1 == txnId

def decided : Option DecidedBy :=
  if finalized.isBelowFloor txnId then some .floor
  else if finalized.hasTombstone txnId then some .tombstone
  else none

def insertTombstone (txnId : TxnId) (kind : TombstoneKind) :
    List (TxnId × TombstoneKind) → List (TxnId × TombstoneKind)
  | [] => [(txnId, kind)]
  | head :: rest =>
    if txnId < head.1 then (txnId, kind) :: head :: rest
    else if txnId = head.1 then (txnId, kind) :: rest
    else head :: insertTombstone txnId kind rest

def enforceCapacity (capacity : Nat) :
    List (TxnId × TombstoneKind) → Option Timestamp → FinalizedTxns
  | [], floor => ⟨[], floor, capacity⟩
  | oldest :: rest, floor =>
    if capacity < rest.length + 1 then
      enforceCapacity capacity rest (raiseFloor ⟨[], floor, capacity⟩ oldest.1.timestamp).floor
    else ⟨oldest :: rest, floor, capacity⟩

def record : FinalizedTxns :=
  if finalized.decided txnId = some .floor then finalized
  else if finalized.hasTombstone txnId then
    enforceCapacity finalized.capacity finalized.tombstones finalized.floor
  else
    enforceCapacity finalized.capacity
      (insertTombstone txnId .noWriteFinalized finalized.tombstones) finalized.floor

def recordApplied : FinalizedTxns :=
  if finalized.decided txnId = some .floor then finalized
  else
    enforceCapacity finalized.capacity
      (insertTombstone txnId .applied finalized.tombstones) finalized.floor

/-- Raise the floor to one retention period (60 s) before `now`. -/
def advanceHorizon (now : Timestamp) : FinalizedTxns :=
  let retention : UInt64 := 60000000000
  let horizon : Timestamp :=
    { epoch := now.epoch
      time := if retention ≤ now.time then now.time - retention else 0
      seq := 4294967295
      node := 18446744073709551615 }
  let raised := finalized.raiseFloor horizon
  { raised with
    tombstones := raised.tombstones.filter fun tombstone => !raised.isBelowFloor tombstone.1 }

def wasApplied : Bool :=
  (finalized.tombstones.find? fun tombstone => tombstone.1 == txnId).any fun tombstone =>
    tombstone.2 = .applied

/-- Every id minted at the same epoch, time and sequence number is covered. -/
def withRestartFloor (bootNow : Timestamp) : FinalizedTxns :=
  finalized.raiseFloor { bootNow with node := 18446744073709551615 }

inductive Call where
  | record (txnId : TxnId)
  | recordApplied (txnId : TxnId)
  | advanceHorizon (now : Timestamp)
  | raiseFloor (target : Timestamp)

def step : Call → FinalizedTxns
  | .record txnId => finalized.record txnId
  | .recordApplied txnId => finalized.recordApplied txnId
  | .advanceHorizon now => finalized.advanceHorizon now
  | .raiseFloor target => finalized.raiseFloor target

def Call.tombstone? : Call → Option (TxnId × TombstoneKind)
  | .record txnId => some (txnId, .noWriteFinalized)
  | .recordApplied txnId => some (txnId, .applied)
  | .advanceHorizon _ => none
  | .raiseFloor _ => none

variable {finalized before middle after : FinalizedTxns} {txnId} {calls more : List Call}

theorem isBelowFloor_iff :
    finalized.isBelowFloor txnId ↔ ∃ bound ∈ finalized.floor, txnId.timestamp ≤ bound := by
  unfold isBelowFloor
  cases finalized.floor <;> simp

theorem decided_ne_none_iff : finalized.decided txnId ≠ none ↔
    finalized.isBelowFloor txnId ∨ ∃ tombstone ∈ finalized.tombstones, tombstone.1 = txnId := by
  unfold decided hasTombstone
  split_ifs <;> simp_all

theorem decided_of_mem {tombstone : TxnId × TombstoneKind}
    (member : tombstone ∈ finalized.tombstones) : finalized.decided tombstone.1 ≠ none :=
  decided_ne_none_iff.mpr (.inr ⟨tombstone, member, rfl⟩)

theorem raiseFloor_spec (finalized : FinalizedTxns) (target : Timestamp) :
    finalized.raiseFloor target = { finalized with floor := (finalized.raiseFloor target).floor } ∧
      ∀ txnId, (finalized.raiseFloor target).isBelowFloor txnId ↔
        finalized.isBelowFloor txnId ∨ txnId.timestamp ≤ target := by
  unfold raiseFloor isBelowFloor
  cases isFloor : finalized.floor with
  | none => simp
  | some bound =>
    simp only []
    split_ifs with lower
    · refine ⟨rfl, fun txnId => ?_⟩
      simpa using fun below => le_trans below lower.le
    · refine ⟨rfl, fun txnId => ?_⟩
      simpa [isFloor] using fun below => le_trans below (not_lt.mp lower)

def Fits (capacity : ℕ) (finalized : FinalizedTxns) : Prop :=
  finalized.capacity = capacity ∧ finalized.tombstones.length ≤ capacity

theorem fits_enforceCapacity (capacity : ℕ) (tombstones : List (TxnId × TombstoneKind))
    (floor : Option Timestamp) : Fits capacity (enforceCapacity capacity tombstones floor) := by
  induction tombstones generalizing floor with
  | nil => exact ⟨rfl, Nat.zero_le _⟩
  | cons oldest rest ih =>
    unfold enforceCapacity
    split_ifs with full
    · exact ih _
    · exact ⟨rfl, Nat.not_lt.mp full⟩

/-- The floor does not fall, a tombstone leaves only into the floor, and a call asks for each new
one. -/
structure Extends (calls : List Call) (before after : FinalizedTxns) : Prop where
  floor : ∀ txnId, before.isBelowFloor txnId → after.isBelowFloor txnId
  kept : ∀ tombstone ∈ before.tombstones, after.decided tombstone.1 ≠ none
  origin : ∀ tombstone ∈ after.tombstones,
    tombstone ∈ before.tombstones ∨ tombstone ∈ calls.filterMap Call.tombstone?

namespace Extends

theorem refl (calls : List Call) (finalized : FinalizedTxns) :
    Extends calls finalized finalized :=
  ⟨fun _ => id, fun _ => decided_of_mem, fun _ => .inl⟩

theorem decided (extension : Extends calls before after)
    (isDecided : before.decided txnId ≠ none) : after.decided txnId ≠ none := by
  rcases decided_ne_none_iff.mp isDecided with below | ⟨tombstone, member, rfl⟩
  · exact decided_ne_none_iff.mpr (.inl (extension.floor txnId below))
  · exact extension.kept tombstone member

theorem trans (first : Extends calls before middle) (second : Extends more middle after) :
    Extends (calls ++ more) before after where
  floor txnId below := second.floor txnId (first.floor txnId below)
  kept tombstone member := second.decided (first.kept tombstone member)
  origin tombstone member := by
    rw [filterMap_append, mem_append]
    rcases second.origin tombstone member with older | fresh
    · exact (first.origin tombstone older).imp_right .inl
    · exact .inr (.inr fresh)

theorem raiseFloor (calls : List Call) (finalized : FinalizedTxns) (target : Timestamp) :
    Extends calls finalized (finalized.raiseFloor target) := by
  rcases raiseFloor_spec finalized target with ⟨onlyFloor, below⟩
  refine ⟨fun txnId old => (below txnId).mpr (.inl old), fun tombstone member => ?_, ?_⟩
  · rw [onlyFloor]
    exact decided_of_mem member
  · rw [onlyFloor]
    exact fun _ => .inl

theorem enforceCapacity (capacity : ℕ) (tombstones : List (TxnId × TombstoneKind))
    (floor : Option Timestamp) :
    Extends [] ⟨tombstones, floor, capacity⟩ (enforceCapacity capacity tombstones floor) := by
  induction tombstones generalizing floor with
  | nil => exact refl _ _
  | cons oldest rest ih =>
    unfold FinalizedTxns.enforceCapacity
    split_ifs
    · have below := (raiseFloor_spec ⟨[], floor, capacity⟩ oldest.1.timestamp).2
      refine @trans _ ⟨rest, _, capacity⟩ _ [] [] ⟨fun txnId old => (below txnId).mpr (.inl old),
        fun tombstone member => ?_, fun _ member => .inl (mem_cons_of_mem _ member)⟩ (ih _)
      rcases mem_cons.mp member with rfl | younger
      · exact decided_ne_none_iff.mpr (.inl ((below _).mpr (.inr le_rfl)))
      · exact decided_of_mem younger
    · exact refl _ _

theorem insertTombstone {call : Call} {kind : TombstoneKind}
    (asks : call.tombstone? = some (txnId, kind)) :
    Extends [call] finalized
      { finalized with tombstones := insertTombstone txnId kind finalized.tombstones } := by
  have inserted : (∀ tombstone ∈ finalized.tombstones,
      ∃ same ∈ FinalizedTxns.insertTombstone txnId kind finalized.tombstones,
        same.1 = tombstone.1) ∧
      ∀ tombstone ∈ FinalizedTxns.insertTombstone txnId kind finalized.tombstones,
        tombstone ∈ finalized.tombstones ∨ tombstone = (txnId, kind) := by
    induction finalized.tombstones with
    | nil => simp [FinalizedTxns.insertTombstone]
    | cons head rest ih =>
      unfold FinalizedTxns.insertTombstone
      split_ifs <;> simp <;> grind
  refine ⟨fun _ => id, fun tombstone member => ?_, fun tombstone member => ?_⟩
  · exact decided_ne_none_iff.mpr (.inr (inserted.1 tombstone member))
  · exact (inserted.2 tombstone member).imp_right fun same => by simp [asks, same]

theorem step (finalized : FinalizedTxns) (call : Call) :
    Extends [call] finalized (finalized.step call) ∧
      ∀ {capacity}, Fits capacity finalized → Fits capacity (finalized.step call) := by
  cases call with
  | record txnId =>
    simp only [FinalizedTxns.step, record]
    split_ifs
    · exact ⟨refl _ _, id⟩
    · exact ⟨(refl [.record txnId] finalized).trans (enforceCapacity ..),
        fun fits => fits.1 ▸ fits_enforceCapacity ..⟩
    · exact ⟨(insertTombstone rfl).trans (enforceCapacity ..),
        fun fits => fits.1 ▸ fits_enforceCapacity ..⟩
  | recordApplied txnId =>
    simp only [FinalizedTxns.step, recordApplied]
    split_ifs
    · exact ⟨refl _ _, id⟩
    · exact ⟨(insertTombstone rfl).trans (enforceCapacity ..),
        fun fits => fits.1 ▸ fits_enforceCapacity ..⟩
  | advanceHorizon now =>
    refine ⟨@trans _ _ _ [.advanceHorizon now] [] (raiseFloor _ finalized _) ⟨fun _ => id,
      fun tombstone member => ?_, fun _ member => .inl (mem_of_mem_filter member)⟩,
      fun fits => ?_⟩
    · cases below : (finalized.raiseFloor _).isBelowFloor tombstone.1 with
      | true => exact decided_ne_none_iff.mpr (.inl below)
      | false => exact decided_of_mem (mem_filter.mpr ⟨member, by simp [below]⟩)
    · rw [FinalizedTxns.step, advanceHorizon, (raiseFloor_spec _ _).1]
      exact ⟨fits.1, (length_filter_le _ _).trans fits.2⟩
  | raiseFloor target =>
    refine ⟨raiseFloor _ finalized target, fun fits => ?_⟩
    rw [FinalizedTxns.step, (raiseFloor_spec _ _).1]
    exact fits

theorem foldl (finalized : FinalizedTxns) (calls : List Call) :
    Extends calls finalized (calls.foldl FinalizedTxns.step finalized) := by
  induction calls generalizing finalized with
  | nil => exact refl _ _
  | cons call rest ih => exact (step finalized call).1.trans (ih _)

end Extends

def opened (capacity : ℕ) (bootNow : Option Timestamp) : FinalizedTxns :=
  bootNow.elim (new capacity) (new capacity).withRestartFloor

/-- What is decided stays decided, the floor does not fall, the capacity holds, and nothing counts
as applied or decided unless a call or the floor makes it so. -/
theorem remembers (capacity : ℕ) (bootNow : Option Timestamp) (calls more : List Call) :
    let before := calls.foldl FinalizedTxns.step (opened capacity bootNow)
    let after := more.foldl FinalizedTxns.step before
    (∀ txnId, before.decided txnId ≠ none → after.decided txnId ≠ none) ∧
    (∀ bound ∈ before.floor, ∃ higher ∈ after.floor, bound ≤ higher) ∧
    before.tombstones.length ≤ capacity ∧
    (∀ txnId, before.wasApplied txnId → .recordApplied txnId ∈ calls) ∧
    ∀ txnId, .record txnId ∉ calls → .recordApplied txnId ∉ calls →
      (∀ bound ∈ before.floor, bound < txnId.timestamp) → before.decided txnId = none := by
  intro before after
  have extension := Extends.foldl (opened capacity bootNow) calls
  have later := Extends.foldl before more
  have empty : (opened capacity bootNow).tombstones = [] ∧
      Fits capacity (opened capacity bootNow) := by
    cases bootNow <;> exact ⟨rfl, rfl, Nat.zero_le _⟩
  have origin : ∀ tombstone ∈ before.tombstones, .recordApplied tombstone.1 ∈ calls ∨
      .record tombstone.1 ∈ calls ∧ tombstone.2 = .noWriteFinalized := by
    intro tombstone member
    have asked := extension.origin tombstone member
    rw [empty.1, mem_filterMap] at asked
    rcases asked with old | ⟨call, called, asks⟩
    · exact absurd old not_mem_nil
    · cases call <;> cases asks
      · exact .inr ⟨called, rfl⟩
      · exact .inl called
  refine ⟨fun _ => later.decided, fun bound isFloor => ?_, ?_, fun txnId applied => ?_,
    fun txnId notRecorded notApplied above => ?_⟩
  · have covered := isBelowFloor_iff.mpr ⟨bound, isFloor, le_rfl⟩
    exact isBelowFloor_iff.mp (later.floor ⟨bound⟩ covered)
  · exact (List.foldlRecOn calls FinalizedTxns.step empty.2 fun finalized fits call _ =>
      (Extends.step finalized call).2 fits).2
  · rw [wasApplied, Option.any_eq_true] at applied
    rcases applied with ⟨tombstone, found, isApplied⟩
    have isTxn : tombstone.1 = txnId := by simpa using find?_some found
    rcases origin tombstone (mem_of_find?_eq_some found) with called | ⟨-, noWrite⟩
    · exact isTxn ▸ called
    · simp [noWrite] at isApplied
  · by_contra isDecided
    rcases decided_ne_none_iff.mp isDecided with below | ⟨tombstone, member, rfl⟩
    · rcases isBelowFloor_iff.mp below with ⟨bound, isFloor, le⟩
      exact absurd (above bound isFloor) (not_lt.mpr le)
    · rcases origin tombstone member with called | ⟨called, -⟩
      · exact notApplied called
      · exact notRecorded called

end FinalizedTxns

end Ferrosa.Accord
