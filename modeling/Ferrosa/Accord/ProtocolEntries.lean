import Ferrosa.Lib.Decoder
import Ferrosa.Lib.FiniteMap

/-!
# Entries of the protocol log and their replay

An entry is a discriminant, its fields in little-endian form and a checksum of both.
`CrashRecoveryReplay` reads every raw record as a protocol entry or else as an applied
entry, and counts what is neither.  The checksum is a parameter.
-/

namespace Ferrosa.Accord.ProtocolLog

abbrev Record := List UInt8

structure Timestamp where
  epochMicros : UInt64
  logical : UInt32
deriving DecidableEq, Repr

structure TxnId where
  node : UInt64
  timestamp : Timestamp
deriving DecidableEq, Repr

structure AcceptedBallot where
  ballot : UInt64
  node : UInt64
deriving DecidableEq, Repr

inductive AccordProtocolEntry where
  | preAccepted (txnId : TxnId) (t0 t : Timestamp) (deps : List TxnId)
  | accepted (txnId : TxnId) (t0 t : Timestamp) (deps : List TxnId)
      (acceptedBallot : AcceptedBallot)
  | committed (txnId : TxnId) (t : Timestamp) (deps : List TxnId)
deriving DecidableEq, Repr

structure AccordAppliedEntry where
  txnId : TxnId
  t : Timestamp
  result : List UInt8
deriving DecidableEq, Repr

inductive EntryError where
  | entryTooShort
  | crcMismatch (stored computed : UInt32)
  | unknownDiscriminant (discriminant : UInt8)
  | truncated (field : String)
deriving DecidableEq, Repr

def discPreAccepted : UInt8 := 1

def discAccepted : UInt8 := 2

def discCommitted : UInt8 := 3

def discApplied : UInt8 := 4

abbrev Read (α : Type) := Decoder EntryError α

def readU64 (field : String) : Read UInt64 := do
  let value ← Decoder.takeLittleEndian 8 fun _ => .truncated field
  pure (UInt64.ofNat value)

def readU32 (field : String) : Read UInt32 := do
  let value ← Decoder.takeLittleEndian 4 fun _ => .truncated field
  pure (UInt32.ofNat value)

def readTimestamp : Read Timestamp := do
  let epochMicros ← readU64 "timestamp"
  let logical ← readU32 "timestamp"
  pure ⟨epochMicros, logical⟩

def readTxnId : Read TxnId := do
  let node ← readU64 "txn_id node"
  let timestamp ← readTimestamp
  pure ⟨node, timestamp⟩

def readBallot : Read AcceptedBallot := do
  let ballot ← readU64 "ballot"
  let node ← readU64 "ballot"
  pure ⟨ballot, node⟩

def readDeps : Read (List TxnId) := do
  let count ← readU32 "deps count"
  Decoder.times count.toNat readTxnId

def readBlob : Read (List UInt8) := do
  let length ← readU32 "blob length"
  Decoder.take length.toNat fun _ => .truncated "blob data"

def readPreAccepted : Read AccordProtocolEntry := do
  let txnId ← readTxnId
  let t0 ← readTimestamp
  let t ← readTimestamp
  let deps ← readDeps
  pure (.preAccepted txnId t0 t deps)

def readAccepted : Read AccordProtocolEntry := do
  let txnId ← readTxnId
  let t0 ← readTimestamp
  let t ← readTimestamp
  let deps ← readDeps
  let acceptedBallot ← readBallot
  pure (.accepted txnId t0 t deps acceptedBallot)

def readCommitted : Read AccordProtocolEntry := do
  let txnId ← readTxnId
  let t ← readTimestamp
  let deps ← readDeps
  pure (.committed txnId t deps)

def readApplied : Read AccordAppliedEntry := do
  let txnId ← readTxnId
  let t ← readTimestamp
  let result ← readBlob
  pure ⟨txnId, t, result⟩

section

variable (crc : Record → UInt32)

/-- The discriminant and everything behind it, once length and checksum are right; the fields are
read from there, the checksum included. -/
def openEntry (bytes : Record) : Except EntryError (UInt8 × Record) :=
  let fields := bytes.take (bytes.length - 4)
  let stored := UInt32.ofNat (ofLittleEndian (bytes.drop (bytes.length - 4)))
  if bytes.length < 5 then .error .entryTooShort
  else if stored ≠ crc fields then .error (.crcMismatch stored (crc fields))
  else .ok (bytes.headD 0, bytes.tail)

def AccordProtocolEntry.fieldsOf (discriminant : UInt8) (fields : Record) :
    Except EntryError AccordProtocolEntry :=
  if discriminant = discPreAccepted then (readPreAccepted fields).map (·.1)
  else if discriminant = discAccepted then (readAccepted fields).map (·.1)
  else if discriminant = discCommitted then (readCommitted fields).map (·.1)
  else .error (.unknownDiscriminant discriminant)

def AccordProtocolEntry.deserialize (bytes : Record) : Except EntryError AccordProtocolEntry :=
  openEntry crc bytes >>= fun (discriminant, fields) => fieldsOf discriminant fields

def AccordAppliedEntry.fieldsOf (discriminant : UInt8) (fields : Record) :
    Except EntryError AccordAppliedEntry :=
  if discriminant = discApplied then (readApplied fields).map (·.1)
  else .error (.unknownDiscriminant discriminant)

def AccordAppliedEntry.deserialize (bytes : Record) : Except EntryError AccordAppliedEntry :=
  openEntry crc bytes >>= fun (discriminant, fields) => fieldsOf discriminant fields

end

inductive ReplayedPhase where
  | preAccepted
  | accepted
  | committed
  | applied
deriving DecidableEq, Repr

def ReplayedPhase.rank : ReplayedPhase → ℕ
  | preAccepted => 0
  | accepted => 1
  | committed => 2
  | applied => 3

structure ReplayedTxnState where
  phase : ReplayedPhase
  t0 : Option Timestamp
  t : Timestamp
  deps : List TxnId
deriving DecidableEq, Repr

structure ReplayedConflictEntry where
  txnId : TxnId
  t0 : Timestamp
  phase : ReplayedPhase
deriving DecidableEq, Repr

structure CrashRecoveryReplay where
  txnStates : FiniteMap TxnId ReplayedTxnState
  appliedTxnIds : List TxnId
  conflictEntries : List ReplayedConflictEntry
  skippedCount : ℕ

namespace CrashRecoveryReplay

def new : CrashRecoveryReplay := ⟨∅, [], [], 0⟩

/-- Only a later phase replaces the timestamp, and only nonempty dependencies replace those
that were seen before. -/
def advance (state : ReplayedTxnState) (phase : ReplayedPhase) (t0 : Option Timestamp)
    (t : Timestamp) (deps : List TxnId) : ReplayedTxnState :=
  let advanced :=
    if state.phase.rank < phase.rank then
      { state with phase, t, deps := if deps.isEmpty then state.deps else deps }
    else state
  if t0.isSome && advanced.t0.isNone then { advanced with t0 } else advanced

def ingestFields (replay : CrashRecoveryReplay) (txnId : TxnId) (phase : ReplayedPhase)
    (t0 : Option Timestamp) (t : Timestamp) (deps : List TxnId) : CrashRecoveryReplay :=
  let state := (replay.txnStates.lookup txnId).getD ⟨phase, t0, t, deps⟩
  { replay with
    txnStates := replay.txnStates.insert txnId (advance state phase t0 t deps)
    conflictEntries :=
      if txnId ∈ replay.appliedTxnIds then replay.conflictEntries
      else replay.conflictEntries ++ [⟨txnId, t0.getD t, phase⟩] }

def ingestProtocolEntry (replay : CrashRecoveryReplay) : AccordProtocolEntry → CrashRecoveryReplay
  | .preAccepted txnId t0 t deps => replay.ingestFields txnId .preAccepted (some t0) t deps
  | .accepted txnId t0 t deps _ => replay.ingestFields txnId .accepted (some t0) t deps
  | .committed txnId t deps => replay.ingestFields txnId .committed none t deps

def ingestAppliedEntry (replay : CrashRecoveryReplay) (entry : AccordAppliedEntry) :
    CrashRecoveryReplay :=
  let state := (replay.txnStates.lookup entry.txnId).getD ⟨.applied, none, entry.t, []⟩
  { replay with
    appliedTxnIds := entry.txnId :: replay.appliedTxnIds
    txnStates := replay.txnStates.insert entry.txnId { state with phase := .applied }
    conflictEntries := replay.conflictEntries.filter fun other => other.txnId ≠ entry.txnId }

variable (crc : Record → UInt32)

def replayOne (replay : CrashRecoveryReplay) (raw : Record) : CrashRecoveryReplay :=
  match AccordProtocolEntry.deserialize crc raw with
  | .ok entry => replay.ingestProtocolEntry entry
  | .error _ =>
    match AccordAppliedEntry.deserialize crc raw with
    | .ok entry => replay.ingestAppliedEntry entry
    | .error _ => { replay with skippedCount := replay.skippedCount + 1 }

def replay (rawEntries : List Record) : CrashRecoveryReplay :=
  rawEntries.foldl (replayOne crc) new

/-- The applied transactions are those in the last phase, and all others have conflict entries. -/
def Coherent (replay : CrashRecoveryReplay) : Prop :=
  ∀ txnId, (txnId ∈ replay.appliedTxnIds ↔
      ∃ state ∈ replay.txnStates.lookup txnId, state.phase = .applied) ∧
    ((∃ entry ∈ replay.conflictEntries, entry.txnId = txnId) ↔
      txnId ∈ replay.txnStates ∧ txnId ∉ replay.appliedTxnIds)

theorem advance_eq_applied_iff {state : ReplayedTxnState} {phase : ReplayedPhase}
    {t0 : Option Timestamp} {t : Timestamp} {deps : List TxnId} (early : phase ≠ .applied) :
    (advance state phase t0 t deps).phase = .applied ↔ state.phase = .applied := by
  have same : (advance state phase t0 t deps).phase =
      if state.phase.rank < phase.rank then phase else state.phase := by
    simp only [advance]
    split_ifs <;> rfl
  rw [same]
  revert early
  cases phase <;> cases state.phase <;> decide

variable {replay : CrashRecoveryReplay}

theorem Coherent.ingestFields (coherent : replay.Coherent) {phase : ReplayedPhase}
    (early : phase ≠ .applied) (txnId : TxnId) (t0 : Option Timestamp) (t : Timestamp)
    (deps : List TxnId) : (replay.ingestFields txnId phase t0 t deps).Coherent := by
  intro other
  have before := coherent other
  unfold CrashRecoveryReplay.ingestFields
  by_cases same : txnId = other
  · subst same
    cases found : replay.txnStates.lookup txnId <;>
      by_cases isApplied : txnId ∈ replay.appliedTxnIds <;>
        simp_all [advance_eq_applied_iff early]
  · by_cases isApplied : txnId ∈ replay.appliedTxnIds <;>
      grind [FiniteMap.lookup_insert_ite, AList.mem_insert]

theorem Coherent.ingestAppliedEntry (coherent : replay.Coherent) (entry : AccordAppliedEntry) :
    (replay.ingestAppliedEntry entry).Coherent := by
  intro other
  have before := coherent other
  unfold CrashRecoveryReplay.ingestAppliedEntry
  by_cases same : entry.txnId = other
  · subst same
    simp
  · grind [FiniteMap.lookup_insert_ite, AList.mem_insert]

/-- Whatever bytes a log holds, replay leaves every transaction that it met either applied or
with an entry for the conflict index. -/
theorem coherent_replay (crc : Record → UInt32) (raw : List Record) :
    (CrashRecoveryReplay.replay crc raw).Coherent := by
  induction raw using List.reverseRecOn with
  | nil => simp [Coherent, CrashRecoveryReplay.replay, new]
  | append_singleton front last ih =>
    rw [CrashRecoveryReplay.replay, List.foldl_concat, replayOne]
    split
    · rename_i entry _
      cases entry <;> exact Coherent.ingestFields ih (by decide) _ _ _ _
    · split
      · exact Coherent.ingestAppliedEntry ih _
      · exact ih

end CrashRecoveryReplay

end Ferrosa.Accord.ProtocolLog
