import Ferrosa.CommitLog.Mutation

/-!
# Transaction records

A local transaction occupies one log entry: an envelope mutation in a reserved
keyspace whose only cell holds the members, each in a frame with its length.
-/

namespace Ferrosa.CommitLog

open Storage

namespace TransactionRecord

def reservedKeyspace : String := "\x00ferrosa.transaction.v1"

def reservedTable : String := "batch"

inductive RecordError where
  | tooLarge
  | invalidEnvelope
  | invalidMutation (error : MutationError)
deriving DecidableEq, Repr

/-- The members' frames, or the refusal of a batch that exceeds `maximum`. -/
def framedSize (maximum : ℕ) : ℕ → List Mutation → Except RecordError ℕ
  | total, [] => .ok total
  | total, mutation :: rest =>
    if 2 ^ 32 ≤ mutation.serializedSize ∨ maximum < total + 4 + mutation.serializedSize then
      .error .tooLarge
    else framedSize maximum (total + 4 + mutation.serializedSize) rest

/-- A member is written into a zeroed frame of its size; a refused one panics. -/
def frame (mutation : Mutation) : Option Bytes := do
  let payload ← mutation.serializeInto (List.replicate mutation.serializedSize 0)
  pure (writeU32 (UInt32.ofNat mutation.serializedSize) ++ payload)

/-- `mutationId` is the fresh id and `token` the token of the empty key. -/
def encode (mutationId : MutationId) (token : Int64) (mutations : List Mutation)
    (maximum : ℕ) : Except RecordError (Option Mutation) := do
  let _ ← framedSize maximum 0 mutations
  pure ((mutations.mapM frame).map fun frames =>
    ⟨mutationId, reservedKeyspace, reservedTable, ⟨token, []⟩,
      [⟨[], [(0, CellValue.live frames.flatten 0)], DeletionTime.live, LivenessInfo.none⟩], 0⟩)

/-- The loop over the frames; every member is decoded before any is returned. -/
def decodeFrames (payload : Bytes) : Except RecordError (List Mutation) :=
  if payload = [] then .ok []
  else
    let size := ofBigEndian (payload.take 4)
    if payload.length < 4 + size then .error .invalidEnvelope
    else
      match Mutation.deserializeFrom ((payload.drop 4).take size) with
      | .error error => .error (.invalidMutation error)
      | .ok mutation =>
        if mutation.keyspace = reservedKeyspace then .error .invalidEnvelope
        else do
          let rest ← decodeFrames (payload.drop (4 + size))
          pure (mutation :: rest)
termination_by payload.length
decreasing_by
  rw [List.length_drop]
  omega

def envelopePayload (record : Mutation) : Option Bytes :=
  if record.table ≠ reservedTable then none
  else
    match record.rows with
    | [row] =>
      match row.cells with
      | [cell] => cell.2.value
      | _ => none
    | _ => none

def decode (record : Mutation) : Except RecordError (List Mutation) :=
  if record.keyspace ≠ reservedKeyspace then .ok [record]
  else
    match envelopePayload record with
    | none => .error .invalidEnvelope
    | some payload => do
        let mutations ← decodeFrames payload
        if mutations = [] then .error .invalidEnvelope else pure mutations

theorem decode_of_ordinary {record : Mutation} (ordinary : record.keyspace ≠ reservedKeyspace) :
    decode record = .ok [record] := by
  simp [decode, ordinary]

end TransactionRecord

end Ferrosa.CommitLog
