import Ferrosa.Accord.Types

/-!
# The conflict index

For every key, the writes in flight and a high-water mark of the execution
timestamps committed on it.  The map from keys to entries is total: a key the
index does not hold has the empty entry, which is also what an entry without
writes and mark amounts to.
-/

namespace Ferrosa.Accord

def asciiBytes (text : String) : Bytes := text.toList.map fun char => char.toNat.toUInt8

def postgresTransactionMarkerKey : Bytes := 0 :: asciiBytes "ferrosa:postgres:serializable:v1"

def postgresTransactionBarrierKey : Bytes := 0 :: asciiBytes "ferrosa:postgres:barrier:v1"

def postgresWriteTableKeyPrefix : Bytes := 0 :: asciiBytes "ferrosa:postgres:write-table:v1:"

def postgresReadKeyPrefix : Bytes := 0 :: asciiBytes "ferrosa:postgres:read:v1:"

def isPostgresWriteTableKey (key : Bytes) : Bool := postgresWriteTableKeyPrefix.isPrefixOf key

def postgresReadLookupKey (key : Bytes) : Bytes :=
  if postgresReadKeyPrefix.isPrefixOf key then key.drop postgresReadKeyPrefix.length else key

inductive TxnStatus where
  | preAccepted
  | accepted
  | committed
  | applied
  deriving DecidableEq, Repr

structure InFlightWrite where
  txnId : TxnId
  t0 : Timestamp
  accordTs : Option Timestamp
  status : TxnStatus
  deriving DecidableEq, Repr

def InFlightWrite.effective (write : InFlightWrite) : Timestamp := write.accordTs.getD write.t0

structure KeyEntry where
  writes : List InFlightWrite
  hwm : Option Timestamp
  deriving DecidableEq, Repr

def KeyEntry.empty : KeyEntry := ⟨[], none⟩

structure ConflictIndex where
  singleKey : Bytes → KeyEntry
  postgresMarkerHwm : Option Timestamp
  postgresBarrierHwm : Option Timestamp

def maxOption (left right : Option Timestamp) : Option Timestamp :=
  match left, right with
  | some a, some b => some (max a b)
  | some a, none => some a
  | none, right => right

def maxOf (timestamps : List (Option Timestamp)) : Option Timestamp :=
  timestamps.foldr maxOption none

namespace ConflictIndex

def new : ConflictIndex := ⟨fun _ => KeyEntry.empty, none, none⟩

variable (index : ConflictIndex) (key : Bytes)

def mapWrites (change : List InFlightWrite → List InFlightWrite) : ConflictIndex :=
  { index with
    singleKey := fun key =>
      { index.singleKey key with writes := change (index.singleKey key).writes } }

def register (entry : InFlightWrite) : ConflictIndex :=
  { index with
    singleKey := fun other =>
      if other = key then
        { index.singleKey other with writes := (index.singleKey other).writes ++ [entry] }
      else index.singleKey other }

def hwmOf : Option Timestamp :=
  if key = postgresTransactionMarkerKey then
    maxOption index.postgresMarkerHwm (index.singleKey key).hwm
  else if key = postgresTransactionBarrierKey then
    maxOption index.postgresBarrierHwm (index.singleKey key).hwm
  else (index.singleKey key).hwm

def maxConflictingTimestamp : Option Timestamp :=
  maxOption (maxOf ((index.singleKey key).writes.map fun write => some write.effective))
    (index.hwmOf key)

def depsBeforeT0 (t0 : Timestamp) : List TxnId :=
  ((index.singleKey key).writes.filter fun write => write.t0 < t0).map (·.txnId)

/-- Accept compares the proposed timestamps as well, with its own bound. -/
def depsBeforeT (t : Timestamp) : List TxnId :=
  ((index.singleKey key).writes.filter fun write => write.t0 < t).map (·.txnId)

def hasWrite (txnId : TxnId) : Bool :=
  (index.singleKey key).writes.any fun write => write.txnId == txnId

def setAccordTs (txnId : TxnId) (t : Timestamp) (write : InFlightWrite) : InFlightWrite :=
  if write.txnId = txnId then { write with accordTs := some t } else write

def setCommitTs (txnId : TxnId) (t : Timestamp) : ConflictIndex where
  singleKey key :=
    let entry := index.singleKey key
    { writes := entry.writes.map (setAccordTs txnId t)
      hwm :=
        if index.hasWrite key txnId ∧ key ≠ postgresTransactionMarkerKey ∧
            key ≠ postgresTransactionBarrierKey then
          maxOption entry.hwm (some t)
        else entry.hwm }
  postgresMarkerHwm :=
    if index.hasWrite postgresTransactionMarkerKey txnId then
      maxOption index.postgresMarkerHwm (some t)
    else index.postgresMarkerHwm
  postgresBarrierHwm :=
    if index.hasWrite postgresTransactionBarrierKey txnId then
      maxOption index.postgresBarrierHwm (some t)
    else index.postgresBarrierHwm

def remove (txnId : TxnId) : ConflictIndex :=
  index.mapWrites fun writes => writes.filter fun write => write.txnId ≠ txnId

def markApplied (txnId : TxnId) : ConflictIndex :=
  index.mapWrites fun writes => writes.map fun write =>
    if write.txnId = txnId then { write with status := .applied } else write

def gcApplied : ConflictIndex :=
  index.mapWrites fun writes => writes.filter fun write => write.status ≠ .applied

def txnIds : List TxnId :=
  (index.singleKey key).writes.map (·.txnId)

variable {index key} {txnId : TxnId}

theorem hasWrite_iff : index.hasWrite key txnId ↔ txnId ∈ index.txnIds key := by
  simp [hasWrite, txnIds]

theorem txnIds_setCommitTs {t : Timestamp} :
    (index.setCommitTs txnId t).txnIds key = index.txnIds key := by
  rw [txnIds, setCommitTs, List.map_map]
  refine List.map_congr_left fun write _ => ?_
  rw [Function.comp_apply, setAccordTs]
  split_ifs <;> rfl

theorem txnIds_markApplied : (index.markApplied txnId).txnIds key = index.txnIds key := by
  rw [txnIds, markApplied, mapWrites, List.map_map]
  refine List.map_congr_left fun write _ => ?_
  rw [Function.comp_apply]
  split_ifs <;> rfl

end ConflictIndex

end Ferrosa.Accord
