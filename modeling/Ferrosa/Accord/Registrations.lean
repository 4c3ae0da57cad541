import Ferrosa.Accord.RecordHistory

/-!
# Registrations in the conflict index

The index remembers the execution timestamps of committed transactions in a high-water mark, which
outlives the registrations themselves.
-/

namespace Ferrosa.Accord

open AccordStateMachine List TxnState

open Function (update)
open Journal (sampleTxn sampleTimestamp)

def Reaches (limit : Option Timestamp) (t : Timestamp) : Prop := ∃ bound ∈ limit, t ≤ bound

theorem reaches_maxOption_iff {left right : Option Timestamp} {t : Timestamp} :
    Reaches (maxOption left right) t ↔ Reaches left t ∨ Reaches right t := by
  unfold Reaches maxOption
  cases left <;> cases right <;> simp

theorem reaches_maxOf_iff {limits : List (Option Timestamp)} {t : Timestamp} :
    Reaches (maxOf limits) t ↔ ∃ limit ∈ limits, Reaches limit t := by
  induction limits with
  | nil => simp [maxOf, Reaches]
  | cons limit limits ih =>
    rw [maxOf, foldr_cons, reaches_maxOption_iff]
    simp [← ih, maxOf]

namespace ConflictIndex

variable {index : ConflictIndex} {key : Bytes} {txnId : TxnId} {t bound : Timestamp}

theorem hasWrite_setCommitTs (other : TxnId) :
    (index.setCommitTs txnId t).hasWrite key other = index.hasWrite key other := by
  rw [Bool.eq_iff_iff, hasWrite_iff, hasWrite_iff, txnIds_setCommitTs]

theorem hasWrite_markApplied (other : TxnId) :
    (index.markApplied txnId).hasWrite key other = index.hasWrite key other := by
  rw [Bool.eq_iff_iff, hasWrite_iff, hasWrite_iff, txnIds_markApplied]

theorem hasWrite_registerKeys {keys : List Bytes} {entry : InFlightWrite} {other : TxnId} :
    (registerKeys index keys entry).hasWrite key other ↔
      index.hasWrite key other ∨ (key ∈ keys ∧ entry.txnId = other) := by
  induction keys generalizing index with
  | nil => simp [registerKeys]
  | cons first keys ih =>
    rw [registerKeys, foldl_cons]
    refine ih.trans ?_
    by_cases same : key = first
    · simp [hasWrite, register, same]
      tauto
    · simp [hasWrite, register, same]

theorem hasWrite_of_filter {keep : InFlightWrite → Bool} {other : TxnId}
    (kept : (index.mapWrites fun writes => writes.filter keep).hasWrite key other) :
    index.hasWrite key other := by
  simp only [hasWrite, mapWrites, any_eq_true] at kept ⊢
  rcases kept with ⟨write, listed, own⟩
  exact ⟨write, mem_of_mem_filter listed, own⟩

theorem hwmOf_registerKeys {keys : List Bytes} {entry : InFlightWrite} :
    (registerKeys index keys entry).hwmOf key = index.hwmOf key := by
  induction keys generalizing index with
  | nil => rfl
  | cons first keys ih =>
    rw [registerKeys, foldl_cons]
    refine ih.trans ?_
    have same : ∀ other, ((index.register first entry).singleKey other).hwm =
        (index.singleKey other).hwm := by
      intro other
      simp only [register]
      split_ifs <;> rfl
    simp only [hwmOf, same]
    rfl

theorem registerKeys_committed_of_registered {entry : InFlightWrite} {keys : List Bytes}
    (registered : ∀ key ∈ keys, index.hasWrite key txnId) :
    keys.foldl (fun index key => if index.hasWrite key txnId then index
      else index.register key entry) index = index := by
  induction keys with
  | nil => rfl
  | cons key keys ih =>
    rw [foldl_cons, if_pos (registered key mem_cons_self)]
    exact ih fun key listed => registered key (mem_cons_of_mem _ listed)

theorem reaches_hwmOf_setCommitTs_iff : Reaches ((index.setCommitTs txnId t).hwmOf key) bound ↔
    Reaches (index.hwmOf key) bound ∨ (index.hasWrite key txnId ∧ bound ≤ t) := by
  have own : Reaches (some t) bound ↔ bound ≤ t := by simp [Reaches]
  simp only [hwmOf, setCommitTs]
  split_ifs <;> simp_all [reaches_maxOption_iff, or_right_comm]

theorem reaches_setCommitTs (reached : Reaches (index.hwmOf key) bound) :
    Reaches ((index.setCommitTs txnId t).hwmOf key) bound :=
  reaches_hwmOf_setCommitTs_iff.mpr (Or.inl reached)

end ConflictIndex

theorem Timestamp.lt_bumpPast {conflict : Timestamp} (room : conflict.seq ≠ 4294967295)
    (t0 : Timestamp) (node : NodeId) : conflict < t0.bumpPast conflict node := by
  have next : conflict.seq < nextSeq conflict.seq := by
    rw [nextSeq, if_neg room]
    exact lt_add_one_of_ne_max room
  change conflict.rank < (t0.bumpPast conflict node).rank
  simp [rank, bumpPast, Prod.Lex.toLex_lt_toLex, next]

theorem AccordStateMachine.lt_proposedTimestamp {machine : AccordStateMachine} {keys : List Bytes}
    {key : Bytes} {t : Timestamp} (t0 : Timestamp) (listed : key ∈ keys)
    (reached : Reaches (machine.conflictIndex.maxConflictingTimestamp key) t)
    (room : ∀ conflict ∈ machine.maxConflict keys, conflict.seq ≠ 4294967295) :
    t < machine.proposedTimestamp t0 keys := by
  have found : Reaches (machine.maxConflict keys) t :=
    reaches_maxOf_iff.mpr ⟨_, mem_map_of_mem listed, reached⟩
  rcases found with ⟨conflict, isMax, above⟩
  rw [proposedTimestamp, Option.mem_def.mp isMax]
  dsimp only
  split_ifs with late
  · exact above.trans_lt (Timestamp.lt_bumpPast (room conflict isMax) t0 _)
  · exact above.trans_lt (not_le.mp late)

theorem AccordStateMachine.record_of_committed {machine : AccordStateMachine} {txnId : TxnId}
    {t0 : Timestamp} (committed : (machine.withState txnId t0).1.phase = .committed) :
    (machine.withState txnId t0).1 ∈ machine.record txnId := by
  simp only [withState, record] at committed ⊢
  cases found : machine.txnStates.lookup txnId with
  | none => simp [found, TxnState.new] at committed
  | some state => rfl

def CommittedOn (records : TxnId → Option TxnState) (index : ConflictIndex) (key : Bytes)
    (t : Timestamp) : Prop :=
  ∃ txnId, ∃ state ∈ records txnId, state.phase = .committed ∧ state.t = t ∧
    index.hasWrite key txnId

def Floored (records : TxnId → Option TxnState) (index : ConflictIndex) : Prop :=
  ∀ key t, CommittedOn records index key t → Reaches (index.hwmOf key) t

theorem Floored.update {records : TxnId → Option TxnState} {index changed : ConflictIndex}
    {txnId : TxnId} {state : Option TxnState} (floored : Floored records index)
    (marks : ∀ key t, Reaches (index.hwmOf key) t → Reaches (changed.hwmOf key) t)
    (others : ∀ key id, id ≠ txnId → changed.hasWrite key id → index.hasWrite key id)
    (own : ∀ next ∈ state, next.phase = .committed → ∀ key, changed.hasWrite key txnId →
      Reaches (changed.hwmOf key) next.t) :
    Floored (Function.update records txnId state) changed := by
  rintro key t ⟨id, next, isNext, committed, rfl, registered⟩
  by_cases same : id = txnId
  · subst same
    rw [Function.update_self] at isNext
    exact own next isNext committed key registered
  · rw [Function.update_of_ne same] at isNext
    exact marks key _ (floored key _
      ⟨id, next, isNext, committed, rfl, others key id same registered⟩)

namespace Replica

/-- A transaction that the replica's own coordinator commits is registered under its keys. -/
def KeysRegistered (replica : Replica) : Environment × Call → Prop
  | (_, .commitLocally txnId _ _ _ keys) =>
    ∀ key ∈ keys, replica.machine.conflictIndex.hasWrite key txnId
  | _ => True

structure FloorsKept (start : ConflictIndex) (call : Call) (records : TxnId → Option TxnState)
    (index : ConflictIndex) : Prop where
  floored : Floored records index
  marks : ∀ key t, Reaches (start.hwmOf key) t → Reaches (index.hwmOf key) t
  registered : ∀ {txnId t0 t deps keys}, call = .commitLocally txnId t0 t deps keys →
    ∀ key ∈ keys, index.hasWrite key txnId

theorem floorsKept_after {replica : Replica} {call : Environment × Call}
    (floored : Floored replica.machine.record replica.machine.conflictIndex)
    (registered : replica.KeysRegistered call) :
    FloorsKept replica.machine.conflictIndex call.2 (replica.after call).machine.record
      (replica.after call).machine.conflictIndex := by
  rcases call with ⟨env, call⟩
  have keys : ∀ {txnId t0 t deps keys}, call = .commitLocally txnId t0 t deps keys →
      ∀ key ∈ keys, replica.machine.conflictIndex.hasWrite key txnId := by
    rintro _ _ _ _ _ rfl
    exact registered
  refine after_induction ?_ ?_ ?_
  · intro records index change
    cases change with
    | same => exact ⟨floored, fun _ _ => id, keys⟩
    | created | recovered =>
      refine ⟨floored.update (fun _ _ => id) (fun _ _ _ => id) ?_, fun _ _ => id, keys⟩
      rintro next ⟨⟩ committed key registered
      exact floored key _ ⟨_, _, AccordStateMachine.record_of_committed committed,
        committed, rfl, registered⟩
    | preAccepted fresh =>
      refine ⟨floored.update ?_ ?_ ?_, ?_, by rintro _ _ _ _ _ ⟨⟩⟩
      · intro key t reached
        rwa [ConflictIndex.hwmOf_registerKeys]
      · intro key id other registered
        exact (ConflictIndex.hasWrite_registerKeys.mp registered).resolve_right
          fun own => other own.2.symm
      · rintro next ⟨⟩ committed
        simp only [preAccept, TxnPhase.raiseTo_preAccepted] at committed
        have found := AccordStateMachine.record_of_committed committed
        rw [(fresh _ found).1] at committed
        cases committed
      · intro key t reached
        rwa [ConflictIndex.hwmOf_registerKeys]
    | preAcceptFailed fresh =>
      refine ⟨floored.update (fun _ _ => id) (fun _ _ _ => ConflictIndex.hasWrite_of_filter) ?_,
        fun _ _ => id, by rintro _ _ _ _ _ ⟨⟩⟩
      intro next isNext committed
      rcases Option.mem_map.mp isNext with ⟨state, found, rfl⟩
      simp [preAccept, (fresh state found).1] at committed
    | accepted merged unlocked current =>
      refine ⟨floored.update (fun _ _ => ConflictIndex.reaches_setCommitTs) ?_ ?_,
        fun _ _ => ConflictIndex.reaches_setCommitTs, by rintro _ _ _ _ _ ⟨⟩⟩
      · intro key id _ registered
        rwa [ConflictIndex.hasWrite_setCommitTs] at registered
      · rintro next ⟨⟩ committed
        refine absurd (Or.inl ?_) unlocked
        revert committed
        simp only [accept]
        cases (replica.machine.withState _ _).1.phase <;> decide
    | committed isCommit unlocked =>
      refine ⟨floored.update (fun _ _ => ConflictIndex.reaches_setCommitTs) ?_ ?_,
        fun _ _ => ConflictIndex.reaches_setCommitTs, ?_⟩
      · intro key id _ registered
        rwa [ConflictIndex.hasWrite_setCommitTs] at registered
      · rintro next ⟨⟩ _ key registered
        rw [ConflictIndex.hasWrite_setCommitTs] at registered
        exact ConflictIndex.reaches_hwmOf_setCommitTs_iff.mpr (Or.inr ⟨registered, le_rfl⟩)
      · intro _ _ _ _ _ isCall key listed
        rw [ConflictIndex.hasWrite_setCommitTs]
        exact keys isCall key listed
    | finalized isApply =>
      refine ⟨?_, fun _ _ => id, ?_⟩
      · rintro key t ⟨id, next, isNext, committed, same, registered⟩
        exact floored key t ⟨id, next, isNext, committed, same,
          ConflictIndex.hasWrite_of_filter registered⟩
      · rintro _ _ _ _ _ rfl
        rcases isApply with ⟨_, isApply | isApply⟩ <;> cases isApply
    | pruned =>
      refine ⟨?_, fun _ _ => id, by rintro _ _ _ _ _ ⟨⟩⟩
      rintro key t ⟨id, next, isNext, committed, same, registered⟩
      exact floored key t ⟨id, next, (Option.mem_filter_iff.mp isNext).1, committed, same,
        ConflictIndex.hasWrite_of_filter registered⟩
  · intro records index txnId result kept
    refine ⟨kept.floored.update (fun _ _ => id) ?_ ?_, kept.marks, ?_⟩
    · intro key id _ registered
      rwa [ConflictIndex.hasWrite_markApplied] at registered
    · intro next isNext committed
      rcases Option.mem_map.mp isNext with ⟨state, _, rfl⟩
      exact absurd ((TxnPhase.raiseTo_applied state.phase).symm.trans committed) (by decide)
    · intro _ _ _ _ _ isCall key listed
      rw [ConflictIndex.hasWrite_markApplied]
      exact kept.registered isCall key listed
  · intro txnId t0 t deps keys machine isCall kept
    have same : (machine.registerCommittedConflicts txnId t0 keys t).conflictIndex =
        machine.conflictIndex :=
      ConflictIndex.registerKeys_committed_of_registered (kept.registered isCall)
    rw [same]
    exact kept

theorem floors_of_run {replica : Replica} {calls : List (Environment × Call)}
    (floored : Floored replica.machine.record replica.machine.conflictIndex)
    (registered : Runs.Throughout after KeysRegistered replica calls) :
    let final := (calls.foldl after replica).machine
    Floored final.record final.conflictIndex ∧ ∀ key t,
      Reaches (replica.machine.conflictIndex.hwmOf key) t →
        Reaches (final.conflictIndex.hwmOf key) t := by
  induction calls generalizing replica with
  | nil => exact ⟨floored, fun _ _ => id⟩
  | cons call calls ih =>
    have step := floorsKept_after floored registered.1
    have rest := ih step.floored registered.2
    exact ⟨rest.1, fun key t reached => rest.2 key t (step.marks key t reached)⟩

def registeredCalls : List (Environment × Call) :=
  [(.healthy, .preAccept sampleTxn sampleTimestamp [[1]] 0 none),
    (.healthy, .commitLocally sampleTxn sampleTimestamp sampleTimestamp [] [[1]]),
    (.healthy, .apply sampleTxn [[7]]), (.healthy, .prune none)]

end Replica

end Ferrosa.Accord
