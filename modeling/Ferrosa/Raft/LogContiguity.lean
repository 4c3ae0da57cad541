import Ferrosa.Lib.Runs
import Ferrosa.Raft.LogStore

/-!
# Contiguity of the Raft log

A purge may be refused by the quarantine, clamped or skipped, and still reports success.  The
stored entries stay an interval above the purge point as long as a purge that is not carried out
in full is asked only for entries the log already has, and one that is carried out in full is not
below the purge point.
-/

namespace Ferrosa.Raft

open Trees List

variable {D : Type}

def LogTree.nextIndex (log : LogTree D) : ℕ :=
  match log.lastEntryLogId with
  | some logId => logId.index + 1
  | none => 0

namespace Trees

variable (trees : Trees D)

def firstIndex : ℕ :=
  match trees.lastPurged with
  | some point => point.index + 1
  | none => 0

def nextIndex : ℕ :=
  match trees.lastLogId with
  | some logId => logId.index + 1
  | none => 0

theorem firstIndex_of_lastPurged {point : LogId} (purged : point ∈ trees.lastPurged) :
    trees.firstIndex = point.index + 1 := by
  simp [firstIndex, Option.mem_def.mp purged]

structure Interval (next : ℕ) : Prop where
  first_le : trees.firstIndex ≤ next
  stored : ∀ index, (trees.log.get? index).isSome ↔ trees.firstIndex ≤ index ∧ index < next

def Contiguous : Prop := ∃ next, trees.Interval next

variable {trees} {next : ℕ}

theorem Interval.keys (interval : trees.Interval next) :
    trees.log.keys = List.range' trees.firstIndex (next - trees.firstIndex) := by
  have sorted : trees.log.keys.Pairwise (· < ·) := trees.log.stored.sorted_keys
  apply sorted.eq_of_mem_iff pairwise_lt_range'
  intro index
  have := interval.first_le
  rw [trees.log.mem_keys_iff, interval.stored, mem_range'_1]
  omega

theorem Interval.nextIndex_log (interval : trees.Interval next) :
    trees.firstIndex < next ∧ trees.log.nextIndex = next ∨
      trees.firstIndex = next ∧ trees.log.nextIndex = 0 := by
  have first := interval.first_le
  cases last : trees.log.lastEntryLogId with
  | none =>
    have absent := (trees.log.lastEntryLogId_eq_none_iff.mp last) trees.firstIndex
    have empty := interval.stored trees.firstIndex
    rw [absent] at empty
    right
    simp [LogTree.nextIndex, last] at empty ⊢
    omega
  | some logId =>
    rcases trees.log.lastEntryLogId_eq_some last with ⟨⟨entry, found, -⟩, greatest⟩
    have inside := (interval.stored logId.index).mp (by simp [found])
    have final := greatest (next - 1) ((interval.stored (next - 1)).mpr (by omega))
    left
    simp only [LogTree.nextIndex, last]
    omega

theorem Interval.nextIndex (interval : trees.Interval next) : trees.nextIndex = next := by
  rcases interval.nextIndex_log with ⟨nonempty, atEnd⟩ | ⟨empty, atStart⟩
  · cases last : trees.log.lastEntryLogId with
    | none => simp [LogTree.nextIndex, last] at atEnd; omega
    | some logId => simpa [LogTree.nextIndex, Trees.nextIndex, lastLogId, last] using atEnd
  · cases last : trees.log.lastEntryLogId with
    | none =>
      simp only [Trees.nextIndex, lastLogId, last, Option.none_or]
      exact empty
    | some logId => simp [LogTree.nextIndex, last] at atStart

end Trees

theorem gapFrom_range' (purgePoint : Option ℕ) (previous count : ℕ) :
    gapFrom purgePoint (some previous) (List.range' (previous + 1) count) = none := by
  induction count generalizing previous with
  | zero => rfl
  | succ count ih => simpa [range'_succ, gapFrom] using ih (previous + 1)

theorem Trees.Contiguous.logGap {trees : Trees D} (contiguous : trees.Contiguous) :
    trees.logGap = none := by
  rcases contiguous with ⟨next, interval⟩
  rw [Trees.logGap, interval.keys]
  cases next - trees.firstIndex with
  | zero => rfl
  | succ count =>
    have rest := gapFrom_range' (trees.lastPurged.map (·.index)) trees.firstIndex count
    cases purged : trees.lastPurged <;>
      simpa [range'_succ, gapFrom, firstIndex, purged, Option.filter] using rest

inductive Call (D : Type) where
  | append (entries : List (Entry D))
  | truncate (logId : LogId)
  | purge (admission : RecoveryAdmission) (durable : ℕ) (logId : LogId)

/-- `acknowledged` is the index after the highest purge that reported success, zero before the
first. -/
structure Store (D : Type) where
  trees : Trees D
  acknowledged : ℕ

namespace Store

def empty : Store D := ⟨.empty, 0⟩

def writes (trees : Trees D) : Call D → List (Write D)
  | .append entries => appendWrites entries
  | .truncate logId => trees.truncateWrites logId
  | .purge admission durable logId => trees.purgeWrites admission durable logId

variable (store : Store D)

def step (call : Call D) : Store D where
  trees := store.trees.applyAll (writes store.trees call)
  acknowledged :=
    match call with
    | .purge _ _ logId => max store.acknowledged (logId.index + 1)
    | _ => store.acknowledged

/-- An append starts after the last entry and after the highest acknowledged purge; a truncate
stays above the latter. -/
def Admissible : Call D → Prop
  | .append entries =>
    entries.map (·.logId.index) =
      List.range' (max store.trees.log.nextIndex store.acknowledged) entries.length
  | .truncate logId => store.acknowledged ≤ logId.index
  | .purge _ _ _ => True

/-- A purge carried out in full is not below the purge point; any other one asks for nothing
above the last log id. -/
def Covered : Call D → Prop
  | .purge admission durable logId =>
    if PurgedInFull admission durable logId then
      ∀ point ∈ store.trees.lastPurged, point.index ≤ logId.index
    else logId.index < store.trees.nextIndex
  | _ => True

instance (call : Call D) : Decidable (store.Admissible call) :=
  match call with
  | .append _ => inferInstanceAs (Decidable (_ = _))
  | .truncate _ => inferInstanceAs (Decidable (_ ≤ _))
  | .purge _ _ _ => isTrue trivial

instance (call : Call D) : Decidable (store.Covered call) :=
  match call with
  | .append _ => isTrue trivial
  | .truncate _ => isTrue trivial
  | .purge _ _ _ => inferInstanceAs (Decidable (ite _ _ _))

/-- A purge deletes only what is durably applied, the purge point does not move backwards, and
the entries stay an interval. -/
structure CallSound (call : Call D) : Prop where
  deletes_applied : ∀ admission durable logId, call = .purge admission durable logId →
    ∀ index, (store.trees.log.get? index).isSome →
      (store.step call).trees.log.get? index = none → index ≤ durable
  lastPurged_mono : ∀ point ∈ store.trees.lastPurged,
    ∃ later ∈ (store.step call).trees.lastPurged, point.index ≤ later.index
  contiguous : (store.step call).trees.Contiguous
  logGap : (store.step call).trees.logGap = none

def Intact : Prop :=
  ∃ next, store.trees.Interval next ∧ store.acknowledged ≤ next ∧
    store.trees.firstIndex ≤ store.acknowledged

variable {store} {entries : List (Entry D)} {admission : RecoveryAdmission} {durable : ℕ}
  {logId point : LogId}

theorem intact_empty : (empty : Store D).Intact := by
  refine ⟨0, ⟨Nat.le_refl 0, ?_⟩, Nat.le_refl 0, Nat.le_refl 0⟩
  intro index
  simp [empty, Trees.empty, LogTree.empty, LogTree.get?, SortedMap.empty, SortedMap.get?]

section

variable (intact : store.Intact)

include intact

theorem Intact.append (admissible : store.Admissible (.append entries)) :
    (store.step (.append entries)).Intact := by
  rcases intact with ⟨next, interval, acknowledged, first⟩
  have start : max store.trees.log.nextIndex store.acknowledged = next := by
    rcases interval.nextIndex_log with ⟨-, atEnd⟩ | ⟨empty, atStart⟩ <;> omega
  have nonempty := interval.first_le
  have indices : entries.map (·.logId.index) = List.range' next entries.length := by
    rw [← start]
    exact admissible
  refine ⟨next + entries.length, ⟨?_, ?_⟩, ?_, first⟩
  · exact Nat.le_trans nonempty (Nat.le_add_right next entries.length)
  · intro index
    have stored := store.trees.log.isSome_get?_applyBatch_insert entries index
    rw [indices, mem_range'_1, interval.stored] at stored
    apply stored.trans
    simp only [step, writes, appendWrites, applyAll, foldl_cons, foldl_nil,
      Trees.apply, Trees.firstIndex] at nonempty ⊢
    omega
  · exact Nat.le_trans acknowledged (Nat.le_add_right next entries.length)

theorem Intact.truncate (admissible : store.Admissible (.truncate logId)) :
    (store.step (.truncate logId)).Intact := by
  rcases intact with ⟨next, interval, acknowledged, first⟩
  have above : store.acknowledged ≤ logId.index := admissible
  refine ⟨min next logId.index, ⟨?_, ?_⟩, ?_, first⟩
  · exact Nat.le_trans first (Nat.le_min.mpr ⟨acknowledged, above⟩)
  · intro index
    have stored := interval.stored index
    have kept := store.trees.get?_apply_removals (fun index => index < logId.index) index
    simp only [step, writes, truncateWrites, applyAll, foldl_cons, foldl_nil, kept]
    by_cases below : index < logId.index
    · simp only [below, decide_true, if_true, stored]
      apply and_congr_right
      omega
    · simp [below]
  · exact Nat.le_min.mpr ⟨acknowledged, above⟩

theorem Intact.firstIndex_le (covered : store.Covered (.purge admission durable logId))
    (purged : store.trees.purgedThrough admission durable logId = some point) :
    store.trees.firstIndex ≤ point.index + 1 := by
  rcases intact with ⟨next, interval, -, -⟩
  rcases purgedThrough_eq_some purged with ⟨inFull, rfl⟩ | ⟨-, atDurable, -, isStored⟩
  · simp only [Covered, inFull, if_true] at covered
    cases lastPurged : store.trees.lastPurged with
    | none => simp [Trees.firstIndex, lastPurged]
    | some last =>
      have below := covered last lastPurged
      rw [store.trees.firstIndex_of_lastPurged lastPurged]
      omega
  · have inside := (interval.stored durable).mp isStored
    omega

theorem Intact.purge (covered : store.Covered (.purge admission durable logId)) :
    (store.step (.purge admission durable logId)).Intact := by
  cases purged : store.trees.purgedThrough admission durable logId with
  | none =>
    have notInFull : ¬ PurgedInFull admission durable logId := by
      intro inFull
      simp [Trees.PurgedInFull.purgedThrough inFull] at purged
    rcases intact with ⟨next, interval, acknowledged, first⟩
    simp only [Covered, notInFull, if_false, interval.nextIndex] at covered
    rw [step, writes, purge_of_none purged]
    refine ⟨next, interval, Nat.max_le.mpr ⟨acknowledged, covered⟩, ?_⟩
    exact first.trans (Nat.le_max_left _ _)
  | some point =>
    have start := intact.firstIndex_le covered purged
    rcases intact with ⟨next, interval, acknowledged, first⟩
    have nonempty := interval.first_le
    have moved : (store.step (.purge admission durable logId)).trees.firstIndex = point.index + 1 :=
      Trees.firstIndex_of_lastPurged _ (lastPurged_purge purged)
    have acknowledgedAfter : (store.step (.purge admission durable logId)).acknowledged =
        max store.acknowledged (logId.index + 1) := rfl
    have bounds : point.index ≤ logId.index ∧ max next (logId.index + 1) =
        max next (point.index + 1) := by
      rcases purgedThrough_eq_some purged with ⟨-, rfl⟩ | ⟨notInFull, atDurable, below, -⟩
      · exact ⟨Nat.le_refl _, rfl⟩
      · simp only [Covered, notInFull, if_false, interval.nextIndex] at covered
        omega
    refine ⟨max next (point.index + 1), ⟨?_, ?_⟩, ?_, ?_⟩
    · omega
    · intro index
      rw [moved]
      simp only [step, writes, get?_purge purged]
      split_ifs with kept
      · rw [interval.stored]
        omega
      · simp
        omega
    · omega
    · omega

theorem Intact.step {call : Call D} (admissible : store.Admissible call)
    (covered : store.Covered call) : (store.step call).Intact := by
  cases call with
  | append entries => exact intact.append admissible
  | truncate logId => exact intact.truncate admissible
  | purge admission durable logId => exact intact.purge covered

theorem Intact.contiguous : store.trees.Contiguous := by
  rcases intact with ⟨next, interval, -⟩
  exact ⟨next, interval⟩

theorem Intact.callSound {call : Call D}
    (admissible : store.Admissible call) (covered : store.Covered call) :
    store.CallSound call := by
  have after := (intact.step admissible covered).contiguous
  refine ⟨?_, ?_, after, after.logGap⟩
  · rintro admission durable logId rfl index isStored deleted
    cases purged : store.trees.purgedThrough admission durable logId with
    | none =>
      simp [Store.step, writes, purge_of_none purged] at deleted
      simp [deleted] at isStored
    | some point =>
      have applied : point.index ≤ durable := by
        rcases purgedThrough_eq_some purged with ⟨inFull, rfl⟩ | ⟨-, atDurable, -⟩
        · exact inFull.2.2.2
        · exact atDurable.le
      simp only [Store.step, writes, get?_purge purged] at deleted
      split_ifs at deleted with kept
      · simp [deleted] at isStored
      · omega
  · intro last isLast
    cases call with
    | append entries => exact ⟨last, isLast, Nat.le_refl _⟩
    | truncate logId => exact ⟨last, isLast, Nat.le_refl _⟩
    | purge admission durable logId =>
      cases purged : store.trees.purgedThrough admission durable logId with
      | none =>
        rw [Store.step, writes, purge_of_none purged]
        exact ⟨last, isLast, Nat.le_refl _⟩
      | some point =>
        have start := intact.firstIndex_le covered purged
        rw [store.trees.firstIndex_of_lastPurged isLast] at start
        exact ⟨point, lastPurged_purge purged, by omega⟩

end

/-- In a run whose purges are covered, every call keeps the log contiguous. -/
theorem callSound_throughout (calls : List (Call D))
    (run : Runs.Throughout step (fun store call => store.Admissible call ∧ store.Covered call)
      empty calls) :
    Runs.Throughout step CallSound empty calls :=
  Runs.Throughout.of_invariant (fun _ _ intact met => intact.step met.1 met.2)
    (fun _ _ intact met => intact.callSound met.1 met.2) intact_empty run

def blankEntry (index : ℕ) : Entry Unit := ⟨⟨1, 1, index⟩, ()⟩

def clampedInside : List (Call Unit) :=
  [.append [blankEntry 0, blankEntry 1, blankEntry 2],
    .purge ⟨true, true⟩ 1 ⟨1, 1, 2⟩, .append [blankEntry 3]]

theorem callSound_clampedInside : (clampedInside.foldl step empty).trees.log.keys = [2, 3] ∧
      Runs.Throughout step CallSound empty clampedInside :=
  ⟨by decide, callSound_throughout clampedInside (by decide)⟩

def clampedPastTheEnd : List (Call Unit) :=
  [.append [blankEntry 0, blankEntry 1, blankEntry 2],
    .purge ⟨true, true⟩ 1 ⟨1, 1, 5⟩, .append [blankEntry 6]]

theorem not_callSound_clampedPastTheEnd : Runs.Throughout step Admissible empty clampedPastTheEnd ∧
      (clampedPastTheEnd.foldl step empty).trees.log.keys = [2, 6] ∧
      ¬ Runs.Throughout step CallSound empty clampedPastTheEnd := by
  refine ⟨by decide, by decide, ?_⟩
  rintro ⟨-, -, sound, -⟩
  have gap : (clampedPastTheEnd.foldl step empty).trees.logGap = some (3, 5) := by decide
  have noGap : (clampedPastTheEnd.foldl step empty).trees.logGap = none := sound.logGap
  simp [gap] at noGap

end Store

end Ferrosa.Raft
