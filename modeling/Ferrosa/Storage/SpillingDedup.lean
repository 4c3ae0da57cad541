import Ferrosa.Lib.Framing
import Ferrosa.Lib.MachineOrder

/-!
# The spilling de-duplication set

A bounded number of keys stays in memory.  The other ones are appended to a file and found again
through an index from their hashes to their offsets, whatever the hash is.
-/

namespace Ferrosa.Storage

open Framing List

/-- The file is seen with the bytes of its writer's buffer, which is flushed before each read. -/
structure SpillingDedup where
  resident : Finset (List UInt8)
  spilledIndex : UInt64 → List ℕ
  spillFile : Option (List UInt8)
  spillLen : ℕ
  residentLimit : ℕ
  distinct : ℕ
  duplicates : ℕ
  spilled : ℕ

inductive SpillError
  | keyTooLong
  | unexpectedEof

namespace SpillingDedup

def new (residentLimit : ℕ) : SpillingDedup :=
  ⟨∅, fun _ => [], none, 0, max residentLimit 1, 0, 0, 0⟩

def containsAt (file key : List UInt8) : List ℕ → Except SpillError Bool
  | [] => .ok false
  | offset :: offsets =>
    match nextFrame (file.drop offset) with
    | none => .error .unexpectedEof
    | some (buf, _) => if buf = key then .ok true else containsAt file key offsets

variable (hashOf : List UInt8 → UInt64) (dedup : SpillingDedup) (key : List UInt8)

def containsSpilled : Except SpillError Bool :=
  match dedup.spillFile with
  | none => .ok false
  | some file => containsAt file key (dedup.spilledIndex (hashOf key))

def spill : Except SpillError SpillingDedup :=
  if key.length < payloadLimit then
    .ok { dedup with
      spillFile := some (dedup.spillFile.getD [] ++ frame key)
      spillLen := dedup.spillLen + (4 + key.length)
      spilledIndex := Function.update dedup.spilledIndex (hashOf key)
        (dedup.spilledIndex (hashOf key) ++ [dedup.spillLen]) }
  else .error .keyTooLong

def insert : Except SpillError (Bool × SpillingDedup) := do
  let duplicate := { dedup with duplicates := dedup.duplicates + 1 }
  if key ∈ dedup.resident then return (false, duplicate)
  if ← dedup.containsSpilled hashOf key then return (false, duplicate)
  let kept ←
    if dedup.resident.card < dedup.residentLimit then
      pure { dedup with resident := Insert.insert key dedup.resident }
    else do
      let after ← dedup.spill hashOf key
      pure { after with spilled := after.spilled + 1 }
  return (true, { kept with distinct := kept.distinct + 1 })

def insertAll (residentLimit : ℕ) (keys : List (List UInt8)) : Except SpillError SpillingDedup :=
  keys.foldlM (fun dedup key => Prod.snd <$> dedup.insert hashOf key) (new residentLimit)

/-- An insertion tells whether the key is new, and fails only on a key that cannot be spilled. -/
structure Exact (limit : ℕ) (seen : List (List UInt8)) : Prop where
  answers : ∀ key answer next, dedup.insert hashOf key = .ok (answer, next) →
    (answer = true ↔ key ∉ seen)
  fails : ∀ key error, dedup.insert hashOf key = .error error →
    error = .keyTooLong ∧ payloadLimit ≤ key.length
  resident : dedup.resident.card ≤ limit
  counted : dedup.distinct + dedup.duplicates = seen.length
  spilled : dedup.spilled = seen.toFinset.card - limit

structure Holds (limit : ℕ) (seen : Finset (List UInt8)) (count : ℕ)
    (spilled : List (ℕ × List UInt8)) : Prop where
  limited : dedup.residentLimit = limit
  closed : dedup.spillFile = none → spilled = []
  length : dedup.spillLen = (dedup.spillFile.getD []).length
  indexed : ∀ hash, dedup.spilledIndex hash =
    (spilled.filter (hashOf ·.2 = hash)).map (·.1)
  stored : ∀ entry ∈ spilled, entry.2.length < payloadLimit ∧
    ∃ rest, (dedup.spillFile.getD []).drop entry.1 = frame entry.2 ++ rest
  keys : ∀ key, key ∈ seen ↔ key ∈ dedup.resident ∨ key ∈ spilled.map (·.2)
  within : dedup.resident.card ≤ limit
  full : spilled ≠ [] → dedup.resident.card = limit
  distinct : dedup.distinct = dedup.resident.card + spilled.length
  card : seen.card = dedup.distinct
  spilledCount : dedup.spilled = spilled.length
  counted : dedup.distinct + dedup.duplicates = count

variable {hashOf dedup} {file : List UInt8} {limit count : ℕ} {seen : Finset (List UInt8)}
  {spilled : List (ℕ × List UInt8)}

theorem holds_new (limit : ℕ) : Holds hashOf (new limit) (max limit 1) ∅ 0 [] := by
  constructor <;> simp [new]

theorem containsAt_eq (stored : ∀ entry ∈ spilled, entry.2.length < payloadLimit ∧
      ∃ rest, file.drop entry.1 = frame entry.2 ++ rest) :
    containsAt file key (spilled.map (·.1)) = .ok (decide (key ∈ spilled.map (·.2))) := by
  induction spilled with
  | nil => rfl
  | cons entry spilled ih =>
    rcases forall_mem_cons.mp stored with ⟨⟨fits, rest, isFrame⟩, others⟩
    rw [map_cons, containsAt, isFrame, nextFrame_frame_append fits]
    by_cases same : entry.2 = key
    · simp [same]
    · simp [same, Ne.symm same, ih others]

namespace Holds

variable (holds : Holds hashOf dedup limit seen count spilled)

include holds

theorem containsSpilled_eq :
    dedup.containsSpilled hashOf key = .ok (decide (key ∈ spilled.map (·.2))) := by
  rw [containsSpilled]
  cases isFile : dedup.spillFile with
  | none => simp [holds.closed isFile]
  | some file =>
    have stored := holds.stored
    rw [isFile, Option.getD_some] at stored
    dsimp only
    rw [holds.indexed, containsAt_eq key fun entry inPart => stored entry (mem_of_mem_filter inPart)]
    congr 2
    simp

theorem duplicate (present : key ∈ seen) :
    Holds hashOf { dedup with duplicates := dedup.duplicates + 1 } limit (Insert.insert key seen)
      (count + 1) spilled := by
  rw [Finset.insert_eq_of_mem present]
  exact { holds with counted := congrArg (· + 1) holds.counted }

variable (absent : key ∉ seen)

include absent

theorem keep (room : dedup.resident.card < dedup.residentLimit) :
    Holds hashOf { dedup with
      resident := Insert.insert key dedup.resident
      distinct := dedup.distinct + 1 } limit (Insert.insert key seen) (count + 1) spilled := by
  have outside : key ∉ dedup.resident := fun inside => absent ((holds.keys key).mpr (.inl inside))
  have one := Finset.card_insert_of_notMem outside
  have distinct := holds.distinct
  have counted := holds.counted
  rw [holds.limited] at room
  refine { holds with
    keys := fun other => by simp [holds.keys, or_assoc]
    within := by dsimp only; omega
    full := fun some => absurd (holds.full some) room.ne
    distinct := by dsimp only; omega
    card := by rw [Finset.card_insert_of_notMem absent, holds.card]
    counted := by dsimp only; omega }

theorem spill (isFull : ¬dedup.resident.card < dedup.residentLimit)
    {after : SpillingDedup} (done : dedup.spill hashOf key = .ok after) :
    Holds hashOf { after with
      spilled := after.spilled + 1
      distinct := after.distinct + 1 } limit (Insert.insert key seen) (count + 1)
      (spilled ++ [(dedup.spillLen, key)]) := by
  rw [SpillingDedup.spill] at done
  split_ifs at done with fits
  cases done
  have distinct := holds.distinct
  have counted := holds.counted
  have within := holds.within
  rw [holds.limited] at isFull
  constructor
  · exact holds.limited
  · simp
  · simp [holds.length]
  · intro hash
    by_cases same : hashOf key = hash
    · simp [← same, holds.indexed, filter_append]
    · simp [Function.update_of_ne (Ne.symm same), same, holds.indexed, filter_append]
  · simp only [forall_mem_append, forall_mem_singleton, Option.getD_some]
    refine ⟨fun entry member => ?_, fits, [], ?_⟩
    · rcases holds.stored entry member with ⟨short, rest, isFrame⟩
      have inside : entry.1 ≤ (dedup.spillFile.getD []).length := by
        have := congrArg List.length isFrame
        simp at this
        omega
      refine ⟨short, rest ++ frame key, ?_⟩
      rw [drop_append_of_le_length inside, isFrame, append_assoc]
    · rw [holds.length, drop_left, append_nil]
  · intro other
    simp [holds.keys, or_comm, or_left_comm]
  · exact within
  · intro _
    dsimp only
    omega
  · simp
    omega
  · rw [Finset.card_insert_of_notMem absent, holds.card]
  · simp [holds.spilledCount]
  · dsimp only
    omega

omit absent in
theorem insert_spec : match dedup.insert hashOf key with
    | .error error => error = .keyTooLong ∧ payloadLimit ≤ key.length
    | .ok (answer, next) => (answer = true ↔ key ∉ seen) ∧
      ∃ spilled, Holds hashOf next limit (Insert.insert key seen) (count + 1) spilled := by
  have known := holds.keys key
  rw [insert, holds.containsSpilled_eq]
  by_cases isResident : key ∈ dedup.resident
  · simp only [isResident, if_true, pure, Except.pure]
    exact ⟨by simp [known, isResident], _, holds.duplicate key (known.mpr (.inl isResident))⟩
  by_cases isSpilled : key ∈ spilled.map (·.2)
  · simp only [isResident, isSpilled, if_false, decide_true, if_true, bind, Except.bind, pure,
      Except.pure]
    exact ⟨by simp [known, isSpilled], _, holds.duplicate key (known.mpr (.inr isSpilled))⟩
  have absent : key ∉ seen := by
    rw [known, not_or]
    exact ⟨isResident, isSpilled⟩
  simp only [isResident, isSpilled, if_false, decide_false, Bool.false_eq_true, bind, Except.bind,
    pure, Except.pure]
  by_cases room : dedup.resident.card < dedup.residentLimit
  · rw [if_pos room]
    exact ⟨by simp [absent], _, holds.keep key absent room⟩
  · rw [if_neg room]
    cases done : dedup.spill hashOf key with
    | error error =>
      rw [SpillingDedup.spill] at done
      split_ifs at done with fits
      cases done
      exact ⟨rfl, Nat.le_of_not_lt fits⟩
    | ok after => exact ⟨by simp [absent], _, holds.spill key absent room done⟩

end Holds

theorem holds_insertAll {keys : List (List UInt8)}
    (ran : insertAll hashOf limit keys = .ok dedup) :
    ∃ spilled, Holds hashOf dedup (max limit 1) keys.toFinset keys.length spilled := by
  suffices general : ∀ {start : SpillingDedup} {seen count spilled},
      Holds hashOf start (max limit 1) seen count spilled →
      keys.foldlM (fun dedup key => Prod.snd <$> dedup.insert hashOf key) start = .ok dedup →
      ∃ spilled, Holds hashOf dedup (max limit 1) (seen ∪ keys.toFinset) (count + keys.length)
        spilled by
    simpa using general (holds_new limit) ran
  clear ran
  intro start seen count spilled holds ran
  induction keys generalizing start seen count spilled with
  | nil =>
    cases ran
    exact ⟨spilled, by simpa using holds⟩
  | cons key keys ih =>
    have spec := holds.insert_spec key
    rw [foldlM_cons] at ran
    cases done : start.insert hashOf key with
    | error error =>
      rw [done] at ran
      cases ran
    | ok result =>
      rw [done] at ran spec
      rcases spec.2 with ⟨spilled, holds⟩
      rcases ih holds ran with ⟨spilled, holds⟩
      refine ⟨spilled, ?_⟩
      rw [toFinset_cons, length_cons, Finset.union_insert, ← Finset.insert_union,
        Nat.add_comm keys.length, ← Nat.add_assoc]
      exact holds

theorem exact_insertAll {keys : List (List UInt8)}
    (ran : insertAll hashOf limit keys = .ok dedup) :
    Exact hashOf dedup (max limit 1) keys := by
  rcases holds_insertAll ran with ⟨spilled, holds⟩
  refine ⟨fun key answer next done => ?_, fun key _ failed => ?_, holds.within, holds.counted, ?_⟩
  · have spec := holds.insert_spec key
    rw [done] at spec
    simpa using spec.1
  · have spec := holds.insert_spec key
    rwa [failed] at spec
  · have full := holds.full
    have within := holds.within
    rw [holds.card, holds.distinct, holds.spilledCount]
    cases spilled with
    | nil => exact (Nat.sub_eq_zero_of_le within).symm
    | cons => simp [full]

theorem exact_insertAll_collision : ∃ dedup, insertAll (fun _ => 0) 1 [[1], [2]] = .ok dedup ∧
    Exact (fun _ => 0) dedup (max 1 1) [[1], [2]] :=
  ⟨_, rfl, exact_insertAll rfl⟩

theorem resident_insertAll_zeroLimit : ∃ dedup, insertAll (fun _ => 0) 0 [[]] = .ok dedup ∧
    ¬dedup.resident.card ≤ 0 :=
  ⟨_, rfl, by decide⟩

end SpillingDedup

end Ferrosa.Storage
