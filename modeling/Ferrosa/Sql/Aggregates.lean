import Mathlib

/-!
# Exact sums and averages of the SQL engine

The accumulator of `SUM` and `AVG` adds integers and decimals into one integer with a scale that
grows while values arrive.  The counters of rows do not reach the limit of their machine type.
-/

namespace Ferrosa.Sql

open Int32 List

/-- A scalar column value; documents are an arbitrary type. -/
inductive Value (Jsonb : Type)
  | null
  | int (n : Int64)
  | text (text : String)
  | bool (b : Bool)
  | float (f : Float)
  | uuid (id : ℕ)
  | bytea (bytes : List UInt8)
  | timestamp (micros : Int64)
  | date (days : Int32)
  | time (micros : Int64)
  | inet (address : ℕ ⊕ ℕ)
  | numeric (unscaled : ℤ) (scale : Int32)
  | jsonb (document : Jsonb)
  | jsonPath (path : String)
  | textArray (elements : List (Option String))

variable {Jsonb : Type}

def Value.isNull : Value Jsonb → Bool
  | .null => true
  | _ => false

/-- Strip decimal zeros, at most as many as the scale has digits. -/
def stripZeros : ℕ → ℤ → ℤ × ℕ
  | 0, unscaled => (unscaled, 0)
  | scale + 1, unscaled =>
    if unscaled.tmod 10 = 0 then stripZeros scale (unscaled.tdiv 10) else (unscaled, scale + 1)

def normalizeNumeric (unscaled : ℤ) (scale : Int32) : ℤ × Int32 :=
  if unscaled = 0 then (0, 0)
  else if 0 < scale then
    let stripped := stripZeros scale.toInt.toNat unscaled
    (stripped.1, Int32.ofNat stripped.2)
  else (unscaled, scale)

def Value.ofNumeric (unscaled : ℤ) (scale : Int32) : Value Jsonb :=
  .numeric (normalizeNumeric unscaled scale).1 (normalizeNumeric unscaled scale).2

inductive ColumnType
  | int | bigInt | text | bool | float | uuid | bytea | timestamp | timestampTz | date | time
  | inet | numeric | jsonb | json | jsonPath | textArray
  deriving DecidableEq

inductive AggFunc
  | count | sum | min | max | avg
  deriving DecidableEq

inductive AccKind
  | count | sumInt8 | sumNumeric | sumFloat | avgNumeric | avgFloat | extreme
  deriving DecidableEq

def AccKind.of (func : AggFunc) (argType : Option ColumnType) : AccKind :=
  match func with
  | .count => .count
  | .min | .max => .extreme
  | .sum =>
    match argType with
    | some .float => .sumFloat
    | some .bigInt | some .numeric => .sumNumeric
    | _ => .sumInt8
  | .avg =>
    match argType with
    | some .float => .avgFloat
    | _ => .avgNumeric

def avgDecimalScale : Int32 := 16

/-- The only error of a finished accumulator, with its message. -/
inductive AggregateError
  | outOfRange (message : String)

structure Accumulator (Jsonb : Type) where
  kind : AccKind
  count : ℕ := 0
  total : ℤ := 0
  totalScale : Int32 := 0
  floatSum : Float := 0
  numericCount : ℕ := 0
  extreme : Option (Value Jsonb) := none

/-- A power of ten; a non-positive power is one. -/
def pow10 (power : Int32) : ℤ := if power ≤ 0 then 1 else 10 ^ power.toInt.toNat

def roundDivHalfAway (num den : ℤ) : ℤ :=
  let q := num.tdiv den
  let r := num.tmod den
  if r = 0 then q
  else if den.natAbs ≤ r.natAbs + r.natAbs then
    if num.sign = den.sign then q + 1 else q - 1
  else q

def avgNumeric (total : ℤ) (totalScale : Int32) (count : ℕ) : Value Jsonb :=
  let shift := avgDecimalScale - totalScale
  let (num, den) := if 0 ≤ shift then (total * pow10 shift, (count : ℤ))
    else (total, count * pow10 (-shift))
  .ofNumeric (roundDivHalfAway num den) avgDecimalScale

namespace Accumulator

def new (kind : AccKind) : Accumulator Jsonb := { kind }

def addDecimal (acc : Accumulator Jsonb) (unscaled : ℤ) (scale : Int32) : Accumulator Jsonb :=
  let aligned := if acc.totalScale < scale then
      { acc with total := acc.total * pow10 (scale - acc.totalScale), totalScale := scale }
    else acc
  { aligned with total := aligned.total + unscaled * pow10 (aligned.totalScale - scale) }

def addExact (acc : Accumulator Jsonb) : Value Jsonb → Accumulator Jsonb
  | .int n => { acc with total := acc.total + n.toInt, numericCount := acc.numericCount + 1 }
  | .numeric unscaled scale =>
    { acc.addDecimal unscaled scale with numericCount := acc.numericCount + 1 }
  | _ => acc

def update (sqlCmp : Value Jsonb → Value Jsonb → Option Ordering) (func : AggFunc)
    (acc : Accumulator Jsonb) (arg : Option (Value Jsonb)) : Accumulator Jsonb :=
  match acc.kind, arg with
  | .count, none => { acc with count := acc.count + 1 }
  | .count, some value => if value.isNull then acc else { acc with count := acc.count + 1 }
  | .sumInt8, some value | .sumNumeric, some value | .avgNumeric, some value => acc.addExact value
  | .sumFloat, some (.float f) | .avgFloat, some (.float f) =>
    { acc with floatSum := acc.floatSum + f, numericCount := acc.numericCount + 1 }
  | .sumFloat, some (.int n) | .avgFloat, some (.int n) =>
    { acc with
      floatSum := acc.floatSum + Float.ofInt n.toInt, numericCount := acc.numericCount + 1 }
  | .extreme, some value =>
    let wanted := if func = .min then Ordering.lt else .gt
    let take := acc.extreme.all fun current => (sqlCmp value current).getD .eq = wanted
    if !value.isNull && take then { acc with extreme := some value } else acc
  | _, _ => acc

def finish (acc : Accumulator Jsonb) : Except AggregateError (Value Jsonb) :=
  match acc.kind with
  | .count => .ok (.int (Int64.ofNat acc.count))
  | .extreme => .ok (acc.extreme.getD .null)
  | kind =>
    if acc.numericCount = 0 then .ok .null
    else
      match kind with
      | .sumInt8 =>
        if -2 ^ 63 ≤ acc.total ∧ acc.total < 2 ^ 63 then .ok (.int (Int64.ofInt acc.total))
        else .error (.outOfRange ("bigint out of range: sum of " ++
          toString acc.numericCount ++ " row(s) does not fit int8"))
      | .sumNumeric => .ok (.ofNumeric acc.total acc.totalScale)
      | .sumFloat => .ok (.float acc.floatSum)
      | .avgFloat => .ok (.float (acc.floatSum / Float.ofNat acc.numericCount))
      | _ => .ok (avgNumeric acc.total acc.totalScale acc.numericCount)

end Accumulator

def Value.rational : Value Jsonb → Option ℚ
  | .int n => some n.toInt
  | .numeric unscaled scale => some (unscaled * 10 ^ (-scale.toInt))
  | _ => none

/-- NULL or a value of a numeric type; decimals have scales below `2 ^ 30`. -/
def Value.HasType (declared : ColumnType) (value : Value Jsonb) : Prop :=
  value = .null ∨ (declared = .int ∨ declared = .bigInt) ∧ (∃ n, value = .int n) ∨
    declared = .numeric ∧ ∃ unscaled scale, value = .numeric unscaled scale ∧
      -2 ^ 30 < scale.toInt ∧ scale.toInt < 2 ^ 30

def roundHalfAway (x : ℚ) : ℤ := if 0 ≤ x then ⌊x + 1 / 2⌋ else ⌈x - 1 / 2⌉

/-- The result of an exact aggregate over values of the declared type. -/
def ExactResult (func : AggFunc) (declared : ColumnType) (values : List (Value Jsonb))
    (result : Except AggregateError (Value Jsonb)) : Prop :=
  let known := values.filterMap Value.rational
  if known = [] then result = .ok .null
  else if func = .avg then ∃ value, result = .ok value ∧
    value.rational = some ((roundHalfAway (known.sum / known.length * 10 ^ 16) : ℚ) / 10 ^ 16)
  else if declared = .int ∧ ¬ (-2 ^ 63 ≤ known.sum ∧ known.sum < 2 ^ 63) then
    ∃ message, result = .error (.outOfRange message)
  else ∃ value, result = .ok value ∧ value.rational = some known.sum ∧
    (declared = .int → ∃ n, value = .int n)

theorem pow10_eq {power : Int32} (nonnegative : 0 ≤ power.toInt) :
    (pow10 power : ℚ) = 10 ^ power.toInt := by
  simp only [pow10, le_iff_toInt_le, toInt_zero]
  split_ifs with nonpositive
  · rw [le_antisymm nonpositive nonnegative]
    simp
  · rw [← Int.toNat_of_nonneg nonnegative]
    simp

theorem toInt_sub_of_lt {a b : Int32} (aBounds : -2 ^ 30 < a.toInt ∧ a.toInt < 2 ^ 30)
    (bBounds : -2 ^ 30 < b.toInt ∧ b.toInt < 2 ^ 30) : (a - b).toInt = a.toInt - b.toInt := by
  rw [toInt_sub]
  apply Int.bmod_eq_of_le <;> omega

theorem roundHalfAway_neg (x : ℚ) : roundHalfAway (-x) = -roundHalfAway x := by
  rcases lt_trichotomy x 0 with negative | rfl | positive
  · rw [roundHalfAway, roundHalfAway, if_pos (by linarith), if_neg (by linarith), ← Int.floor_neg]
    ring_nf
  · norm_num [roundHalfAway]
  · rw [roundHalfAway, roundHalfAway, if_neg (by linarith), if_pos (by linarith), ← Int.ceil_neg]
    ring_nf

theorem roundHalfAway_add {q r den : ℤ} (whole : 0 ≤ q) (remainder : 0 ≤ r) (below : r < den) :
    roundHalfAway (q + (r : ℚ) / den) = if den ≤ r + r then q + 1 else q := by
  have denominator : (0 : ℚ) < den := by exact_mod_cast remainder.trans_lt below
  have whole' : (0 : ℚ) ≤ q := by exact_mod_cast whole
  have remainder' : 0 ≤ (r : ℚ) / den := div_nonneg (by exact_mod_cast remainder) denominator.le
  have below' : (r : ℚ) / den < 1 := (div_lt_one denominator).mpr (by exact_mod_cast below)
  have half : den ≤ r + r ↔ 1 / 2 ≤ (r : ℚ) / den := by
    rw [le_div_iff₀ denominator, ← Int.cast_le (R := ℚ)]
    push_cast
    constructor <;> intro bound <;> linarith
  rw [roundHalfAway, if_pos (by linarith), Int.floor_eq_iff]
  split_ifs with up
  · rw [half] at up
    push_cast
    constructor <;> linarith
  · rw [half] at up
    constructor <;> linarith

theorem roundDivHalfAway_eq {num den : ℤ} (positive : 0 < den) :
    roundDivHalfAway num den = roundHalfAway (num / den) := by
  have denominator : (den : ℚ) ≠ 0 := by exact_mod_cast positive.ne'
  have quotient : ∀ n : ℤ, (n : ℚ) / den = n.tdiv den + (n.tmod den : ℚ) / den := by
    intro n
    rw [div_eq_iff denominator, add_mul, div_mul_cancel₀ _ denominator]
    exact_mod_cast (Int.tdiv_mul_add_tmod n den).symm
  have below := Int.tmod_lt_of_pos num positive
  have negBelow := Int.tmod_lt_of_pos (-num) positive
  have denSign := Int.sign_eq_one_of_pos positive
  rw [Int.neg_tmod] at negBelow
  rcases lt_or_ge num 0 with negative | nonnegative
  · have remainder := Int.tmod_nonneg den (neg_nonneg.mpr negative.le)
    have whole := Int.tdiv_nonneg (neg_nonneg.mpr negative.le) positive.le
    rw [Int.neg_tmod] at remainder
    rw [Int.neg_tdiv] at whole
    have rounded := roundHalfAway_add whole remainder negBelow
    have numSign := Int.sign_eq_neg_one_of_neg negative
    have negated : (num : ℚ) / den =
        -(((-num.tdiv den : ℤ) : ℚ) + ((-num.tmod den : ℤ) : ℚ) / den) := by
      rw [quotient num]
      push_cast
      ring
    rw [negated, roundHalfAway_neg, rounded]
    simp only [roundDivHalfAway, numSign, denSign, reduceCtorEq, if_false]
    split_ifs <;> omega
  · have remainder := Int.tmod_nonneg den nonnegative
    have whole := Int.tdiv_nonneg nonnegative positive.le
    rw [quotient, roundHalfAway_add whole remainder below, roundDivHalfAway]
    by_cases zero : num = 0
    · simp [zero, positive]
    · simp only [Int.sign_eq_one_of_pos (by omega : 0 < num), denSign, if_true]
      split_ifs <;> omega

theorem stripZeros_spec (scale : ℕ) (unscaled : ℤ) : (stripZeros scale unscaled).2 ≤ scale ∧
      ((stripZeros scale unscaled).1 : ℚ) * 10 ^ (-((stripZeros scale unscaled).2 : ℤ)) =
        unscaled * 10 ^ (-(scale : ℤ)) := by
  induction scale generalizing unscaled with
  | zero => simp [stripZeros]
  | succ scale ih =>
    rw [stripZeros]
    split_ifs with divides
    · refine ⟨(ih _).1.trans (Nat.le_succ _), (ih _).2.trans ?_⟩
      have whole := Int.mul_tdiv_add_tmod unscaled 10
      rw [divides, add_zero] at whole
      rw [← whole, Int.mul_tdiv_cancel_left _ (by norm_num)]
      push_cast
      rw [neg_add, zpow_add₀ (by norm_num)]
      field_simp
    · exact ⟨le_rfl, rfl⟩

theorem rational_ofNumeric {unscaled : ℤ} {scale : Int32} :
    (Value.ofNumeric unscaled scale : Value Jsonb).rational =
      some ((unscaled : ℚ) * 10 ^ (-scale.toInt)) := by
  simp only [Value.ofNumeric, Value.rational, normalizeNumeric, Option.some.injEq]
  split_ifs with zero positive
  · simp [zero]
  · rw [lt_iff_toInt_lt, toInt_zero] at positive
    have spec := stripZeros_spec scale.toInt.toNat unscaled
    have bound := scale.toInt_lt
    rw [toInt_ofNat_of_lt (by omega), spec.2, Int.toNat_of_nonneg positive.le]
  · rfl

theorem rational_avgNumeric {total : ℤ} {totalScale : Int32} {count : ℕ} (nonzero : count ≠ 0)
    (bounds : 0 ≤ totalScale.toInt ∧ totalScale.toInt < 2 ^ 30) :
    (avgNumeric total totalScale count : Value Jsonb).rational = some
      ((roundHalfAway (total * 10 ^ (-totalScale.toInt) / count * 10 ^ 16) : ℚ) / 10 ^ 16) := by
  have ten : (10 : ℚ) ≠ 0 := by norm_num
  have counted : (0 : ℤ) < count := by exact_mod_cast Nat.pos_of_ne_zero nonzero
  have shift : (avgDecimalScale - totalScale).toInt = 16 - totalScale.toInt :=
    toInt_sub_of_lt (by decide) (by omega)
  have back : (-(avgDecimalScale - totalScale)).toInt = totalScale.toInt - 16 := by
    rw [toInt_neg, shift]
    apply (Int.bmod_eq_of_le _ _).trans <;> omega
  have digits : ∀ z : ℤ, (z : ℚ) * 10 ^ (-avgDecimalScale.toInt) = z / 10 ^ 16 := by
    intro z
    rw [show avgDecimalScale.toInt = 16 from rfl, zpow_neg, div_eq_mul_inv]
    norm_cast
  rw [avgNumeric, rational_ofNumeric, digits]
  split_ifs with fits <;> rw [le_iff_toInt_le, shift, toInt_zero] at fits
  · rw [roundDivHalfAway_eq counted]
    push_cast
    rw [pow10_eq (by omega), shift, zpow_sub₀ ten, zpow_neg]
    field_simp
  · have grown := @pow10_eq (-(avgDecimalScale - totalScale)) (by omega)
    have power : (0 : ℤ) < pow10 (-(avgDecimalScale - totalScale)) := by
      have : (0 : ℚ) < pow10 (-(avgDecimalScale - totalScale)) := by
        rw [grown]
        positivity
      exact_mod_cast this
    rw [roundDivHalfAway_eq (mul_pos counted power)]
    push_cast
    rw [grown, back, zpow_sub₀ ten, zpow_neg]
    field_simp

namespace Accumulator

def sum (acc : Accumulator Jsonb) : ℚ := acc.total * 10 ^ (-acc.totalScale.toInt)

theorem addDecimal_spec {acc : Accumulator Jsonb} {scale : Int32} (unscaled : ℤ)
    (totalBounds : 0 ≤ acc.totalScale.toInt ∧ acc.totalScale.toInt < 2 ^ 30)
    (bounds : -2 ^ 30 < scale.toInt ∧ scale.toInt < 2 ^ 30) :
    (acc.addDecimal unscaled scale).sum = acc.sum + unscaled * 10 ^ (-scale.toInt) ∧
      (acc.addDecimal unscaled scale).totalScale.toInt = max acc.totalScale.toInt scale.toInt := by
  have ten : (10 : ℚ) ≠ 0 := by norm_num
  simp only [addDecimal, sum, lt_iff_toInt_lt]
  split_ifs with grows
  · have shift := toInt_sub_of_lt bounds ⟨by omega, totalBounds.2⟩
    refine ⟨?_, (max_eq_right grows.le).symm⟩
    push_cast
    rw [Int32.sub_self, pow10_eq (by rw [shift]; omega), pow10_eq le_rfl, shift,
      zpow_sub₀ ten, zpow_neg, zpow_neg]
    field_simp
    simp
  · have shift := toInt_sub_of_lt ⟨by omega, totalBounds.2⟩ bounds
    refine ⟨?_, (max_eq_left (not_lt.mp grows)).symm⟩
    push_cast
    rw [pow10_eq (by rw [shift]; omega), shift, zpow_sub₀ ten, zpow_neg, zpow_neg]
    field_simp

def scaleOf : Value Jsonb → ℤ
  | .numeric _ scale => scale.toInt
  | _ => 0

structure Holds (declared : ColumnType) (seen : List (Value Jsonb)) (acc : Accumulator Jsonb) :
    Prop where
  count : acc.numericCount = (seen.filterMap Value.rational).length
  sum : acc.sum = (seen.filterMap Value.rational).sum
  scale : acc.totalScale.toInt = (seen.map scaleOf).foldl max 0
  bounds : 0 ≤ acc.totalScale.toInt ∧ acc.totalScale.toInt < 2 ^ 30
  integral : declared ≠ .numeric → acc.totalScale = 0

variable {declared : ColumnType} {seen values : List (Value Jsonb)} {acc : Accumulator Jsonb}

theorem Holds.addExact {value : Value Jsonb} (holds : Holds declared seen acc)
    (typed : value.HasType declared) : Holds declared (seen ++ [value]) (acc.addExact value) := by
  rcases typed with rfl | ⟨integers, n, rfl⟩ | ⟨rfl, unscaled, scale, rfl, bounds⟩
  · have unknown : [(Value.null : Value Jsonb)].filterMap Value.rational = [] := rfl
    rcases holds with ⟨count, sum, scale, bounds, integral⟩
    rw [show acc.addExact .null = acc from rfl]
    exact ⟨by simpa [unknown] using count, by simpa [unknown] using sum,
      by simp [scaleOf, ← scale, bounds.1], bounds, integral⟩
  · have atZero := holds.integral (by rintro rfl; simp at integers)
    have sum := holds.sum
    refine ⟨?_, ?_, ?_, holds.bounds, holds.integral⟩
    · simp [Value.rational, Accumulator.addExact, holds.count]
    · simp [Value.rational, Accumulator.addExact, Accumulator.sum, atZero] at sum ⊢
      exact sum
    · simp [scaleOf, ← holds.scale, holds.bounds.1, Accumulator.addExact]
  · rcases addDecimal_spec unscaled holds.bounds bounds with ⟨sum, grown⟩
    refine ⟨?_, ?_, ?_, ?_, fun other => absurd rfl other⟩
    · simp [Value.rational, Accumulator.addExact, holds.count]
    · rw [filterMap_append, sum_append, ← holds.sum]
      exact sum.trans (by simp [Value.rational])
    · rw [map_append, foldl_append, ← holds.scale]
      exact grown
    · have bounded := holds.bounds
      simp only [Accumulator.addExact, grown]
      omega

theorem holds_foldl (typed : ∀ value ∈ values, value.HasType declared)
    (holds : Holds declared seen acc) :
    Holds declared (seen ++ values) (values.foldl addExact acc) := by
  induction values generalizing seen acc with
  | nil => simpa using holds
  | cons value values ih =>
    rw [forall_mem_cons] at typed
    have later := ih typed.2 (holds.addExact typed.1)
    rwa [append_assoc] at later

theorem kind_addExact (value : Value Jsonb) : (acc.addExact value).kind = acc.kind := by
  cases value <;> simp only [Accumulator.addExact, addDecimal]
  split_ifs <;> rfl

theorem foldl_update (sqlCmp : Value Jsonb → Value Jsonb → Option Ordering) (func : AggFunc)
    (exact : acc.kind = .sumInt8 ∨ acc.kind = .sumNumeric ∨ acc.kind = .avgNumeric) :
    values.foldl (fun acc value => acc.update sqlCmp func (some value)) acc =
        values.foldl addExact acc ∧ (values.foldl addExact acc).kind = acc.kind := by
  induction values generalizing acc with
  | nil => exact ⟨rfl, rfl⟩
  | cons value values ih =>
    have step : acc.update sqlCmp func (some value) = acc.addExact value := by
      rcases exact with kind | kind | kind <;> simp [update, kind]
    have later := @ih (acc.addExact value) (by rwa [kind_addExact])
    rw [foldl_cons, foldl_cons, step]
    exact ⟨later.1, later.2.trans (kind_addExact value)⟩

theorem Holds.eq {other : Accumulator Jsonb} (holds : Holds declared seen acc)
    (others : Holds declared values other) (same : seen.Perm values) :
    acc.total = other.total ∧ acc.totalScale = other.totalScale ∧
      acc.numericCount = other.numericCount := by
  have scales : acc.totalScale = other.totalScale := by
    rw [← toInt_inj, holds.scale, others.scale]
    exact (same.map scaleOf).foldl_eq 0
  have sums : acc.sum = other.sum := by
    rw [holds.sum, others.sum]
    exact (same.filterMap _).sum_eq
  rw [Accumulator.sum, Accumulator.sum, scales, mul_left_inj' (by positivity)] at sums
  refine ⟨by exact_mod_cast sums, scales, ?_⟩
  rw [holds.count, others.count]
  exact (same.filterMap _).length_eq

def exactKind (func : AggFunc) (declared : ColumnType) : AccKind :=
  if func = .avg then .avgNumeric else if declared = .int then .sumInt8 else .sumNumeric

theorem Holds.exactResult {func : AggFunc} (holds : Holds declared values acc)
    (kind : acc.kind = exactKind func declared) :
    ExactResult func declared values acc.finish := by
  have total : declared = .int → (values.filterMap Value.rational).sum = acc.total := by
    rintro rfl
    simp [← holds.sum, Accumulator.sum, holds.integral]
  simp only [ExactResult, exactKind] at kind ⊢
  by_cases unknown : values.filterMap Value.rational = []
  · have nothing := holds.count
    rw [unknown, length_nil] at nothing
    rw [if_pos unknown]
    split_ifs at kind <;> simp [finish, kind, nothing]
  · have counted : acc.numericCount ≠ 0 := by
      rw [holds.count]
      exact fun zero => unknown (eq_nil_of_length_eq_zero zero)
    rw [if_neg unknown]
    by_cases isAvg : func = .avg
    · rw [if_pos isAvg] at kind ⊢
      refine ⟨avgNumeric acc.total acc.totalScale acc.numericCount, ?_, ?_⟩
      · simp [finish, kind, counted]
      · rw [rational_avgNumeric counted holds.bounds, ← holds.count, ← holds.sum, Accumulator.sum]
    · rw [if_neg isAvg] at kind ⊢
      by_cases isInt : declared = .int
      · rw [if_pos isInt] at kind
        have range : (-2 ^ 63 ≤ (acc.total : ℚ) ∧ (acc.total : ℚ) < 2 ^ 63) ↔
            -2 ^ 63 ≤ acc.total ∧ acc.total < 2 ^ 63 :=
          and_congr (by exact_mod_cast Iff.rfl) (by exact_mod_cast Iff.rfl)
        rw [total isInt]
        split_ifs with outside <;> rw [range] at outside
        · simp only [finish, kind, if_neg counted, if_neg outside.2]
          exact ⟨_, rfl⟩
        · rw [not_and_not_right] at outside
          have fits := outside isInt
          refine ⟨.int (Int64.ofInt acc.total), ?_, ?_, ?_⟩
          · simp only [finish, kind, if_neg counted, if_pos fits]
          · rw [Value.rational, Int64.toInt_ofInt_of_le (by omega) (by omega)]
          · exact fun _ => ⟨_, rfl⟩
      · rw [if_neg isInt] at kind
        rw [if_neg (fun outside => isInt outside.1)]
        refine ⟨.ofNumeric acc.total acc.totalScale, by simp [finish, kind, counted], ?_, ?_⟩
        · rw [rational_ofNumeric, ← holds.sum, Accumulator.sum]
        · exact fun int => absurd int isInt

def aggregate (sqlCmp : Value Jsonb → Value Jsonb → Option Ordering) (func : AggFunc)
    (declared : ColumnType) (values : List (Value Jsonb)) :
    Except AggregateError (Value Jsonb) :=
  finish (values.foldl (fun acc value => acc.update sqlCmp func (some value))
    (new (.of func (some declared))))

/-- `SUM` and `AVG` over integers or decimals are exact, in whatever order the values come. -/
theorem exactResult_aggregate (sqlCmp : Value Jsonb → Value Jsonb → Option Ordering)
    {func : AggFunc} (exact : func = .sum ∨ func = .avg)
    (numbers : declared = .int ∨ declared = .bigInt ∨ declared = .numeric)
    (typed : ∀ value ∈ values, value.HasType declared) :
    ExactResult func declared values (aggregate sqlCmp func declared values) ∧
      ∀ other, other.Perm values →
        aggregate sqlCmp func declared other = aggregate sqlCmp func declared values := by
  let start : Accumulator Jsonb := new (.of func (some declared))
  have empty : Holds declared [] start := by
    refine ⟨rfl, ?_, rfl, by simp [start, new], fun _ => rfl⟩
    simp [sum, start, new]
  have kinds : start.kind = exactKind func declared := by
    rcases exact with rfl | rfl <;> rcases numbers with rfl | rfl | rfl <;> rfl
  have isExact : start.kind = .sumInt8 ∨ start.kind = .sumNumeric ∨ start.kind = .avgNumeric := by
    rw [kinds, exactKind]
    split_ifs <;> simp
  have fed := fun values => @foldl_update _ values start sqlCmp func isExact
  have held := holds_foldl typed empty
  constructor
  · rw [aggregate, (fed values).1]
    exact held.exactResult ((fed values).2.trans kinds)
  · intro other same
    have others := holds_foldl (fun value member => typed value (same.mem_iff.mp member)) empty
    rcases others.eq held same with ⟨total, scale, count⟩
    have kind := (fed other).2
    have sameKind := (fed values).2
    rw [aggregate, aggregate, (fed values).1, (fed other).1]
    rcases isExact with known | known | known <;> rw [known] at kind sameKind <;>
      simp [finish, kind, sameKind, total, scale, count]

theorem exactResult_aggregate_mixedScales :
    ExactResult .avg .numeric [.null, .numeric 15 1, .numeric (-2) (-1)]
      (aggregate (fun _ _ => none) .avg .numeric
        [.null, .numeric 15 1, (.numeric (-2) (-1) : Value Unit)]) := by
  refine (exactResult_aggregate _ (Or.inr rfl) (Or.inr (Or.inr rfl)) ?_).1
  intro value member
  fin_cases member
  · exact Or.inl rfl
  · exact Or.inr (Or.inr ⟨rfl, 15, 1, rfl, by decide, by decide⟩)
  · exact Or.inr (Or.inr ⟨rfl, -2, -1, rfl, by decide, by decide⟩)

end Accumulator

end Ferrosa.Sql
