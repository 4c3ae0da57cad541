import Ferrosa.Lib.MachineOrder
import Ferrosa.Sql.Aggregates

/-!
# Equality and order of SQL numerics

Equal keys of `GROUP BY`, `DISTINCT` and joins are structurally equal values.  Numerics are stored
without trailing decimal zeros, but a negative scale is kept as it was written.
-/

namespace Ferrosa.Sql

open Int32

variable {Jsonb : Type}

def scaleUp (n : ℤ) (power : Int32) : ℤ := if power ≤ 0 then n else n * 10 ^ power.toInt.toNat

def cmpNumeric (ua : ℤ) (sa : Int32) (ub : ℤ) (sb : Int32) : Ordering :=
  if sa = sb then cmp ua ub
  else
    let maxScale := max sa sb
    cmp (scaleUp ua (maxScale - sa)) (scaleUp ub (maxScale - sb))

/-- `others` compares values that are not both numerics. -/
def Value.sqlCmp (others : Value Jsonb → Value Jsonb → Option Ordering) :
    Value Jsonb → Value Jsonb → Option Ordering
  | .numeric ua sa, .numeric ub sb => some (cmpNumeric ua sa ub sb)
  | a, b => others a b

def canonicalCmp (others : Value Jsonb → Value Jsonb → Ordering) :
    Value Jsonb → Value Jsonb → Ordering
  | .numeric ux sx, .numeric uy sy => (cmp ux uy).then (compare sx sy)
  | a, b => others a b

def decimal (unscaled : ℤ) (scale : Int32) : ℚ := unscaled * 10 ^ (-scale.toInt)

/-- Equality and both comparisons of two values are those of two rational numbers. -/
structure ComparesAs (a b : Value Jsonb) (x y : ℚ) : Prop where
  structural : a = b ↔ x = y
  canonical : ∀ others, canonicalCmp others a b = .eq ↔ x = y
  sqlEqual : ∀ others, Value.sqlCmp others a b = some .eq ↔ x = y
  sqlOrder : ∀ others, Value.sqlCmp others a b = some (cmp x y)

theorem decimal_normalizeNumeric (u : ℤ) (s : Int32) :
    decimal (normalizeNumeric u s).1 (normalizeNumeric u s).2 = decimal u s :=
  Option.some.inj (@rational_ofNumeric Unit u s)

theorem stripZeros_reduced (scale : ℕ) (unscaled : ℤ) (more : 0 < (stripZeros scale unscaled).2) :
    ¬10 ∣ (stripZeros scale unscaled).1 := by
  induction scale generalizing unscaled with
  | zero => exact absurd more (lt_irrefl 0)
  | succ scale ih =>
    rw [stripZeros] at more ⊢
    split_ifs at more ⊢ with divides
    · exact ih _ more
    · rwa [Int.dvd_iff_tmod_eq_zero]

section

variable {u v : ℤ} {s t : Int32}

theorem normalizeNumeric_spec (nonzero : u ≠ 0) :
    (s.toInt ≤ 0 → (normalizeNumeric u s).2.toInt = s.toInt) ∧
      (0 ≤ s.toInt → 0 ≤ (normalizeNumeric u s).2.toInt ∧
        (normalizeNumeric u s).2.toInt ≤ s.toInt) ∧
      (0 < (normalizeNumeric u s).2.toInt → ¬10 ∣ (normalizeNumeric u s).1) := by
  simp only [normalizeNumeric, if_neg nonzero, lt_iff_toInt_lt, toInt_zero]
  split_ifs with positive
  · have spec := (stripZeros_spec s.toInt.toNat u).1
    have bound := s.toInt_lt
    rw [toInt_ofNat_of_lt (by omega)]
    refine ⟨by omega, by omega, fun more => stripZeros_reduced _ _ (by omega)⟩
  · exact ⟨fun _ => rfl, fun nonnegative => ⟨nonnegative, le_rfl⟩, fun more => absurd more positive⟩

theorem decimal_eq_zero : decimal u s = 0 ↔ u = 0 := by
  simp [decimal, zpow_ne_zero]

theorem decimal_inj : decimal u s = decimal v s ↔ u = v := by
  simp [decimal, zpow_ne_zero]

theorem le_of_decimal_eq (same : decimal u s = decimal v t)
    (reduced : 0 < t.toInt → ¬10 ∣ v) (nonnegative : 0 ≤ s.toInt) : t.toInt ≤ s.toInt := by
  by_contra larger
  apply reduced (by omega)
  obtain ⟨more, gap⟩ : ∃ more : ℕ, t.toInt - s.toInt = more + 1 :=
    ⟨(t.toInt - s.toInt - 1).toNat, by omega⟩
  have scaled : (v : ℚ) = u * 10 ^ (more + 1) := by
    rw [decimal, decimal] at same
    rw [← zpow_natCast, Nat.cast_succ, ← gap, zpow_sub₀ (by norm_num)]
    rw [zpow_neg, zpow_neg] at same
    field_simp at same ⊢
    linarith
  rw [show v = u * 10 ^ more * 10 by rw [mul_assoc, ← pow_succ]; exact_mod_cast scaled]
  exact dvd_mul_left 10 _

theorem normalizeNumeric_eq (nonzero : u ≠ 0) (same : decimal u s = decimal v t)
    (nonnegative : 0 ≤ s.toInt ∧ 0 ≤ t.toInt) : normalizeNumeric u s = normalizeNumeric v t := by
  have nonzeroToo : v ≠ 0 := by rwa [ne_eq, ← decimal_eq_zero, ← same, decimal_eq_zero]
  have left := normalizeNumeric_spec (s := s) nonzero
  have right := normalizeNumeric_spec (s := t) nonzeroToo
  rw [← decimal_normalizeNumeric u, ← decimal_normalizeNumeric v] at same
  have scales : (normalizeNumeric u s).2 = (normalizeNumeric v t).2 := by
    rw [← toInt_inj]
    exact le_antisymm (le_of_decimal_eq same.symm left.2.2 (right.2.1 nonnegative.2).1)
      (le_of_decimal_eq same right.2.2 (left.2.1 nonnegative.1).1)
  rw [scales, decimal_inj] at same
  exact Prod.ext same scales

theorem ofNumeric_eq_iff : (Value.ofNumeric u s : Value Jsonb) = .ofNumeric v t ↔
    normalizeNumeric u s = normalizeNumeric v t := by
  rw [Value.ofNumeric, Value.ofNumeric, Value.numeric.injEq, Prod.ext_iff]

/-- Equal decimals are stored alike unless different scales meet of which one is negative. -/
theorem ofNumeric_eq_iff_decimal_eq :
    ((Value.ofNumeric u s : Value Jsonb) = .ofNumeric v t ↔ decimal u s = decimal v t) ↔
      s = t ∨ (0 ≤ s.toInt ∧ 0 ≤ t.toInt) ∨ u = 0 ∨ decimal u s ≠ decimal v t := by
  rw [ofNumeric_eq_iff]
  have back : normalizeNumeric u s = normalizeNumeric v t → decimal u s = decimal v t := by
    intro same
    rw [← decimal_normalizeNumeric u, same, decimal_normalizeNumeric]
  constructor
  · intro exact
    by_contra! ⟨different, negative, nonzero, same⟩
    have nonzeroToo : v ≠ 0 := by rwa [ne_eq, ← decimal_eq_zero, ← same, decimal_eq_zero]
    have left := normalizeNumeric_spec (s := s) nonzero
    have right := normalizeNumeric_spec (s := t) nonzeroToo
    have scales := congrArg (·.2.toInt) (exact.mpr same)
    rw [ne_eq, ← toInt_inj] at different
    omega
  · intro condition
    refine ⟨back, fun same => ?_⟩
    by_cases zero : u = 0
    · have zeroToo : v = 0 := decimal_eq_zero.mp (same.symm.trans (decimal_eq_zero.mpr zero))
      simp [zero, zeroToo, normalizeNumeric]
    · rcases condition with rfl | nonnegative | isZero | different
      · rw [decimal_inj.mp same]
      · exact normalizeNumeric_eq zero same nonnegative
      · exact absurd isZero zero
      · exact absurd same different

theorem cmp_mul_of_zero {α : Type*} [Ring α] [LinearOrder α] [IsStrictOrderedRing α] {a b p q : α}
    (zero : a = 0 ∨ b = 0) (left : 0 < p) (right : 0 < q) : cmp (a * p) (b * q) = cmp a b := by
  rcases zero with rfl | rfl
  · simpa using (strictMono_mul_right_of_pos right).cmp_map_eq 0 b
  · simpa using (strictMono_mul_right_of_pos left).cmp_map_eq a 0

theorem pow10_pos (power : Int32) : 0 < pow10 power := by
  rw [pow10]
  split_ifs <;> positivity

theorem cmpNumeric_eq_cmp :
    cmpNumeric u s v t = cmp (u * pow10 (max s t - s)) (v * pow10 (max s t - t)) := by
  rw [cmpNumeric]
  split_ifs with same
  · simp [same, pow10]
  · simp only [scaleUp, pow10, mul_ite, Int.mul_one]

theorem decimal_eq {top : Int32} (gap : (top - s).toInt = top.toInt - s.toInt)
    (above : s.toInt ≤ top.toInt) :
    decimal u s = ((u * pow10 (top - s) : ℤ) : ℚ) * 10 ^ (-top.toInt) := by
  rw [Int.cast_mul, pow10_eq (by omega), gap, mul_assoc, ← zpow_add₀ (by norm_num), decimal]
  congr 2
  ring

theorem cmpNumeric_eq (fits : |s.toInt - t.toInt| < 2 ^ 31 ∨ u = 0 ∨ v = 0) :
    cmpNumeric u s v t = cmp (decimal u s) (decimal v t) := by
  have cast (a b : ℤ) : cmp (a : ℚ) b = cmp a b := Int.cast_strictMono.cmp_map_eq a b
  have power (k : ℤ) : (0 : ℚ) < 10 ^ k := by positivity
  rw [cmpNumeric_eq_cmp]
  rcases fits with fits | zero
  · have gap : ∀ scale ∈ [s, t], (max s t - scale).toInt = (max s t).toInt - scale.toInt ∧
        scale.toInt ≤ (max s t).toInt := by
      have order := @le_iff_toInt_le s t
      rw [abs_lt] at fits
      intro scale isScale
      rw [toInt_sub, Int.bmod_eq_of_le]
      all_goals
        rw [max_def]
        split_ifs with le <;> rw [order] at le <;>
          rcases List.mem_pair.mp isScale with rfl | rfl <;> omega
    have left := gap s (by simp)
    have right := gap t (by simp)
    rw [decimal_eq left.1 left.2, decimal_eq right.1 right.2, ← cast]
    exact ((strictMono_mul_right_of_pos (power _)).cmp_map_eq _ _).symm
  · have zeroCast : (u : ℚ) = 0 ∨ (v : ℚ) = 0 := by exact_mod_cast zero
    rw [decimal, decimal, cmp_mul_of_zero zeroCast (power _) (power _), cast,
      cmp_mul_of_zero zero (pow10_pos _) (pow10_pos _)]

theorem sqlCmp_eq (fits : |s.toInt - t.toInt| < 2 ^ 31)
    (others : Value Jsonb → Value Jsonb → Option Ordering) :
    Value.sqlCmp others (.ofNumeric u s) (.ofNumeric v t) =
      some (cmp (decimal u s) (decimal v t)) := by
  rw [Value.ofNumeric, Value.ofNumeric, Value.sqlCmp, cmpNumeric_eq, decimal_normalizeNumeric,
    decimal_normalizeNumeric]
  by_cases zero : u = 0 ∨ v = 0
  · right
    rcases zero with rfl | rfl <;> simp [normalizeNumeric]
  · left
    rw [not_or] at zero
    have left := normalizeNumeric_spec (s := s) zero.1
    have right := normalizeNumeric_spec (s := t) zero.2
    have leftBound := s.toInt_lt
    have rightBound := t.toInt_lt
    rw [abs_lt] at fits ⊢
    omega

theorem comparesAs_iff (fits : |s.toInt - t.toInt| < 2 ^ 31) :
    ComparesAs (.ofNumeric u s : Value Jsonb) (.ofNumeric v t) (decimal u s) (decimal v t) ↔
      s = t ∨ (0 ≤ s.toInt ∧ 0 ≤ t.toInt) ∨ u = 0 ∨ decimal u s ≠ decimal v t := by
  rw [← @ofNumeric_eq_iff_decimal_eq Jsonb]
  refine ⟨(·.structural), fun structural => ⟨structural, ?_, ?_, sqlCmp_eq fits⟩⟩
  · intro others
    rw [← structural, ofNumeric_eq_iff, Value.ofNumeric, Value.ofNumeric, canonicalCmp,
      Ordering.then_eq_eq, cmp_eq_eq_iff, Std.compare_eq_iff_eq, Prod.ext_iff]
  · intro others
    rw [sqlCmp_eq fits, Option.some.injEq, cmp_eq_eq_iff]

end

theorem comparesAs_trailingZero : ComparesAs (.ofNumeric 150 2 : Value Unit) (.ofNumeric 15 1)
    (decimal 150 2) (decimal 15 1) :=
  (comparesAs_iff (by decide)).mpr (.inr (.inl (by decide)))

theorem not_comparesAs_negativeScale : |(-1 : Int32).toInt - (0 : Int32).toInt| < 2 ^ 31 ∧
    ¬ComparesAs (.ofNumeric 1 (-1) : Value Unit) (.ofNumeric 10 0) (decimal 1 (-1))
      (decimal 10 0) := by
  refine ⟨by decide, fun compares => ?_⟩
  have same : decimal 1 (-1) = decimal 10 0 := by
    simp [decimal]
  exact absurd (ofNumeric_eq_iff.mp (compares.structural.mpr same)) (by decide)

end Ferrosa.Sql
