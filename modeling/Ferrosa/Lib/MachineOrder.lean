import Mathlib

/-!
# Linear orders on the machine integers

The core library orders the fixed-width integers but does not register them
with Mathlib's order hierarchy.  The instances below reuse the core relations,
so comparisons keep evaluating as the machine comparisons do.
-/

namespace Ferrosa

universe u

abbrev linearOrderOfCore (α : Type u) [LE α] [LT α] [Min α] [Max α] [Ord α] [DecidableLE α]
    [DecidableLT α] [DecidableEq α] [Std.IsLinearOrder α] [Std.LawfulOrderLT α]
    (isMin : ∀ a b : α, min a b = if a ≤ b then a else b)
    (isMax : ∀ a b : α, max a b = if a ≤ b then b else a)
    (isCompare : ∀ a b : α, compare a b = compareOfLessAndEq a b) : LinearOrder α where
  le_refl := Std.le_refl
  le_trans _ _ _ := Std.le_trans
  le_antisymm _ _ := Std.le_antisymm
  le_total _ _ := Std.le_total
  lt_iff_le_not_ge _ _ := Std.lt_iff_le_and_not_ge
  min_def := isMin
  max_def := isMax
  compare_eq_compareOfLessAndEq := isCompare
  toDecidableLE := inferInstance
  toDecidableLT := inferInstance
  toDecidableEq := inferInstance

instance linearOrderUInt8 : LinearOrder UInt8 :=
  linearOrderOfCore UInt8 (fun _ _ => rfl) (fun _ _ => rfl) fun _ _ => rfl

instance linearOrderUInt16 : LinearOrder UInt16 :=
  linearOrderOfCore UInt16 (fun _ _ => rfl) (fun _ _ => rfl) fun _ _ => rfl

instance linearOrderUInt32 : LinearOrder UInt32 :=
  linearOrderOfCore UInt32 (fun _ _ => rfl) (fun _ _ => rfl) fun _ _ => rfl

instance linearOrderUInt64 : LinearOrder UInt64 :=
  linearOrderOfCore UInt64 (fun _ _ => rfl) (fun _ _ => rfl) fun _ _ => rfl

instance linearOrderInt32 : LinearOrder Int32 :=
  linearOrderOfCore Int32 (fun _ _ => rfl) (fun _ _ => rfl) fun _ _ => rfl

instance linearOrderInt64 : LinearOrder Int64 :=
  linearOrderOfCore Int64 (fun _ _ => rfl) (fun _ _ => rfl) fun _ _ => rfl

instance lawfulBEqUInt64 : LawfulBEq UInt64 := inferInstance

instance neZeroUuid : NeZero (2 ^ 128) := inferInstance

theorem cmp_eq_gt_iff_lt {α : Type u} [LinearOrder α] {decide : DecidableLT α} (a b : α) :
    @cmp α _ decide a b = .gt ↔ b < a := by
  rw [Subsingleton.elim decide LinearOrder.toDecidableLT]
  exact cmp_eq_gt_iff a b

theorem cmp_eq_eq_iff_eq {α : Type u} [LinearOrder α] {decide : DecidableLT α} (a b : α) :
    @cmp α _ decide a b = .eq ↔ a = b := by
  rw [Subsingleton.elim decide LinearOrder.toDecidableLT]
  exact cmp_eq_eq_iff a b

theorem le_foldl_max {α : Type u} [LinearOrder α] {items : List α} {start item : α}
    (within : item ≤ start ∨ item ∈ items) : item ≤ items.foldl max start := by
  induction items generalizing start with
  | nil => simpa using within
  | cons first rest ih =>
    apply ih
    rcases within with below | member
    · exact .inl (below.trans (le_max_left _ _))
    · rcases List.mem_cons.mp member with rfl | later
      · exact .inl (le_max_right _ _)
      · exact .inr later

theorem lt_add_one_of_ne_max {number : UInt32} (room : number ≠ 4294967295) :
    number < number + 1 := by
  have notLast : number.toNat ≠ 4294967295 := fun same => room (UInt32.toNat_inj.mp same)
  have bound := number.toNat_lt
  have step : (number + 1).toNat = number.toNat + 1 := by
    rw [UInt32.toNat_add, UInt32.toNat_one]
    omega
  rw [UInt32.lt_iff_toNat_lt]
  omega

end Ferrosa
