import Mathlib

/-!
# Objects with conditional writes

An object that may be absent, and a write that succeeds only if the object still has the
version that an earlier read returned.  Such a write finds the value that was read.
-/

namespace Ferrosa

universe u

structure VersionedObject (α : Type u) where
  writes : ℕ
  value : Option α

namespace VersionedObject

variable {α : Type u} (object : VersionedObject α)

def version : Option ℕ := object.value.map fun _ => object.writes

/-- No version stands for a write that creates the object. -/
def conditionalPut (expected : Option ℕ) (new : α) : Option (VersionedObject α) :=
  if object.version = expected then some ⟨object.writes + 1, some new⟩ else none

/-- A value and a version that were read at some time up to now. -/
structure WasRead (value : Option α) (version : Option ℕ) : Prop where
  past : ∀ writes ∈ version, writes ≤ object.writes
  current : object.version = version → object.value = value

variable {object}

theorem wasRead_self : object.WasRead object.value object.version where
  past := by
    intro writes isVersion
    rcases Option.map_eq_some_iff.mp isVersion with ⟨_, _, same⟩
    exact same.ge
  current _ := rfl

variable {next : VersionedObject α} {new : α} {value : Option α}

theorem conditionalPut_eq_some_iff {expected : Option ℕ} :
    object.conditionalPut expected new = some next ↔
      object.version = expected ∧ next = ⟨object.writes + 1, some new⟩ := by
  rw [conditionalPut, Option.ite_none_right_eq_some, Option.some.injEq]
  tauto

theorem WasRead.value_eq {version : Option ℕ} (wasRead : object.WasRead value version)
    (put : object.conditionalPut version new = some next) : object.value = value :=
  wasRead.current (conditionalPut_eq_some_iff.mp put).1

theorem WasRead.conditionalPut {version expected : Option ℕ}
    (wasRead : object.WasRead value version)
    (put : object.conditionalPut expected new = some next) :
    next.WasRead value version := by
  rcases conditionalPut_eq_some_iff.mp put with ⟨_, rfl⟩
  refine ⟨fun writes isVersion => (wasRead.past writes isVersion).trans (Nat.le_succ _), ?_⟩
  intro same
  have newer := wasRead.past (object.writes + 1) same.symm
  omega

end VersionedObject

end Ferrosa
