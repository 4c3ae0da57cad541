import Mathlib

/-!
# Runs of stepwise systems

A pull iterator is a step function that yields an element or reports its end;
`Drains` relates a state to everything it yields when it is pulled to the end.  `Throughout` says
of a system driven by inputs what holds at every step of a run, `SafeRun` says it of a system
whose steps may fail.
-/

namespace Ferrosa.Runs

universe u v w

section Drain

variable {σ : Type u} {ε : Type v} {α : Type w}

/-- Pulling `step` from a state yields the elements, in order, and then the end. -/
inductive Drains (step : σ → Except ε (Option α × σ)) : σ → List α → Prop where
  | done {state final : σ} : step state = .ok (none, final) → Drains step state []
  | pull {state next : σ} {x : α} {xs : List α} :
      step state = .ok (some x, next) → Drains step next xs → Drains step state (x :: xs)

/-- Pull at most `fuel` times; `none` if the end was not reached. -/
def drain (step : σ → Except ε (Option α × σ)) : Nat → σ → Option (List α)
  | 0, _ => none
  | fuel + 1, state =>
    match step state with
    | .ok (none, _) => some []
    | .ok (some x, next) => (drain step fuel next).map (x :: ·)
    | .error _ => none

variable {step : σ → Except ε (Option α × σ)}

namespace Drains

theorem of_drain {fuel : Nat} {state : σ} {xs : List α}
    (drained : drain step fuel state = some xs) : Drains step state xs := by
  induction fuel generalizing state xs with
  | zero => simp [drain] at drained
  | succ fuel ih =>
    simp only [drain] at drained
    split at drained
    · rename_i ended
      rw [← Option.some.inj drained]
      exact Drains.done ended
    · rename_i pulled
      rcases Option.map_eq_some_iff.mp drained with ⟨rest, restDrained, rfl⟩
      exact Drains.pull pulled (ih restDrained)
    · simp at drained

theorem unique {state : σ} {xs ys : List α} (left : Drains step state xs)
    (right : Drains step state ys) : xs = ys := by
  induction left generalizing ys with
  | done ended =>
    cases right with
    | done _ => rfl
    | pull pulled _ => simp [ended] at pulled
  | pull pulled _ ih =>
    cases right with
    | done ended => simp [pulled] at ended
    | pull pulledAgain rest =>
      rw [pulled] at pulledAgain
      cases pulledAgain
      rw [ih rest]

theorem of_step_eq {state other : σ} {xs : List α} (same : step other = step state)
    (drained : Drains step state xs) : Drains step other xs := by
  cases drained with
  | done ended => exact Drains.done (same.trans ended)
  | pull pulled rest => exact Drains.pull (same.trans pulled) rest

end Drains

end Drain

section Throughout

variable {σ : Type u} {α : Type v} {step : σ → α → σ}

def Throughout (step : σ → α → σ) (holds : σ → α → Prop) : σ → List α → Prop
  | _, [] => True
  | state, input :: rest => holds state input ∧ Throughout step holds (step state input) rest

instance Throughout.decidable (holds : σ → α → Prop)
    [∀ state input, Decidable (holds state input)] :
    (state : σ) → (inputs : List α) → Decidable (Throughout step holds state inputs)
  | _, [] => isTrue trivial
  | state, input :: rest =>
    have := Throughout.decidable holds (step state input) rest
    inferInstanceAs (Decidable (_ ∧ _))

/-- What a step does under an invariant holds throughout the runs that keep the invariant. -/
theorem Throughout.of_invariant {invariant : σ → Prop} {guarded holds : σ → α → Prop}
    (kept : ∀ state input, invariant state → guarded state input → invariant (step state input))
    (gives : ∀ state input, invariant state → guarded state input → holds state input)
    {state : σ} {inputs : List α} (initially : invariant state)
    (run : Throughout step guarded state inputs) : Throughout step holds state inputs := by
  induction inputs generalizing state with
  | nil => exact trivial
  | cons input rest ih =>
    rcases run with ⟨first, later⟩
    exact ⟨gives state input initially first, ih (kept state input initially first) later⟩

/-- Two properties that agree under an invariant which they keep hold throughout the same runs. -/
theorem Throughout.iff_of_invariant {invariant : σ → Prop} {left right : σ → α → Prop}
    (kept : ∀ state input, invariant state → right state input → invariant (step state input))
    (agree : ∀ state input, invariant state → (left state input ↔ right state input))
    {state : σ} (initially : invariant state) {inputs : List α} :
    Throughout step left state inputs ↔ Throughout step right state inputs := by
  constructor
  · refine of_invariant (fun state input holds met => ?_)
      (fun state input holds => (agree state input holds).mp) initially
    exact kept state input holds ((agree state input holds).mp met)
  · exact of_invariant kept (fun state input holds => (agree state input holds).mpr) initially

end Throughout

section SafeRun

variable {σ : Type u} {ε : Type v} {α : Type w} {step : σ → α → Except ε σ}

def SafeRun (step : σ → α → Except ε σ) (holds : σ → α → σ → Prop) : σ → List α → Prop
  | _, [] => True
  | state, input :: rest =>
    ∃ next, step state input = .ok next ∧ holds state input next ∧ SafeRun step holds next rest

theorem SafeRun.of_invariant {invariant : σ → Prop} {holds : σ → α → σ → Prop}
    (kept : ∀ state input, invariant state →
      ∃ next, step state input = .ok next ∧ invariant next ∧ holds state input next)
    {state : σ} (initially : invariant state) (inputs : List α) :
    SafeRun step holds state inputs := by
  induction inputs generalizing state with
  | nil => exact trivial
  | cons input rest ih =>
    rcases kept state input initially with ⟨next, steps, sound, given⟩
    exact ⟨next, steps, given, ih sound⟩

end SafeRun

end Ferrosa.Runs
