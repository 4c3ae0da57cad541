import Mathlib

/-!
# Decoders of input that arrives in chunks

A step of an incremental decoder returns an item, asks for more input, or fails.  A step that
returns no item may still have consumed a part of the input.  Whoever feeds the decoder calls
it after every chunk until it returns no item; `drain` is one such loop and `feed` a sequence of
them.  `decodeAll` is what the input contains: it goes on after a step that consumed input
without an item.  Cut where its parts end, an input yields all it contains.
-/

namespace Ferrosa

open List

universe u v w x

variable {σ : Type u} {β : Type v} {α : Type w} {ε : Type x}

/-- A step fails, waits for more input, or takes a part from the front, whatever follows. -/
def StepsOn (step : σ → List β → Except ε (Option α × σ × List β)) (queued : σ → ℕ) (state : σ)
    (input : List β) : Prop :=
  (∃ error, ∀ more, step state (input ++ more) = .error error) ∨
    step state input = .ok (none, state, input) ∨
    ∃ front rest item next, input = front ++ rest ∧
      (∀ more, step state (front ++ more) = .ok (item, next, more)) ∧
      (front ≠ [] ∨ item.isSome ∧ queued next < queued state)

theorem stepsOn_of_front {step : σ → List β → Except ε (Option α × σ × List β)} {queued : σ → ℕ}
    {state : σ} {front : List β} {result : Except ε (Option α × σ)} (nonempty : front ≠ [])
    (takes : ∀ more, step state (front ++ more) =
      result.map fun taken => (taken.1, taken.2, more)) (rest : List β) :
    StepsOn step queued state (front ++ rest) := by
  rcases result with error | ⟨item, next⟩
  · left
    exact ⟨error, fun more => by rw [append_assoc, takes, Except.map]⟩
  · right; right
    exact ⟨front, rest, item, next, rfl, takes, Or.inl nonempty⟩

/-- A decoder whose steps depend on nothing behind the input that they consume. -/
structure IncrementalDecoder (σ : Type u) (β : Type v) (α : Type w) (ε : Type x) where
  step : σ → List β → Except ε (Option α × σ × List β)
  queued : σ → ℕ
  stepsOn : ∀ state input, StepsOn step queued state input

namespace IncrementalDecoder

variable (decoder : IncrementalDecoder σ β α ε) {state next : σ} {input rest : List β}
  {item : α} {error : ε}

theorem step_error_append (failed : decoder.step state input = .error error) (more : List β) :
    decoder.step state (input ++ more) = .error error := by
  rcases decoder.stepsOn state input with ⟨other, fails⟩ | waits |
    ⟨front, behind, item, next, rfl, takes, _⟩
  · have same := fails []
    rw [append_nil, failed] at same
    rw [fails more, same]
  · simp [waits] at failed
  · simp [takes] at failed

theorem step_ok_cases {item : Option α}
    (taken : decoder.step state input = .ok (item, next, rest)) :
    item = none ∧ next = state ∧ rest = input ∨ ∃ front, input = front ++ rest ∧
        (∀ more, decoder.step state (front ++ more) = .ok (item, next, more)) ∧
        (front ≠ [] ∨ item.isSome ∧ decoder.queued next < decoder.queued state) := by
  rcases decoder.stepsOn state input with ⟨error, fails⟩ | waits |
    ⟨front, behind, other, after, rfl, takes, progress⟩
  · simpa [taken] using fails []
  · rw [waits, Except.ok.injEq, Prod.mk.injEq, Prod.mk.injEq] at taken
    exact Or.inl ⟨taken.1.symm, taken.2.1.symm, taken.2.2.symm⟩
  · rw [takes, Except.ok.injEq, Prod.mk.injEq, Prod.mk.injEq] at taken
    rcases taken with ⟨rfl, rfl, rfl⟩
    exact Or.inr ⟨front, rfl, takes, progress⟩

theorem lex_of_some (returned : decoder.step state input = .ok (some item, next, rest)) :
    Prod.Lex (· < ·) (· < ·) (rest.length, decoder.queued next)
      (input.length, decoder.queued state) := by
  rcases decoder.step_ok_cases returned with ⟨isNone, _⟩ | ⟨front, rfl, _, progress⟩
  · cases isNone
  · rcases front with _ | ⟨first, front⟩
    · exact Prod.Lex.right _ (progress.resolve_left fun nonempty => nonempty rfl).2
    · apply Prod.Lex.left
      simp only [cons_append, length_cons, length_append]
      omega

def drain (state : σ) (input : List β) : List α × Except ε (σ × List β) :=
  match _result : decoder.step state input with
  | .error error => ([], .error error)
  | .ok (none, next, rest) => ([], .ok (next, rest))
  | .ok (some item, next, rest) =>
    let later := drain next rest
    (item :: later.1, later.2)
termination_by (input.length, decoder.queued state)
decreasing_by exact decoder.lex_of_some _result

def decodeAll (state : σ) (input : List β) : List α × Option ε :=
  match _result : decoder.step state input with
  | .error error => ([], some error)
  | .ok (none, next, rest) =>
    if _consumed : rest.length < input.length then decodeAll next rest else ([], none)
  | .ok (some item, next, rest) =>
    let later := decodeAll next rest
    (item :: later.1, later.2)
termination_by (input.length, decoder.queued state)
decreasing_by
  · exact Prod.Lex.left _ _ _consumed
  · exact decoder.lex_of_some _result

def feed : σ × List β → List (List β) → List α × Except ε (σ × List β)
  | held, [] => ([], .ok held)
  | held, chunk :: chunks =>
    match decoder.drain held.1 (held.2 ++ chunk) with
    | (items, .error error) => (items, .error error)
    | (items, .ok next) =>
      let later := feed next chunks
      (items ++ later.1, later.2)

def produced (run : List α × Except ε (σ × List β)) : List α × Option ε :=
  (run.1, match run.2 with | .error error => some error | .ok _ => none)

variable {decoder}

theorem drain_of_error (failed : decoder.step state input = .error error) :
    decoder.drain state input = ([], .error error) := by
  rw [drain]
  split <;> simp_all

theorem drain_of_none (asked : decoder.step state input = .ok (none, next, rest)) :
    decoder.drain state input = ([], .ok (next, rest)) := by
  rw [drain]
  split <;> simp_all

theorem drain_of_some (returned : decoder.step state input = .ok (some item, next, rest)) :
    decoder.drain state input =
      (item :: (decoder.drain next rest).1, (decoder.drain next rest).2) := by
  rw [drain]
  split <;> simp_all

theorem decodeAll_of_error (failed : decoder.step state input = .error error) :
    decoder.decodeAll state input = ([], some error) := by
  rw [decodeAll]
  split <;> simp_all

theorem decodeAll_of_some (returned : decoder.step state input = .ok (some item, next, rest)) :
    decoder.decodeAll state input =
      (item :: (decoder.decodeAll next rest).1, (decoder.decodeAll next rest).2) := by
  rw [decodeAll]
  split <;> simp_all

theorem decodeAll_of_waiting (waiting : decoder.step state input = .ok (none, state, input)) :
    decoder.decodeAll state input = ([], none) := by
  rw [decodeAll]
  split <;> simp_all

theorem decodeAll_of_none (isNone : decoder.step state input = .ok (none, next, rest)) :
    decoder.decodeAll state input = decoder.decodeAll next rest := by
  rcases decoder.step_ok_cases isNone with ⟨_, rfl, rfl⟩ | ⟨front, rfl, _, progress⟩
  · rfl
  · have nonempty := progress.resolve_right (by simp)
    rw [decodeAll]
    split <;> simp_all [length_pos_iff]

theorem step_induction {holds : σ → List β → Prop}
    (failed : ∀ {state input error}, decoder.step state input = .error error → holds state input)
    (waiting : ∀ {state input}, decoder.step state input = .ok (none, state, input) →
      holds state input)
    (absorbed : ∀ {state front rest next},
      (∀ more, decoder.step state (front ++ more) = .ok (none, next, more)) → holds next rest →
      holds state (front ++ rest))
    (returned : ∀ {state front rest item next},
      (∀ more, decoder.step state (front ++ more) = .ok (some item, next, more)) →
      holds next rest → holds state (front ++ rest))
    (state : σ) (input : List β) : holds state input := by
  induction state, input using @decodeAll.induct _ _ _ _ decoder with
  | case1 state input error isError => exact failed isError
  | case2 state input next rest isNone consumed ih =>
    rcases decoder.step_ok_cases isNone with ⟨_, _, rfl⟩ | ⟨front, rfl, takes, _⟩
    · exact absurd consumed (lt_irrefl _)
    · exact absorbed takes ih
  | case3 state input next rest isNone kept =>
    rcases decoder.step_ok_cases isNone with ⟨_, rfl, rfl⟩ | ⟨front, rfl, _, progress⟩
    · exact waiting isNone
    · have nonempty := progress.resolve_right (by simp)
      simp [length_pos_iff, nonempty] at kept
  | case4 state input item next rest isSome ih =>
    rcases decoder.step_ok_cases isSome with ⟨isNone, _⟩ | ⟨front, rfl, takes, _⟩
    · cases isNone
    · exact returned takes ih

variable {items : List α}

theorem decodeAll_append (more : List β) : decoder.decodeAll state (input ++ more) =
      match decoder.drain state input with
      | (items, .error error) => (items, some error)
      | (items, .ok final) => (items ++ (decoder.decodeAll final.1 (final.2 ++ more)).1,
          (decoder.decodeAll final.1 (final.2 ++ more)).2) := by
  induction state, input using @step_induction _ _ _ _ decoder with
  | failed isError =>
    rw [drain_of_error isError]
    exact decodeAll_of_error (decoder.step_error_append isError more)
  | waiting isWaiting => simp [drain_of_none isWaiting]
  | absorbed takes ih => simp [drain_of_none (takes _), decodeAll_of_none (takes _)]
  | returned takes ih =>
    rw [append_assoc, decodeAll_of_some (takes _), ih, drain_of_some (takes _)]
    rcases decoder.drain _ _ with ⟨items, error | final⟩ <;> simp

variable (decoder) in
def Quiet (held : σ × List β) : Prop := decoder.decodeAll held.1 held.2 = ([], none)

variable (decoder) in
def DrainsDry (state : σ) (input : List β) : Prop :=
  ∀ final, (decoder.drain state input).2 = .ok final → decoder.Quiet final

theorem decodeAll_flatten (held : σ × List β) (chunks : List (List β)) :
    decoder.decodeAll held.1 (held.2 ++ chunks.flatten) =
      match decoder.feed held chunks with
      | (items, .error error) => (items, some error)
      | (items, .ok final) => (items ++ (decoder.decodeAll final.1 final.2).1,
          (decoder.decodeAll final.1 final.2).2) := by
  induction chunks generalizing held with
  | nil => simp [feed]
  | cons chunk chunks ih =>
    rw [feed, flatten_cons, ← append_assoc]
    rcases drained : decoder.drain held.1 (held.2 ++ chunk) with ⟨items, error | next⟩
    · rw [decodeAll_append, drained]
    · rw [decodeAll_append, drained]
      simp only [ih next]
      rcases decoder.feed next chunks with ⟨later, error | final⟩ <;> simp

theorem produced_feed_eq_iff (held : σ × List β) (chunks : List (List β)) :
    produced (decoder.feed held chunks) = decoder.decodeAll held.1 (held.2 ++ chunks.flatten) ↔
      ∀ final, (decoder.feed held chunks).2 = .ok final → decoder.Quiet final := by
  rw [decodeAll_flatten]
  rcases decoder.feed held chunks with ⟨items, error | final⟩
  · simp [produced]
  · rcases contents : decoder.decodeAll final.1 final.2 with ⟨later, failure⟩
    simp [produced, Quiet, contents, eq_comm]

theorem DrainsDry.of_quiet (quiet : decoder.Quiet (state, input)) :
    decoder.DrainsDry state input := by
  intro final drained
  have contents : decoder.decodeAll state (input ++ []) = ([], none) := by
    simpa [Quiet] using quiet
  rw [decodeAll_append, ← Prod.eta (decoder.drain state input), drained] at contents
  simp only [Prod.mk.injEq, append_eq_nil_iff, append_nil] at contents
  exact Prod.ext contents.1.2 contents.2

theorem DrainsDry.of_error (failed : decoder.step state input = .error error) :
    decoder.DrainsDry state input := by
  intro final
  simp [drain_of_error failed]

theorem drainsDry_iff_of_some (returned : decoder.step state input = .ok (some item, next, rest)) :
    decoder.DrainsDry state input ↔ decoder.DrainsDry next rest := by
  simp only [DrainsDry, drain_of_some returned]

theorem DrainsDry.append {more : List β} (dry : decoder.DrainsDry state (input ++ more))
    (drained : (decoder.drain state input).2 = .ok (next, rest)) :
    decoder.DrainsDry next (rest ++ more) := by
  induction state, input using @step_induction _ _ _ _ decoder with
  | failed isError => simp [drain_of_error isError] at drained
  | waiting isWaiting =>
    simp only [drain_of_none isWaiting, Except.ok.injEq, Prod.mk.injEq] at drained
    rcases drained with ⟨rfl, rfl⟩
    exact dry
  | absorbed takes ih =>
    simp only [drain_of_none (takes _), Except.ok.injEq, Prod.mk.injEq] at drained
    rcases drained with ⟨rfl, rfl⟩
    apply DrainsDry.of_quiet
    apply dry
    rw [append_assoc, drain_of_none (takes _)]
  | returned takes ih =>
    simp only [drain_of_some (takes _)] at drained
    rw [append_assoc, drainsDry_iff_of_some (takes _)] at dry
    exact ih dry drained

theorem DrainsDry.feed {held : σ × List β} {chunks : List (List β)} (nonempty : chunks ≠ [])
    (dry : decoder.DrainsDry held.1 (held.2 ++ chunks.flatten)) {final : σ × List β}
    (fed : (decoder.feed held chunks).2 = .ok final) : decoder.Quiet final := by
  induction chunks generalizing held with
  | nil => exact absurd rfl nonempty
  | cons chunk chunks ih =>
    rw [flatten_cons, ← append_assoc] at dry
    rw [IncrementalDecoder.feed] at fed
    rcases drained : decoder.drain held.1 (held.2 ++ chunk) with ⟨items, error | next⟩
    · simp [drained] at fed
    · simp only [drained] at fed
      rcases chunks with _ | ⟨second, chunks⟩
      · simp only [IncrementalDecoder.feed, Except.ok.injEq] at fed
        subst fed
        apply dry
        simp [drained]
      · apply ih (cons_ne_nil _ _) _ fed
        exact dry.append (by rw [drained])

theorem exists_cut (state : σ) (input : List β) :
    ∃ chunk chunks, (chunk :: chunks).flatten = input ∧
      produced (decoder.feed (state, []) (chunk :: chunks)) = decoder.decodeAll state input := by
  induction state, input using @step_induction _ _ _ _ decoder with
  | @failed state input error isError =>
    refine ⟨input, [], by simp, ?_⟩
    simp [feed, drain_of_error isError, decodeAll_of_error isError, produced]
  | @waiting state input isWaiting =>
    refine ⟨input, [], by simp, ?_⟩
    simp [feed, drain_of_none isWaiting, decodeAll_of_waiting isWaiting, produced]
  | @absorbed state front rest next takes ih =>
    rcases ih with ⟨chunk, chunks, rfl, contents⟩
    have alone := takes []
    rw [append_nil] at alone
    refine ⟨front, chunk :: chunks, by simp, ?_⟩
    rw [feed, nil_append, drain_of_none alone, decodeAll_of_none (takes _), ← contents]
    rfl
  | @returned state front rest item next takes ih =>
    rcases ih with ⟨chunk, chunks, rfl, contents⟩
    refine ⟨front ++ chunk, chunks, by simp, ?_⟩
    rw [decodeAll_of_some (takes _), ← contents, feed, feed, nil_append, nil_append,
      drain_of_some (takes _)]
    rcases decoder.drain next chunk with ⟨items, error | held⟩ <;> simp [produced]

/-- All ways to cut the input yield the same if and only if the input drains dry at once. -/
theorem cuts_agree_iff (state : σ) (input : List β) :
    (∀ chunks others : List (List β), chunks ≠ [] → others ≠ [] → chunks.flatten = input →
      others.flatten = input → produced (decoder.feed (state, []) chunks) =
        produced (decoder.feed (state, []) others)) ↔ decoder.DrainsDry state input := by
  constructor
  · intro agree final drained
    rcases exists_cut state input with ⟨chunk, chunks, cut, contents⟩
    have same := agree [input] (chunk :: chunks) (by simp) (by simp) (by simp) cut
    have atOnce := (@produced_feed_eq_iff _ _ _ _ decoder (state, []) [input]).mp (by
      simpa using same.trans contents)
    apply atOnce
    rcases result : decoder.drain state input with ⟨items, error | next⟩
    · simp [result] at drained
    · simpa [feed, result] using drained
  · intro dry
    have contents : ∀ cut : List (List β), cut ≠ [] → cut.flatten = input →
        produced (decoder.feed (state, []) cut) = decoder.decodeAll state input := by
      rintro cut nonempty rfl
      exact (@produced_feed_eq_iff _ _ _ _ decoder (state, []) cut).mpr
        fun final fed => DrainsDry.feed nonempty dry fed
    intro chunks others chunksNonempty othersNonempty chunksCut othersCut
    rw [contents chunks chunksNonempty chunksCut, contents others othersNonempty othersCut]

end IncrementalDecoder

end Ferrosa
