import Mathlib

/-!
# Write caches

A store behind a write cache applies writes in issue order.  A crash keeps some initial part of
the writes issued since the last flush.
-/

namespace Ferrosa

open List

universe u v

structure WriteCache (σ : Type u) (ω : Type v) where
  flushed : σ
  pending : List ω

namespace WriteCache

variable {σ : Type u} {ω : Type v} (apply : σ → ω → σ) (cache : WriteCache σ ω)

def current : σ := cache.pending.foldl apply cache.flushed

def issue (write : ω) : WriteCache σ ω := { cache with pending := cache.pending ++ [write] }

def issueAll (writes : List ω) : WriteCache σ ω := writes.foldl issue cache

def flush : WriteCache σ ω := ⟨cache.current apply, []⟩

/-- The writes that survive are not flushed by the crash. -/
def crash (kept : ℕ) : WriteCache σ ω := { cache with pending := cache.pending.take kept }

/-- Whatever a crash now leaves satisfies a property. -/
def Withstands (holds : σ → Prop) : Prop := ∀ kept, holds ((cache.crash kept).current apply)

variable {apply cache}

@[simp]
theorem current_issue (write : ω) :
    (cache.issue write).current apply = apply (cache.current apply) write := by
  simp [current, issue]

@[simp]
theorem current_issueAll (writes : List ω) :
    (cache.issueAll writes).current apply = writes.foldl apply (cache.current apply) := by
  induction writes generalizing cache with
  | nil => rfl
  | cons first rest ih => simpa [issueAll] using @ih (cache.issue first)

@[simp]
theorem current_flush : (cache.flush apply).current apply = cache.current apply := rfl

namespace Withstands

variable {holds : σ → Prop}

theorem current (withstands : cache.Withstands apply holds) : holds (cache.current apply) := by
  simpa [crash] using withstands cache.pending.length

theorem issue {write : ω} (before : cache.Withstands apply holds)
    (after : holds (apply (cache.current apply) write)) :
    (cache.issue write).Withstands apply holds := by
  intro kept
  by_cases within : kept ≤ cache.pending.length
  · have same : ((cache.issue write).crash kept) = cache.crash kept := by
      simp [WriteCache.issue, crash, take_append_of_le_length within]
    simpa [same] using before kept
  · have whole : ((cache.issue write).crash kept) = cache.issue write := by
      simp only [WriteCache.issue, crash, mk.injEq, true_and]
      apply take_of_length_le
      simp
      omega
    simpa [whole] using after

theorem flush (after : holds (cache.current apply)) :
    (cache.flush apply).Withstands apply holds := by
  intro kept
  simpa [crash, WriteCache.flush, WriteCache.current] using after

theorem crash (before : cache.Withstands apply holds) (kept : ℕ) :
    (cache.crash kept).Withstands apply holds := by
  intro again
  simpa [WriteCache.crash, take_take] using before (min again kept)

end Withstands

/-- What every pending write could only have found, and not made, withstands a crash. -/
theorem withstands_of_current {holds : σ → Prop}
    (inherited : ∀ write ∈ cache.pending, ∀ state, holds (apply state write) → holds state)
    (now : holds (cache.current apply)) : cache.Withstands apply holds := by
  intro kept
  have backwards : ∀ writes : List ω, (∀ write ∈ writes, write ∈ cache.pending) →
      ∀ state, holds (writes.foldl apply state) → holds state := by
    intro writes
    induction writes with
    | nil => exact fun _ _ holdsNow => holdsNow
    | cons first rest ih =>
      intro issued state holdsAfter
      apply inherited first (issued first (mem_cons_self))
      exact ih (fun write later => issued write (mem_cons_of_mem first later)) _ holdsAfter
  apply backwards (cache.pending.drop kept) fun write => mem_of_mem_drop
  simpa [crash, current, ← foldl_append] using now

end WriteCache

end Ferrosa
