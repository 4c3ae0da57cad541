import Ferrosa.Storage.Types

/-!
# Grouping intervals into disjoint runs

Intervals are taken by their lower bound, each is added to the first run that ends before it, and a
run is opened when there is none.  Then the last intervals of all runs hold the lower bound of the
one that opened a run, so there are as many runs as intervals hold a common point.
-/

namespace Ferrosa.Storage

open List

variable {Key : Type} [LinearOrder Key] {n : ℕ} (bounds : Fin n → Key × Key)

/-- The loop over the runs for one index. -/
def place (idx : Fin n) : List (List (Fin n)) → List (List (Fin n))
  | [] => [[idx]]
  | run :: runs =>
    if run.getLast?.any fun lastIdx => (bounds lastIdx).2 < (bounds idx).1 then
      (run ++ [idx]) :: runs
    else run :: place idx runs

def groupDisjointRuns : List (List (Fin n)) :=
  let indexed := (List.finRange n).mergeSort fun a b => (bounds a).1 ≤ (bounds b).1
  indexed.foldl (fun runs idx => place bounds idx runs) []

def ContainsPoint (point : Key) (idx : Fin n) : Prop :=
  (bounds idx).1 ≤ point ∧ point ≤ (bounds idx).2
  deriving Decidable

def overlapAt (point : Key) : ℕ :=
  (List.finRange n).countP fun idx => ContainsPoint bounds point idx

/-- The runs have every index once, and each interval of a run ends before the next begins. -/
structure DisjointRuns (runs : List (List (Fin n))) : Prop where
  once : runs.flatten.Perm (List.finRange n)
  disjoint : ∀ run ∈ runs, run.Pairwise fun a b => (bounds a).2 < (bounds b).1

structure FewestRuns (runs : List (List (Fin n))) : Prop extends DisjointRuns bounds runs where
  length_eq : IsGreatest (Set.range (overlapAt bounds)) runs.length
  minimal : ∀ others, DisjointRuns bounds others → runs.length ≤ others.length

variable {bounds} {idx : Fin n} {runs : List (List (Fin n))} {run : List (Fin n)}

theorem place_cases (bounds : Fin n → Key × Key) (idx : Fin n) (runs : List (List (Fin n))) :
    (∃ front run back, runs = front ++ run :: back ∧
      (∃ lastIdx ∈ run.getLast?, (bounds lastIdx).2 < (bounds idx).1) ∧
        place bounds idx runs = front ++ (run ++ [idx]) :: back) ∨
    (∀ run ∈ runs, ∀ lastIdx ∈ run.getLast?, (bounds idx).1 ≤ (bounds lastIdx).2) ∧
      place bounds idx runs = runs ++ [[idx]] := by
  induction runs with
  | nil => exact Or.inr ⟨nofun, rfl⟩
  | cons run runs ih =>
    simp only [place, Option.any_eq_true, decide_eq_true_eq]
    split_ifs with fits
    · exact Or.inl ⟨[], run, runs, rfl, fits, rfl⟩
    · rcases ih with ⟨front, fitting, back, rfl, below, placed⟩ | ⟨none, placed⟩
      · exact Or.inl ⟨run :: front, fitting, back, rfl, below, by rw [placed]; rfl⟩
      · push Not at fits
        exact Or.inr ⟨forall_mem_cons.mpr ⟨fits, none⟩, by rw [placed]; rfl⟩

/-- What holds once some indices are placed: a point lies in an interval of every run. -/
structure Placed (bounds : Fin n → Key × Key) (placed : List (Fin n)) (runs : List (List (Fin n))) :
    Prop where
  once : runs.flatten.Perm placed
  disjoint : ∀ run ∈ runs, run.Pairwise fun a b => (bounds a).2 < (bounds b).1
  common : ∃ point, ∀ run ∈ runs, ∃ idx ∈ run, ContainsPoint bounds point idx

section

variable (wellFormed : ∀ idx, (bounds idx).1 ≤ (bounds idx).2) {placed : List (Fin n)}

include wellFormed

theorem Placed.place (before : Placed bounds placed runs)
    (above : ∀ earlier ∈ placed, (bounds earlier).1 ≤ (bounds idx).1) :
    Placed bounds (placed ++ [idx]) (place bounds idx runs) := by
  rcases before with ⟨once, disjoint, common⟩
  rcases place_cases bounds idx runs with ⟨front, run, back, rfl, fits, same⟩ | ⟨none, same⟩
  · rcases fits with ⟨lastIdx, isLast, below⟩
    rw [forall_mem_append, forall_mem_cons] at disjoint
    rw [same]
    refine ⟨?_, ?_, ?_⟩
    · refine List.Perm.trans ?_ (once.append_right [idx])
      simp only [flatten_append, flatten_cons, append_assoc]
      apply List.Perm.append_left
      apply List.Perm.append_left
      exact perm_append_comm
    · refine forall_mem_append.mpr ⟨disjoint.1, forall_mem_cons.mpr ⟨?_, disjoint.2.2⟩⟩
      refine pairwise_append.mpr ⟨disjoint.2.1, pairwise_singleton _ _, ?_⟩
      rcases getLast?_eq_some_iff.mp isLast with ⟨init, rfl⟩
      intro a inRun b isIdx
      rw [mem_singleton.mp isIdx]
      rcases mem_append.mp inRun with inInit | isLastIdx
      · have endsBefore := (pairwise_append.mp disjoint.2.1).2.2 a inInit lastIdx
          (mem_singleton_self lastIdx)
        exact (endsBefore.trans_le (wellFormed lastIdx)).trans below
      · rw [mem_singleton.mp isLastIdx]
        exact below
    · rcases common with ⟨point, hits⟩
      rw [forall_mem_append, forall_mem_cons] at hits
      rcases hits.2.1 with ⟨other, inRun, contains⟩
      exact ⟨point, forall_mem_append.mpr ⟨hits.1, forall_mem_cons.mpr
        ⟨⟨other, mem_append_left _ inRun, contains⟩, hits.2.2⟩⟩⟩
  · rw [same]
    refine ⟨?_, ?_, (bounds idx).1, ?_⟩
    · rw [flatten_append, flatten_singleton]
      exact once.append_right [idx]
    · exact forall_mem_append.mpr ⟨disjoint, forall_mem_singleton.mpr (pairwise_singleton _ _)⟩
    · refine forall_mem_append.mpr ⟨?_, forall_mem_singleton.mpr
        ⟨idx, mem_singleton_self idx, le_rfl, wellFormed idx⟩⟩
      intro run listed
      rcases common with ⟨point, hits⟩
      rcases hits run listed with ⟨other, inRun, _⟩
      have nonempty := ne_nil_of_mem inRun
      have isLast := getLast_mem nonempty
      exact ⟨_, isLast, above _ (once.mem_iff.mp (mem_flatten_of_mem listed isLast)),
        none run listed _ (getLast?_eq_some_getLast nonempty)⟩

theorem placed_foldl {todo : List (Fin n)} (before : Placed bounds placed runs)
    (sorted : (placed ++ todo).Pairwise fun a b => (bounds a).1 ≤ (bounds b).1) :
    Placed bounds (placed ++ todo) (todo.foldl (fun runs idx => place bounds idx runs) runs) := by
  induction todo generalizing placed runs with
  | nil =>
    rw [append_nil]
    exact before
  | cons idx todo ih =>
    rw [append_cons] at sorted ⊢
    apply ih _ sorted
    apply before.place wellFormed
    intro earlier isPlaced
    exact (pairwise_append.mp (pairwise_append.mp sorted).1).2.2 earlier isPlaced idx
      (mem_singleton_self idx)

end

theorem DisjointRuns.overlapAt_le (grouped : DisjointRuns bounds runs) (point : Key) :
    overlapAt bounds point ≤ runs.length := by
  rw [overlapAt, ← grouped.once.countP_eq, countP_flatten]
  refine (sum_le_card_nsmul _ 1 ?_).trans (by simp)
  intro count isCount
  rcases mem_map.mp isCount with ⟨run, listed, rfl⟩
  rw [countP_eq_length_filter]
  have apart := (grouped.disjoint run listed).filter fun idx => ContainsPoint bounds point idx
  have contains : ∀ idx ∈ run.filter fun idx => ContainsPoint bounds point idx,
      ContainsPoint bounds point idx := fun idx hit => of_decide_eq_true (mem_filter.mp hit).2
  generalize run.filter (fun idx => ContainsPoint bounds point idx) = hits at apart contains ⊢
  rcases hits with _ | ⟨a, _ | ⟨b, rest⟩⟩
  · exact Nat.zero_le 1
  · exact le_rfl
  · rw [pairwise_cons] at apart
    rw [forall_mem_cons, forall_mem_cons] at contains
    exact absurd (contains.1.2.trans_lt (apart.1 b mem_cons_self)) (not_lt.mpr contains.2.1.1)

theorem le_overlapAt (once : runs.flatten.Perm (List.finRange n)) {point : Key}
    (hits : ∀ run ∈ runs, ∃ idx ∈ run, ContainsPoint bounds point idx) :
    runs.length ≤ overlapAt bounds point := by
  rw [overlapAt, ← once.countP_eq, countP_flatten]
  refine le_trans (by simp) (card_nsmul_le_sum _ 1 ?_)
  intro count isCount
  rcases mem_map.mp isCount with ⟨run, listed, rfl⟩
  exact one_le_countP_iff.mpr (by simpa using hits run listed)

/-- The runs are disjoint, and there are no more of them than intervals that hold a common
point. -/
theorem fewestRuns_groupDisjointRuns [Inhabited Key]
    (wellFormed : ∀ idx, (bounds idx).1 ≤ (bounds idx).2) :
    FewestRuns bounds (groupDisjointRuns bounds) := by
  have sorted : ((List.finRange n).mergeSort fun a b => (bounds a).1 ≤ (bounds b).1).Pairwise
      fun a b => decide ((bounds a).1 ≤ (bounds b).1) := by
    apply pairwise_mergeSort
    · intro a b c
      simpa using le_trans
    · intro a b
      simpa using le_total _ _
  have start : Placed bounds [] [] := ⟨.nil, nofun, default, nofun⟩
  have placed : Placed bounds _ (groupDisjointRuns bounds) :=
    placed_foldl wellFormed start (sorted.imp of_decide_eq_true)
  have grouped : DisjointRuns bounds (groupDisjointRuns bounds) :=
    ⟨placed.once.trans (mergeSort_perm _ _), placed.disjoint⟩
  rcases placed.common with ⟨point, hits⟩
  have same : overlapAt bounds point = (groupDisjointRuns bounds).length :=
    le_antisymm (grouped.overlapAt_le point) (le_overlapAt grouped.once hits)
  refine ⟨grouped, ⟨⟨point, same⟩, ?_⟩, ?_⟩
  · rintro _ ⟨other, rfl⟩
    exact grouped.overlapAt_le other
  · intro others otherGrouped
    rw [← same]
    exact otherGrouped.overlapAt_le point

def threeIntervals : Fin 3 → Bytes × Bytes := ![([1], [3]), ([2], [5]), ([4], [6])]

theorem fewestRuns_threeIntervals : FewestRuns threeIntervals (groupDisjointRuns threeIntervals) :=
  fewestRuns_groupDisjointRuns (by decide)

end Ferrosa.Storage
