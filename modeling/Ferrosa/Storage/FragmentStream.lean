import Ferrosa.Lib.Runs
import Ferrosa.Storage.RangeMerger

/-!
# Streaming one partition

The rows that `emitRows` takes from its cursors are the rows of the materialized
merge, one after the other, so the fragments of a partition are a function of its
merged rows.  This file proves that simulation and describes the fragments: their
rows concatenate to the suppressed merge for every row budget, while the `last`
mark is lost when only suppressed rows follow a full fragment.
-/

namespace Ferrosa.Storage

open KeyedFold Runs List RowCursor Option

namespace RangeMerger

def cursorsOf (lists : List (List Row)) : List RowCursor := lists.map RowCursor.prime

theorem foldl_lowerSmallest (lists : List (List Row)) (smallest : Option Bytes) :
    (cursorsOf lists).foldl lowerSmallest smallest =
      (smallest.toList ++ lists.filterMap fun rows => rows.head?.map Row.clustering).min? := by
  induction lists generalizing smallest with
  | nil => cases smallest <;> rfl
  | cons rows rest ih =>
    have step := ih (lowerSmallest smallest (prime rows))
    rw [cursorsOf] at step
    rw [cursorsOf, map_cons, foldl_cons, step]
    cases rows with
    | nil => rfl
    | cons head tail =>
      cases smallest with
      | none => rfl
      | some current =>
        have lowered : lowerSmallest (some current) (prime (head :: tail)) =
            some (min current head.clustering) := by
          simp only [lowerSmallest, prime, head?_cons, min_comm current, min_def_lt]
          split_ifs <;> rfl
        rw [lowered]
        rfl

variable {lists : List (List Row)} {clustering : Bytes}

theorem smallestClustering_eq_some
    (isSome : smallestClustering (cursorsOf lists) = some clustering) :
    (∃ rows ∈ lists, ∃ row ∈ rows.head?, row.clustering = clustering) ∧
      ∀ rows ∈ lists, ∀ row ∈ rows.head?, clustering ≤ row.clustering := by
  rw [smallestClustering, foldl_lowerSmallest, min?_eq_some_iff] at isSome
  simp only [toList_none, nil_append, mem_filterMap, map_eq_some_iff] at isSome
  exact ⟨isSome.1, fun rows listed row isHead => isSome.2 _ ⟨rows, listed, row, isHead, rfl⟩⟩

/-- Folding the heads at the smallest clustering merges them in cursor order; sorted sources never
raise the order error. -/
theorem foldHeads_cursorsOf (sorted : ∀ rows ∈ lists, StrictlySorted Row.clustering rows)
    (merged : Option Row) :
    foldHeads clustering merged (cursorsOf lists) = .ok (Option.merge mergeRows merged
          (reduce mergeRows (headsAt Row.clustering clustering lists)),
        cursorsOf (lists.map (dropHeadAt Row.clustering clustering))) := by
  induction lists generalizing merged with
  | nil => simp [cursorsOf, foldHeads, headsAt]
  | cons rows rest ih =>
    have restSorted : ∀ rows ∈ rest, StrictlySorted Row.clustering rows := by
      intro other mem
      exact sorted other (mem_cons_of_mem _ mem)
    cases rows with
    | nil =>
      simp only [cursorsOf, map_cons, prime, head?_nil, foldHeads] at ih ⊢
      rw [ih restSorted merged]
      simp [dropHeadAt]
    | cons head tail =>
      have headSorted := sorted _ mem_cons_self
      simp only [cursorsOf, map_cons, prime, head?_cons, foldHeads, tail_cons] at ih ⊢
      by_cases atClustering : head.clustering = clustering
      · have inOrder : tail.head?.filter (fun next => next.clustering < clustering) =
            none := by
          rw [filter_eq_none_iff]
          intro next nextMem
          have above := headSorted.head_lt (mem_of_mem_head? nextMem)
          rw [atClustering] at above
          simpa using above.le
        rw [if_pos atClustering, inOrder, mergeStaticRows_eq_merge,
          ih restSorted (Option.merge mergeRows merged (some head))]
        rw [headsAt_cons_cons, if_pos atClustering, ← singleton_append, reduce_append,
          reduce_singleton, ← (associative_merge mergeRows).assoc]
        simp [dropHeadAt, atClustering, advance, prime]
      · rw [if_neg atClustering, ih restSorted merged]
        rw [headsAt_cons_cons, if_neg atClustering]
        simp [dropHeadAt, atClustering]

abbrev mergedRows (lists : List (List Row)) : List Row := sortAndFoldRows lists.flatten

variable (deletion : DeletionTime)

def rowSuppressed (row : Row) : Bool :=
  row.primaryKeyLiveness.timestamp < deletion.markedForDeleteAt

/-- Take rows until `k` of them have survived the deletion; return the survivors and the rows
not looked at. -/
def takeSurvivors (deletion : DeletionTime) : Nat → List Row → List Row × List Row
  | _, [] => ([], [])
  | 0, row :: rest => ([], row :: rest)
  | k + 1, row :: rest =>
    if rowSuppressed deletion row then takeSurvivors deletion (k + 1) rest
    else
      let (out, left) := takeSurvivors deletion k rest
      (row.applyRowDeletion :: out, left)

theorem suppression_test (row : Row) :
    (!deletion.isLive && decide (row.primaryKeyLiveness.timestamp < deletion.markedForDeleteAt)) =
      rowSuppressed deletion row := by
  by_cases isLive : deletion.isLive
  · have notOlder := DeletionTime.le_of_isLive isLive row.primaryKeyLiveness.timestamp
    simp [rowSuppressed, isLive, notOlder]
  · simp [rowSuppressed, isLive]

theorem pendingRows_cursorsOf (lists : List (List Row)) :
    pendingRows (cursorsOf lists) = lists.flatten.length := by
  induction lists with
  | nil => rfl
  | cons rows rest ih =>
    simp only [pendingRows, cursorsOf, map_cons, sum_cons, flatten_cons, length_append] at ih ⊢
    rw [ih]
    cases rows <;> simp [prime]
    omega

theorem mergedRows_eq_nil_iff : mergedRows lists = [] ↔ ∀ rows ∈ lists, rows = [] := by
  constructor
  · intro empty rows rowsMem
    refine eq_nil_iff_forall_not_mem.mpr fun row rowMem => ?_
    have inFlatten := mem_flatten.mpr ⟨rows, rowsMem, rowMem⟩
    rcases (exists_mem_sortFold_iff clustering_mergeRows).mpr ⟨row, inFlatten, rfl⟩ with
      ⟨merged, mergedMem, _⟩
    change merged ∈ mergedRows lists at mergedMem
    rw [empty] at mergedMem
    exact absurd mergedMem not_mem_nil
  · intro allEmpty
    have flat : lists.flatten = [] := flatten_eq_nil_iff.mpr allEmpty
    rw [mergedRows, flat]
    rfl

theorem exhausted_cursorsOf (lists : List (List Row)) :
    (cursorsOf lists).all (fun cursor => cursor.head.isNone) = (mergedRows lists).isEmpty := by
  rw [Bool.eq_iff_iff, List.isEmpty_iff, mergedRows_eq_nil_iff]
  simp [cursorsOf, prime]

theorem foldHeads_step (sorted : ∀ rows ∈ lists, StrictlySorted Row.clustering rows)
    (smallest : smallestClustering (cursorsOf lists) = some clustering) :
    ∃ row, foldHeads clustering none (cursorsOf lists) =
        .ok (some row, cursorsOf (lists.map (dropHeadAt Row.clustering clustering))) ∧
      mergedRows lists = row :: mergedRows (lists.map (dropHeadAt Row.clustering clustering)) := by
  rcases smallestClustering_eq_some smallest with ⟨⟨rows, rowsMem, head, headMem, atHead⟩, below⟩
  have headMem' : head ∈ headsAt Row.clustering clustering lists := by
    rw [headsAt, mem_filterMap]
    refine ⟨rows, rowsMem, ?_⟩
    rw [headAt, headMem, filter_some, atHead]
    simp
  rcases exists_reduce_of_mem headMem' with ⟨row, found⟩
  refine ⟨row, ?_, sortFold_flatten_of_least clustering_mergeRows sorted below found⟩
  rw [foldHeads_cursorsOf sorted, found, merge_none_left]

theorem emitRows_cursorsOf {k fuel : Nat} (deletion : DeletionTime)
    (sorted : ∀ rows ∈ lists, StrictlySorted Row.clustering rows)
    {out : List Row} (enough : lists.flatten.length < fuel) (room : out.length ≤ k) :
    ∃ left, (∀ rows ∈ left, StrictlySorted Row.clustering rows) ∧
      emitRows k deletion fuel out (cursorsOf lists) =
        .ok (out ++ (takeSurvivors deletion (k - out.length) (mergedRows lists)).1,
          cursorsOf left) ∧
      mergedRows left = (takeSurvivors deletion (k - out.length) (mergedRows lists)).2 := by
  induction fuel generalizing lists out with
  | zero => omega
  | succ fuel ih =>
    simp only [emitRows]
    by_cases below : out.length < k
    · rw [if_pos below]
      cases smallest : smallestClustering (cursorsOf lists) with
      | none =>
        rw [smallestClustering, foldl_lowerSmallest, min?_eq_none_iff] at smallest
        have empty := mergedRows_eq_nil_iff.mpr (by simpa using smallest)
        refine ⟨lists, sorted, ?_, ?_⟩
        · simp [empty, takeSurvivors]
        · rw [empty]
          simp [takeSurvivors]
      | some clustering =>
        rcases foldHeads_step sorted smallest with ⟨row, foldEq, rowsEq⟩
        have nextSorted : ∀ rows ∈ lists.map (dropHeadAt Row.clustering clustering),
            StrictlySorted Row.clustering rows := by
          intro rows rowsMem
          rcases mem_map.mp rowsMem with ⟨source, sourceMem, rfl⟩
          exact (sorted source sourceMem).dropHeadAt clustering
        have fewer := length_flatten_dropHeadAt_lt (smallestClustering_eq_some smallest).1
        have budget : k - out.length = (k - (out.length + 1)) + 1 := by omega
        simp only [foldEq, suppression_test]
        rw [rowsEq, budget]
        by_cases suppressed : rowSuppressed deletion row
        · rcases ih nextSorted (by omega) room with
            ⟨left, leftSorted, emitted, leftEq⟩
          refine ⟨left, leftSorted, ?_, ?_⟩
          · simpa [takeSurvivors, suppressed, budget] using emitted
          · simpa [takeSurvivors, suppressed, budget] using leftEq
        · have nextRoom : (out ++ [row.applyRowDeletion]).length ≤ k := by
            simp only [length_append, length_singleton]
            omega
          rcases ih nextSorted (by omega) nextRoom with ⟨left, leftSorted, emitted, leftEq⟩
          refine ⟨left, leftSorted, ?_, ?_⟩
          · simpa [takeSurvivors, suppressed] using emitted
          · simpa [takeSurvivors, suppressed] using leftEq
    · have full : k - out.length = 0 := by omega
      rw [if_neg below, full]
      refine ⟨lists, sorted, ?_, ?_⟩
      · cases mergedRows lists <;> simp [takeSurvivors]
      · cases mergedRows lists <;> simp [takeSurvivors]

def survivors (rows : List Row) : List Row :=
  (rows.filter (fun row => !rowSuppressed deletion row)).map Row.applyRowDeletion

theorem survivors_cons (row : Row) (rest : List Row) : survivors deletion (row :: rest) =
      if rowSuppressed deletion row then survivors deletion rest
      else row.applyRowDeletion :: survivors deletion rest := by
  by_cases suppressed : rowSuppressed deletion row <;> simp [survivors, suppressed]

/-- The survivors in order, and nothing left unless `k` were taken; a full take that leaves nothing
ended with a survivor. -/
structure Taken (deletion : DeletionTime) (k : Nat) (rows out left : List Row) : Prop where
  split : survivors deletion rows = out ++ survivors deletion left
  bounded : out.length ≤ k
  short : out.length < k → left = []
  suffix : 0 < k → left <:+ rows.tail
  ending : 0 < k → out.length = k → left = [] →
    ∀ last ∈ rows.getLast?, rowSuppressed deletion last = false

theorem takeSurvivors_taken (k : Nat) (rows : List Row) :
    Taken deletion k rows (takeSurvivors deletion k rows).1 (takeSurvivors deletion k rows).2 := by
  induction rows generalizing k with
  | nil => constructor <;> simp [takeSurvivors, survivors]
  | cons row rest ih =>
    cases k with
    | zero => constructor <;> simp [takeSurvivors]
    | succ k =>
      by_cases suppressed : rowSuppressed deletion row
      · rcases ih (k + 1) with ⟨split, bounded, short, suffix, ending⟩
        simp only [takeSurvivors, if_pos suppressed]
        refine ⟨by rw [survivors_cons, if_pos suppressed, split], bounded, short, ?_, ?_⟩
        · intro positive
          exact (suffix positive).trans (tail_suffix rest)
        · intro positive full empty last lastMem
          cases rest with
          | nil => simp [takeSurvivors] at full
          | cons next others =>
            rw [getLast?_cons_cons] at lastMem
            exact ending positive full empty last lastMem
      · rcases ih k with ⟨split, bounded, short, suffix, ending⟩
        simp only [takeSurvivors, if_neg suppressed]
        refine ⟨by rw [survivors_cons, if_neg suppressed, split, cons_append], ?_, ?_, ?_, ?_⟩
        · exact Nat.succ_le_succ bounded
        · intro shorter
          exact short (Nat.lt_of_succ_lt_succ shorter)
        · intro _
          cases k with
          | zero => cases rest <;> simp [takeSurvivors]
          | succ k => exact (suffix (Nat.succ_pos k)).trans (tail_suffix rest)
        · intro _ full empty last lastMem
          cases rest with
          | nil =>
            simp only [getLast?_singleton, mem_def, Option.some.injEq] at lastMem
            rw [← lastMem]
            simpa using suppressed
          | cons next others =>
            rw [getLast?_cons_cons] at lastMem
            cases k with
            | zero => simp [takeSurvivors] at empty
            | succ k =>
              exact ending (Nat.succ_pos k) (Nat.succ.inj full) empty last lastMem

variable {deletion}

section Fragments

variable (k : Nat) (key : DecoratedKey) (deletion : DeletionTime) (staticRow : Option Row)

def fragmentOf (first : Bool) (rows : List Row) (last : Bool) : PartitionFragment where
  key
  deletion := if first then deletion else DeletionTime.live
  staticRow := if first then staticRow else none
  rows
  first
  last

/-- The fragments that streaming merged rows yields, from the first fragment or from a later
one on. -/
inductive StreamedAs : Bool → List Row → List PartitionFragment → Prop where
  | nothing {rows : List Row} : Taken deletion k rows [] [] → StreamedAs false rows []
  | ends {first : Bool} {rows out : List Row} : Taken deletion k rows out [] →
      first = true ∨ out ≠ [] →
      StreamedAs first rows [fragmentOf key deletion staticRow first out true]
  | goesOn {first : Bool} {rows out left : List Row} {rest : List PartitionFragment} :
      Taken deletion k rows out left → left ≠ [] → StreamedAs false left rest →
      StreamedAs first rows (fragmentOf key deletion staticRow first out false :: rest)

def StartsMarked (fragments : List PartitionFragment) : Prop :=
  fragments.map PartitionFragment.first = true :: List.replicate (fragments.length - 1) false

def EndsMarked (fragments : List PartitionFragment) : Prop :=
  fragments.map PartitionFragment.last = List.replicate (fragments.length - 1) false ++ [true]
  deriving Decidable

theorem endsMarked_cons {fragment : PartitionFragment} {rest : List PartitionFragment}
    (notLast : fragment.last = false) : EndsMarked (fragment :: rest) ↔ EndsMarked rest := by
  cases rest with
  | nil => simp [EndsMarked, notLast]
  | cons next others =>
    simp [EndsMarked, notLast, replicate_succ]

def LastSuppressed (deletion : DeletionTime) (rows : List Row) : Prop :=
  ∃ last ∈ rows.getLast?, rowSuppressed deletion last = true

theorem lastSuppressed_of_survivors_eq_nil {deletion : DeletionTime} {rows : List Row}
    (nonempty : rows ≠ []) (empty : survivors deletion rows = []) :
    LastSuppressed deletion rows := by
  refine ⟨rows.getLast nonempty, getLast?_eq_getLast_of_ne_nil nonempty, ?_⟩
  rw [survivors, map_eq_nil_iff, filter_eq_nil_iff] at empty
  simpa using empty _ (getLast_mem nonempty)

namespace StreamedAs

variable {k key deletion staticRow} {first : Bool} {rows : List Row}
  {fragments : List PartitionFragment}

theorem flatMap_rows (streamed : StreamedAs k key deletion staticRow first rows fragments) :
    fragments.flatMap PartitionFragment.rows = survivors deletion rows := by
  induction streamed with
  | nothing taken => simpa [survivors] using taken.split.symm
  | ends taken _ => simpa [survivors, fragmentOf] using taken.split.symm
  | goesOn taken _ _ ih =>
    rw [flatMap_cons, ih, taken.split]
    rfl

theorem key_eq (streamed : StreamedAs k key deletion staticRow first rows fragments) :
    ∀ fragment ∈ fragments, fragment.key = key := by
  induction streamed with
  | nothing taken => simp
  | ends taken _ => simp [fragmentOf]
  | goesOn taken _ _ ih =>
    intro fragment mem
    rcases mem_cons.mp mem with rfl | inRest
    · rfl
    · exact ih fragment inRest

theorem map_first (streamed : StreamedAs k key deletion staticRow false rows fragments) :
    fragments.map PartitionFragment.first = List.replicate fragments.length false := by
  generalize isFirst : false = first at streamed
  induction streamed with
  | nothing taken => rfl
  | ends taken _ =>
    subst isFirst
    rfl
  | goesOn taken _ _ ih =>
    subst isFirst
    rw [map_cons, ih rfl]
    rfl

theorem exists_head (streamed : StreamedAs k key deletion staticRow true rows fragments) :
    (∃ out last rest, fragments = fragmentOf key deletion staticRow true out last :: rest) ∧
      StartsMarked fragments := by
  cases streamed with
  | ends taken _ => exact ⟨⟨_, _, _, rfl⟩, rfl⟩
  | goesOn taken _ rest =>
    refine ⟨⟨_, _, _, rfl⟩, ?_⟩
    rw [StartsMarked, map_cons, rest.map_first]
    rfl

/-- The end is marked unless a multiple of `k` rows survives and the last merged row is suppressed.
-/
theorem endsMarked_iff (positive : 0 < k)
    (streamed : StreamedAs k key deletion staticRow first rows fragments) :
    EndsMarked fragments ↔ (first = true ∨ survivors deletion rows ≠ []) ∧
      ¬(survivors deletion rows ≠ [] ∧ k ∣ (survivors deletion rows).length ∧
        LastSuppressed deletion rows) := by
  induction streamed with
  | @nothing rows taken =>
    have empty : survivors deletion rows = [] := by simpa [survivors] using taken.split
    simp [EndsMarked, empty]
  | @ends first rows out taken emits =>
    have split : survivors deletion rows = out := by simpa [survivors] using taken.split
    rw [split]
    refine ⟨fun _ => ⟨emits, ?_⟩, fun _ => rfl⟩
    rintro ⟨nonempty, divides, last, lastMem, suppressed⟩
    have full : out.length = k :=
      Nat.le_antisymm taken.bounded (Nat.le_of_dvd (length_pos_iff.mpr nonempty) divides)
    rw [taken.ending positive full rfl last lastMem] at suppressed
    exact Bool.false_ne_true suppressed
  | @goesOn first rows out left rest taken leftNonempty _ ih =>
    have full : out.length = k := by
      refine Nat.le_antisymm taken.bounded (Nat.le_of_not_lt fun shorter => ?_)
      exact leftNonempty (taken.short shorter)
    have outNonempty : out ≠ [] := by
      rintro rfl
      simp only [length_nil] at full
      omega
    have sameLast : LastSuppressed deletion rows ↔ LastSuppressed deletion left := by
      rcases (taken.suffix positive).trans (tail_suffix rows) with ⟨front, rfl⟩
      rw [LastSuppressed, getLast?_append_of_ne_nil front leftNonempty]
      rfl
    have sameDivides : k ∣ (survivors deletion rows).length ↔
        k ∣ (survivors deletion left).length := by
      rw [taken.split, length_append, full]
      exact Nat.dvd_add_right (Nat.dvd_refl k)
    rw [endsMarked_cons rfl, ih, sameDivides, sameLast, taken.split]
    by_cases empty : survivors deletion left = []
    · have lastSuppressed := lastSuppressed_of_survivors_eq_nil leftNonempty empty
      simp [empty, outNonempty, lastSuppressed]
    · simp [empty, outNonempty]

end StreamedAs

end Fragments

variable {k : Nat} {active : ActivePartition} {merger : RangeMerger}

theorem StreamedAs.of_not_first {key : DecoratedKey} {deletion : DeletionTime}
    {staticRow : Option Row} {rows : List Row} {fragments : List PartitionFragment}
    (streamed : StreamedAs k key deletion staticRow false rows fragments)
    (other : Option Row) : StreamedAs k key deletion other false rows fragments := by
  generalize isFirst : false = first at streamed
  induction streamed with
  | nothing taken => exact StreamedAs.nothing taken
  | ends taken emits =>
    subst isFirst
    exact StreamedAs.ends taken emits
  | goesOn taken nonempty _ ih =>
    subst isFirst
    exact StreamedAs.goesOn taken nonempty (ih rfl)

variable {lists : List (List Row)} {begun : RangeMerger}

theorem emitFragment_cursorsOf (k : Nat) (merger : RangeMerger)
    (sorted : ∀ rows ∈ lists, StrictlySorted Row.clustering rows)
    (cursorsEq : active.cursors = cursorsOf lists) :
    ∃ out left, (∀ rows ∈ left, StrictlySorted Row.clustering rows) ∧
      Taken active.deletion k (mergedRows lists) out (mergedRows left) ∧
      emitFragment k merger active = .ok (
        if out.isEmpty && !active.first then (none, merger.retireActivePartition active)
        else
          (some (fragmentOf active.key active.deletion active.pendingStaticRow active.first out
              (mergedRows left).isEmpty),
            if (mergedRows left).isEmpty then merger.retireActivePartition active
            else { merger with active := some { active with
              first := false, cursors := cursorsOf left, pendingStaticRow := none } })) := by
  have enough : lists.flatten.length < pendingRows active.cursors + 1 := by
    rw [cursorsEq, pendingRows_cursorsOf]
    exact Nat.lt_succ_self _
  have room : ([] : List Row).length ≤ k := Nat.zero_le k
  rcases emitRows_cursorsOf active.deletion sorted enough room with
    ⟨left, leftSorted, emitted, leftEq⟩
  refine ⟨_, left, leftSorted, leftEq ▸ takeSurvivors_taken active.deletion k _, ?_⟩
  rw [emitFragment, cursorsEq]
  rw [cursorsEq] at emitted
  simp only [emitted, nil_append, length_nil, Nat.sub_zero, exhausted_cursorsOf]
  split
  · rfl
  · rfl

theorem refillSources_active (merger : RangeMerger) (srcs : List Nat) :
    (merger.refillSources srcs).active = merger.active := by
  induction srcs generalizing merger with
  | nil => rfl
  | cons src rest ih =>
    rw [refillSources, foldl_cons]
    refine (ih (merger.refillSource src)).trans ?_
    unfold refillSource
    split
    · rfl
    · simp only
      split <;> rfl

theorem emitFragment_ne_none {final : RangeMerger} (isFirst : active.first = true) :
    emitFragment k merger active ≠ .ok (none, final) := by
  simp only [emitFragment, isFirst]
  cases emitRows k active.deletion (pendingRows active.cursors + 1) [] active.cursors <;> simp

theorem beginActivePartition_first (begins : merger.beginActivePartition = (true, begun))
    (isActive : begun.active = some active) :
    active.first = true := by
  unfold beginActivePartition at begins
  split at begins
  · simp at begins
  · split at begins
    · simp at begins
    · split at begins
      · simp at begins
      · simp only [Prod.mk.injEq, true_and] at begins
        subst begins
        simp only [Option.some.injEq] at isActive
        rw [← isActive]
        rfl

theorem nextFragmentLoop_of_active_none (idle : merger.active = none) (fuel : Nat) :
    nextFragmentLoop k (fuel + 1) merger = nextFragmentLoop k 1 merger := by
  simp only [nextFragmentLoop, idle, isNone_none, if_true]
  rcases begins : merger.beginActivePartition with ⟨isBegun, begun⟩
  cases isBegun with
  | false => rfl
  | true =>
    cases isActive : begun.active with
    | none => simp
    | some active =>
      have isFirst := beginActivePartition_first begins isActive
      rcases emitted : emitFragment k begun active with failure | ⟨fragment, final⟩
      · simp [emitted]
      · cases fragment with
        | none => exact absurd emitted (emitFragment_ne_none isFirst)
        | some fragment => simp [emitted]

theorem nextFragment_of_begin (idle : merger.active = none)
    (begins : merger.beginActivePartition = (true, begun)) (isActive : begun.active = some active) :
    nextFragment merger k = nextFragment begun k := by
  have isFirst := beginActivePartition_first begins isActive
  simp only [nextFragment, nextFragmentLoop, idle, begins, isActive, isNone_none,
    isNone_some, if_true, Bool.false_eq_true, if_false]
  rcases emitted : emitFragment k begun active with failure | ⟨fragment, final⟩
  · simp
  · cases fragment with
    | none => exact absurd emitted (emitFragment_ne_none isFirst)
    | some fragment => simp

theorem drains_active (positive : 0 < k)
    (sorted : ∀ rows ∈ lists, StrictlySorted Row.clustering rows)
    (cursorsEq : active.cursors = cursorsOf lists) (isActive : merger.active = some active)
    {rest : List PartitionFragment}
    (retired : Drains (nextFragment · k) (merger.retireActivePartition active) rest) :
    ∃ fragments, StreamedAs k active.key active.deletion active.pendingStaticRow active.first
        (mergedRows lists) fragments ∧
      Drains (nextFragment · k) merger (fragments ++ rest) := by
  induction size : (mergedRows lists).length using Nat.strong_induction_on
    generalizing lists merger active with
  | _ size ih =>
    subst size
    rcases emitFragment_cursorsOf k merger sorted cursorsEq with
      ⟨out, left, leftSorted, taken, emitted⟩
    by_cases quiet : (out.isEmpty && !active.first) = true
    · rw [if_pos quiet] at emitted
      rcases (by simpa using quiet : out = [] ∧ active.first = false) with ⟨rfl, notFirst⟩
      have leftEmpty : mergedRows left = [] := taken.short positive
      have skipped : nextFragment merger k =
          nextFragment (merger.retireActivePartition active) k := by
        have idle : (merger.retireActivePartition active).active = none :=
          refillSources_active _ _
        rw [nextFragment, nextFragmentLoop]
        simp only [isActive, emitted, isNone_some, Bool.false_eq_true, if_false]
        exact (nextFragmentLoop_of_active_none idle _).trans
          (nextFragmentLoop_of_active_none idle _).symm
      refine ⟨[], ?_, retired.of_step_eq skipped⟩
      rw [notFirst]
      exact StreamedAs.nothing (leftEmpty ▸ taken)
    · rw [if_neg quiet] at emitted
      have emits : active.first = true ∨ out ≠ [] := by
        by_contra neither
        simp only [not_or, Bool.not_eq_true, not_not] at neither
        exact quiet (by simp [neither.1, neither.2])
      have pulled := emitted
      rw [← show nextFragment merger k = emitFragment k merger active by
        simp only [nextFragment, nextFragmentLoop, isActive, emitted, isNone_some,
          Bool.false_eq_true, if_false]] at pulled
      by_cases ended : mergedRows left = []
      · simp only [ended, isEmpty_nil, if_true] at pulled
        refine ⟨_, StreamedAs.ends (ended ▸ taken) emits, ?_⟩
        exact Drains.pull pulled retired
      · have goesOn : (mergedRows left).isEmpty = false := by simpa using ended
        simp only [goesOn, Bool.false_eq_true, if_false] at pulled
        let next : ActivePartition := { active with
          first := false, cursors := cursorsOf left, pendingStaticRow := none }
        have isNext : { merger with active := some next }.active = some next := rfl
        have shorter : (mergedRows left).length < (mergedRows lists).length := by
          have behind := (taken.suffix positive).length_le
          have nonempty := length_pos_iff.mpr ended
          rw [length_tail] at behind
          omega
        rcases ih _ shorter leftSorted (by rfl) isNext retired rfl with
          ⟨fragments, streamed, drained⟩
        refine ⟨_, StreamedAs.goesOn taken ended (streamed.of_not_first _), ?_⟩
        exact Drains.pull pulled drained

end RangeMerger

end Ferrosa.Storage
