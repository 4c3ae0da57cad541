import Ferrosa.Cluster.RepairExchange

/-!
# The plan of a diff, key by key

Both diffs send, for every key, what the two copies of that key call for.
-/

namespace Ferrosa.Cluster

open Storage KeyedFold RepairPlan
open List hiding lookup_cons lookup_eq_none_iff

def planToB : Option Partition → Option Partition → List Partition
  | none, _ => []
  | some a, none => [a]
  | some a, some b =>
    if partitionMerkleHash a ≠ partitionMerkleHash b then
      let merge := mergePartitionRows a b
      if merge.partitionStateDiverged || !merge.toB.isEmpty then
        [partitionWithRows a merge.toB]
      else []
    else []

def planToA : Option Partition → Option Partition → List Partition
  | none, none => []
  | none, some b => [b]
  | some _, none => []
  | some a, some b =>
    if partitionMerkleHash a ≠ partitionMerkleHash b then
      let merge := mergePartitionRows a b
      if merge.partitionStateDiverged || !merge.toA.isEmpty then
        [partitionWithRows b merge.toA]
      else []
    else []

def planMissing (b : Partition) (a : Option Partition) : List Partition :=
  if a.isSome then [] else [b]

theorem key_of_mem_planToB {a : Partition} {b : Option Partition} {sent : Partition}
    (travels : sent ∈ planToB (some a) b) : sent.key = a.key := by
  cases b with
  | none =>
    rw [mem_singleton.mp travels]
  | some b =>
    simp only [planToB] at travels
    split_ifs at travels
    · rw [mem_singleton.mp travels]
      rfl
    · simp at travels
    · simp at travels

theorem key_of_mem_planToA {a : Option Partition} {b sent : Partition}
    (travels : sent ∈ planToA a (some b)) : sent.key = b.key := by
  cases a with
  | none =>
    rw [mem_singleton.mp travels]
  | some a =>
    simp only [planToA] at travels
    split_ifs at travels
    · rw [mem_singleton.mp travels]
      rfl
    · simp at travels
    · simp at travels

theorem foldl_diffStep (bByKey : SortedMap Bytes Partition) (entries : List (Bytes × Partition))
    (plan : RepairPlan) :
    (entries.foldl (diffStep bByKey) plan).aToB = plan.aToB ++
        entries.flatMap (fun entry => planToB (some entry.2) (bByKey.get? entry.1)) ∧
      (entries.foldl (diffStep bByKey) plan).bToA = plan.bToA ++
        entries.flatMap (fun entry => planToA (some entry.2) (bByKey.get? entry.1)) := by
  induction entries generalizing plan with
  | nil => simp
  | cons entry rest ih =>
    rcases ih (diffStep bByKey plan entry) with ⟨aToB, bToA⟩
    rw [foldl_cons, aToB, bToA, flatMap_cons, flatMap_cons]
    unfold diffStep
    cases bByKey.get? entry.1 with
    | none => simp [planToB, planToA]
    | some b =>
      simp only [planToB, planToA, pushMergeInto]
      split_ifs <;> simp

theorem foldl_onlyBStep (aByKey : SortedMap Bytes Partition) (entries : List (Bytes × Partition))
    (plan : RepairPlan) :
    (entries.foldl (onlyBStep aByKey) plan).aToB = plan.aToB ∧
      (entries.foldl (onlyBStep aByKey) plan).bToA = plan.bToA ++
        entries.flatMap (fun entry => planMissing entry.2 (aByKey.get? entry.1)) := by
  induction entries generalizing plan with
  | nil => simp
  | cons entry rest ih =>
    rcases ih (onlyBStep aByKey plan entry) with ⟨aToB, bToA⟩
    rw [foldl_cons, aToB, bToA, flatMap_cons]
    unfold onlyBStep planMissing
    split_ifs <;> simp

structure IsPartitionSet (token : Bytes → Int64) (partitions : List Partition) : Prop where
  decorated : ∀ partition ∈ partitions, partition.key.token = token partition.key.key
  distinct : partitions.Pairwise (fun p q => p.key ≠ q.key)

namespace IsPartitionSet

variable {token : Bytes → Int64} {a b : List Partition}

section

variable (isSet : IsPartitionSet token a)

include isSet

variable {partition : Partition}

theorem key_eq (present : partition ∈ a) :
    partition.key = ⟨token partition.key.key, partition.key.key⟩ := by
  have decorated := isSet.decorated partition present
  rw [← decorated]

theorem lookup_eq_some_iff {key : DecoratedKey} :
    lookup Partition.key key a = some partition ↔ partition ∈ a ∧ partition.key = key :=
  lookup_eq_some_iff_of_distinct isSet.distinct

theorem distinct_bytes : (a.map (fun partition => partition.key.key)).Nodup := by
  apply pairwise_map.mpr
  apply List.Pairwise.imp_of_mem _ isSet.distinct
  intro p q memP memQ differ same
  apply differ
  rw [isSet.key_eq memP, isSet.key_eq memQ, same]

theorem get?_partitionsByKey (bytes : Bytes) :
    (partitionsByKey a).get? bytes = lookup Partition.key ⟨token bytes, bytes⟩ a := by
  apply Option.ext
  intro partition
  rw [partitionsByKey, SortedMap.get?_ofList_eq_some_iff, isSet.lookup_eq_some_iff]
  · simp only [mem_map, Prod.mk.injEq]
    constructor
    · rintro ⟨found, present, rfl, rfl⟩
      exact ⟨present, isSet.key_eq present⟩
    · rintro ⟨present, same⟩
      exact ⟨partition, present, congrArg DecoratedKey.key same, rfl⟩
  · rw [map_map]
    exact isSet.distinct_bytes

theorem mem_entries_iff {entry : Bytes × Partition} :
    entry ∈ (partitionsByKey a).entries ↔ entry.2 ∈ a ∧ entry.2.key.key = entry.1 := by
  rw [SortedMap.mem_entries_iff, isSet.get?_partitionsByKey, isSet.lookup_eq_some_iff]
  constructor
  · rintro ⟨present, same⟩
    exact ⟨present, congrArg DecoratedKey.key same⟩
  · rintro ⟨present, same⟩
    rw [← same]
    exact ⟨present, isSet.key_eq present⟩

theorem distinct_entries : (partitionsByKey a).entries.Pairwise (fun x y => x.2.key ≠ y.2.key) := by
  apply List.Pairwise.imp_of_mem _ (partitionsByKey a).sorted
  intro x y memX memY below same
  have bytesX := (isSet.mem_entries_iff.mp memX).2
  have bytesY := (isSet.mem_entries_iff.mp memY).2
  rw [← bytesX, ← bytesY, same] at below
  exact lt_irrefl _ below

theorem lookup_entries (key : DecoratedKey) :
    lookup (fun entry => entry.2.key) key (partitionsByKey a).entries =
      (lookup Partition.key key a).map (fun partition => (partition.key.key, partition)) := by
  apply Option.ext
  intro entry
  rw [lookup_eq_some_iff_of_distinct isSet.distinct_entries, isSet.mem_entries_iff,
    Option.map_eq_some_iff]
  simp only [isSet.lookup_eq_some_iff]
  constructor
  · rintro ⟨⟨present, bytes⟩, atKey⟩
    exact ⟨entry.2, ⟨present, atKey⟩, by rw [bytes]⟩
  · rintro ⟨partition, ⟨present, atKey⟩, rfl⟩
    exact ⟨⟨present, rfl⟩, atKey⟩

end

end IsPartitionSet

section Sets

variable {token : Bytes → Int64} {a b : List Partition} (isSetA : IsPartitionSet token a)
  (isSetB : IsPartitionSet token b)

include isSetA isSetB

theorem withKey_aToB_diffPartitionSets (key : DecoratedKey) :
    withKey Partition.key key (diffPartitionSets a b).aToB =
      planToB (lookup Partition.key key a) (lookup Partition.key key b) := by
  rw [diffPartitionSets, (foldl_onlyBStep _ _ _).1, (foldl_diffStep _ _ _).1]
  simp only [empty, nil_append]
  rw [withKey_flatMap isSetA.distinct_entries, isSetA.lookup_entries]
  · cases found : lookup Partition.key key a with
    | none => rfl
    | some partition =>
      rcases isSetA.lookup_eq_some_iff.mp found with ⟨present, rfl⟩
      simp only [Option.map_some, Option.elim_some]
      rw [isSetB.get?_partitionsByKey, ← isSetA.key_eq present]
  · intro entry _ sent travels
    exact key_of_mem_planToB travels

theorem withKey_bToA_diffPartitionSets (key : DecoratedKey) :
    withKey Partition.key key (diffPartitionSets a b).bToA =
      planToA (lookup Partition.key key a) (lookup Partition.key key b) := by
  rw [diffPartitionSets, (foldl_onlyBStep _ _ _).2, (foldl_diffStep _ _ _).2]
  simp only [empty, nil_append]
  rw [withKey_append, withKey_flatMap isSetA.distinct_entries, isSetA.lookup_entries,
    withKey_flatMap isSetB.distinct_entries, isSetB.lookup_entries]
  · cases foundA : lookup Partition.key key a with
    | none =>
      cases foundB : lookup Partition.key key b with
      | none => rfl
      | some partition =>
        rcases isSetB.lookup_eq_some_iff.mp foundB with ⟨present, rfl⟩
        have absent : (partitionsByKey a).get? partition.key.key = none := by
          rw [isSetA.get?_partitionsByKey, ← isSetB.key_eq present, foundA]
        simp [absent, planMissing, planToA]
    | some own =>
      rcases isSetA.lookup_eq_some_iff.mp foundA with ⟨presentA, rfl⟩
      have getB : (partitionsByKey b).get? own.key.key = lookup Partition.key own.key b := by
        rw [isSetB.get?_partitionsByKey, ← isSetA.key_eq presentA]
      have getA : (partitionsByKey a).get? own.key.key = some own := by
        rw [isSetA.get?_partitionsByKey, ← isSetA.key_eq presentA, foundA]
      cases foundB : lookup Partition.key own.key b with
      | none => simp [getB, foundB, planToA]
      | some partition =>
        have sameKey := (isSetB.lookup_eq_some_iff.mp foundB).2
        simp [getB, foundB, sameKey, getA, planMissing]
  · intro entry _ sent travels
    unfold planMissing at travels
    split_ifs at travels
    · simp at travels
    · rw [mem_singleton.mp travels]
  · intro entry memA sent travels
    cases found : (partitionsByKey b).get? entry.1 with
    | none => simp [found, planToA] at travels
    | some partition =>
      rw [found] at travels
      rw [isSetB.get?_partitionsByKey, isSetB.lookup_eq_some_iff] at found
      rw [key_of_mem_planToA travels, found.2, isSetA.key_eq (isSetA.mem_entries_iff.mp memA).1,
        (isSetA.mem_entries_iff.mp memA).2]

end Sets

def decidedToB (decisions : List RepairDecision) : List Partition :=
  decisions.filterMap fun
    | .aToB partition => some partition
    | _ => none

def decidedToA (decisions : List RepairDecision) : List Partition :=
  decisions.filterMap fun
    | .bToA partition => some partition
    | _ => none

theorem lookup_eq_none_of_lt {key : DecoratedKey} {partitions : List Partition}
    (above : ∀ partition ∈ partitions, key < partition.key) :
    lookup Partition.key key partitions = none := by
  rw [lookup_eq_none_iff]
  intro partition present
  exact (above partition present).ne'

theorem lookup_toList_append {least : DecoratedKey} {head : Option Partition}
    {partitions : List Partition} (atLeast : ∀ partition ∈ head, partition.key = least)
    (below : ∀ partition ∈ partitions, least < partition.key) (key : DecoratedKey) :
    lookup Partition.key key (head.toList ++ partitions) =
      if least = key then head else lookup Partition.key key partitions := by
  cases head with
  | none =>
    split_ifs with atKey
    · exact lookup_eq_none_of_lt (atKey ▸ below)
    · rfl
  | some x =>
    rw [Option.toList_some, singleton_append, lookup_cons, atLeast x rfl]
    split_ifs <;> rfl

/-- The decisions send, for every key, what the two copies of that key call for. -/
def DecidesByKey (a b : List Partition) (decisions : List RepairDecision) : Prop :=
  ∀ key, withKey Partition.key key (decidedToB decisions) =
        planToB (lookup Partition.key key a) (lookup Partition.key key b) ∧
      withKey Partition.key key (decidedToA decisions) =
        planToA (lookup Partition.key key a) (lookup Partition.key key b)

theorem DecidesByKey.append {xs ys : List Partition} {decisions : List RepairDecision}
    {least : DecoratedKey} (a b : Option Partition) (heads : List RepairDecision)
    (atLeast : (∀ x ∈ a, x.key = least) ∧ ∀ y ∈ b, y.key = least)
    (belowA : ∀ partition ∈ xs, least < partition.key)
    (belowB : ∀ partition ∈ ys, least < partition.key)
    (heads_eq : decidedToB heads = planToB a b ∧ decidedToA heads = planToA a b)
    (rest : DecidesByKey xs ys decisions) :
    DecidesByKey (a.toList ++ xs) (b.toList ++ ys) (heads ++ decisions) := by
  intro key
  have splitB : decidedToB (heads ++ decisions) = planToB a b ++ decidedToB decisions :=
    heads_eq.1 ▸ filterMap_append
  have splitA : decidedToA (heads ++ decisions) = planToA a b ++ decidedToA decisions :=
    heads_eq.2 ▸ filterMap_append
  have keysB : ∀ sent ∈ planToB a b, sent.key = least := by
    cases a with
    | none => exact nofun
    | some x => exact fun sent travels => (key_of_mem_planToB travels).trans (atLeast.1 x rfl)
  have keysA : ∀ sent ∈ planToA a b, sent.key = least := by
    cases b with
    | none => cases a <;> exact nofun
    | some y => exact fun sent travels => (key_of_mem_planToA travels).trans (atLeast.2 y rfl)
  rw [splitB, splitA, withKey_append, withKey_append, (rest key).1, (rest key).2,
    withKey_eq_ite keysB, withKey_eq_ite keysA, lookup_toList_append atLeast.1 belowA,
    lookup_toList_append atLeast.2 belowB]
  split_ifs with atKey
  · rw [← atKey, lookup_eq_none_of_lt belowA, lookup_eq_none_of_lt belowB]
    simp [planToB, planToA]
  · exact ⟨rfl, rfl⟩

theorem decidesByKey_diffPartitionSetsStreaming {a b : List Partition}
    (sortedA : StrictlySorted Partition.key a) (sortedB : StrictlySorted Partition.key b) :
    DecidesByKey a b (diffPartitionSetsStreaming a b) := by
  fun_induction diffPartitionSetsStreaming a b with
  | case1 =>
    intro key
    exact ⟨rfl, rfl⟩
  | case2 x xs ih =>
    exact (ih sortedA.tail sortedB).append (some x) none [.aToB x] (by simp)
      (fun p => sortedA.head_lt) nofun ⟨rfl, rfl⟩
  | case3 y ys ih =>
    exact (ih sortedA sortedB.tail).append none (some y) [.bToA y] (by simp) nofun
      (fun p => sortedB.head_lt) ⟨rfl, rfl⟩
  | case4 x xs y ys below ih =>
    have belowY : x.key < y.key := compare_lt_iff_lt.mp below
    refine (ih sortedA.tail sortedB).append (some x) none [.aToB x] (by simp)
      (fun p => sortedA.head_lt) ?_ ⟨rfl, rfl⟩
    exact forall_mem_cons.mpr ⟨belowY, fun p present => belowY.trans (sortedB.head_lt present)⟩
  | case5 x xs y ys above ih =>
    have belowX : y.key < x.key := compare_gt_iff_gt.mp above
    refine (ih sortedA sortedB.tail).append none (some y) [.bToA y] (by simp) ?_
      (fun p => sortedB.head_lt) ⟨rfl, rfl⟩
    exact forall_mem_cons.mpr ⟨belowX, fun p present => belowX.trans (sortedA.head_lt present)⟩
  | case6 x xs y ys same ih =>
    have atX := compare_eq_iff_eq.mp same
    refine (ih sortedA.tail sortedB.tail).append (some x) (some y) (emitMerge x y) (by simp [atX])
      (fun p => atX ▸ sortedA.head_lt) (fun p => sortedB.head_lt) ?_
    simp only [emitMerge, planToB, planToA]
    constructor <;> split_ifs <;> rfl

end Ferrosa.Cluster
