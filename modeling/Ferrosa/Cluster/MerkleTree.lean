import Ferrosa.Storage.Types

/-!
# The Merkle tree of a token range

Repair sums the hashes of partitions in the leaves of a tree and compares the leaves of two
replicas.  A leaf that differs is read back as a range of tokens.  A token goes to the leaf that its
place in the range falls into, while the ranges of leaves are cut at whole tokens, so a token that
two leaves share is summed in the first and lies in the range of the second.
-/

namespace Ferrosa.Cluster

open Storage List

/-- Tokens are integers: the arithmetic is in 128 bits and does not overflow within the range. -/
structure MerkleTree where
  depth : ℕ
  rangeStart : ℤ
  rangeEnd : ℤ
  nodes : ℕ → UInt64

def Contains (range : ℤ × ℤ) (token : ℤ) : Prop := range.1 ≤ token ∧ token < range.2
  deriving Decidable

namespace MerkleTree

def new (depth : ℕ) (rangeStart rangeEnd : ℤ) : MerkleTree :=
  ⟨depth, rangeStart, rangeEnd, fun _ => 0⟩

variable (tree : MerkleTree)

def range : ℤ × ℤ := (tree.rangeStart, tree.rangeEnd)

def numLeaves : ℕ := 2 ^ tree.depth

def rangeWidth : ℕ := (tree.rangeEnd - tree.rangeStart).toNat

def tokenToLeaf (token : ℤ) : ℕ :=
  if tree.rangeWidth = 0 then 0
  else
    let offset := (token - tree.rangeStart).toNat
    min (offset * tree.numLeaves / tree.rangeWidth) (tree.numLeaves - 1)

def leafRange (leaf : ℕ) : ℤ × ℤ :=
  if tree.rangeWidth = 0 then (tree.rangeStart, tree.rangeStart)
  else
    let leafStart := leaf * tree.rangeWidth / tree.numLeaves
    let leafEnd := if leaf + 1 = tree.numLeaves then tree.rangeWidth
      else (leaf + 1) * tree.rangeWidth / tree.numLeaves
    (tree.rangeStart + leafStart, tree.rangeStart + leafEnd)

def leafHash (leaf : ℕ) : UInt64 := tree.nodes (tree.numLeaves - 1 + leaf)

def insert (token : ℤ) (hash : UInt64) : MerkleTree :=
  { tree with
    nodes := Function.update tree.nodes (tree.numLeaves - 1 + tree.tokenToLeaf token)
      (tree.leafHash (tree.tokenToLeaf token) + hash) }

def computeRoot : MerkleTree :=
  { tree with
    nodes := (List.range (tree.numLeaves - 1)).reverse.foldl
      (fun nodes i => Function.update nodes i (nodes (2 * i + 1) + nodes (2 * i + 2))) tree.nodes }

def divergentLeafRanges (other : MerkleTree) : List (ℤ × ℤ) :=
  if tree.depth ≠ other.depth ∨ tree.rangeStart ≠ other.rangeStart ∨
      tree.rangeEnd ≠ other.rangeEnd then
    [tree.range]
  else
    ((List.range tree.numLeaves).filter fun leaf => tree.leafHash leaf ≠ other.leafHash leaf).map
      tree.leafRange

def tokensIn (partitions : List Partition) : List Partition :=
  partitions.filter fun partition => Contains tree.range partition.key.token.toInt

variable (hash : Partition → UInt64)

/-- The tree with the range of this one that `compute_repair_plan` builds of one side. -/
def build (partitions : List Partition) : MerkleTree :=
  ((tree.tokensIn partitions).foldl
    (fun tree partition => tree.insert partition.key.token.toInt (hash partition))
      (new tree.depth tree.rangeStart tree.rangeEnd)).computeRoot

def leafSum (partitions : List Partition) (leaf : ℕ) : UInt64 :=
  ((tree.tokensIn partitions).filter fun partition =>
    tree.tokenToLeaf partition.key.token.toInt = leaf).foldl
      (fun sum partition => sum + hash partition) 0

/-- A partition in the range that one side does not have, or not like this. -/
def OneSided (left right : List Partition) (partition : Partition) : Prop :=
  Contains tree.range partition.key.token.toInt ∧
    (partition ∈ left ∧ partition ∉ right ∨ partition ∈ right ∧ partition ∉ left)

def SumsDiffer (left right : List Partition) : Prop :=
  ∀ partition, tree.OneSided left right partition →
    let leaf := tree.tokenToLeaf partition.key.token.toInt
    tree.leafSum hash left leaf ≠ tree.leafSum hash right leaf

/-- The leaves cut the range into pieces, each token is in the piece of its leaf, and partitions
that differ are in pieces found to differ. -/
structure NamesTokens : Prop where
  inLeaf : ∀ token, Contains tree.range token →
    Contains (tree.leafRange (tree.tokenToLeaf token)) token
  ordered : ∀ first second, first < second → second < tree.numLeaves →
    (tree.leafRange first).2 ≤ (tree.leafRange second).1
  covers : ∀ token, Contains tree.range token ↔
    ∃ leaf < tree.numLeaves, Contains (tree.leafRange leaf) token
  found : ∀ hash left right, tree.SumsDiffer hash left right →
    ∀ partition, tree.OneSided left right partition →
      ∃ range ∈ (tree.build hash left).divergentLeafRanges (tree.build hash right),
        Contains range partition.key.token.toInt

variable {tree hash}

theorem leafHash_computeRoot (leaf : ℕ) : tree.computeRoot.leafHash leaf = tree.leafHash leaf := by
  have kept : ∀ (indices : List ℕ) (nodes : ℕ → UInt64), (∀ i ∈ indices, i < tree.numLeaves - 1) →
      indices.foldl (fun nodes i => Function.update nodes i (nodes (2 * i + 1) + nodes (2 * i + 2)))
        nodes (tree.numLeaves - 1 + leaf) = nodes (tree.numLeaves - 1 + leaf) := by
    intro indices
    induction indices with
    | nil => simp
    | cons i indices ih =>
      intro nodes below
      rw [forall_mem_cons] at below
      rw [foldl_cons, ih _ below.2, Function.update_of_ne (by omega)]
  exact kept _ _ fun i listed => mem_range.mp (mem_reverse.mp listed)

theorem leafHash_foldl_insert (partitions : List Partition) (leaf : ℕ) : (partitions.foldl
      (fun tree partition => tree.insert partition.key.token.toInt (hash partition)) tree).leafHash
        leaf =
      (partitions.filter fun partition =>
        tree.tokenToLeaf partition.key.token.toInt = leaf).foldl
          (fun sum partition => sum + hash partition) (tree.leafHash leaf) := by
  induction partitions generalizing tree with
  | nil => rfl
  | cons partition partitions ih =>
    rw [foldl_cons, ih]
    by_cases isLeaf : tree.tokenToLeaf partition.key.token.toInt = leaf
    · rw [filter_cons_of_pos (by simpa using isLeaf), foldl_cons, leafHash, insert, isLeaf]
      exact congrArg (List.foldl _ · _) (Function.update_self _ _ _)
    · have other : tree.numLeaves - 1 + leaf ≠
          tree.numLeaves - 1 + tree.tokenToLeaf partition.key.token.toInt := by
        omega
      rw [filter_cons_of_neg (by simpa using isLeaf), leafHash, insert]
      exact congrArg (List.foldl _ · _) (Function.update_of_ne other _ _)

@[simp]
theorem build_geometry (partitions : List Partition) :
    (tree.build hash partitions).depth = tree.depth ∧
      (tree.build hash partitions).rangeStart = tree.rangeStart ∧
        (tree.build hash partitions).rangeEnd = tree.rangeEnd := by
  have kept : ∀ (partitions : List Partition) (start : MerkleTree),
      let built := partitions.foldl
        (fun tree partition => tree.insert partition.key.token.toInt (hash partition)) start
      built.depth = start.depth ∧ built.rangeStart = start.rangeStart ∧
        built.rangeEnd = start.rangeEnd := by
    intro partitions
    induction partitions with
    | nil => exact fun start => ⟨rfl, rfl, rfl⟩
    | cons partition partitions ih => exact fun start => ih _
  exact kept _ _

theorem leafHash_build (partitions : List Partition) (leaf : ℕ) :
    (tree.build hash partitions).leafHash leaf = tree.leafSum hash partitions leaf := by
  rw [build, leafHash_computeRoot, leafHash_foldl_insert]
  rfl

theorem mem_divergentLeafRanges {left right : List Partition} {leaf : ℕ}
    (isLeaf : leaf < tree.numLeaves)
    (differs : tree.leafSum hash left leaf ≠ tree.leafSum hash right leaf) :
    tree.leafRange leaf ∈ (tree.build hash left).divergentLeafRanges (tree.build hash right) := by
  have kept : (tree.build hash left).leafRange = tree.leafRange := by
    funext leaf
    simp only [leafRange, rangeWidth, numLeaves, build_geometry]
    rfl
  rw [divergentLeafRanges, if_neg (by simp), kept]
  apply mem_map_of_mem
  rw [mem_filter, leafHash_build, leafHash_build]
  exact ⟨by simpa [numLeaves] using isLeaf, by simpa using differs⟩

theorem contains_range_iff {token : ℤ} : Contains tree.range token ↔
      ∃ offset < tree.rangeWidth, token = tree.rangeStart + offset := by
  rw [Contains, range, rangeWidth]
  constructor
  · intro inside
    exact ⟨(token - tree.rangeStart).toNat, by omega, by omega⟩
  · rintro ⟨offset, inside, rfl⟩
    dsimp only
    omega

theorem numLeaves_pos : 0 < tree.numLeaves :=
  Nat.two_pow_pos _

theorem edge_numLeaves : tree.numLeaves * tree.rangeWidth / tree.numLeaves = tree.rangeWidth :=
  Nat.mul_div_cancel_left _ numLeaves_pos

theorem edge_mono {first second : ℕ} (ordered : first ≤ second) :
    first * tree.rangeWidth / tree.numLeaves ≤ second * tree.rangeWidth / tree.numLeaves :=
  Nat.div_le_div_right (Nat.mul_le_mul_right _ ordered)

section Nonempty

variable (nonempty : tree.rangeStart < tree.rangeEnd)

include nonempty

theorem rangeWidth_pos : 0 < tree.rangeWidth := by
  rw [rangeWidth]
  omega

theorem leafRange_eq (leaf : ℕ) : tree.leafRange leaf =
      (tree.rangeStart + (leaf * tree.rangeWidth / tree.numLeaves : ℕ),
        tree.rangeStart + ((leaf + 1) * tree.rangeWidth / tree.numLeaves : ℕ)) := by
  rw [leafRange, if_neg (rangeWidth_pos nonempty).ne']
  dsimp only
  split_ifs with isLast
  · rw [isLast, edge_numLeaves]
  · rfl

theorem contains_leafRange_iff {leaf offset : ℕ} :
    Contains (tree.leafRange leaf) (tree.rangeStart + offset) ↔
      leaf * tree.rangeWidth / tree.numLeaves ≤ offset ∧
        offset < (leaf + 1) * tree.rangeWidth / tree.numLeaves := by
  rw [Contains, leafRange_eq nonempty]
  dsimp only
  omega

theorem covers_iff (token : ℤ) : Contains tree.range token ↔
      ∃ leaf < tree.numLeaves, Contains (tree.leafRange leaf) token := by
  constructor
  · intro contained
    obtain ⟨offset, inside, rfl⟩ := contains_range_iff.mp contained
    have starts : ∀ leaf, leaf * tree.rangeWidth / tree.numLeaves ≤ offset ↔
        leaf ≤ ((offset + 1) * tree.numLeaves - 1) / tree.rangeWidth := by
      intro leaf
      have some : 0 < (offset + 1) * tree.numLeaves := Nat.mul_pos offset.succ_pos numLeaves_pos
      rw [Nat.le_div_iff_mul_le (rangeWidth_pos nonempty), ← Nat.lt_add_one_iff,
        Nat.div_lt_iff_lt_mul numLeaves_pos]
      omega
    refine ⟨_, ?_, (contains_leafRange_iff nonempty).mpr ⟨(starts _).mpr le_rfl, ?_⟩⟩
    · by_contra beyond
      have reached := (starts tree.numLeaves).mpr (not_lt.mp beyond)
      rw [edge_numLeaves] at reached
      omega
    · by_contra beyond
      exact absurd ((starts _).mp (not_lt.mp beyond)) (by omega)
  · rintro ⟨leaf, isLeaf, contained⟩
    have ends : (leaf + 1) * tree.rangeWidth / tree.numLeaves ≤ tree.rangeWidth :=
      (edge_mono isLeaf).trans edge_numLeaves.le
    have width : (tree.rangeWidth : ℤ) = tree.rangeEnd - tree.rangeStart :=
      Int.toNat_of_nonneg (by omega)
    rw [leafRange_eq nonempty] at contained
    constructor
    · exact (Int.le_add_of_nonneg_right (Int.natCast_nonneg _)).trans contained.1
    · apply contained.2.trans_le
      dsimp only [range]
      omega

end Nonempty

theorem tokenToLeaf_offset {offset : ℕ} (inside : offset < tree.rangeWidth) :
    tree.tokenToLeaf (tree.rangeStart + offset) = offset * tree.numLeaves / tree.rangeWidth ∧
      offset * tree.numLeaves / tree.rangeWidth < tree.numLeaves := by
  have below : offset * tree.numLeaves / tree.rangeWidth < tree.numLeaves := by
    apply Nat.div_lt_of_lt_mul
    exact Nat.mul_lt_mul_of_pos_right inside numLeaves_pos
  refine ⟨?_, below⟩
  rw [tokenToLeaf, if_neg (by omega)]
  simp only [add_sub_cancel_left, Int.toNat_natCast]
  omega

theorem inLeaf_iff (nonempty : tree.rangeStart < tree.rangeEnd) :
    (∀ token, Contains tree.range token →
      Contains (tree.leafRange (tree.tokenToLeaf token)) token) ↔
      tree.numLeaves ∣ tree.rangeWidth := by
  simp only [contains_range_iff]
  constructor
  · intro inLeaf
    by_contra uneven
    have cut : tree.rangeWidth / tree.numLeaves * tree.numLeaves < tree.rangeWidth :=
      lt_of_le_of_ne (Nat.div_mul_le_self _ _) fun equal => uneven (Dvd.intro_left _ equal)
    have inside := lt_of_le_of_lt (Nat.le_mul_of_pos_right _ numLeaves_pos) cut
    have contained := inLeaf _ ⟨_, inside, rfl⟩
    rw [(tokenToLeaf_offset inside).1, contains_leafRange_iff nonempty, Nat.div_eq_of_lt cut,
      zero_add, one_mul] at contained
    exact lt_irrefl _ contained.2
  · rintro ⟨width, even⟩ _ ⟨offset, inside, rfl⟩
    have offsetLeaf : offset * tree.numLeaves / tree.rangeWidth = offset / width := by
      rw [even, Nat.mul_comm offset, Nat.mul_div_mul_left _ _ numLeaves_pos]
    have edge : ∀ leaf, leaf * tree.rangeWidth / tree.numLeaves = leaf * width := by
      intro leaf
      rw [even, Nat.mul_left_comm, Nat.mul_div_cancel_left _ numLeaves_pos]
    rw [(tokenToLeaf_offset inside).1, contains_leafRange_iff nonempty, offsetLeaf, edge, edge]
    have wide : 0 < width := Nat.pos_of_mul_pos_left (even ▸ rangeWidth_pos nonempty)
    exact ⟨Nat.div_mul_le_self _ _, (Nat.div_lt_iff_lt_mul wide).mp (Nat.lt_succ_self _)⟩

/-- Leaves of equal width name the tokens they sum, and only those do. -/
theorem namesTokens_iff (nonempty : tree.rangeStart < tree.rangeEnd) :
    tree.NamesTokens ↔ tree.numLeaves ∣ tree.rangeWidth := by
  rw [← inLeaf_iff nonempty]
  refine ⟨NamesTokens.inLeaf, fun inLeaf => ⟨inLeaf, ?_, covers_iff nonempty, ?_⟩⟩
  · intro first second ordered isLeaf
    rw [leafRange_eq nonempty, leafRange_eq nonempty]
    exact Int.add_le_add_left (Int.ofNat_le.mpr (edge_mono ordered)) _
  · intro hash left right sumsDiffer partition oneSided
    obtain ⟨offset, inside, placed⟩ := contains_range_iff.mp oneSided.1
    refine ⟨_, mem_divergentLeafRanges ?_ (sumsDiffer partition oneSided), inLeaf _ oneSided.1⟩
    rw [placed, (tokenToLeaf_offset inside).1]
    exact (tokenToLeaf_offset inside).2

theorem namesTokens_sixteenHundred : (new 4 0 1600).NamesTokens :=
  (namesTokens_iff (by decide)).mpr (by decide)

theorem not_namesTokens_three : ¬ (new 1 0 3).NamesTokens :=
  fun names => absurd (names.inLeaf 1 (by decide)) (by decide)

end MerkleTree

end Ferrosa.Cluster
