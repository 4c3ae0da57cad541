import Ferrosa.Accord.Quorums

/-!
# Quorums per shard

The keys of a transaction are grouped into shards by their sets of replicas, and
an acknowledgement counts in every shard that its node replicates.  Key by key,
the tracker then tells whether a slow quorum of the key's own replicas has
acknowledged.
-/

namespace Ferrosa.Accord

open List Function

abbrev ShardId := ℕ

structure ShardAcks (Node : Type*) where
  replicas : Finset Node
  acked : Finset Node

structure ShardQuorum (Node : Type*) where
  shards : List (ShardId × ShardAcks Node)

structure ParticipantSet (Node : Type*) where
  shards : List (ShardId × List Node)
  keyShard : List ShardId

variable {Node Key : Type*} [LinearOrder Node]

namespace ShardQuorum

/-- `none` is the panic without shards, or with a shard without replicas. -/
def new (participants : List (ShardId × List Node)) : Option (ShardQuorum Node) :=
  if participants = [] ∨ ∃ shard ∈ participants, shard.2 = [] then none
  else some ⟨participants.map fun shard => (shard.1, ⟨shard.2.toFinset, ∅⟩)⟩

def recordNodeAck (tracker : ShardQuorum Node) (node : Node) : ShardQuorum Node :=
  ⟨tracker.shards.map fun shard =>
    if node ∈ shard.2.replicas then
      (shard.1, { shard.2 with acked := insert node shard.2.acked })
    else shard⟩

def allReached (tracker : ShardQuorum Node) : Bool :=
  tracker.shards.all fun shard =>
    shard.2.acked.card ≥ slowQuorumSize shard.2.replicas.card

def unmet (tracker : ShardQuorum Node) : List ShardId :=
  ((tracker.shards.filter fun shard =>
    shard.2.acked.card < slowQuorumSize shard.2.replicas.card).map (·.1)).insertionSort (· ≤ ·)

end ShardQuorum

namespace ParticipantSet

/-- `sort` and then `dedup`, which drops an element that repeats the one before it. -/
def sortDedup {α : Type*} [LinearOrder α] (list : List α) : List α :=
  (list.insertionSort (· ≤ ·)).destutter (· ≠ ·)

def canonical (replicas : List Node) : List Node := sortDedup replicas

def fromCanonical (perKey : List (List Node)) : ParticipantSet Node :=
  let distinct := sortDedup perKey
  ⟨distinct.zipIdx.map Prod.swap, perKey.map distinct.idxOf⟩

/-- `none` is the panic without keys, or for a key without replicas. -/
def build (keys : List Key) (replicasOf : Key → List Node) : Option (ParticipantSet Node) :=
  let perKey := keys.map fun key => canonical (replicasOf key)
  if keys = [] ∨ [] ∈ perKey then none else some (fromCanonical perKey)

def fromPerKey (replicaSets : List (List Node)) : Option (ParticipantSet Node) :=
  build replicaSets id

def quorum (participants : ParticipantSet Node) : Option (ShardQuorum Node) :=
  ShardQuorum.new participants.shards

section

variable {α : Type*} [LinearOrder α] {list : List α} {a : α}

theorem sortDedup_eq : sortDedup list = (list.insertionSort (· ≤ ·)).dedup :=
  (pairwise_insertionSort (· ≤ ·) list).destutter_eq_dedup

theorem mem_sortDedup : a ∈ sortDedup list ↔ a ∈ list := by
  rw [sortDedup_eq, mem_dedup, mem_insertionSort]

theorem nodup_sortDedup (list : List α) : (sortDedup list).Nodup := by
  rw [sortDedup_eq]
  exact nodup_dedup _

end

end ParticipantSet

open ParticipantSet ShardQuorum

def QuorumAmong (acks replicas : List Node) : Prop :=
  slowQuorumSize replicas.toFinset.card ≤ (replicas.toFinset ∩ acks.toFinset).card

theorem quorumAmong_canonical (acks replicas : List Node) :
    QuorumAmong acks (canonical replicas) ↔ QuorumAmong acks replicas := by
  have same : (canonical replicas).toFinset = replicas.toFinset := by
    ext node
    rw [mem_toFinset, mem_toFinset, canonical, mem_sortDedup]
  rw [QuorumAmong, QuorumAmong, same]

theorem shards_foldl_recordNodeAck (acks : List Node) (tracker : ShardQuorum Node) :
    (acks.foldl recordNodeAck tracker).shards = tracker.shards.map fun shard =>
      (shard.1, ⟨shard.2.replicas, shard.2.acked ∪ (shard.2.replicas ∩ acks.toFinset)⟩) := by
  induction acks generalizing tracker with
  | nil => simp
  | cons node rest ih =>
    rw [foldl_cons, ih, recordNodeAck, map_map]
    apply map_congr_left
    intro shard _
    simp only [comp_apply, toFinset_cons]
    split_ifs with isReplica
    · rw [Finset.inter_insert_of_mem isReplica, Finset.insert_union, Finset.union_insert]
    · rw [Finset.inter_insert_of_notMem isReplica]

theorem tracked {sets : List (List Node)} {tracker : ShardQuorum Node} (acks : List Node)
    (isNew : ShardQuorum.new (sets.zipIdx.map Prod.swap) = some tracker) :
    ((acks.foldl recordNodeAck tracker).allReached ↔ ∀ set ∈ sets, QuorumAmong acks set) ∧
    (acks.foldl recordNodeAck tracker).unmet.Nodup ∧
    ∀ shard, shard ∈ (acks.foldl recordNodeAck tracker).unmet ↔
      ∃ set, sets[shard]? = some set ∧ ¬QuorumAmong acks set := by
  have shards : (acks.foldl recordNodeAck tracker).shards = sets.zipIdx.map fun entry =>
      (entry.2, ⟨entry.1.toFinset, entry.1.toFinset ∩ acks.toFinset⟩) := by
    rw [ShardQuorum.new, Option.ite_none_left_eq_some] at isNew
    rw [shards_foldl_recordNodeAck, ← Option.some.inj isNew.2]
    simp [comp_def]
  rw [allReached, unmet, shards]
  refine ⟨?_, ?_, fun shard => ?_⟩
  · simp only [all_map, all_eq_true, Prod.forall, mem_zipIdx_iff_getElem?,
      comp_apply, decide_eq_true_eq, QuorumAmong]
    constructor
    · intro all set member
      rcases mem_iff_getElem?.mp member with ⟨shard, found⟩
      exact all set shard found
    · exact fun all set shard found => all set (mem_of_getElem? found)
  · rw [(perm_insertionSort _ _).nodup_iff]
    refine List.Nodup.sublist (filter_sublist.map _) ?_
    rw [map_map]
    exact zipIdx_map_snd 0 sets ▸ nodup_range'
  · simp [mem_zipIdx_iff_getElem?, QuorumAmong]

end Ferrosa.Accord
