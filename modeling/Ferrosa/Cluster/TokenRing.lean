import Ferrosa.Lib.FirstDistinct
import Ferrosa.Lib.MachineOrder
import Ferrosa.Lib.SortedMap

/-!
# The token ring

Tokens are mapped to the nodes that own them.  The replicas of a token are the
first distinct eligible nodes met walking clockwise from it.
-/

namespace Ferrosa.Cluster

open FirstDistinct List

abbrev Token := Int64

abbrev NodeId := UInt64

abbrev HostId := Fin (2 ^ 128)

inductive NodeState where
  | joining
  | normal
  | leaving
  | decommissioned
  | learner (ownsTokens : Bool)
deriving DecidableEq, Repr

structure NodeInfo where
  hostId : HostId
  state : NodeState
deriving DecidableEq, Repr

structure TokenRing where
  ring : SortedMap Token NodeId
  nodes : SortedMap NodeId NodeInfo

def NodeState.isReplicaEligible : NodeState → Bool
  | .normal => true
  | .learner ownsTokens => ownsTokens
  | _ => false

namespace TokenRing

def new : TokenRing := ⟨SortedMap.empty, SortedMap.empty⟩

variable (ring : TokenRing) (nodeId : NodeId)

def addNode (info : NodeInfo) : TokenRing :=
  { ring with nodes := ring.nodes.insert nodeId info }

def assignTokens (tokens : List Token) : TokenRing :=
  { ring with ring := tokens.foldl (fun entries token => entries.insert token nodeId) ring.ring }

def getNode : Option NodeInfo :=
  ring.nodes.get? nodeId

def nodeIds : List NodeId := ring.nodes.keys

def tokensForNode : List Token :=
  (ring.ring.entries.filter (fun entry => entry.2 = nodeId)).map (·.1)

def isEligible : Bool :=
  (ring.getNode nodeId).any (fun info => info.state.isReplicaEligible)

/-- The walk of `replicas`: every node is looked at once, and the walk stops as soon as
`rf` replicas are found. -/
def collect (rf : Nat) : List NodeId → List NodeId → List NodeId → List NodeId
  | [], _, result => result
  | nodeId :: walk, seen, result =>
    if nodeId ∈ seen then collect rf walk seen result
    else if ring.isEligible nodeId then
      if rf ≤ (result ++ [nodeId]).length then result ++ [nodeId]
      else collect rf walk (nodeId :: seen) (result ++ [nodeId])
    else collect rf walk (nodeId :: seen) result

/-- The entries at or above the token, and then all of them again from the start. -/
def replicas (token : Token) (rf : Nat) : List NodeId :=
  ring.collect rf ((ring.ring.range token).map (·.2) ++ ring.ring.values) [] []

def eligibleEntries : List (Token × NodeId) :=
  ring.ring.entries.filter (fun entry => ring.isEligible entry.2)

theorem sorted_eligibleEntries :
    ring.eligibleEntries.Pairwise (fun left right => left.1 < right.1) :=
  ring.ring.sorted.filter _

/-- The eligible owners met clockwise from a token, once around the ring. -/
def clockwiseFrom (token : Token) : List NodeId :=
  ((ring.eligibleEntries.filter (fun entry => token ≤ entry.1)) ++
    (ring.eligibleEntries.filter (fun entry => entry.1 < token))).map (·.2)

/-- The eligible owners met clockwise strictly after a token, up to that token. -/
def clockwiseAfter (token : Token) : List NodeId :=
  ((ring.eligibleEntries.filter (fun entry => token < entry.1)) ++
    (ring.eligibleEntries.filter (fun entry => entry.1 < token))).map (·.2)

theorem collect_eq (rf : Nat) (walk seen result : List NodeId) (short : result.length < rf) :
    ring.collect rf walk seen result = result ++ firstDistinct (rf - result.length)
        (walk.filter (fun nodeId => !decide (nodeId ∈ seen) && ring.isEligible nodeId)) := by
  induction walk generalizing seen result with
  | nil => simp [collect, firstDistinct]
  | cons nodeId walk ih =>
    obtain ⟨missing, total⟩ : ∃ missing, rf - result.length = missing + 1 :=
      ⟨rf - result.length - 1, by omega⟩
    have forget : ∀ nodes : List NodeId,
        (nodes.filter (fun other => !decide (other ∈ seen) && ring.isEligible other)).filter
            (fun other => !other == nodeId) =
          nodes.filter
            (fun other => !decide (other ∈ nodeId :: seen) && ring.isEligible other) := by
      intro nodes
      rw [filter_filter]
      apply filter_congr
      intro other _
      by_cases same : other = nodeId <;> simp [same]
    unfold collect
    split_ifs with met eligible full
    · rw [ih seen result short]
      simp [met]
    · have last : missing = 0 := by
        simp only [length_append, length_singleton] at full
        omega
      rw [total, filter_cons_of_pos (by simp [met, eligible]), firstDistinct_cons, last]
      simp [firstDistinct]
    · have more : (result ++ [nodeId]).length < rf := by omega
      have fewer : rf - (result ++ [nodeId]).length = missing := by
        simp only [length_append, length_singleton]
        omega
      rw [ih (nodeId :: seen) (result ++ [nodeId]) more, fewer, total,
        filter_cons_of_pos (by simp [met, eligible]), firstDistinct_cons, forget]
      simp
    · rw [ih (nodeId :: seen) result short, filter_cons_of_neg (by simp [eligible])]
      congr 2
      apply filter_congr
      intro other _
      by_cases same : other = nodeId
      · simp [same, eligible]
      · simp [same]

/-- The replicas of a token are the first `rf` distinct eligible owners clockwise from it. -/
theorem replicas_eq (token : Token) {rf : Nat} (positive : 1 ≤ rf) :
    ring.replicas token rf = firstDistinct rf (ring.clockwiseFrom token) := by
  have walkEq : ((ring.ring.range token).map (·.2) ++ ring.ring.values).filter
        (fun nodeId => !decide (nodeId ∈ ([] : List NodeId)) && ring.isEligible nodeId) =
      (ring.eligibleEntries.filter (fun entry => token ≤ entry.1)).map (·.2) ++
        ring.eligibleEntries.map (·.2) := by
    rw [filter_append, SortedMap.values, SortedMap.range, filter_map, filter_map,
      eligibleEntries, filter_filter, filter_filter]
    congr 3
    funext entry
    simp [Bool.and_comm]
  have around : ring.eligibleEntries.map (·.2) =
      (ring.eligibleEntries.filter (fun entry => entry.1 < token)).map (·.2) ++
        (ring.eligibleEntries.filter (fun entry => token ≤ entry.1)).map (·.2) := by
    rw [← map_append, filter_lt_append_filter_ge token ring.sorted_eligibleEntries]
  have short : ([] : List NodeId).length < rf := positive
  rw [replicas, collect_eq ring rf _ _ _ short, walkEq, around, firstDistinct_wrap,
    clockwiseFrom, map_append]
  rfl

theorem isEligible_of_mem_replicas {ring : TokenRing} {token : Token} {rf : Nat}
    (positive : 1 ≤ rf) {nodeId : NodeId} (replica : nodeId ∈ ring.replicas token rf) :
    ring.isEligible nodeId := by
  rw [replicas_eq ring token positive] at replica
  obtain ⟨entry, visited, rfl⟩ := mem_map.mp (mem_of_mem_firstDistinct replica)
  have eligible : entry ∈ ring.eligibleEntries := by
    rcases mem_append.mp visited with above | below
    · exact mem_of_mem_filter above
    · exact mem_of_mem_filter below
  simpa using (mem_filter.mp eligible).2

section Move

variable {ring : TokenRing} {low high : Token}

theorem clockwiseFrom_eq_of_free (ordered : low ≤ high)
    (free : ∀ entry ∈ ring.eligibleEntries, low ≤ entry.1 → high ≤ entry.1) :
    ring.clockwiseFrom low = ring.clockwiseFrom high := by
  have above : ∀ entry ∈ ring.eligibleEntries, (low ≤ entry.1) ↔ (high ≤ entry.1) :=
    fun entry eligible => ⟨free entry eligible, ordered.trans⟩
  unfold clockwiseFrom
  congr 2
  · apply filter_congr
    intro entry eligible
    simp [above entry eligible]
  · apply filter_congr
    intro entry eligible
    simp only [← not_le, above entry eligible]

variable {entry : Token × NodeId}

theorem clockwiseFrom_entry (eligible : entry ∈ ring.eligibleEntries) :
    ring.clockwiseFrom entry.1 = entry.2 :: ring.clockwiseAfter entry.1 := by
  rw [clockwiseFrom, clockwiseAfter, filter_ge_eq_cons ring.sorted_eligibleEntries eligible]
  rfl

theorem clockwiseFrom_past (eligible : entry ∈ ring.eligibleEntries) (past : entry.1 < high)
    (free : ∀ other ∈ ring.eligibleEntries, entry.1 < other.1 → high ≤ other.1) :
    ring.clockwiseFrom high = ring.clockwiseAfter entry.1 ++ [entry.2] := by
  have above : ring.eligibleEntries.filter (fun other => high ≤ other.1) =
      ring.eligibleEntries.filter (fun other => entry.1 < other.1) := by
    apply filter_congr
    intro other member
    simp only [decide_eq_decide]
    exact ⟨past.trans_le, free other member⟩
  have below : ring.eligibleEntries.filter (fun other => other.1 < high) =
      ring.eligibleEntries.filter (fun other => other.1 < entry.1) ++ [entry] := by
    rw [← filter_le_eq_concat ring.sorted_eligibleEntries eligible]
    apply filter_congr
    intro other member
    simp only [decide_eq_decide]
    constructor
    · intro before
      by_contra after
      exact absurd before (not_lt.mpr (free other member (not_le.mp after)))
    · exact fun atMost => atMost.trans_lt past
  rw [clockwiseFrom, clockwiseAfter, above, below]
  simp

end Move

end TokenRing

end Ferrosa.Cluster
