import Ferrosa.Cluster.Consistency
import Ferrosa.Cluster.TokenRing

/-!
# Replicas under a replication strategy

`SimpleStrategy` takes the first nodes of the walk around the ring.  The network topology
strategy fills a quota per data center on the same walk and prefers racks it has not met: a
node of a rack met before waits until every rack of its data center has been met.
-/

namespace Ferrosa.Cluster

abbrev Rack := String

structure PlacedRing extends TokenRing where
  dataCenter : NodeId → DataCenter
  rack : NodeId → Rack

/-- The state of the walk; the waiting nodes are those whose rack was met before. -/
structure TopologyWalk where
  result : List NodeId
  seen : List NodeId
  needed : DataCenter → ℕ
  seenRacks : DataCenter → List Rack
  skipped : DataCenter → List NodeId

namespace TopologyWalk

variable (ring : PlacedRing) (dcRf : FiniteMap DataCenter ℕ)

def start : TopologyWalk where
  result := []
  seen := []
  needed := fun dc => (dcRf.lookup dc).getD 0
  seenRacks := fun _ => []
  skipped := fun _ => []

def rackCount (dc : DataCenter) : ℕ :=
  ((ring.nodeIds.filter (ring.dataCenter · = dc)).map ring.rack).dedup.length

variable (walk : TopologyWalk)

def allFilled : Bool := dcRf.entries.all fun entry => walk.needed entry.1 = 0

def drain (dc : DataCenter) : TopologyWalk :=
  { walk with
    result := walk.result ++ (walk.skipped dc).take (walk.needed dc)
    needed := Function.update walk.needed dc (walk.needed dc - (walk.skipped dc).length)
    skipped := Function.update walk.skipped dc ((walk.skipped dc).drop (walk.needed dc)) }

def accept (node : NodeId) : TopologyWalk :=
  let dc := ring.dataCenter node
  let taken :=
    { walk with
      result := walk.result ++ [node]
      needed := Function.update walk.needed dc (walk.needed dc - 1) }
  if (taken.seenRacks dc).length = rackCount ring dc then taken.drain dc else taken

def visit (node : NodeId) : TopologyWalk :=
  let dc := ring.dataCenter node
  let rack := ring.rack node
  if !ring.isEligible node || walk.needed dc = 0 then walk
  else if (walk.seenRacks dc).length < rackCount ring dc then
    if rack ∈ walk.seenRacks dc then
      { walk with skipped := Function.update walk.skipped dc (walk.skipped dc ++ [node]) }
    else
      { walk with
        seenRacks := Function.update walk.seenRacks dc (rack :: walk.seenRacks dc) }.accept
          ring node
  else walk.accept ring node

def step (node : NodeId) : TopologyWalk :=
  if walk.allFilled dcRf || node ∈ walk.seen then walk
  else { walk with seen := node :: walk.seen }.visit ring node

end TopologyWalk

namespace PlacedRing

variable (ring : PlacedRing)

def ntsReplicas (token : Token) (dcRf : FiniteMap DataCenter ℕ) : List NodeId :=
  let clockwise := (ring.ring.entries.filter (fun entry => token ≤ entry.1) ++
    ring.ring.entries.filter (fun entry => entry.1 < token)).map (·.2)
  let walked := clockwise.foldl (TopologyWalk.step ring dcRf) (TopologyWalk.start dcRf)
  (dcRf.entries.foldl (fun walk entry => walk.drain entry.1) walked).result

def replicasForStrategy (token : Token) : ReplicationStrategy → List NodeId
  | .simple replicationFactor => ring.replicas token replicationFactor
  | .networkTopology dcRf => ring.ntsReplicas token dcRf

end PlacedRing

end Ferrosa.Cluster
