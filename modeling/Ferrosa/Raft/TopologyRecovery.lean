import Ferrosa.Cluster.TokenRing
import Ferrosa.Lib.FiniteMap
import Ferrosa.Lib.Runs

/-!
# The topology that is recovered from the Raft log

A node without a snapshot reads the members and the token map off its log.  The state machine has an
approval gate, gives tokens to a node that joins and takes none away, so the two agree only on
commands where none of that shows.
-/

namespace Ferrosa.Raft

open Cluster FiniteMap

structure MemberInfo extends NodeInfo where
  addr : String
  dataCenter : String
  rack : String
  cqlBroadcast : Option String

structure ClusterConfig where
  numTokens : ℕ
  autoJoin : Bool

inductive RaftOp where
  | joinNode (node : MemberInfo)
  | updateNodeInfo (node : MemberInfo)
  | leaveNode (nodeId : NodeId)
  | assignTokens (nodeId : NodeId) (tokens : List Token)
  | updateConfig (config : ClusterConfig)
  | approveNode (hostId : HostId)
  | setNodeState (nodeId : NodeId) (state : NodeState)

/-- The last eight bytes of the identifier, the least significant first. -/
def uuidToNodeId (hostId : HostId) : NodeId :=
  .ofNat ((List.range 8).map fun i => hostId.val / 256 ^ (7 - i) % 256 * 256 ^ i).sum

def generateDeterministicToken (nodeId : NodeId) (index : ℕ) : Token :=
  let h := nodeId * 0x517cc1b727220a95
  let h := (h ^^^ (.ofNat index * 0x6c62272e07bb0142)) * 0x2545F4914F6CDD1D
  (h ^^^ (h >>> 32)).toInt64

def deterministicTokensForNode (nodeId : NodeId) (numTokens : ℕ) : List Token :=
  (List.range numTokens).map (generateDeterministicToken nodeId)

structure TopologyState where
  members : FiniteMap NodeId MemberInfo
  tokenMap : FiniteMap Token NodeId

namespace TopologyState

variable (topology : TopologyState) (nodeId : NodeId)

def empty : TopologyState := ⟨∅, ∅⟩

def withoutTokensOf : FiniteMap Token NodeId :=
  retain topology.tokenMap fun token => topology.tokenMap.lookup token ≠ some nodeId

def assign (tokenMap : FiniteMap Token NodeId) (tokens : List Token) : FiniteMap Token NodeId :=
  tokens.foldl (fun map token => map.insert token nodeId) tokenMap

def leave : TopologyState := ⟨topology.members.erase nodeId, topology.withoutTokensOf nodeId⟩

def setNodeState (state : NodeState) : TopologyState :=
  { topology with members := modify topology.members nodeId fun node => { node with state } }

def recover : RaftOp → TopologyState
  | .joinNode node | .updateNodeInfo node =>
    { topology with members := topology.members.insert (uuidToNodeId node.hostId) node }
  | .leaveNode nodeId => topology.leave nodeId
  | .assignTokens nodeId tokens =>
    { topology with tokenMap := assign nodeId (topology.withoutTokensOf nodeId) tokens }
  | .setNodeState nodeId state => topology.setNodeState nodeId state
  | .updateConfig _ | .approveNode _ => topology

@[mk_iff]
structure Agrees (left right : TopologyState) : Prop where
  members : ∀ nodeId, left.members.lookup nodeId = right.members.lookup nodeId
  tokenMap : ∀ token, left.tokenMap.lookup token = right.tokenMap.lookup token

end TopologyState

open TopologyState

def recoverTopologyState (log : List RaftOp) : TopologyState := log.foldl recover .empty

structure RaftState extends TopologyState where
  config : ClusterConfig
  approvedNodes : List HostId

namespace RaftState

variable (raft : RaftState)

def new : RaftState := ⟨.empty, ⟨256, true⟩, []⟩

def admits (node : MemberInfo) : Bool := raft.config.autoJoin || node.hostId ∈ raft.approvedNodes

def ownTokens (node : MemberInfo) : List Token :=
  deterministicTokensForNode (uuidToNodeId node.hostId) raft.config.numTokens

def applyCommand : RaftOp → RaftState
  | .joinNode node =>
    let nodeId := uuidToNodeId node.hostId
    if raft.admits node then
      { raft with
        members := raft.members.insert nodeId node
        tokenMap := (raft.ownTokens node).foldl (fun map token => orInsert map token nodeId)
          raft.tokenMap }
    else raft
  | .updateNodeInfo node =>
    { raft with
      members := modify raft.members (uuidToNodeId node.hostId) fun existing =>
        { existing with
          addr := node.addr
          dataCenter := node.dataCenter
          rack := node.rack
          state := node.state
          cqlBroadcast := node.cqlBroadcast } }
  | .leaveNode nodeId => { raft with toTopologyState := raft.leave nodeId }
  | .assignTokens nodeId tokens =>
    { raft with tokenMap := assign nodeId raft.tokenMap tokens }
  | .updateConfig config => { raft with config }
  | .approveNode hostId => { raft with approvedNodes := raft.approvedNodes.insert hostId }
  | .setNodeState nodeId state => { raft with toTopologyState := raft.setNodeState nodeId state }

/-- A node that joins is admitted with its tokens, or known as it is; an updated node is known under
its host id; assigned tokens include those the node has. -/
def Plain : RaftOp → Prop
  | .joinNode node =>
    if raft.admits node then ∀ token ∈ raft.ownTokens node, (raft.tokenMap.lookup token).isSome
    else raft.members.lookup (uuidToNodeId node.hostId) = some node
  | .updateNodeInfo node =>
    (raft.members.lookup (uuidToNodeId node.hostId)).map (·.hostId) = some node.hostId
  | .assignTokens nodeId tokens =>
    ∀ token, raft.tokenMap.lookup token = some nodeId → token ∈ tokens
  | _ => True

end RaftState

open RaftState

variable {topology : TopologyState} {raft : RaftState} {log : List RaftOp}

theorem lookup_assign (nodeId : NodeId) (tokenMap : FiniteMap Token NodeId) (tokens : List Token)
    (token : Token) : (assign nodeId tokenMap tokens).lookup token =
      if token ∈ tokens then some nodeId else tokenMap.lookup token := by
  rw [assign]
  induction tokens generalizing tokenMap with
  | nil => simp
  | cons first tokens ih =>
    rw [List.foldl_cons, ih, lookup_insert_ite]
    grind

theorem lookup_foldl_orInsert (nodeId : NodeId) (tokenMap : FiniteMap Token NodeId)
    (tokens : List Token) (token : Token) :
    (tokens.foldl (fun map token => orInsert map token nodeId) tokenMap).lookup token =
      if token ∈ tokens then some ((tokenMap.lookup token).getD nodeId)
      else tokenMap.lookup token := by
  induction tokens generalizing tokenMap with
  | nil => simp
  | cons first tokens ih =>
    rw [List.foldl_cons, ih, lookup_orInsert]
    grind

theorem lookup_withoutTokensOf (nodeId : NodeId) (token : Token) :
    (topology.withoutTokensOf nodeId).lookup token =
      if topology.tokenMap.lookup token = some nodeId then none
      else topology.tokenMap.lookup token := by
  simp [withoutTokensOf, lookup_retain]

theorem agrees_recover_applyCommand_iff (agrees : topology.Agrees raft.toTopologyState)
    (op : RaftOp) :
    (topology.recover op).Agrees (raft.applyCommand op).toTopologyState ↔ raft.Plain op := by
  obtain ⟨members, tokenMap⟩ := agrees
  rw [applyCommand.eq_def, Plain.eq_def]
  cases op with
  | joinNode node =>
    dsimp only
    split_ifs
    all_goals
      simp only [agrees_iff, recover, lookup_insert_ite, lookup_foldl_orInsert, members, tokenMap]
      grind [Option.isSome_iff_exists, Option.getD]
  | updateNodeInfo node =>
    constructor
    · intro same
      have updated := same.members (uuidToNodeId node.hostId)
      simp only [recover, lookup_insert_ite, lookup_modify, if_true] at updated
      have hosts := congrArg (Option.map (·.hostId)) updated
      rw [Option.map_map] at hosts
      exact hosts.symm
    · intro known
      refine ⟨fun other => ?_, tokenMap⟩
      obtain ⟨existing, found, sameHost⟩ := Option.map_eq_some_iff.mp known
      simp only [recover, lookup_insert_ite, lookup_modify, members, found, Option.map_some,
        sameHost]
  | assignTokens nodeId tokens =>
    simp only [agrees_iff, recover, lookup_assign, lookup_withoutTokensOf, members, tokenMap]
    grind
  | _ =>
    simp [agrees_iff, recover, leave, setNodeState, lookup_erase_ite, lookup_withoutTokensOf,
      lookup_modify, members, tokenMap]

theorem agrees_foldl_iff (agrees : topology.Agrees raft.toTopologyState) :
    (∀ front back, front ++ back = log →
      (front.foldl recover topology).Agrees (front.foldl applyCommand raft).toTopologyState) ↔
      Runs.Throughout applyCommand Plain raft log := by
  induction log generalizing topology raft with
  | nil => simpa [Runs.Throughout] using agrees
  | cons op rest ih =>
    have step := agrees_recover_applyCommand_iff agrees op
    constructor
    · intro always
      have next := always [op] rest rfl
      exact ⟨step.mp next, (ih next).mp fun front back split =>
        always (op :: front) back (congrArg (op :: ·) split)⟩
    · rintro ⟨plain, later⟩ front back split
      cases front with
      | nil => exact agrees
      | cons first front =>
        obtain ⟨rfl, others⟩ := List.cons.inj split
        exact (ih (step.mpr plain)).mpr later front back others

/-- The recovered topology is the applied one after every beginning of the log. -/
theorem recovered_agrees_iff (log : List RaftOp) :
    (∀ front back, front ++ back = log → (recoverTopologyState front).Agrees
      (front.foldl applyCommand .new).toTopologyState) ↔
      Runs.Throughout applyCommand Plain .new log :=
  agrees_foldl_iff ⟨fun _ => rfl, fun _ => rfl⟩

def firstNode : MemberInfo := ⟨⟨1, .normal⟩, "10.0.0.1:7000", "dc1", "r1", none⟩

/-- The node is given 256 tokens when it joins, and none of them is in the log. -/
theorem not_agrees_firstJoin : ¬(recoverTopologyState [.joinNode firstNode]).Agrees
    ([.joinNode firstNode].foldl applyCommand .new).toTopologyState := by
  intro agrees
  have plain : RaftState.new.Plain (.joinNode firstNode) :=
    (agrees_recover_applyCommand_iff ⟨fun _ => rfl, fun _ => rfl⟩ _).mp agrees
  have known := plain _ (List.mem_map_of_mem (List.mem_range.mpr (by decide : 0 < 256)))
  cases known

end Ferrosa.Raft
