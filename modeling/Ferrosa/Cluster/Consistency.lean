import Ferrosa.Lib.FiniteMap

/-!
# Consistency levels and their progress

What a request has to hear from how many replicas: `block_for` and `block_for_dc`, the
progress of `dc_quorum`, and the progress a read is held to.  Schema validation reads
every factor as a non-negative `i32`, so factors and their sums are natural numbers.
-/

namespace Ferrosa.Cluster

abbrev DataCenter := String

inductive ConsistencyLevel where
  | one
  | two
  | three
  | quorum
  | all
  | localOne
  | localQuorum
  | eachQuorum
  | serial
  | localSerial
  | dcQuorum
deriving DecidableEq, Repr

namespace ConsistencyLevel

def blockFor (level : ConsistencyLevel) (rf : ℕ) : ℕ :=
  match level with
  | one | localOne => 1
  | two => min 2 rf
  | three => min 3 rf
  | quorum | localQuorum | serial | dcQuorum => rf / 2 + 1
  | localSerial => rf / 2 + 1
  | all => rf
  | eachQuorum => rf / 2 + 1

def blockForDc (level : ConsistencyLevel) (dcRf : ℕ) : ℕ :=
  match level with
  | eachQuorum | localQuorum | localSerial | dcQuorum => dcRf / 2 + 1
  | _ => level.blockFor dcRf

end ConsistencyLevel

inductive ReplicationStrategy where
  | simple (replicationFactor : ℕ)
  | networkTopology (dcRf : FiniteMap DataCenter ℕ)

namespace ReplicationStrategy

def replicationFactor : ReplicationStrategy → ℕ
  | simple replicationFactor => replicationFactor
  | networkTopology dcRf => (dcRf.entries.map (·.2)).sum

def dcReplicationFactors : ReplicationStrategy → FiniteMap DataCenter ℕ
  | simple _ => ∅
  | networkTopology dcRf => dcRf

def configuredFactor (strategy : ReplicationStrategy) (dc : DataCenter) : Option ℕ :=
  (strategy.dcReplicationFactors.lookup dc).filter (0 < ·)

def configured (strategy : ReplicationStrategy) : List (Sigma fun _ : DataCenter => ℕ) :=
  strategy.dcReplicationFactors.entries.filter fun entry => 0 < entry.2

end ReplicationStrategy

structure Progress where
  required : ℕ
  received : ℕ
deriving DecidableEq, Repr

namespace Progress

def satisfied (progress : Progress) : Bool :=
  0 < progress.required && progress.required ≤ progress.received

/-- The obligation no reply can meet. -/
def unavailable : Progress := ⟨1, 0⟩

end Progress

namespace DcQuorum

open ReplicationStrategy

variable (level : ConsistencyLevel) (strategy : ReplicationStrategy) (origin : DataCenter)
  (total : ℕ) (countInDc : DataCenter → ℕ)

def localProgress : Progress :=
  match strategy.configuredFactor origin with
  | none => .unavailable
  | some rf => { required := rf / 2 + 1, received := countInDc origin }

def dcVotes : ℕ :=
  strategy.dcReplicationFactors.entries.countP
    fun entry => 0 < entry.2 && entry.2 / 2 < countInDc entry.1

def dcQuorumProgress : Progress :=
  match strategy.configuredFactor origin with
  | none => .unavailable
  | some originRf =>
    let originProgress : Progress :=
      { required := originRf / 2 + 1, received := countInDc origin }
    if !originProgress.satisfied then originProgress
    else
      let configuredDcs :=
        strategy.dcReplicationFactors.entries.countP fun entry => 0 < entry.2
      let dcProgress : Progress :=
        { required := configuredDcs / 2 + 1, received := dcVotes strategy countInDc }
      if !dcProgress.satisfied then dcProgress
      else
        { required := (strategy.configured.map (·.2)).sum / 2 + 1, received := total }

def localLevelProgress : Progress :=
  match strategy.configuredFactor origin with
  | none => .unavailable
  | some rf => { required := level.blockForDc rf, received := countInDc origin }

def eachQuorumProgress : Progress :=
  let required := (strategy.configured.map fun entry => entry.2 / 2 + 1).sum
  if required = 0 then .unavailable
  else
    { required
      received :=
        (strategy.configured.map fun entry => min (countInDc entry.1) (entry.2 / 2 + 1)).sum }

def totalProgress : Progress :=
  let rf := strategy.replicationFactor
  if rf = 0 then .unavailable
  else
    { required :=
        match level with
        | .two => 2
        | .three => 3
        | _ => level.blockFor rf
      received := total }

/-- The first unmet obligation of a request: counts of distinct replies, not of contacts. -/
def progress : Progress :=
  match level with
  | .dcQuorum =>
    if strategy.dcReplicationFactors.entries.isEmpty then totalProgress level strategy total
    else dcQuorumProgress strategy origin total countInDc
  | .localQuorum | .localOne | .localSerial =>
    localLevelProgress level strategy origin countInDc
  | .eachQuorum => eachQuorumProgress strategy countInDc
  | _ => totalProgress level strategy total

end DcQuorum

def readQuorumProgress (level : ConsistencyLevel) (strategy : ReplicationStrategy)
    (origin : DataCenter) (total : ℕ) (countInDc : DataCenter → ℕ) : Progress :=
  match level, strategy with
  | .dcQuorum, .simple replicationFactor =>
    { required := ConsistencyLevel.dcQuorum.blockForDc replicationFactor
      received := countInDc origin }
  | .dcQuorum, .networkTopology _ => DcQuorum.localProgress strategy origin countInDc
  | .localQuorum, .simple _ =>
    { required := ConsistencyLevel.localQuorum.blockForDc 1, received := total }
  | .localOne, .simple _ =>
    { required := ConsistencyLevel.localOne.blockForDc 1, received := total }
  | _, .simple _ => { required := level.blockFor strategy.replicationFactor, received := total }
  | _, .networkTopology _ => DcQuorum.progress level strategy origin total countInDc

end Ferrosa.Cluster
