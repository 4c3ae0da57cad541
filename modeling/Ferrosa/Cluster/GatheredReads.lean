import Ferrosa.Cluster.QuorumRead

/-!
# What a quorum read has gathered

At any moment at most one replica is asked for the data, and none once it has arrived.  So the
replicas counted towards the level are the one the data came from and those whose digests are
kept, and every answer kept is what its replica gives.
-/

namespace Ferrosa.Cluster

open Storage List Option

def ReplicaRead.ofFull : ReplicaRead → Bool
  | full _ _ => true
  | digest _ _ _ => false
  | failed wasFull => wasFull

namespace Gathering

def counted (gathering : Gathering) : List NodeId :=
  (gathering.full.map (·.replica)).toList ++ gathering.digests.map (·.replica)

section Invariant

variable (crc : Bytes → UInt32) (attempt : NodeId → Bool → Bool → ReplicaRead)

structure Recorded (gathering : Gathering) : Prop where
  inFlight : gathering.fanOut.countP (·.2) = gathering.fullInFlight.toNat
  onlyOne : gathering.full.isSome → gathering.fullInFlight = false
  responders : ∀ replica, replica ∈ gathering.responders ↔ replica ∈ gathering.counted
  full : ∀ read ∈ gathering.full, read.digest = read.partition.map (computePartitionDigest crc) ∧
      ∃ answered, attempt read.replica true answered = .full read.partition read.hostId
  digests : ∀ read ∈ gathering.digests, ∃ answered,
    attempt read.replica false answered = .digest read.digest read.timestamp read.hostId

end Invariant

variable {crc : Bytes → UInt32} {satisfied : List NodeId → Bool}
  {attempt : NodeId → Bool → Bool → ReplicaRead} {gathering : Gathering}

/-- What recording any attempt and launching a spare keep, the loop keeps. -/
theorem run_induction {motive : Gathering → Prop}
    (record : ∀ (gathering : Gathering) position (launched : NodeId × Bool) answered,
      motive gathering → gathering.fanOut[position]? = some launched →
      motive ({ gathering with fanOut := gathering.fanOut.eraseIdx position }.record crc launched.1
        (attempt launched.1 launched.2 answered)))
    (spare : ∀ gathering : Gathering, motive gathering → motive gathering.launchSpare)
    (start : motive gathering) {completions : List Completion} {last : Gathering}
    (ran : run crc satisfied attempt completions gathering = some last) : motive last := by
  induction completions generalizing gathering with
  | nil =>
    simp only [run, ite_none_right_eq_some, Option.some.injEq] at ran
    exact ran.2 ▸ start
  | cons completion completions ih =>
    rw [run] at ran
    split_ifs at ran
    · exact Option.some.inj ran ▸ start
    · rcases bind_eq_some_iff.mp ran with ⟨next, step, later⟩
      rcases map_eq_some_iff.mp step with ⟨launched, isLaunched, rfl⟩
      have after := record _ _ _ completion.answered start isLaunched
      refine ih ?_ later
      simp only
      split_ifs
      · exact spare _ after
      · exact after

theorem recorded_launch (required : ℕ) (first : NodeId) (rest : List NodeId) :
    (launch required first rest).Recorded crc attempt := by
  constructor
  · have noOther : ((rest.take (required - 1)).map (·, false)).countP (·.2) = 0 := by
      rw [countP_map]
      simp [Function.comp_def]
    rw [launch, countP_cons, noOther]
    rfl
  · simp [launch]
  · simp [launch, counted]
  · simp [launch]
  · simp [launch]

namespace Recorded

theorem launchSpare (recorded : gathering.Recorded crc attempt) :
    gathering.launchSpare.Recorded crc attempt := by
  unfold Gathering.launchSpare
  split
  · exact recorded
  · rename_i candidate candidates _
    constructor
    · cases missing : gathering.full.isNone <;> cases inFlight : gathering.fullInFlight <;>
        simp [recorded.inFlight, countP_append, inFlight]
    · intro arrived
      have absent : gathering.full.isNone = false := by simpa using arrived
      simp [absent, recorded.onlyOne arrived]
    · exact recorded.responders
    · exact recorded.full
    · exact recorded.digests

section Record

variable {position : ℕ} {launched : NodeId × Bool}

theorem countP_eraseIdx (isLaunched : gathering.fanOut[position]? = some launched) :
    gathering.fanOut.countP (·.2) =
      (gathering.fanOut.eraseIdx position).countP (·.2) + launched.2.toNat := by
  rcases List.getElem?_eq_some_iff.mp isLaunched with ⟨inRange, rfl⟩
  have perm := List.getElem_cons_eraseIdx_perm inRange
  rw [← perm.countP_eq, List.countP_cons]
  cases gathering.fanOut[position].2 <;> rfl

variable (recorded : gathering.Recorded crc attempt)
  (isLaunched : gathering.fanOut[position]? = some launched)

include recorded isLaunched

theorem record {answered : Bool}
    (asked : (attempt launched.1 launched.2 answered).ofFull = launched.2) :
    ({ gathering with fanOut := gathering.fanOut.eraseIdx position }.record crc launched.1
      (attempt launched.1 launched.2 answered)).Recorded crc attempt := by
  have erased := recorded.inFlight.symm.trans (countP_eraseIdx isLaunched)
  rcases launched with ⟨replica, full⟩
  simp only at asked erased ⊢
  cases result : attempt replica full answered with
  | full partition hostId =>
    obtain rfl : full = true := by simpa [result, ReplicaRead.ofFull] using asked.symm
    have inFlight : gathering.fullInFlight = true := by
      by_contra landed
      rw [Bool.not_eq_true] at landed
      simp [landed] at erased
    have absent : gathering.full = none := by
      rw [← not_isSome_iff_eq_none]
      intro arrived
      simp [recorded.onlyOne arrived] at inFlight
    constructor
    · simpa [Gathering.record, inFlight] using erased.symm
    · simp [Gathering.record]
    · intro other
      simp [Gathering.record, counted, recorded.responders, absent]
    · rintro read ⟨⟩
      exact ⟨rfl, answered, result⟩
    · exact recorded.digests
  | digest digest timestamp hostId =>
    obtain rfl : full = false := by simpa [result, ReplicaRead.ofFull] using asked.symm
    constructor
    · simpa [Gathering.record] using erased.symm
    · exact recorded.onlyOne
    · intro other
      simp only [Gathering.record, mem_insert_iff, recorded.responders, counted,
        map_append, mem_append, map_cons, map_nil, mem_singleton]
      tauto
    · exact recorded.full
    · exact forall_mem_append.mpr ⟨recorded.digests, forall_mem_singleton.mpr ⟨answered, result⟩⟩
  | failed wasFull =>
    obtain rfl : wasFull = full := by simpa [result, ReplicaRead.ofFull] using asked
    constructor
    · cases wasFull <;> cases inFlight : gathering.fullInFlight <;>
        simp_all [Gathering.record]
    · intro arrived
      simp [Gathering.record, recorded.onlyOne arrived]
    · exact recorded.responders
    · exact recorded.full
    · exact recorded.digests

end Record

variable (asked : ∀ replica full answered, (attempt replica full answered).ofFull = full)

include asked

theorem run (recorded : gathering.Recorded crc attempt) {completions : List Completion}
    {last : Gathering}
    (ran : Gathering.run crc satisfied attempt completions gathering = some last) :
    last.Recorded crc attempt :=
  run_induction (motive := Gathering.Recorded crc attempt)
    (fun _ _ _ _ before isLaunched => before.record isLaunched (asked _ _ _))
    (fun _ before => before.launchSpare) recorded ran

end Recorded

/-- Only allowed replicas are asked, and each counts once. -/
structure Within (allowed : List NodeId) (gathering : Gathering) : Prop where
  candidates : gathering.candidates ⊆ allowed
  fanOut : ∀ launched ∈ gathering.fanOut, launched.1 ∈ allowed
  responders : gathering.responders ⊆ allowed
  nodup : gathering.responders.Nodup

variable {allowed : List NodeId}

theorem within_launch (required : ℕ) (first : NodeId) (rest : List NodeId) :
    (launch required first rest).Within (first :: rest) := by
  refine ⟨fun _ spare => mem_cons_of_mem _ (mem_of_mem_drop spare), ?_, nil_subset _, nodup_nil⟩
  rintro launched (_ | ⟨_, digest⟩)
  · exact mem_cons_self
  · rcases mem_map.mp digest with ⟨replica, taken, rfl⟩
    exact mem_cons_of_mem _ (mem_of_mem_take taken)

namespace Within

theorem record (within : gathering.Within allowed) {replica : NodeId}
    (isAllowed : replica ∈ allowed) (result : ReplicaRead) :
    (gathering.record crc replica result).Within allowed := by
  have inserted : gathering.responders.insert replica ⊆ allowed := by
    intro other present
    rcases mem_insert_iff.mp present with rfl | earlier
    · exact isAllowed
    · exact within.responders earlier
  cases result with
  | full => exact ⟨within.candidates, within.fanOut, inserted, within.nodup.insert⟩
  | digest => exact ⟨within.candidates, within.fanOut, inserted, within.nodup.insert⟩
  | failed => exact ⟨within.candidates, within.fanOut, within.responders, within.nodup⟩

theorem launchSpare (within : gathering.Within allowed) : gathering.launchSpare.Within allowed := by
  unfold Gathering.launchSpare
  split
  · exact within
  · rename_i candidate candidates isNext
    rcases cons_subset.mp (isNext ▸ within.candidates) with ⟨isAllowed, others⟩
    exact ⟨others, forall_mem_append.mpr ⟨within.fanOut, forall_mem_singleton.mpr isAllowed⟩,
      within.responders, within.nodup⟩

theorem run (within : gathering.Within allowed) {completions : List Completion} {last : Gathering}
    (ran : Gathering.run crc satisfied attempt completions gathering = some last) :
    last.Within allowed := by
  refine run_induction (motive := Gathering.Within allowed) ?_
    (fun _ before => before.launchSpare) within ran
  intro gathering position launched answered before isLaunched
  apply record
  · exact ⟨before.candidates, fun other kept => before.fanOut other (mem_of_mem_eraseIdx kept),
      before.responders, before.nodup⟩
  · exact before.fanOut launched (mem_of_getElem? isLaunched)

end Within

end Gathering

namespace Coordinator

variable {coordinator : Coordinator} {crc : Bytes → UInt32} {token : Bytes → Int64}
  {stores : HostId → StoreView} {key : DecoratedKey} {slice : PartitionReadSlice}

section Answered

variable (coordinator crc token stores key slice)

structure Answered (reads : QuorumReads) : Prop where
  full : coordinator.fullReadAttempt crc token stores key slice reads.full.replica =
    .full reads.full.partition reads.full.hostId
  fullDigest : reads.full.digest = reads.full.partition.map (computePartitionDigest crc)
  digests : ∀ read ∈ reads.digests,
    coordinator.digestReadAttempt crc token stores key slice read.replica =
      .digest read.digest read.timestamp read.hostId

end Answered

theorem ofFull_replicaReadAttempt (replica : NodeId) (full answered : Bool) :
    (coordinator.replicaReadAttempt crc token stores key slice replica full answered).ofFull =
      full := by
  unfold replicaReadAttempt fullReadAttempt digestReadAttempt
  cases answered with
  | false => rfl
  | true =>
    cases full with
    | true =>
      simp only [Bool.not_true, Bool.false_eq_true, if_false, if_true]
      split_ifs
      · rfl
      · split <;> rfl
    | false =>
      simp only [Bool.not_true, Bool.false_eq_true, if_false]
      split_ifs
      · split <;> rfl
      · split <;> rfl

theorem replicaReadAttempt_eq_of_not_failed {replica : NodeId} {full answered : Bool}
    {result : ReplicaRead} (notFailed : result.isFailed = false)
    (attempted : coordinator.replicaReadAttempt crc token stores key slice replica full answered =
      result) :
    (if full then coordinator.fullReadAttempt crc token stores key slice replica
      else coordinator.digestReadAttempt crc token stores key slice replica) = result := by
  cases answered with
  | false =>
    subst attempted
    simp [replicaReadAttempt, ReplicaRead.isFailed] at notFailed
  | true => exact attempted

/-- The replicas counted towards the level are planned ones, meet it, and their answers are their
own. -/
theorem gatherQuorumReads_spec {network : Network} {level : ConsistencyLevel}
    {requirement : ReadQuorumRequirement} {candidates : List NodeId} {reads : QuorumReads}
    (gathered : coordinator.gatherQuorumReads crc token stores key slice network level requirement
      candidates = some (.ok reads)) :
    coordinator.Answered crc token stores key slice reads ∧
      ∃ responders, (∀ replica, replica ∈ responders ↔ replica ∈ reads.counted) ∧
        responders.Nodup ∧ responders ⊆ (requirement.plan coordinator.ring level candidates).2 ∧
        (requirement.progress coordinator.ring level
          (requirement.plan coordinator.ring level candidates).1 responders).satisfied := by
  unfold gatherQuorumReads at gathered
  simp only at gathered
  split at gathered
  · simp at gathered
  · rename_i first rest planned
    rcases map_eq_some_iff.mp gathered with ⟨last, ran, ended⟩
    have within := (Gathering.within_launch _ first rest).run ran
    have recorded := (Gathering.recorded_launch _ first rest).run ofFull_replicaReadAttempt ran
    cases arrived : last.full with
    | none => simp [arrived] at ended
    | some full =>
      rw [arrived] at ended
      simp only at ended
      split_ifs at ended with meets
      obtain rfl := Except.ok.inj ended
      rcases recorded.full full arrived with ⟨fullDigest, answered, attempted⟩
      refine ⟨⟨?_, fullDigest, ?_⟩, last.responders, ?_, within.nodup,
        planned ▸ within.responders, meets⟩
      · exact replicaReadAttempt_eq_of_not_failed rfl attempted
      · intro read present
        rcases recorded.digests read present with ⟨answered, attempted⟩
        exact replicaReadAttempt_eq_of_not_failed rfl attempted
      · intro replica
        rw [recorded.responders, Gathering.counted, arrived]
        rfl

end Coordinator

end Ferrosa.Cluster
