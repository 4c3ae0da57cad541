import Ferrosa.Accord.Quorums
import Ferrosa.Accord.Types
import Ferrosa.Lib.Runs

/-!
# The decisions of a coordinator

The coordinator of a transaction counts one vote of each replica. PreAcceptOKs that agree commit on
the fast path, others lead to a proposal, which commits once a slow quorum has accepted it. An
AcceptOK that is neither expected nor repeated makes the coordinator panic.
-/

namespace Ferrosa.Accord

open List

structure PreAcceptResponse where
  from_ : NodeId
  t : Timestamp
  deps : List TxnId

structure AcceptResponse where
  from_ : NodeId
  ballot : BallotNumber
  deps : List TxnId

inductive CoordinatorPhase where
  | preAccepting
  | fastPathCommit
  | accepting
  | slowPathCommit
  | committed
  deriving DecidableEq

inductive CoordinatorDecision where
  | pending
  | fastPathCommit (t : Timestamp) (deps : Finset TxnId)
  | needAccept (t : Timestamp) (deps : Finset TxnId)
  | slowPathCommit (t : Timestamp) (deps : Finset TxnId)
  deriving DecidableEq

def CoordinatorDecision.isCommit : CoordinatorDecision → Bool
  | .fastPathCommit .. | .slowPathCommit .. => true
  | _ => false

/-- A replication factor of zero is refused by an assertion. The sets of responders have the
senders of the responses. -/
structure AccordCoordinator where
  t0 : Timestamp
  rf : ℕ+
  phase : CoordinatorPhase
  preacceptResponses : List PreAcceptResponse
  acceptResponses : List AcceptResponse
  mergedT : Timestamp
  mergedDeps : Finset TxnId

inductive CoordinatorCall where
  | preacceptOk (response : PreAcceptResponse)
  | finalizePreaccept
  | acceptOk (response : AcceptResponse)

namespace AccordCoordinator

/-- The leaseholder votes for `t0` itself. -/
def new (t0 : Timestamp) (nodeId : NodeId) (rf : ℕ+) (isLeaseholder : Bool) :
    AccordCoordinator where
  t0
  rf
  phase := .preAccepting
  preacceptResponses := if isLeaseholder then [⟨nodeId, t0, []⟩] else []
  acceptResponses := []
  mergedT := t0
  mergedDeps := ∅

variable (coordinator : AccordCoordinator)

def preacceptResponders : List NodeId := coordinator.preacceptResponses.map (·.from_)

def acceptResponders : List NodeId := coordinator.acceptResponses.map (·.from_)

def depsMatchT0 (deps : List TxnId) : Bool :=
  match coordinator.preacceptResponses with
  | [] => deps.isEmpty
  | first :: _ => first.deps.toFinset = deps.toFinset

def countPreaccept (response : PreAcceptResponse) : AccordCoordinator :=
  { coordinator with
    preacceptResponses := coordinator.preacceptResponses ++ [response]
    mergedT := if coordinator.mergedT < response.t then response.t else coordinator.mergedT
    mergedDeps := coordinator.mergedDeps ∪ response.deps.toFinset }

def Agrees (vote : PreAcceptResponse) : Prop :=
  vote.t = coordinator.t0 ∧ coordinator.depsMatchT0 vote.deps
  deriving Decidable

def propose : CoordinatorDecision × AccordCoordinator :=
  (.needAccept coordinator.mergedT coordinator.mergedDeps, { coordinator with phase := .accepting })

def decidePreaccept : CoordinatorDecision × AccordCoordinator :=
  if fastQuorumSize coordinator.rf ≤ coordinator.preacceptResponses.length ∧
      ∀ vote ∈ coordinator.preacceptResponses, coordinator.Agrees vote then
    (.fastPathCommit coordinator.t0 coordinator.mergedDeps,
      { coordinator with phase := .fastPathCommit })
  else if slowQuorumSize coordinator.rf ≤ coordinator.preacceptResponses.length ∧
      ∃ vote ∈ coordinator.preacceptResponses, ¬coordinator.Agrees vote then
    coordinator.propose
  else (.pending, coordinator)

def handlePreacceptOk (response : PreAcceptResponse) : CoordinatorDecision × AccordCoordinator :=
  if response.from_ ∈ coordinator.preacceptResponders ∨ coordinator.phase ≠ .preAccepting then
    (.pending, coordinator)
  else (coordinator.countPreaccept response).decidePreaccept

def finalizePreaccept : CoordinatorDecision × AccordCoordinator :=
  if coordinator.phase ≠ .preAccepting ∨
      coordinator.preacceptResponses.length < slowQuorumSize coordinator.rf then
    (.pending, coordinator)
  else coordinator.propose

def countAccept (response : AcceptResponse) : AccordCoordinator :=
  { coordinator with
    acceptResponses := coordinator.acceptResponses ++ [response]
    mergedDeps := coordinator.mergedDeps ∪ response.deps.toFinset }

/-- `none` is the panic outside the accepting phase. -/
def handleAcceptOk (response : AcceptResponse) : Option (CoordinatorDecision × AccordCoordinator) :=
  if response.from_ ∈ coordinator.acceptResponders then some (.pending, coordinator)
  else if coordinator.phase ≠ .accepting then none
  else
    let counted := coordinator.countAccept response
    if slowQuorumSize counted.rf ≤ counted.acceptResponses.length then
      some (.slowPathCommit counted.mergedT counted.mergedDeps,
        { counted with phase := .slowPathCommit })
    else some (.pending, counted)

def call : CoordinatorCall → Option (CoordinatorDecision × AccordCoordinator)
  | .preacceptOk response => some (coordinator.handlePreacceptOk response)
  | .finalizePreaccept => some coordinator.finalizePreaccept
  | .acceptOk response => coordinator.handleAcceptOk response

end AccordCoordinator

section FirstOfEach

variable {α : Type*} (sender : α → NodeId)

def firstOfEach (received : List α) : List α :=
  received.foldl (fun counted message =>
    if sender message ∈ counted.map sender then counted else counted ++ [message]) []

variable {sender} {received : List α} {message : α}

theorem firstOfEach_concat : firstOfEach sender (received ++ [message]) =
    if sender message ∈ (firstOfEach sender received).map sender then firstOfEach sender received
    else firstOfEach sender received ++ [message] :=
  foldl_concat ..

end FirstOfEach

/-- A coordinator with all the votes it was given and its decisions other than `pending`. -/
structure CoordinatorRun extends AccordCoordinator where
  votes : List PreAcceptResponse
  accepts : List AcceptResponse
  decisions : List CoordinatorDecision

namespace CoordinatorRun

open Runs AccordCoordinator

def start (coordinator : AccordCoordinator) : CoordinatorRun :=
  ⟨coordinator, coordinator.preacceptResponses, [], []⟩

variable (run : CoordinatorRun)

def receive : CoordinatorCall → CoordinatorRun
  | .preacceptOk response => { run with votes := run.votes ++ [response] }
  | .finalizePreaccept => run
  | .acceptOk response => { run with accepts := run.accepts ++ [response] }

def answer (answer : CoordinatorDecision × AccordCoordinator) : CoordinatorRun :=
  { run with
    toAccordCoordinator := answer.2
    decisions := run.decisions ++ if answer.1 = .pending then [] else [answer.1] }

def step (call : CoordinatorCall) : CoordinatorRun :=
  ((run.call call).map (run.receive call).answer).getD run

def Backs : CoordinatorDecision → Prop
  | .pending => True
  | .fastPathCommit t _ => t = run.t0 ∧ fastQuorumSize run.rf ≤
      ((firstOfEach (·.from_) run.votes).filter (·.t = run.t0)).length
  | .needAccept t deps =>
    t = ((firstOfEach (·.from_) run.votes).map (·.t)).foldl max run.t0 ∧
      deps = ((firstOfEach (·.from_) run.votes).flatMap (·.deps)).toFinset
  | .slowPathCommit t deps => .needAccept t deps ∈ run.decisions ∧
      slowQuorumSize run.rf ≤
        ((firstOfEach (·.from_) run.accepts).filter (·.deps.toFinset = deps)).length

/-- No panic, and a decision that the votes bear out; no commit follows another one. -/
def Decides (call : CoordinatorCall) : Prop :=
  ∃ decision after, run.call call = some (decision, after) ∧ (run.step call).Backs decision ∧
    (decision.isCommit → ∀ earlier ∈ run.decisions, ¬earlier.isCommit)

/-- An AcceptOK is repeated or expected, and a complete slow quorum has the proposed dependencies.
-/
def Admissible : CoordinatorCall → Prop
  | .acceptOk response => response.from_ ∈ run.acceptResponders ∨
      run.phase = .accepting ∧ (slowQuorumSize run.rf ≤ run.acceptResponses.length + 1 →
          ∀ accept ∈ run.acceptResponses ++ [response],
            ∃ t, .needAccept t accept.deps.toFinset ∈ run.decisions)
  | _ => True

/-- While votes are collected, they are counted and merged, and nothing is decided. -/
structure Collects (coordinator : AccordCoordinator) (votes : List PreAcceptResponse) : Prop where
  responses : coordinator.preacceptResponses = firstOfEach (·.from_) votes
  t : coordinator.mergedT = (coordinator.preacceptResponses.map (·.t)).foldl max coordinator.t0
  deps : coordinator.mergedDeps = (coordinator.preacceptResponses.flatMap (·.deps)).toFinset
  fresh : coordinator.acceptResponses = []

structure Tracks : Prop where
  accepts : run.acceptResponses = firstOfEach (·.from_) run.accepts
  collects : run.phase = .preAccepting →
    Collects run.toAccordCoordinator run.votes ∧ run.decisions = []
  proposed : run.phase = .accepting → run.acceptResponses.length < slowQuorumSize run.rf ∧
    ∃ deps, run.decisions = [.needAccept run.mergedT deps] ∧ run.mergedDeps =
        deps ∪ (run.acceptResponses.flatMap (·.deps)).toFinset

variable {run}

theorem tracks_start (t0 : Timestamp) (nodeId : NodeId) (rf : ℕ+) (isLeaseholder : Bool) :
    (start (.new t0 nodeId rf isLeaseholder)).Tracks where
  accepts := rfl
  collects _ := by
    refine ⟨⟨?_, ?_, ?_, rfl⟩, rfl⟩ <;>
      cases isLeaseholder <;> simp [start, new, firstOfEach]
  proposed isAccepting := by cases isAccepting

section

variable (tracks : run.Tracks) (isOpen : run.phase = .preAccepting)

include tracks isOpen

theorem tracks_propose : (run.answer run.propose).Tracks ∧
    (run.answer run.propose).Backs run.propose.1 := by
  rcases tracks.collects isOpen with ⟨collects, undecided⟩
  refine ⟨⟨tracks.accepts, nofun, fun _ => ?_⟩, ?_, ?_⟩
  · refine ⟨?_, run.mergedDeps, ?_, ?_⟩
    · simp [answer, propose, collects.fresh, slowQuorumSize]
    · simp [answer, propose, undecided]
    · simp [answer, propose, collects.fresh]
  · exact collects.t.trans (by rw [collects.responses]; rfl)
  · exact collects.deps.trans (by rw [collects.responses]; rfl)

theorem tracks_decidePreaccept : (run.answer run.decidePreaccept).Tracks ∧
    (run.answer run.decidePreaccept).Backs run.decidePreaccept.1 := by
  unfold decidePreaccept
  split_ifs with fast slow
  · refine ⟨⟨tracks.accepts, nofun, nofun⟩, rfl, ?_⟩
    rw [(tracks.collects isOpen).1.responses] at fast
    have all := filter_eq_self.mpr fun vote member => decide_eq_true (fast.2 vote member).1
    exact fast.1.trans_eq (congrArg List.length all.symm)
  · exact tracks_propose tracks isOpen
  · refine ⟨?_, trivial⟩
    simpa [answer] using tracks

theorem tracks_countPreaccept {response : PreAcceptResponse}
    (unknown : response.from_ ∉ run.preacceptResponders) :
    Tracks { run with
      toAccordCoordinator := run.countPreaccept response
      votes := run.votes ++ [response] } := by
  rcases tracks.collects isOpen with ⟨collects, undecided⟩
  refine ⟨tracks.accepts, fun _ => ⟨⟨?_, ?_, ?_, collects.fresh⟩, undecided⟩, fun isAccepting => ?_⟩
  · rw [preacceptResponders, collects.responses] at unknown
    rw [firstOfEach_concat, if_neg unknown, ← collects.responses]
    rfl
  · simp [countPreaccept, collects.t, max_def_lt]
  · simp [countPreaccept, collects.deps]
  · cases isOpen.symm.trans isAccepting

end

/-- A slow quorum commits the proposed dependencies exactly if all its votes have them. -/
theorem slow_iff {accepts : List AcceptResponse} {proposed : Finset TxnId} {quorum : ℕ}
    (complete : accepts.length = quorum) :
    proposed ∪ (accepts.flatMap (·.deps)).toFinset = proposed ∧
      quorum ≤ (accepts.filter (·.deps.toFinset =
        proposed ∪ (accepts.flatMap (·.deps)).toFinset)).length ↔
    ∀ accept ∈ accepts, accept.deps.toFinset = proposed := by
  constructor
  · rintro ⟨same, all⟩
    rw [same, ← complete] at all
    have isAll := filter_sublist.eq_of_length_le all
    simpa using filter_eq_self.mp isAll
  · intro all
    have same : proposed ∪ (accepts.flatMap (·.deps)).toFinset = proposed := by
      rw [Finset.union_eq_left]
      intro dep
      simp only [mem_toFinset, mem_flatMap]
      rintro ⟨accept, member, listed⟩
      rw [← all accept member]
      exact mem_toFinset.mpr listed
    rw [same, filter_eq_self.mpr fun accept member => decide_eq_true (all accept member)]
    exact ⟨rfl, complete.ge⟩

theorem tracks_acceptOk (tracks : run.Tracks) (response : AcceptResponse) :
    (run.step (.acceptOk response)).Tracks ∧
      (run.Decides (.acceptOk response) ↔ run.Admissible (.acceptOk response)) := by
  simp only [step, Decides, Admissible, call, handleAcceptOk]
  split_ifs with known other complete
  · refine ⟨⟨?_, ?_, ?_⟩, ?_⟩
    · rw [acceptResponders, tracks.accepts] at known
      exact tracks.accepts.trans (firstOfEach_concat.trans (if_pos known)).symm
    · simpa [answer, receive] using tracks.collects
    · simpa [answer, receive] using tracks.proposed
    · exact iff_of_true ⟨_, _, rfl, trivial, nofun⟩ (.inl known)
  · exact ⟨tracks, iff_of_false (by simp) (by simp [known, other])⟩
  all_goals
    have isAccepting := not_not.mp other
    have accepts : run.acceptResponses ++ [response] =
        firstOfEach (·.from_) (run.accepts ++ [response]) := by
      rw [acceptResponders, tracks.accepts] at known
      rw [firstOfEach_concat, if_neg known, ← tracks.accepts]
    rcases tracks.proposed isAccepting with ⟨few, deps, decided, merged⟩
    have merges : run.mergedDeps ∪ response.deps.toFinset =
        deps ∪ ((run.acceptResponses ++ [response]).flatMap (·.deps)).toFinset := by
      simp [merged]
    simp only [countAccept, length_append, length_singleton] at complete
  · refine ⟨⟨accepts, nofun, nofun⟩, ?_⟩
    have quorum : (run.acceptResponses ++ [response]).length =
        slowQuorumSize run.rf := by simpa using le_antisymm few complete
    have backs := @slow_iff _ deps _ quorum
    rw [← merges] at backs
    simpa [Backs, answer, receive, decided, ← accepts, countAccept, known,
      isAccepting, complete, CoordinatorDecision.isCommit] using backs
  · refine ⟨⟨accepts, fun isOpen => ?_, fun _ => ?_⟩, ?_⟩
    · cases isAccepting.symm.trans isOpen
    · refine ⟨?_, deps, ?_, merges⟩
      · simpa [answer, countAccept] using complete
      · simpa [answer, receive, countAccept] using decided
    · refine iff_of_true ⟨_, _, rfl, trivial, nofun⟩ (.inr ⟨isAccepting, fun completes => ?_⟩)
      exact absurd completes complete

theorem tracks_step (tracks : run.Tracks) (call : CoordinatorCall) :
    (run.step call).Tracks ∧ (run.Decides call ↔ run.Admissible call) := by
  cases call with
  | preacceptOk response =>
    simp only [step, Decides, Admissible, call, handlePreacceptOk]
    split_ifs with ignored
    · refine ⟨⟨tracks.accepts, fun isOpen => ?_, ?_⟩,
        iff_of_true ⟨_, _, rfl, trivial, nofun⟩ trivial⟩
      · rcases tracks.collects isOpen with ⟨⟨responses, t, deps, fresh⟩, undecided⟩
        have known := ignored.resolve_right (not_not.mpr isOpen)
        rw [preacceptResponders, responses] at known
        refine ⟨⟨responses.trans ?_, t, deps, fresh⟩, by simpa [answer, receive] using undecided⟩
        exact (firstOfEach_concat.trans (if_pos known)).symm
      · simpa [answer, receive] using tracks.proposed
    · have isOpen := not_not.mp (not_or.mp ignored).2
      have counted := tracks_countPreaccept tracks isOpen (not_or.mp ignored).1
      rcases tracks_decidePreaccept counted isOpen with ⟨decides, backs⟩
      refine ⟨decides, iff_of_true ⟨_, _, rfl, backs, fun _ => ?_⟩ trivial⟩
      rw [(tracks.collects isOpen).2]
      exact forall_mem_nil _
  | finalizePreaccept =>
    simp only [step, Decides, Admissible, call, finalizePreaccept]
    split_ifs with waits
    · refine ⟨?_, iff_of_true ⟨_, _, rfl, trivial, nofun⟩ trivial⟩
      simpa [answer, receive] using tracks
    · have isOpen := not_not.mp (not_or.mp waits).1
      rcases tracks_propose tracks isOpen with ⟨proposes, backs⟩
      exact ⟨proposes, iff_of_true ⟨_, _, rfl, backs, nofun⟩ trivial⟩
  | acceptOk response => exact tracks_acceptOk tracks response

/-- No call panics, decisions are backed by the votes and at most one is a commit, exactly if every
call is admissible. -/
theorem throughout_decides_iff (t0 : Timestamp) (nodeId : NodeId) (rf : ℕ+) (isLeaseholder : Bool)
    (calls : List CoordinatorCall) :
    Throughout step Decides (start (.new t0 nodeId rf isLeaseholder)) calls ↔
      Throughout step Admissible (start (.new t0 nodeId rf isLeaseholder)) calls :=
  @Throughout.iff_of_invariant _ _ _ Tracks _ _ (fun _ call tracks _ => (tracks_step tracks call).1)
    (fun _ call tracks => (tracks_step tracks call).2) _ (tracks_start t0 nodeId rf isLeaseholder) _

/-- An AcceptOK after the slow quorum, and one with a dependency that was not proposed. -/
theorem not_decides_lateAccept_otherDeps :
    ¬Throughout step Decides (start (.new ⟨0, 5, 0, 1⟩ 1 3 false))
      [.preacceptOk ⟨1, ⟨0, 5, 0, 1⟩, []⟩, .preacceptOk ⟨2, ⟨0, 5, 1, 2⟩, []⟩,
        .acceptOk ⟨1, 0, []⟩, .acceptOk ⟨2, 0, []⟩, .acceptOk ⟨3, 0, []⟩] ∧
    ¬Throughout step Decides (start (.new ⟨0, 5, 0, 1⟩ 1 3 false))
      [.preacceptOk ⟨1, ⟨0, 5, 0, 1⟩, []⟩, .preacceptOk ⟨2, ⟨0, 5, 1, 2⟩, []⟩,
        .acceptOk ⟨1, 0, []⟩, .acceptOk ⟨2, 0, [⟨⟨0, 5, 1, 1⟩⟩]⟩] := by
  refine ⟨fun decides => ?_, fun decides => ?_⟩
  · rcases decides.2.2.2.2.1 with ⟨_, _, panics, -⟩
    cases panics
  · rcases decides.2.2.2.1 with ⟨_, _, commits, backs, -⟩
    cases commits
    exact absurd backs.1 (by decide)

end CoordinatorRun

end Ferrosa.Accord
