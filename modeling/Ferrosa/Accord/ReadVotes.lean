import Ferrosa.Accord.Types
import Ferrosa.CommitLog.MutationLossless

/-!
# Read votes

A conditional transaction reads its row on the replicas, and the coordinator goes by the row a
slow quorum agrees on.  A vote is the bytes of the row, and no bytes say that there is no row.
A read that failed also gives no bytes.

A replica that abstains, that cannot be reached or whose answer does not decode adds nothing to
the rows read, so only the votes of the others are listed.
-/

namespace Ferrosa.Accord

open List

abbrev ReadResult := Except String (Option Bytes)

def readRowBytesAt : Option ReadResult → Option Bytes
  | none => none
  | some (.ok row) => row
  | some (.error _) => none

/-- What the coordinator reads itself: nothing, through its state machine, or with a reader. -/
inductive OwnRead where
  | abstains
  | stateMachine (result : Option ReadResult)
  | reader (result : ReadResult)

/-- The read the coordinator counts for itself.  Only an error of the plain reader ends the
transaction. -/
def OwnRead.vote : OwnRead → Except String (Option (Option ReadResult))
  | .abstains => .ok none
  | .stateMachine result => .ok (some result)
  | .reader (.ok row) => .ok (some (some (.ok row)))
  | .reader (.error error) => .error error

/-- The bytes of a vote as they are compared.  Writing a decoded mutation cannot fail. -/
def canonicalReadVote (read : Bytes) : Bytes :=
  if read = [] then []
  else
    match CommitLog.Mutation.deserializeFrom read with
    | .ok mutation => mutation.bytes
    | .error _ => read

def tally (quorum : ℕ) (seen : List Bytes) : List Bytes → Option Bytes
  | [] => none
  | read :: rest =>
    if quorum ≤ seen.count read + 1 then some read else tally quorum (seen ++ [read]) rest

def agreedRow (reads : List Bytes) (quorum : ℕ) : Option Bytes :=
  if quorum = 0 ∨ reads.length < quorum then none
  else tally quorum [] (reads.map canonicalReadVote)

def collectUntilDecided {α : Type} (isDecided : List α → Bool) (taken : List α) : List α → List α
  | [] => taken
  | response :: rest =>
    if isDecided (taken ++ [response]) then taken ++ [response]
    else collectUntilDecided isDecided (taken ++ [response]) rest

abbrev Vote := NodeId × Option ReadResult

def currentRow (vote : Vote) : Bytes := (readRowBytesAt vote.2).getD []

def readVote (quorum : ℕ) (own arrived : List Vote) : Option Bytes :=
  let isDecided := fun votes : List Vote => (agreedRow (votes.map currentRow) quorum).isSome
  agreedRow ((collectUntilDecided isDecided own arrived).map currentRow) quorum

theorem canonicalReadVote_eq_nil_iff {read : Bytes} : canonicalReadVote read = [] ↔ read = [] := by
  unfold canonicalReadVote
  split_ifs with empty
  · simp [empty]
  · split
    · rename_i mutation _
      have long := CommitLog.length_bytes mutation
      have positive : 0 < mutation.serializedSize := by
        unfold CommitLog.Mutation.serializedSize CommitLog.sizeOfFields
        omega
      simp only [empty, iff_false]
      intro nothing
      rw [nothing, length_nil] at long
      omega
    · rfl

theorem tally_eq_some_iff {quorum : ℕ} {seen reads : List Bytes} {value : Bytes}
    (undecided : ∀ row, seen.count row < quorum) :
    tally quorum seen reads = some value ↔ ∃ before after, reads = before ++ value :: after ∧
      (∀ row, (seen ++ before).count row < quorum) ∧ (seen ++ before).count value + 1 = quorum := by
  induction reads generalizing seen with
  | nil => simp [tally]
  | cons read rest ih =>
    have below := undecided read
    unfold tally
    split_ifs with reached
    · constructor
      · rintro ⟨⟩
        exact ⟨[], rest, rfl, by simpa using undecided, by rw [append_nil]; omega⟩
      · rintro ⟨before, after, isReads, few, _⟩
        cases before with
        | nil => simp_all
        | cons first others =>
          obtain ⟨rfl, _⟩ := List.cons.inj isReads
          have := few read
          simp only [count_append, count_cons_self] at this
          omega
    · have undecidedStill : ∀ row, (seen ++ [read]).count row < quorum := by
        intro row
        have := undecided row
        rw [count_append, count_singleton]
        split_ifs with same
        · rw [← beq_iff_eq.mp same]
          omega
        · omega
      rw [ih undecidedStill]
      constructor
      · rintro ⟨before, after, rfl, few, completes⟩
        exact ⟨read :: before, after, rfl, by simpa using few, by simpa using completes⟩
      · rintro ⟨before, after, isReads, few, completes⟩
        cases before with
        | nil =>
          obtain ⟨rfl, _⟩ := List.cons.inj isReads
          rw [append_nil] at completes
          omega
        | cons first others =>
          obtain ⟨rfl, rfl⟩ := List.cons.inj isReads
          exact ⟨others, after, rfl, by simpa using few, by simpa using completes⟩

def countedRow (vote : Vote) : Bytes := canonicalReadVote (currentRow vote)

theorem agreedRow_eq_some_iff {quorum : ℕ} {votes : List Vote} {value : Bytes} :
    agreedRow (votes.map currentRow) quorum = some value ↔ ∃ before vote after,
      votes = before ++ vote :: after ∧ countedRow vote = value ∧
      (∀ row, (before.map countedRow).count row < quorum) ∧
      (before.map countedRow).count value + 1 = quorum := by
  unfold agreedRow
  split_ifs with few
  · simp only [false_iff]
    rintro ⟨before, vote, after, rfl, -, -, completes⟩
    have atMost := @count_le_length _ _ value (before.map countedRow)
    simp only [length_map, length_append, length_cons] at few atMost
    omega
  · rw [map_map, tally_eq_some_iff (by simp; omega)]
    simp only [nil_append]
    constructor
    · rintro ⟨before, after, split, undecided, completes⟩
      obtain ⟨front, back, rfl, rfl, isBack⟩ := map_eq_append_iff.mp split
      obtain ⟨vote, rest, rfl, isValue, -⟩ := map_eq_cons_iff.mp isBack
      exact ⟨front, vote, rest, rfl, isValue, undecided, completes⟩
    · rintro ⟨before, vote, after, rfl, rfl, undecided, completes⟩
      refine ⟨before.map countedRow, after.map countedRow, ?_, undecided, completes⟩
      rw [map_append, map_cons]
      rfl

theorem readVote_eq (quorum : ℕ) (own arrived : List Vote) :
    readVote quorum own arrived = agreedRow ((own ++ arrived).map currentRow) quorum := by
  induction arrived generalizing own with
  | nil => simp [readVote, collectUntilDecided]
  | cons vote rest ih =>
    have onward := ih (own ++ [vote])
    simp only [readVote, collectUntilDecided] at onward ⊢
    split_ifs with decided
    · obtain ⟨value, agreed⟩ := Option.isSome_iff_exists.mp decided
      obtain ⟨before, last, after, split, facts⟩ := agreedRow_eq_some_iff.mp agreed
      rw [agreed, eq_comm, agreedRow_eq_some_iff]
      refine ⟨before, last, after ++ rest, ?_, facts⟩
      rw [append_cons, split, append_assoc, cons_append]
    · rw [onward, append_assoc, singleton_append]

structure ReadPhase where
  self : NodeId
  own : OwnRead
  arrivals : List Vote
  distinct : (self :: arrivals.map Prod.fst).Nodup

def foundAbsent (vote : Vote) : Bool :=
  match vote.2 with
  | some (.ok none) => true
  | _ => false

def saysAbsent (vote : Vote) : Bool := currentRow vote = []

theorem saysAbsent_of_foundAbsent {vote : Vote} (found : foundAbsent vote) : saysAbsent vote := by
  rcases vote with ⟨_, _ | _ | _ | _⟩
  · contradiction
  · contradiction
  · rfl
  · contradiction

theorem countedRow_eq_nil_iff {vote : Vote} : countedRow vote = [] ↔ saysAbsent vote := by
  rw [countedRow, canonicalReadVote_eq_nil_iff, saysAbsent, decide_eq_true_eq]

theorem count_countedRow (votes : List Vote) :
    (votes.map countedRow).count [] = votes.countP saysAbsent := by
  rw [List.count, countP_map]
  refine countP_congr fun vote _ => ?_
  rw [← countedRow_eq_nil_iff]
  simp

def absentReplicas (votes : List Vote) : Finset NodeId :=
  ((votes.filter foundAbsent).map Prod.fst).toFinset

theorem card_absentReplicas {votes : List Vote} (distinct : (votes.map Prod.fst).Nodup) :
    (absentReplicas votes).card = votes.countP foundAbsent := by
  rw [absentReplicas, toFinset_card_of_nodup, length_map, countP_eq_length_filter]
  exact distinct.sublist (filter_sublist.map _)

namespace ReadPhase

variable (phase : ReadPhase)

def votes (own : Option (Option ReadResult)) (arrived : List Vote) : List Vote :=
  (own.map (phase.self, ·)).toList ++ arrived

theorem distinct_votes (own : Option (Option ReadResult)) :
    ((phase.votes own phase.arrivals).map Prod.fst).Nodup := by
  cases own with
  | none => exact (nodup_cons.mp phase.distinct).2
  | some _ => exact phase.distinct

/-- At whatever point the votes agree on absence, a quorum of replicas has found no row. -/
def AbsenceBacked (quorum : ℕ) : Prop :=
  ∀ own, phase.own.vote = .ok own → ∀ arrived, arrived <+: phase.arrivals →
    readVote quorum (phase.votes own []) arrived = some [] →
    quorum ≤ (absentReplicas (phase.votes own arrived)).card

/-- When a quorum of votes without a row is complete before any row has one, they all come from
reads that found no row. -/
def NoFailureCounted (quorum : ℕ) : Prop :=
  ∀ own, phase.own.vote = .ok own → ∀ before vote,
    before ++ [vote] <+: phase.votes own phase.arrivals → saysAbsent vote →
    (∀ row, (before.map countedRow).count row < quorum) → before.countP saysAbsent + 1 = quorum →
    ∀ other ∈ before ++ [vote], saysAbsent other → foundAbsent other

theorem readVote_votes (quorum : ℕ) (own : Option (Option ReadResult)) (arrived : List Vote) :
    readVote quorum (phase.votes own []) arrived =
      agreedRow ((phase.votes own arrived).map currentRow) quorum := by
  rw [readVote_eq, votes, votes, append_nil]

variable {phase} {own : Option (Option ReadResult)} {arrived : List Vote}

theorem exists_arrived {before : List Vote} {vote : Vote}
    (early : before ++ [vote] <+: phase.votes own phase.arrivals) :
    ∃ arrived, arrived <+: phase.arrivals ∧ before ++ [vote] = phase.votes own arrived := by
  cases own with
  | none => exact ⟨_, early, rfl⟩
  | some result =>
    rcases prefix_cons_iff.mp early with nothing | ⟨arrived, split, isPrefix⟩
    · simp at nothing
    · exact ⟨arrived, isPrefix, split⟩

/-- Decisions on absence are backed by reads if and only if no failed read completes a quorum. -/
theorem absenceBacked_iff (phase : ReadPhase) (quorum : ℕ) :
    phase.AbsenceBacked quorum ↔ phase.NoFailureCounted quorum := by
  constructor
  · intro backed own isOwn before vote early absent undecided completes other listed otherAbsent
    rcases exists_arrived early with ⟨arrived, isPrefix, split⟩
    have enough := backed own isOwn arrived isPrefix
    rw [readVote_votes, ← split, agreedRow_eq_some_iff] at enough
    have distinct := (phase.distinct_votes own).sublist (early.sublist.map Prod.fst)
    have found := enough ⟨before, vote, [], rfl, countedRow_eq_nil_iff.mpr absent, undecided,
      (count_countedRow before).symm ▸ completes⟩
    have all : ((before ++ [vote]).filter saysAbsent).length = quorum := by
      rw [← countP_eq_length_filter]
      simp [absent, completes]
    rw [card_absentReplicas distinct, countP_eq_length_filter, ← all] at found
    have below := monotone_filter_right (before ++ [vote])
      fun vote => @saysAbsent_of_foundAbsent vote
    have isListed := mem_filter.mpr ⟨listed, otherAbsent⟩
    rw [← below.eq_of_length_le found] at isListed
    exact (mem_filter.mp isListed).2
  · intro sound own isOwn arrived early agreed
    have isPrefix : phase.votes own arrived <+: phase.votes own phase.arrivals :=
      (prefix_append_right_inj _).mpr early
    rw [readVote_votes, agreedRow_eq_some_iff] at agreed
    obtain ⟨before, vote, after, split, isAbsent, undecided, completes⟩ := agreed
    have decisive : before ++ [vote] <+: phase.votes own arrived := ⟨after, by simp [split]⟩
    have absent := countedRow_eq_nil_iff.mp isAbsent
    rw [count_countedRow] at completes
    rw [card_absentReplicas ((phase.distinct_votes own).sublist (isPrefix.sublist.map Prod.fst))]
    calc
      quorum = (before ++ [vote]).countP saysAbsent := by simp [absent, completes]
      _ ≤ (before ++ [vote]).countP foundAbsent := countP_mono_left
        (sound own isOwn before vote (decisive.trans isPrefix) absent undecided completes)
      _ ≤ (phase.votes own arrived).countP foundAbsent := decisive.sublist.countP_le

end ReadPhase

def failedPhase : ReadPhase :=
  ⟨1, .stateMachine (some (.error "read")), [(2, some (.error "read"))], by decide⟩

theorem absent_without_reads :
    readVote 2 [(1, some (.error "read"))] failedPhase.arrivals = some [] ∧
      ¬failedPhase.AbsenceBacked 2 := by
  refine ⟨by decide, fun backed => ?_⟩
  exact absurd (backed _ rfl _ (prefix_refl _) (by decide)) (by decide)

end Ferrosa.Accord
