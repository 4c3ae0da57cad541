import Ferrosa.CommitLog.SegmentMembers

/-!
# Dirty tables

Every member of a segment in use is marked dirty under its table, at its offset or a
later one, until a discard covers it.  So a segment without dirty tables only has
members that were discarded.
-/

namespace Ferrosa.CommitLog

open Storage SegmentLog FiniteMap

/-- A discard of the member's table reached its position, no earlier than in the generation
that logged it. -/
def Covered (discards : List Discard) (generation : ℕ)
    (member : CommitLogPosition × Mutation) : Prop :=
  ∃ discard ∈ discards, discard.tableId = member.2.tableId ∧
    member.1 ≤ discard.position ∧ generation ≤ discard.generation

variable {discards : List Discard}

theorem Covered.cons {generation : ℕ}
    {member : CommitLogPosition × Mutation} (covered : Covered discards generation member)
    (discard : Discard) : Covered (discard :: discards) generation member := by
  rcases covered with ⟨earlier, isMember, covers⟩
  exact ⟨earlier, List.mem_cons_of_mem _ isMember, covers⟩

theorem Covered.mono {early late : ℕ} {mutation : Mutation}
    {first second : CommitLogPosition} (covered : Covered discards late (second, mutation))
    (position : first ≤ second) (generation : early ≤ late) :
    Covered discards early (first, mutation) := by
  rcases covered with ⟨discard, isMember, table, reached, recent⟩
  exact ⟨discard, isMember, table, position.trans reached, generation.trans recent⟩

namespace LiveSegment

variable {segment : LiveSegment}

def DirtyFrom (segment : LiveSegment) (tableId : TableId) (offset : ℕ) : Prop :=
  ∃ marked, segment.dirtyTables.lookup tableId = some marked ∧ offset ≤ marked

theorem dirtyFrom_markTableDirty (segment : LiveSegment) (tableId : TableId) (offset : ℕ) :
    (segment.markTableDirty tableId offset).DirtyFrom tableId offset := by
  refine ⟨_, by rw [markTableDirty, lookup_insert_ite, if_pos rfl], ?_⟩
  exact le_max_right _ _

variable {tableId : TableId} {offset : ℕ}

theorem DirtyFrom.markTableDirty (dirty : segment.DirtyFrom tableId offset) (other : TableId)
    (later : ℕ) :
    (segment.markTableDirty other later).DirtyFrom tableId offset := by
  rcases dirty with ⟨marked, found, reached⟩
  by_cases same : tableId = other
  · subst same
    refine ⟨_, by rw [LiveSegment.markTableDirty, lookup_insert_ite, if_pos rfl], ?_⟩
    rw [found, Option.getD_some]
    exact reached.trans (le_max_left _ _)
  · refine ⟨marked, ?_, reached⟩
    rw [LiveSegment.markTableDirty, lookup_insert_ite, if_neg same, found]

theorem DirtyFrom.markTablesDirty (dirty : segment.DirtyFrom tableId offset) (start : ℕ)
    (tables : List TableId) :
    (segment.markTablesDirty start tables).DirtyFrom tableId offset := by
  induction tables generalizing segment start with
  | nil => exact dirty
  | cons table tables ih => exact ih (dirty.markTableDirty table start) (start + 1)

theorem dirtyFrom_markTablesDirty (segment : LiveSegment) (start : ℕ) {tables : List TableId}
    {index : ℕ} (found : tables[index]? = some tableId) :
    (segment.markTablesDirty start tables).DirtyFrom tableId (start + index) := by
  induction tables generalizing segment start index with
  | nil => cases found
  | cons table tables ih =>
    cases index with
    | zero =>
      cases found
      exact (dirtyFrom_markTableDirty segment tableId start).markTablesDirty _ _
    | succ index =>
      have later := ih (segment.markTableDirty table start) (start + 1) found
      rw [Nat.add_assoc, Nat.add_comm 1 index] at later
      exact later

@[simp] theorem log_markTableDirty (segment : LiveSegment) (tableId : TableId) (offset : ℕ) :
    (segment.markTableDirty tableId offset).log = segment.log := rfl

@[simp] theorem log_markTablesDirty (segment : LiveSegment) (start : ℕ) (tables : List TableId) :
    (segment.markTablesDirty start tables).log = segment.log := by
  induction tables generalizing segment start with
  | nil => rfl
  | cons table tables ih => rw [markTablesDirty, ih, log_markTableDirty]

theorem log_discard (segment : LiveSegment) (tableId : TableId) (position : CommitLogPosition) :
    (segment.discard tableId position).1.log = segment.log := by
  unfold discard
  split_ifs
  · rfl
  · simp only [discardTableIfDominated]
    split
    · rfl
    · split_ifs
      all_goals rfl
  · rfl

theorem DirtyFrom.discard {table : TableId} (dirty : segment.DirtyFrom table offset)
    (tableId : TableId) (position : CommitLogPosition) :
    (segment.discard tableId position).1.DirtyFrom table offset ∨
      table = tableId ∧ (⟨segment.id, offset⟩ : CommitLogPosition) ≤ position := by
  rcases dirty with ⟨marked, found, reached⟩
  have erased : table ≠ tableId →
      (segment.dirtyTables.erase tableId).lookup table = some marked := by
    intro differs
    rw [lookup_erase_ite, if_neg differs, found]
  unfold LiveSegment.discard
  split_ifs with older same
  · by_cases isTable : table = tableId
    · exact .inr ⟨isTable, CommitLogPosition.le_of_segmentId_lt older⟩
    · exact .inl ⟨marked, erased isTable, reached⟩
  · simp only [discardTableIfDominated]
    split
    · exact .inl ⟨marked, found, reached⟩
    · rename_i last isLast
      split_ifs with dominated
      · by_cases isTable : table = tableId
        · subst isTable
          rw [found] at isLast
          cases isLast
          exact .inr ⟨rfl, CommitLogPosition.le_iff.mpr (.inr ⟨same, reached.trans dominated⟩)⟩
        · exact .inl ⟨marked, erased isTable, reached⟩
      · exact .inl ⟨marked, found, reached⟩
  · exact .inl ⟨marked, found, reached⟩

theorem not_dirtyFrom_of_isDirtyEmpty (clean : segment.isDirtyEmpty = true) (tableId : TableId)
    (offset : ℕ) : ¬segment.DirtyFrom tableId offset := by
  rintro ⟨marked, found, -⟩
  have present : tableId ∈ segment.dirtyTables := by
    rw [← AList.lookup_isSome, found]
    rfl
  rw [isDirtyEmpty, List.isEmpty_iff] at clean
  rw [AList.mem_keys, clean] at present
  cases present

structure Tracked (crc : Bytes → UInt32) (discards : List Discard) (generation : ℕ)
    (segment : LiveSegment) : Prop where
  sound : Sound crc segment.log
  dirty : ∀ member ∈ segment.log.members, Covered discards generation member ∨
    segment.DirtyFrom member.2.tableId member.1.offset

variable {crc : Bytes → UInt32} {discards : List Discard} {generation : ℕ}

section

variable (tracked : segment.Tracked crc discards generation)

include tracked

theorem Tracked.cons (discard : Discard) :
    segment.Tracked crc (discard :: discards) generation where
  sound := tracked.sound
  dirty := fun member isMember => (tracked.dirty member isMember).imp_left fun covered =>
    covered.cons discard

theorem Tracked.covered_of_isDirtyEmpty (clean : segment.isDirtyEmpty = true) :
    ∀ member ∈ segment.log.members, Covered discards generation member := by
  intro member isMember
  rcases tracked.dirty member isMember with covered | dirty
  · exact covered
  · exact absurd dirty (not_dirtyFrom_of_isDirtyEmpty clean _ _)

theorem Tracked.discard (tableId : TableId) (position : CommitLogPosition) :
    (segment.discard tableId position).1.Tracked crc (⟨tableId, position, generation⟩ :: discards)
      generation := by
  constructor
  · rw [log_discard]
    exact tracked.sound
  · intro member isMember
    rw [log_discard] at isMember
    rcases tracked.dirty member isMember with covered | dirty
    · exact .inl (covered.cons _)
    · rcases dirty.discard tableId position with still | ⟨isTable, reached⟩
      · exact .inr still
      · refine .inl ⟨_, List.mem_cons_self, isTable.symm, ?_, le_rfl⟩
        have sameSegment := segmentId_of_mem_members isMember
        change (⟨segment.log.segment.id, _⟩ : CommitLogPosition) ≤ position at reached
        rw [← sameSegment] at reached
        exact reached

theorem Tracked.flushSegment (synced : Bool) :
    (Log.flushSegment crc segment synced).Tracked crc discards generation where
  sound := tracked.sound.flushed synced
  dirty := by
    intro member isMember
    have sameId := (tracked.sound.layout.extends_flushed synced).id
    have same : (Log.flushSegment crc segment synced).log.members = segment.log.members := by
      change (flushed crc segment.log synced).members = _
      unfold SegmentLog.members
      rw [sameId]
      rfl
    rw [same] at isMember
    exact tracked.dirty member isMember

theorem Tracked.sealSegment : (Log.sealSegment segment).Tracked crc discards generation :=
  ⟨tracked.sound.sealWrites, tracked.dirty⟩

end

end LiveSegment

end Ferrosa.CommitLog
