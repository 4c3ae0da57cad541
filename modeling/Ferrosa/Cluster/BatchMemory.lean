import Ferrosa.Cluster.Batchlog
import Ferrosa.Lib.Runs

/-!
# Logged batches are not forgotten

The node that coordinated a batch keeps it until every row is accepted, as long as its own replay
passes write every row they come to on a replica.
-/

namespace Ferrosa.Cluster.Batches

open CommitLog Storage List FiniteMap BatchlogEntry

theorem received_id {entry other : BatchlogEntry}
    (arrives : ClusterState.received entry = some other) : other.id = entry.id := by
  simp only [ClusterState.received, Option.bind_eq_bind, Option.bind_eq_some_iff] at arrives
  rcases arrives with ⟨bytes, serialized, read⟩
  have front : bytes.take 16 = entry.id.1 := by
    simp only [serialize, Option.bind_eq_bind, Option.bind_eq_some_iff,
      Option.pure_def, Option.some.injEq] at serialized
    rcases serialized with ⟨bodies, -, rfl⟩
    exact take_left' entry.id.2
  simp only [deserialize] at read
  split_ifs at read
  · simp [Except.toOption] at read
  · split at read
    · simp [Except.toOption] at read
    · simp only [Except.toOption, Option.some.injEq] at read
      rw [← read]
      exact Subtype.ext front

namespace BatchlogManager

variable (log : BatchlogManager)

theorem getEntry_writeEntry (entry : BatchlogEntry) (id : MutationId) :
    (log.writeEntry entry).getEntry id = if id = entry.id then some entry else log.getEntry id :=
  lookup_insert_ite log.entries entry.id id entry

theorem getEntry_deleteEntry (deleted id : MutationId) :
    (log.deleteEntry deleted).getEntry id = if id = deleted then none else log.getEntry id :=
  lookup_erase_ite log.entries deleted id

theorem getEntry_of_mem_scanStale {now : Int64} {entry : BatchlogEntry}
    (stale : entry ∈ log.scanStale now) : log.getEntry entry.id = some entry := by
  have listed := (mem_filter.mp ((perm_insertionSort _ _).mem_iff.mp stale)).1
  rcases mem_map.mp listed with ⟨⟨id, stored⟩, present, rfl⟩
  have found : log.entries.lookup id = some stored :=
    AList.mem_lookup_iff.mpr present
  rw [log.keyed id stored found]
  exact found

end BatchlogManager

namespace ClusterState

variable {ι : Type} (replica : ι → RowWrite → Bool) (cluster : ClusterState ι)

/-- Every logged batch is in some batchlog, or all its rows are accepted. -/
def Remembered : Prop :=
  ∀ id batch, cluster.batches.lookup id = some batch →
    (∃ node, ((cluster.logs node).getEntry id).isSome) ∨
      ∀ row ∈ batch.entry.rowWrites, row ∈ cluster.accepted

/-- A replay pass of the coordinator of a batch writes the next row on a replica, unless the row
is already accepted. -/
def Applied : Event ι → Prop
  | .replayWrite node succeeds =>
    ∀ replay ∈ (cluster.replays node).head?, ∀ row ∈ replay.remaining.head?,
      ∀ batch ∈ cluster.batches.lookup replay.entry.id, batch.node = node →
        succeeds ∧ replica node row ∨ row ∈ cluster.accepted
  | _ => True

instance [DecidableEq ι] (event : Event ι) : Decidable (cluster.Applied replica event) :=
  match event with
  | .replayWrite node _ =>
    inferInstanceAs (Decidable (∀ replay ∈ (cluster.replays node).head?,
      ∀ row ∈ replay.remaining.head?, ∀ batch ∈ cluster.batches.lookup replay.entry.id, _))
  | .logBatch _ _ => isTrue trivial
  | .deliverWrite _ _ => isTrue trivial
  | .coordinateWrite _ _ _ => isTrue trivial
  | .deleteBatch _ => isTrue trivial
  | .deliverDelete _ _ => isTrue trivial
  | .scan _ _ => isTrue trivial
  | .replayDelete _ => isTrue trivial

/-- The coordinator holds the batch or every row is accepted; every row is outstanding, accepted or
failed; a pass at the coordinator leaves only accepted rows behind. -/
structure BatchSound (batch : Coordination ι) : Prop where
  kept : (cluster.logs batch.node).getEntry batch.entry.id = some batch.entry ∨
    ∀ row ∈ batch.entry.rowWrites, row ∈ cluster.accepted
  coordinated : batch.failed ∨
    ∀ row ∈ batch.entry.rowWrites, row ∈ batch.pending ∨ row ∈ cluster.accepted
  replayed : ∀ replay ∈ cluster.replays batch.node, replay.entry.id = batch.entry.id →
    ∀ row ∈ batch.entry.rowWrites, row ∈ replay.remaining ∨ row ∈ cluster.accepted

structure Sound : Prop where
  batches : ∀ id batch, cluster.batches.lookup id = some batch →
    batch.entry.id = id ∧ cluster.BatchSound batch
  logged : ∀ node id, ((cluster.logs node).getEntry id).isSome → (cluster.batches.lookup id).isSome
  replaying : ∀ node, ∀ replay ∈ cluster.replays node,
    (cluster.batches.lookup replay.entry.id).isSome

theorem sound_start (staleThreshold : Int64) : (start staleThreshold : ClusterState ι).Sound where
  batches := by simp [start]
  logged := by simp [start, BatchlogManager.new, BatchlogManager.getEntry]
  replaying := by simp [start]

variable {cluster}

theorem Sound.remembered (sound : cluster.Sound) : cluster.Remembered := by
  intro id batch found
  rcases sound.batches id batch found with ⟨rfl, batchSound⟩
  apply batchSound.kept.imp_left
  intro held
  exact ⟨batch.node, by simp [held]⟩

variable {batch : Coordination ι} {log : BatchlogManager}

theorem BatchSound.frame {before after : ClusterState ι} (sound : before.BatchSound batch)
    (log : (after.logs batch.node).getEntry batch.entry.id =
      (before.logs batch.node).getEntry batch.entry.id)
    (replays : ∀ replay ∈ after.replays batch.node, replay ∈ before.replays batch.node)
    (accepted : ∀ row ∈ before.accepted, row ∈ after.accepted) : after.BatchSound batch where
  kept := by
    rw [log]
    exact sound.kept.imp_right fun all row listed => accepted row (all row listed)
  coordinated := by
    apply sound.coordinated.imp_right
    intro all row listed
    exact (all row listed).imp_right (accepted row)
  replayed := by
    intro replay present same row listed
    exact (sound.replayed replay (replays replay present) same row listed).imp_right (accepted row)

theorem BatchSound.setBatch {other : Coordination ι} (sound : cluster.BatchSound batch) :
    (cluster.setBatch other).BatchSound batch :=
  { sound with }

variable {id : MutationId} {entry : BatchlogEntry}

theorem lookup_setBatch : (cluster.setBatch batch).batches.lookup id =
      if id = batch.entry.id then some batch else cluster.batches.lookup id :=
  lookup_insert_ite cluster.batches batch.entry.id id batch

theorem Sound.setBatch {logs : ι → BatchlogManager} (sound : cluster.Sound)
    (batchSound : BatchSound { cluster with logs } batch)
    (others : ∀ id other, cluster.batches.lookup id = some other → id ≠ batch.entry.id →
      BatchSound { cluster with logs } other)
    (logged : ∀ node id, ((logs node).getEntry id).isSome →
      id = batch.entry.id ∨ ((cluster.logs node).getEntry id).isSome) :
    (setBatch { cluster with logs } batch).Sound where
  batches := by
    intro id other found
    rw [lookup_setBatch] at found
    split_ifs at found with same
    · cases found
      exact ⟨same.symm, batchSound.setBatch⟩
    · exact ⟨(sound.batches id other found).1, (others id other found same).setBatch⟩
  logged := by
    intro node id held
    rw [lookup_setBatch]
    split_ifs with same
    · rfl
    · exact sound.logged node id ((logged node id held).resolve_left same)
  replaying := by
    intro node replay present
    rw [lookup_setBatch]
    split_ifs
    · rfl
    · exact sound.replaying node replay present

theorem mem_accept {cluster : ClusterState ι} {succeeds : Bool} {row other : RowWrite} :
    other ∈ (cluster.accept succeeds row).accepted ↔
      succeeds ∧ other = row ∨ other ∈ cluster.accepted := by
  cases succeeds <;> simp [accept]

theorem batches_accept (succeeds : Bool) (row : RowWrite) :
    (cluster.accept succeeds row).batches = cluster.batches := by
  cases succeeds <;> rfl

theorem Sound.accept (sound : cluster.Sound) (succeeds : Bool) (row : RowWrite) :
    (cluster.accept succeeds row).Sound := by
  cases succeeds with
  | false => exact sound
  | true =>
    refine { sound with batches := fun id batch found => ?_ }
    rcases sound.batches id batch found with ⟨named, batchSound⟩
    refine ⟨named, batchSound.frame rfl (fun _ present => present) ?_⟩
    intro other given
    exact mem_cons_of_mem row given

theorem Sound.proceed (sound : cluster.Sound) {old : Coordination ι}
    (found : cluster.batches.lookup batch.entry.id = some old) (node : batch.node = old.node)
    (entry : batch.entry = old.entry)
    (coordinated : batch.failed ∨
      ∀ row ∈ batch.entry.rowWrites, row ∈ batch.pending ∨ row ∈ cluster.accepted) :
    (cluster.setBatch batch).Sound := by
  rcases (sound.batches _ old found).2 with ⟨kept, -, replayed⟩
  rw [← node, ← entry] at kept
  rw [← node, ← entry] at replayed
  refine sound.setBatch ⟨kept, coordinated, replayed⟩ ?_ ?_
  · intro id other otherFound _
    exact (sound.batches id other otherFound).2
  · intro holder id held
    exact Or.inr held

theorem Sound.coordinateWrite (sound : cluster.Sound)
    (found : cluster.batches.lookup id = some batch) {position : ℕ} {row : RowWrite}
    (outstanding : batch.pending[position]? = some row) (succeeds : Bool) :
    ((cluster.accept succeeds row).setBatch { batch with
      pending := batch.pending.eraseIdx position
      failed := batch.failed || !succeeds }).Sound := by
  rcases sound.batches id batch found with ⟨rfl, -, coordinated, -⟩
  refine @Sound.proceed _ _ _ (sound.accept succeeds row) batch ?_ rfl rfl ?_
  · rw [batches_accept]
    exact found
  · cases succeeds with
    | false => simp
    | true =>
      apply coordinated.imp (by simp)
      intro all other listed
      rcases all other listed with waiting | given
      · by_cases same : other = row
        · exact Or.inr (mem_accept.mpr (Or.inl ⟨rfl, same⟩))
        · left
          apply mem_eraseIdx_iff_getElem?.mpr
          rcases mem_iff_getElem?.mp waiting with ⟨place, at_⟩
          refine ⟨place, ?_, at_⟩
          rintro rfl
          rw [outstanding] at at_
          exact same (Option.some.inj at_).symm
      · exact Or.inr (mem_accept.mpr (Or.inr given))

variable [DecidableEq ι]

theorem getEntry_setLog {node other : ι}
    (untouched : node = other → log.getEntry id = (cluster.logs other).getEntry id) :
    ((cluster.setLog node log).logs other).getEntry id = (cluster.logs other).getEntry id := by
  by_cases same : other = node
  · simp [setLog, same, untouched same.symm]
  · simp [setLog, same]

theorem BatchSound.setLog (sound : cluster.BatchSound batch) {node : ι}
    (untouched : node = batch.node →
      log.getEntry batch.entry.id = (cluster.logs batch.node).getEntry batch.entry.id) :
    (cluster.setLog node log).BatchSound batch :=
  sound.frame (getEntry_setLog untouched) (fun _ present => present) (fun _ given => given)

section

variable (sound : cluster.Sound)

include sound

variable {node : ι} {batch : Coordination ι} {later : List Replay}

theorem Sound.logBatch (fresh : cluster.batches.lookup entry.id = none) :
    ((cluster.setLog node ((cluster.logs node).writeEntry entry)).setBatch
      ⟨node, entry, entry.rowWrites, false, false⟩).Sound := by
  refine @Sound.setBatch _ _ _ (cluster.setLog node _).logs sound ?_ ?_ ?_
  · refine ⟨Or.inl ?_, Or.inr fun row listed => Or.inl listed, ?_⟩
    · simp [ClusterState.setLog, BatchlogManager.getEntry_writeEntry]
    · intro replay present same
      have known := sound.replaying node replay present
      rw [same, fresh] at known
      simp at known
  · intro id other found different
    rcases sound.batches id other found with ⟨rfl, otherSound⟩
    apply otherSound.setLog
    rintro rfl
    simp [BatchlogManager.getEntry_writeEntry, different]
  · intro other id held
    by_cases same : id = entry.id
    · exact Or.inl same
    · right
      rwa [getEntry_setLog] at held
      rintro rfl
      simp [BatchlogManager.getEntry_writeEntry, same]

theorem Sound.deliverWrite (found : cluster.batches.lookup entry.id = some batch)
    (remote : node ≠ batch.node) :
    (cluster.setLog node ((cluster.logs node).writeEntry entry)).Sound where
  batches := by
    intro id other otherFound
    rcases sound.batches id other otherFound with ⟨rfl, otherSound⟩
    refine ⟨rfl, otherSound.setLog ?_⟩
    rintro rfl
    have different : other.entry.id ≠ entry.id := by
      intro same
      rw [same] at otherFound
      rw [Option.some.inj (otherFound.symm.trans found)] at remote
      exact remote rfl
    simp [BatchlogManager.getEntry_writeEntry, different]
  logged := by
    intro other id held
    by_cases same : id = entry.id
    · change (cluster.batches.lookup id).isSome
      rw [same, found]
      rfl
    · apply sound.logged other id
      rwa [getEntry_setLog] at held
      rintro rfl
      simp [BatchlogManager.getEntry_writeEntry, same]
  replaying := sound.replaying

theorem Sound.deleteEntry
    (accepted : ∀ batch, cluster.batches.lookup id = some batch → batch.node = node →
      ∀ row ∈ batch.entry.rowWrites, row ∈ cluster.accepted) :
    (cluster.setLog node ((cluster.logs node).deleteEntry id)).Sound where
  batches := by
    intro other batch found
    rcases sound.batches other batch found with ⟨rfl, batchSound⟩
    refine ⟨rfl, ?_⟩
    by_cases deleted : batch.entry.id = id ∧ batch.node = node
    · rcases deleted with ⟨rfl, own⟩
      exact { batchSound with kept := Or.inr (accepted batch found own) }
    · apply batchSound.setLog
      rintro rfl
      have different : batch.entry.id ≠ id := fun same => deleted ⟨same, rfl⟩
      simp [BatchlogManager.getEntry_deleteEntry, different]
  logged := by
    intro other entryId held
    apply sound.logged other entryId
    by_cases same : other = node
    · subst same
      simp only [setLog, Function.update_self, BatchlogManager.getEntry_deleteEntry] at held
      split_ifs at held
      · simp at held
      · exact held
    · rwa [getEntry_setLog] at held
      rintro rfl
      exact absurd rfl same
  replaying := sound.replaying

theorem Sound.deleteBatch (found : cluster.batches.lookup id = some batch)
    (finished : batch.pending = []) (succeeded : batch.failed = false) :
    ((cluster.setLog batch.node ((cluster.logs batch.node).deleteEntry id)).setBatch
      { batch with deleting := true }).Sound := by
  rcases sound.batches id batch found with ⟨rfl, -, coordinated, -⟩
  have accepted : ∀ row ∈ batch.entry.rowWrites, row ∈ cluster.accepted := by
    simpa [succeeded, finished] using coordinated
  have deleted : (cluster.setLog batch.node
      ((cluster.logs batch.node).deleteEntry batch.entry.id)).Sound := by
    apply sound.deleteEntry
    intro other otherFound _
    rw [Option.some.inj (otherFound.symm.trans found)]
    exact accepted
  exact @Sound.proceed _ _ _ deleted batch found rfl rfl
    (Or.inr fun row listed => Or.inr (accepted row listed))

theorem Sound.setReplays {replays : List Replay}
    (replayed : ∀ batch, cluster.batches.lookup batch.entry.id = some batch → batch.node = node →
      ∀ replay ∈ replays, replay.entry.id = batch.entry.id →
        ∀ row ∈ batch.entry.rowWrites, row ∈ replay.remaining ∨ row ∈ cluster.accepted)
    (known : ∀ replay ∈ replays, (cluster.batches.lookup replay.entry.id).isSome) :
    (cluster.setReplays node replays).Sound where
  batches := by
    intro id batch found
    rcases sound.batches id batch found with ⟨rfl, kept, coordinated, before⟩
    refine ⟨rfl, kept, coordinated, ?_⟩
    by_cases own : batch.node = node
    · simpa [ClusterState.setReplays, own] using replayed batch found own
    · simpa [ClusterState.setReplays, own] using before
  logged := sound.logged
  replaying := by
    intro other replay present
    by_cases same : other = node
    · subst same
      simp only [ClusterState.setReplays, Function.update_self] at present
      exact known replay present
    · simp only [ClusterState.setReplays, ne_eq, same, not_false_eq_true,
        Function.update_of_ne] at present
      exact sound.replaying other replay present

theorem Sound.scan (node : ι) (now : Int64) :
    (cluster.setReplays node (((cluster.logs node).scanStale now).map fun entry =>
      ⟨entry, entry.rowWrites⟩)).Sound := by
  apply sound.setReplays
  · rintro batch found rfl replay present same row listed
    rcases mem_map.mp present with ⟨entry, stale, rfl⟩
    have held := BatchlogManager.getEntry_of_mem_scanStale _ stale
    rcases (sound.batches _ batch found).2.kept with own | accepted
    · left
      simp only at same
      rw [same, own] at held
      rw [← Option.some.inj held]
      exact listed
    · exact Or.inr (accepted row listed)
  · intro replay present
    rcases mem_map.mp present with ⟨entry, stale, rfl⟩
    apply sound.logged node entry.id
    simp [BatchlogManager.getEntry_of_mem_scanStale _ stale]

theorem Sound.replayWrite {succeeds : Bool} {row : RowWrite} {remaining : List RowWrite}
    (pass : cluster.replays node = ⟨entry, row :: remaining⟩ :: later)
    (applied : cluster.Applied replica (.replayWrite node succeeds)) :
    ((cluster.accept (succeeds && replica node row) row).setReplays node
      (⟨entry, remaining⟩ :: later)).Sound := by
  have batches := @batches_accept _ cluster (succeeds && replica node row) row
  have sameIds : ∀ replay ∈ (⟨entry, remaining⟩ :: later : List Replay),
      ∃ old ∈ cluster.replays node, old.entry = replay.entry := by
    intro replay present
    rw [pass]
    rcases mem_cons.mp present with rfl | next
    · exact ⟨_, mem_cons_self, rfl⟩
    · exact ⟨replay, mem_cons_of_mem _ next, rfl⟩
  apply (sound.accept (succeeds && replica node row) row).setReplays
  · rintro batch found rfl replay present same other listed
    rw [batches] at found
    have replayed := (sound.batches _ batch found).2.replayed
    rcases mem_cons.mp present with rfl | next
    · have left := replayed ⟨entry, row :: remaining⟩ (by simp [pass]) same other listed
      rcases left with waiting | given
      · rcases mem_cons.mp waiting with rfl | rest
        · right
          apply mem_accept.mpr
          have written := applied ⟨entry, other :: remaining⟩ (by simp [pass]) other rfl batch
            (same ▸ found) rfl
          apply written.imp_left
          intro both
          exact ⟨by simpa using both, rfl⟩
        · exact Or.inl rest
      · exact Or.inr (mem_accept.mpr (Or.inr given))
    · have left := replayed replay (by simp [pass, next]) same other listed
      exact left.imp_right fun given => mem_accept.mpr (Or.inr given)
  · intro replay present
    rcases sameIds replay present with ⟨old, before, same⟩
    rw [batches, ← same]
    exact sound.replaying node old before

theorem Sound.replayDelete (pass : cluster.replays node = ⟨entry, []⟩ :: later) :
    ((cluster.setLog node ((cluster.logs node).deleteEntry entry.id)).setReplays node
      later).Sound := by
  have deleted : (cluster.setLog node ((cluster.logs node).deleteEntry entry.id)).Sound := by
    apply sound.deleteEntry
    rintro batch found rfl row listed
    rcases sound.batches _ batch found with ⟨named, batchSound⟩
    have left := batchSound.replayed ⟨entry, []⟩ (by simp [pass]) named.symm row listed
    simpa using left
  apply deleted.setReplays
  · rintro batch found rfl replay present
    exact (deleted.batches _ batch found).2.replayed replay (by simp [setLog, pass, present])
  · intro replay present
    exact sound.replaying node replay (by simp [pass, present])

theorem Sound.step {event : Event ι}
    (applied : cluster.Applied replica event) : (cluster.step replica event).Sound := by
  cases event with
  | logBatch node entry =>
    simp only [ClusterState.step]
    split_ifs with known
    · exact sound
    · exact sound.logBatch (by simp_all)
  | deliverWrite id node =>
    simp only [ClusterState.step]
    split
    · rename_i batch found
      split
      · rename_i entry arrives
        split_ifs with own
        · exact sound
        · have sameId : entry.id = id :=
            (received_id arrives).trans (sound.batches id batch found).1
          exact sound.deliverWrite (sameId ▸ found) own
      · exact sound
    · exact sound
  | coordinateWrite id position succeeds =>
    simp only [ClusterState.step]
    split
    · rename_i batch found
      split
      · rename_i row outstanding
        exact sound.coordinateWrite found outstanding succeeds
      · exact sound
    · exact sound
  | deleteBatch id =>
    simp only [ClusterState.step]
    split
    · rename_i batch found
      split_ifs with finished
      · simp only [Bool.and_eq_true, List.isEmpty_iff, Bool.not_eq_true'] at finished
        exact sound.deleteBatch found finished.1 finished.2
      · exact sound
    · exact sound
  | deliverDelete id node =>
    simp only [ClusterState.step]
    split
    · rename_i batch found
      split_ifs with deleting
      · apply sound.deleteEntry
        intro other otherFound own
        rw [Option.some.inj (otherFound.symm.trans found)] at own
        simp [own] at deleting
      · exact sound
    · exact sound
  | scan node now =>
    simp only [ClusterState.step]
    split
    · exact sound.scan node now
    · exact sound
  | replayWrite node succeeds =>
    simp only [ClusterState.step]
    split
    · rename_i entry row remaining later pass
      exact sound.replayWrite replica pass applied
    · exact sound
  | replayDelete node =>
    simp only [ClusterState.step]
    split
    · rename_i entry later pass
      exact sound.replayDelete pass
    · exact sound

end

/-- In a run whose coordinators replay every row on a replica, no logged batch is forgotten. -/
theorem remembered_throughout (staleThreshold : Int64) (events : List (Event ι))
    (run : Runs.Throughout (step replica) (Applied replica) (start staleThreshold) events) :
    Runs.Throughout (step replica) (fun cluster event => (cluster.step replica event).Remembered)
      (start staleThreshold) events :=
  Runs.Throughout.of_invariant (fun _ _ sound applied => sound.step replica applied)
    (fun _ _ sound applied => (sound.step replica applied).remembered)
    (sound_start staleThreshold) run

def loggedRow : Row := ⟨[], [], .live, .withTimestamp 5⟩

def loggedEntry : BatchlogEntry :=
  ⟨⟨List.replicate 16 7, rfl⟩, 0,
    [⟨⟨List.replicate 16 1, rfl⟩, "ks", "t", ⟨0, []⟩, [loggedRow], 5⟩]⟩

def replayedBatch (succeeds : Bool) : List (Event Unit) :=
  [.logBatch () loggedEntry, .coordinateWrite loggedEntry.id 0 false, .scan () 30000,
    .replayWrite () succeeds, .replayDelete ()]

theorem remembered_replayedBatch :
    (((replayedBatch true).foldl (step fun _ _ => true) (start 20000)).logs ()).getEntry
        loggedEntry.id = none ∧
      Runs.Throughout (step fun _ _ => true)
        (fun cluster event => (cluster.step (fun _ _ => true) event).Remembered) (start 20000)
        (replayedBatch true) :=
  ⟨by decide, remembered_throughout _ 20000 (replayedBatch true) (by decide)⟩

theorem not_remembered_replayedBatch :
    ¬ ((replayedBatch false).foldl (step fun _ _ => true) (start 20000)).Remembered := by
  intro remembered
  have found : ((replayedBatch false).foldl (step fun _ _ => true) (start 20000)).batches.lookup
      loggedEntry.id = some ⟨(), loggedEntry, [], true, false⟩ := rfl
  have gone : (((replayedBatch false).foldl (step fun _ _ => true) (start 20000)).logs ()).getEntry
      loggedEntry.id = none := rfl
  have unwritten : ((replayedBatch false).foldl (step fun _ _ => true) (start 20000)).accepted =
      [] := rfl
  rcases remembered loggedEntry.id _ found with ⟨node, held⟩ | accepted
  · simp [gone] at held
  · simp [unwritten, loggedEntry, rowWrites] at accepted

end ClusterState

end Ferrosa.Cluster.Batches
