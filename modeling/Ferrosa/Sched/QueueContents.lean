import Ferrosa.Sched.RunQueue

/-!
# What the run queues hold

Every operation is described by the ids it leaves in the queue, up to order.  The group tree lists
exactly the groups with a queued scan, so that picking a scan never fails.
-/

namespace Ferrosa.Sched

open SortedMap Option List Function

namespace RunQueue

variable (queue : RunQueue)

@[simp]
theorem ids_new (boost : ℕ) : (new boost).ids = [] := rfl

theorem isEmpty_iff : queue.isEmpty ↔ queue.ids = [] := by
  simp [isEmpty, ids, values]

theorem length_ids : queue.ids.length = queue.len := by
  simp [ids, len, values]

theorem ids_enqueue (entity : SchedEntity) :
    (queue.enqueue entity).ids.Perm (entity.id :: queue.ids) := by
  have absent : ∀ vruntime, queue.tree.get? (toLex (vruntime, queue.seq)) = none := by
    intro vruntime
    apply not_isSome_iff_eq_none.mp
    intro present
    have := queue.fresh _ present
    simp at this
  have inserted := (queue.tree.insert_perm_cons_erase
    (toLex (max entity.vruntime (queue.minVruntime - queue.boost), queue.seq))
    { entity with vruntime := max entity.vruntime (queue.minVruntime - queue.boost) }).map
      fun entry => entry.2.id
  rw [erase_of_get?_eq_none (absent _)] at inserted
  simpa [enqueue, ids, values, comp_def] using inserted

variable {entity : SchedEntity}

theorem ids_without {key : ℕ ×ₗ ℕ} (found : (key, entity) ∈ queue.tree.entries) :
    queue.ids.Perm (entity.id :: (queue.without key).ids) := by
  have split := (perm_cons_erase (mem_entries_iff.mp found)).map fun entry => entry.2.id
  simpa [without, ids, values, comp_def] using split

theorem pickNext_eq_none_iff : queue.pickNext = none ↔ queue.ids = [] := by
  rw [pickNext, ids, values]
  cases queue.tree.entries <;> simp

theorem ids_pickNext {rest : RunQueue}
    (picked : queue.pickNext = some (entity, rest)) : queue.ids.Perm (entity.id :: rest.ids) := by
  rw [pickNext] at picked
  cases entries : queue.tree.entries with
  | nil => simp [entries] at picked
  | cons first others =>
    rcases first with ⟨key, least⟩
    simp only [entries, Option.some.injEq, Prod.mk.injEq] at picked
    rcases picked with ⟨rfl, rfl⟩
    exact queue.ids_without (by simp [entries])

theorem ids_removeById {id : ℕ} {rest : RunQueue} (removed : queue.removeById id = some rest) :
    queue.ids.Perm (id :: rest.ids) := by
  rcases map_eq_some_iff.mp removed with ⟨⟨key, entity⟩, found, rfl⟩
  have same : entity.id = id := by simpa using find?_some found
  rw [← same]
  exact queue.ids_without (mem_of_find?_eq_some found)

theorem not_mem_of_removeById {id : ℕ} (kept : queue.removeById id = none) : id ∉ queue.ids := by
  simp only [removeById, map_eq_none_iff, List.find?_eq_none, decide_eq_true_eq] at kept
  simp only [ids, values, List.map_map, List.mem_map, comp_apply, not_exists, not_and]
  exact kept

end RunQueue

namespace GroupRunQueue

variable (queue : GroupRunQueue)

def groupIds (groupId : ℕ) : List ℕ :=
  ((queue.groups.get? groupId).map (·.queries.ids)).getD []

def otherIds (groupId : ℕ) : List ℕ :=
  (queue.groups.erase groupId).entries.flatMap fun entry => entry.2.queries.ids

theorem ids_perm (groupId : ℕ) :
    queue.ids.Perm (queue.groupIds groupId ++ queue.otherIds groupId) := by
  cases found : queue.groups.get? groupId with
  | none => simp [groupIds, otherIds, ids, found, erase_of_get?_eq_none found]
  | some group =>
    have split := (perm_cons_erase found).flatMap_right fun entry => entry.2.queries.ids
    simpa [groupIds, otherIds, ids, found] using split

theorem ids_insert_perm (groupId : ℕ) (group : Group) :
    ((queue.groups.insert groupId group).entries.flatMap fun entry => entry.2.queries.ids).Perm
      (group.queries.ids ++ queue.otherIds groupId) := by
  have split := (queue.groups.insert_perm_cons_erase groupId group).flatMap_right
    fun entry => entry.2.queries.ids
  simpa [otherIds] using split

theorem length_ids : queue.ids.length = queue.len := by
  simp [ids, len, length_flatMap, values, RunQueue.length_ids, comp_def]

theorem groupEntry_ids (groupId groupWeight : ℕ) :
    (queue.groupEntry groupId groupWeight).queries.ids = queue.groupIds groupId := by
  cases found : queue.groups.get? groupId <;> simp [groupEntry, groupIds, found]

theorem ids_enqueue (groupId groupWeight : ℕ) (entity : SchedEntity) :
    (queue.enqueue groupId groupWeight entity).ids.Perm (entity.id :: queue.ids) := by
  have added := (queue.groupEntry groupId groupWeight).queries.ids_enqueue entity
  rw [groupEntry_ids] at added
  have split := (queue.ids_perm groupId).symm.cons entity.id
  have whole := (added.append_right (queue.otherIds groupId)).trans split
  rw [enqueue]
  cases (queue.groupEntry groupId groupWeight).treeKey with
  | some key => exact (queue.ids_insert_perm groupId _).trans whole
  | none => exact (queue.ids_insert_perm groupId _).trans whole

theorem ids_charge (groupId service : ℕ) : (queue.charge groupId service).ids.Perm queue.ids := by
  have split := queue.ids_perm groupId
  cases found : queue.groups.get? groupId with
  | none => simp [charge, found]
  | some group =>
    simp only [groupIds, found, map_some, getD_some] at split
    simp only [charge, found]
    cases group.treeKey with
    | none => exact (queue.ids_insert_perm groupId _).trans split.symm
    | some old => exact (queue.ids_insert_perm groupId _).trans split.symm

theorem findById_eq_some {id groupId : ℕ} {group : Group} {queries : RunQueue}
    (found : queue.findById id = some (groupId, group, queries)) :
    queue.groups.get? groupId = some group ∧ group.queries.removeById id = some queries := by
  rcases exists_of_findSome?_eq_some found with ⟨⟨key, holder⟩, present, search⟩
  rcases map_eq_some_iff.mp search with ⟨rest, without, same⟩
  simp only [Prod.mk.injEq] at same
  rcases same with ⟨rfl, rfl, rfl⟩
  exact ⟨mem_entries_iff.mp present, without⟩

theorem ids_removeById {id : ℕ} {rest : GroupRunQueue}
    (removed : queue.removeById id = some rest) : queue.ids.Perm (id :: rest.ids) := by
  rcases map_eq_some_iff.mp removed with ⟨⟨groupId, group, queries⟩, found, rfl⟩
  rcases queue.findById_eq_some found with ⟨holder, without⟩
  have split := queue.ids_perm groupId
  simp only [groupIds, holder, map_some, getD_some] at split
  have removedHere := (group.queries.ids_removeById without).append_right (queue.otherIds groupId)
  apply (split.trans removedHere).trans
  apply List.Perm.cons
  apply List.Perm.symm
  exact queue.ids_insert_perm groupId _

theorem not_mem_of_removeById {id : ℕ} (kept : queue.removeById id = none) : id ∉ queue.ids := by
  simp only [removeById, findById, map_eq_none_iff, findSome?_eq_none_iff] at kept
  simp only [ids, mem_flatMap, not_exists, not_and]
  intro entry present
  exact entry.2.queries.not_mem_of_removeById (kept entry present)

end GroupRunQueue

/-- A tree lists exactly the keys of a partial map, and new keys are fresh. -/
structure Indexed (tree : SortedMap (ℕ ×ₗ ℕ) ℕ) (keyOf : ℕ → Option (ℕ ×ₗ ℕ)) (seq : ℕ) : Prop where
  fresh : ∀ key, (tree.get? key).isSome → (ofLex key).2 < seq
  lists : ∀ key groupId, tree.get? key = some groupId ↔ keyOf groupId = some key

namespace Indexed

variable {tree : SortedMap (ℕ ×ₗ ℕ) ℕ} {keyOf : ℕ → Option (ℕ ×ₗ ℕ)} {seq groupId : ℕ}

theorem insert (indexed : Indexed tree keyOf seq) (idle : keyOf groupId = none) (vruntime : ℕ) :
    Indexed (tree.insert (toLex (vruntime, seq)) groupId)
      (Function.update keyOf groupId (some (toLex (vruntime, seq)))) (seq + 1) where
  fresh := by
    intro key present
    rw [get?_insert] at present
    split_ifs at present with same
    · simp [same]
    · exact Nat.lt_succ_of_lt (indexed.fresh key present)
  lists := by
    intro key other
    have absent : ∀ holder, keyOf holder ≠ some (toLex (vruntime, seq)) := by
      intro holder holds
      have present := (indexed.lists _ holder).mpr holds
      have := indexed.fresh (toLex (vruntime, seq)) (by simp [present])
      simp at this
    rw [get?_insert]
    by_cases sameKey : key = toLex (vruntime, seq) <;> by_cases sameGroup : other = groupId
    · simp [sameKey, sameGroup]
    · simp [sameKey, sameGroup, Ne.symm sameGroup, absent]
    · simp [sameKey, sameGroup, indexed.lists, idle, Ne.symm sameKey]
    · simp [sameKey, sameGroup, indexed.lists]

theorem erase (indexed : Indexed tree keyOf seq) {key : ℕ ×ₗ ℕ}
    (active : keyOf groupId = some key) :
    Indexed (tree.erase key) (Function.update keyOf groupId none) seq where
  fresh := by
    intro other present
    rw [get?_erase] at present
    split_ifs at present
    · simp at present
    · exact indexed.fresh other present
  lists := by
    intro other holder
    rw [get?_erase]
    by_cases sameKey : other = key <;> by_cases sameGroup : holder = groupId
    · simp [sameKey, sameGroup]
    · have elsewhere : keyOf holder ≠ some key := by
        intro holds
        have both := (indexed.lists key holder).mpr holds
        rw [(indexed.lists key groupId).mpr active] at both
        exact sameGroup (Option.some.inj both).symm
      simp [sameKey, sameGroup, elsewhere]
    · simp [sameKey, sameGroup, indexed.lists, active, Ne.symm sameKey]
    · simp [sameKey, sameGroup, indexed.lists]

end Indexed

namespace GroupRunQueue

variable (queue : GroupRunQueue)

def keyOf (groupId : ℕ) : Option (ℕ ×ₗ ℕ) := (queue.groups.get? groupId).bind (·.treeKey)

structure WellFormed : Prop where
  indexed : Indexed queue.tree queue.keyOf queue.seq
  queued : ∀ groupId, queue.keyOf groupId = none ↔ queue.groupIds groupId = []

theorem wellFormed_new (boost : ℕ) : (new boost).WellFormed where
  indexed := ⟨by simp [new, SortedMap.empty, SortedMap.get?],
    by simp [new, keyOf, SortedMap.empty, get?]⟩
  queued := by simp [new, keyOf, groupIds, SortedMap.empty, get?]

variable {queue} {groupId : ℕ}

section

variable (wellFormed : queue.WellFormed)

include wellFormed

variable {next : GroupRunQueue} {key : ℕ ×ₗ ℕ}

theorem WellFormed.replace {group : Group}
    (groups : next.groups = queue.groups.insert groupId group)
    (indexed : Indexed next.tree (Function.update queue.keyOf groupId group.treeKey) next.seq)
    (queued : group.treeKey = none ↔ group.queries.ids = []) : next.WellFormed := by
  have keys : next.keyOf = Function.update queue.keyOf groupId group.treeKey := by
    funext other
    simp only [keyOf, groups, get?_insert]
    by_cases same : other = groupId
    · simp [same]
    · simp [same, keyOf]
  refine ⟨keys ▸ indexed, ?_⟩
  intro other
  rw [keys, groupIds, groups, get?_insert]
  by_cases same : other = groupId
  · simp [same, queued]
  · simpa [same, groupIds] using wellFormed.queued other

theorem WellFormed.enqueue (groupId groupWeight : ℕ)
    (entity : SchedEntity) : (queue.enqueue groupId groupWeight entity).WellFormed := by
  have key : queue.keyOf groupId = (queue.groupEntry groupId groupWeight).treeKey := by
    cases found : queue.groups.get? groupId <;> simp [keyOf, groupEntry, found]
  have nonempty : ((queue.groupEntry groupId groupWeight).queries.enqueue entity).ids ≠ [] := by
    intro empty
    have added := (queue.groupEntry groupId groupWeight).queries.ids_enqueue entity
    simp [empty] at added
  rw [GroupRunQueue.enqueue]
  cases active : (queue.groupEntry groupId groupWeight).treeKey with
  | some old =>
    apply wellFormed.replace rfl
    · rw [active] at key
      simpa [active, ← key] using wellFormed.indexed
    · simp [nonempty]
  | none =>
    apply wellFormed.replace rfl
    · exact wellFormed.indexed.insert (key.trans active) _
    · simp [nonempty]

theorem WellFormed.charge (groupId service : ℕ) : (queue.charge groupId service).WellFormed := by
  cases found : queue.groups.get? groupId with
  | none => simpa [GroupRunQueue.charge, found] using wellFormed
  | some group =>
    have key : queue.keyOf groupId = group.treeKey := by simp [keyOf, found]
    have queued := wellFormed.queued groupId
    rw [key] at queued
    simp only [groupIds, found, map_some, getD_some] at queued
    simp only [GroupRunQueue.charge, found]
    cases active : group.treeKey with
    | none =>
      apply wellFormed.replace rfl
      · rw [active] at key
        simpa [active, ← key] using wellFormed.indexed
      · simpa [active] using queued
    | some old =>
      apply wellFormed.replace rfl
      · have rekeyed := (wellFormed.indexed.erase (key.trans active)).insert
          (update_self groupId none queue.keyOf)
          (advanceVruntime group.vruntime service group.weight)
        simpa using rekeyed
      · simpa [active] using queued

theorem WellFormed.leave {group : Group}
    {queries : RunQueue} (found : queue.groups.get? groupId = some group)
    (active : group.treeKey = some key) (groups : next.groups = queue.groups.insert groupId
      { group with
        queries := queries
        treeKey := if queries.isEmpty then none else group.treeKey })
    (tree : next.tree = if queries.isEmpty then queue.tree.erase key else queue.tree)
    (seq : next.seq = queue.seq) : next.WellFormed := by
  have keyOf : queue.keyOf groupId = some key := by simp [GroupRunQueue.keyOf, found, active]
  apply wellFormed.replace groups
  · rw [tree, seq]
    by_cases empty : queries.isEmpty
    · simpa [empty] using wellFormed.indexed.erase keyOf
    · simpa [empty, active, ← keyOf] using wellFormed.indexed
  · by_cases empty : queries.isEmpty
    · simp [empty, queries.isEmpty_iff.mp empty]
    · simp [empty, active, ← queries.isEmpty_iff]

theorem WellFormed.removeById {id : ℕ} {rest : GroupRunQueue}
    (removed : queue.removeById id = some rest) : rest.WellFormed := by
  rcases map_eq_some_iff.mp removed with ⟨⟨groupId, group, queries⟩, found, rfl⟩
  rcases queue.findById_eq_some found with ⟨holder, without⟩
  cases active : group.treeKey with
  | none =>
    have empty := (wellFormed.queued groupId).mp (by simp [keyOf, holder, active])
    have shrinks := group.queries.ids_removeById without
    simp only [groupIds, holder, map_some, getD_some] at empty
    simp [empty] at shrinks
  | some key =>
    apply wellFormed.leave holder active
    · rfl
    · simp [active]
    · rfl

theorem WellFormed.first (present : (key, groupId) ∈ queue.tree.entries) :
    ∃ group, queue.groups.get? groupId = some group ∧ group.treeKey = some key ∧
      group.queries.ids ≠ [] := by
  have active := (wellFormed.indexed.lists key groupId).mp (mem_entries_iff.mp present)
  rcases bind_eq_some_iff.mp active with ⟨group, found, isKey⟩
  refine ⟨group, found, isKey, ?_⟩
  intro empty
  have idle := (wellFormed.queued groupId).mpr (by simp [groupIds, found, empty])
  simp [active] at idle

theorem WellFormed.ids_eq_nil (empty : queue.tree.entries = []) : queue.ids = [] := by
  apply flatMap_eq_nil_iff.mpr
  rintro ⟨groupId, group⟩ present
  have found := mem_entries_iff.mp present
  have idle : queue.keyOf groupId = none := by
    apply eq_none_iff_forall_ne_some.mpr
    intro key active
    have listed := mem_entries_iff.mpr ((wellFormed.indexed.lists key groupId).mpr active)
    simp [empty] at listed
  simpa [groupIds, found] using (wellFormed.queued groupId).mp idle

theorem WellFormed.pickNext : (queue.pickNext = .ok (none, queue) ∧ queue.ids = []) ∨
      ∃ picked rest, queue.pickNext = .ok (some picked, rest) ∧ rest.WellFormed ∧
        queue.ids.Perm (picked.entity.id :: rest.ids) := by
  rw [GroupRunQueue.pickNext]
  cases entries : queue.tree.entries with
  | nil => exact Or.inl ⟨rfl, wellFormed.ids_eq_nil entries⟩
  | cons first others =>
    rcases first with ⟨key, groupId⟩
    rcases wellFormed.first (by simp [entries] : (key, groupId) ∈ queue.tree.entries) with
      ⟨group, found, active, nonempty⟩
    have split := queue.ids_perm groupId
    simp only [groupIds, found, map_some, getD_some] at split
    cases picked : group.queries.pickNext with
    | none => exact absurd (group.queries.pickNext_eq_none_iff.mp picked) nonempty
    | some result =>
      rcases result with ⟨entity, queries⟩
      right
      simp only [found, picked]
      refine ⟨_, _, rfl, wellFormed.leave found active rfl rfl rfl, ?_⟩
      have pickedHere := (group.queries.ids_pickNext picked).append_right (queue.otherIds groupId)
      apply (split.trans pickedHere).trans
      apply List.Perm.cons
      apply List.Perm.symm
      exact queue.ids_insert_perm groupId _

theorem WellFormed.peekMin : ∃ least, queue.peekMin = .ok least := by
  rw [GroupRunQueue.peekMin]
  cases entries : queue.tree.entries with
  | nil => exact ⟨none, rfl⟩
  | cons first others =>
    rcases wellFormed.first (by simp [entries] : first ∈ queue.tree.entries) with
      ⟨group, found, -, -⟩
    simp [found]

end

end GroupRunQueue

end Ferrosa.Sched
