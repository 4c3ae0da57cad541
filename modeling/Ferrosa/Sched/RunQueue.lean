import Ferrosa.Lib.SortedMap

/-!
# The fair run queues of the scan scheduler

A run queue orders scans by virtual runtime, then by arrival.  The group run queue orders the
groups that have a queued scan in the same way, and keeps one run queue for each group.
-/

namespace Ferrosa.Sched

def u64Max : ℕ := 2 ^ 64 - 1

inductive SchedClass where
  | foreground
  | bulk
deriving DecidableEq, Repr

def weightForClass : SchedClass → ℕ
  | .foreground => 1024
  | .bulk => 256

structure SchedEntity where
  id : ℕ
  vruntime : ℕ
  weight : ℕ
deriving DecidableEq, Repr

def SchedEntity.new (id : ℕ) (class_ : SchedClass) : SchedEntity :=
  ⟨id, 0, weightForClass class_⟩

def baseWeight : ℕ := 1024

def advanceVruntime (vruntime service weight : ℕ) : ℕ :=
  let delta := min (service * baseWeight) u64Max / max weight 1
  min (vruntime + if 0 < service then max delta 1 else delta) u64Max

/-- The second part of a key is the arrival number. -/
structure RunQueue where
  tree : SortedMap (ℕ ×ₗ ℕ) SchedEntity
  minVruntime : ℕ
  seq : ℕ
  boost : ℕ
  fresh : ∀ key, (tree.get? key).isSome → (ofLex key).2 < seq

namespace RunQueue

def new (boost : ℕ) : RunQueue where
  tree := .empty
  minVruntime := 0
  seq := 0
  boost := boost
  fresh := by simp [SortedMap.empty, SortedMap.get?]

variable (queue : RunQueue)

def enqueue (entity : SchedEntity) : RunQueue :=
  let vruntime := max entity.vruntime (queue.minVruntime - queue.boost)
  { queue with
    tree := queue.tree.insert (toLex (vruntime, queue.seq)) { entity with vruntime := vruntime }
    seq := queue.seq + 1
    fresh := by
      intro key present
      rw [SortedMap.get?_insert] at present
      split_ifs at present with same
      · simp [same]
      · exact Nat.lt_succ_of_lt (queue.fresh key present) }

def without (key : ℕ ×ₗ ℕ) : RunQueue :=
  { queue with
    tree := queue.tree.erase key
    fresh := by
      intro other present
      rw [SortedMap.get?_erase] at present
      split_ifs at present
      · simp at present
      · exact queue.fresh other present }

def pickNext : Option (SchedEntity × RunQueue) :=
  match queue.tree.entries with
  | [] => none
  | (key, entity) :: _ =>
    some (entity, { queue.without key with
      minVruntime := max queue.minVruntime entity.vruntime })

def peekMinVruntime : Option ℕ := queue.tree.keys.head?.map fun key => (ofLex key).1

def removeById (id : ℕ) : Option RunQueue :=
  (queue.tree.entries.find? fun entry => entry.2.id = id).map fun entry => queue.without entry.1

def len : ℕ := queue.tree.entries.length

def isEmpty : Bool := queue.tree.entries.isEmpty

def ids : List ℕ := queue.tree.values.map (·.id)

end RunQueue

structure Group where
  vruntime : ℕ
  weight : ℕ
  queries : RunQueue
  treeKey : Option (ℕ ×ₗ ℕ)

structure GroupRunQueue where
  tree : SortedMap (ℕ ×ₗ ℕ) ℕ
  groups : SortedMap ℕ Group
  minVruntime : ℕ
  seq : ℕ
  boost : ℕ

structure Picked where
  group : ℕ
  groupWeight : ℕ
  entity : SchedEntity
deriving DecidableEq, Repr

/-- What the queue expects of a group in its tree. -/
inductive Panic where
  | groupInTreeExists
  | groupInTreeHasQuery
deriving DecidableEq, Repr

namespace GroupRunQueue

def new (boost : ℕ) : GroupRunQueue := ⟨.empty, .empty, 0, 0, boost⟩

variable (queue : GroupRunQueue)

def floor : ℕ := queue.minVruntime - queue.boost

def groupEntry (groupId groupWeight : ℕ) : Group :=
  (queue.groups.get? groupId).getD ⟨queue.floor, max groupWeight 1, .new queue.boost, none⟩

def enqueue (groupId groupWeight : ℕ) (entity : SchedEntity) : GroupRunQueue :=
  let group := queue.groupEntry groupId groupWeight
  let queries := group.queries.enqueue entity
  match group.treeKey with
  | some _ =>
    { queue with groups := queue.groups.insert groupId { group with queries := queries } }
  | none =>
    let vruntime := max group.vruntime queue.floor
    let key := toLex (vruntime, queue.seq)
    { queue with
      tree := queue.tree.insert key groupId
      groups := queue.groups.insert groupId
        { group with vruntime := vruntime, queries := queries, treeKey := some key }
      seq := queue.seq + 1 }

def pickNext : Except Panic (Option Picked × GroupRunQueue) :=
  match queue.tree.entries with
  | [] => .ok (none, queue)
  | (key, groupId) :: _ =>
    match queue.groups.get? groupId with
    | none => .error .groupInTreeExists
    | some group =>
      match group.queries.pickNext with
      | none => .error .groupInTreeHasQuery
      | some (entity, queries) =>
        .ok (some ⟨groupId, group.weight, entity⟩, { queue with
            tree := if queries.isEmpty then queue.tree.erase key else queue.tree
            groups := queue.groups.insert groupId { group with
                queries := queries
                treeKey := if queries.isEmpty then none else group.treeKey }
            minVruntime := max queue.minVruntime group.vruntime })

def peekMin : Except Panic (Option (ℕ × ℕ)) :=
  match queue.tree.entries with
  | [] => .ok none
  | (key, groupId) :: _ =>
    match queue.groups.get? groupId with
    | none => .error .groupInTreeExists
    | some group =>
      .ok (group.queries.peekMinVruntime.map fun vruntime => ((ofLex key).1, vruntime))

def charge (groupId service : ℕ) : GroupRunQueue :=
  match queue.groups.get? groupId with
  | none => queue
  | some group =>
    let vruntime := advanceVruntime group.vruntime service group.weight
    match group.treeKey with
    | none =>
      { queue with groups := queue.groups.insert groupId { group with vruntime := vruntime } }
    | some old =>
      let key := toLex (vruntime, queue.seq)
      { queue with
        tree := (queue.tree.erase old).insert key groupId
        groups := queue.groups.insert groupId
          { group with vruntime := vruntime, treeKey := some key }
        seq := queue.seq + 1 }

def groupVruntime (groupId : ℕ) : Option ℕ := (queue.groups.get? groupId).map (·.vruntime)

def len : ℕ := (queue.groups.values.map (·.queries.len)).sum

/-- The first group that has a unit with the id, and its queries without the unit. -/
def findById (id : ℕ) : Option (ℕ × Group × RunQueue) :=
  queue.groups.entries.findSome? fun entry =>
    (entry.2.queries.removeById id).map fun queries => (entry.1, entry.2, queries)

/-- `none` if no unit has the id. -/
def removeById (id : ℕ) : Option GroupRunQueue :=
  (queue.findById id).map fun (groupId, group, queries) =>
    { queue with
      tree :=
        match group.treeKey with
        | some key => if queries.isEmpty then queue.tree.erase key else queue.tree
        | none => queue.tree
      groups := queue.groups.insert groupId { group with
          queries := queries
          treeKey := if queries.isEmpty then none else group.treeKey } }

def ids : List ℕ := queue.groups.entries.flatMap fun entry => entry.2.queries.ids

end GroupRunQueue

end Ferrosa.Sched
