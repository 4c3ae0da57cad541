import Ferrosa.Storage.ReadRows

/-!
# Point reads against partition reads

A point read collects the same versions of its row as a partition read.  From an
SSTable without that row it takes nothing, though, not even the partition deletion,
so a deletion that only such SSTables hold does not reach the row.
-/

namespace Ferrosa.Storage

open KeyedFold Option List ColumnOrdinalMapping SSTable

theorem lookup_rowsOf (clustering : Bytes) (partition : Option Partition) :
    lookup Row.clustering clustering (rowsOf partition) =
      partition.bind (fun partition => lookup Row.clustering clustering partition.rows) := by
  cases partition <;> rfl

theorem versionsAt_append (clustering : Bytes) (first second : List Partition) :
    versionsAt clustering (first ++ second) =
      versionsAt clustering first ++ versionsAt clustering second := by
  simp [versionsAt]

theorem versionsAt_filterMap {α : Type} (clustering : Bytes) (fetch : α → Option Partition)
    (xs : List α) :
    versionsAt clustering (xs.filterMap fetch) =
      xs.flatMap (fun x => withKey Row.clustering clustering (rowsOf (fetch x))) := by
  induction xs with
  | nil => rfl
  | cons x rest ih =>
    cases fetched : fetch x with
    | none => simp [filterMap_cons_none fetched, ih, fetched, rowsOf]
    | some partition =>
      rw [filterMap_cons_some fetched, versionsAt_cons, ih]
      simp [fetched, rowsOf]

namespace StoreView

variable (token : Bytes → Int64) (view : StoreView) (key : DecoratedKey) (clustering : Bytes)

abbrev mappingOf (sstable : SSTable) : ColumnOrdinalMapping :=
  ColumnOrdinalMapping.forHeader view.schema sstable.header

theorem readSources_zero : view.readSources key 0 none = view.memtables.filterMap (·.get key) ++
      view.sstables.filterMap (fun sstable =>
        (sstable.get key).map (view.mappingOf sstable).remapPartition) := by
  simp [readSources, clonePartitionLimited, getPartitionLimitedRows, probe_eq]

variable {source : Partition} {timestamp : Int64}

theorem sorted_of_mem_readSources (present : source ∈ view.readSources key 0 none) :
    StrictlySorted Row.clustering source.rows := by
  rw [readSources_zero, mem_append, mem_filterMap, mem_filterMap] at present
  rcases present with ⟨memtable, _, found⟩ | ⟨sstable, _, found⟩
  · exact memtable.rowsSorted source (mem_of_lookup found).1
  · rcases map_eq_some_iff.mp found with ⟨partition, stored, rfl⟩
    exact (sstable.rowsSorted partition (mem_of_lookup stored).1).map
      (view.mappingOf sstable).remapRegularRow_clustering

theorem sorted_of_mem_pointSources (present : source ∈ view.pointSources key clustering) :
    StrictlySorted Row.clustering source.rows := by
  rw [pointSources, mem_append, mem_filterMap, mem_filterMap] at present
  rcases present with ⟨memtable, _, found⟩ | ⟨sstable, _, found⟩
  · rcases bind_eq_some_iff.mp found with ⟨partition, stored, matching⟩
    simp only [partitionWithMatchingClustering] at matching
    split_ifs at matching
    rw [← Option.some.inj matching]
    exact (memtable.rowsSorted partition (mem_of_lookup stored).1).filter _
  · rw [getClusteringRow_eq] at found
    rcases map_eq_some_iff.mp found with ⟨partition, stored, rfl⟩
    rcases bind_eq_some_iff.mp stored with ⟨whole, _, single⟩
    rcases map_eq_some_iff.mp single with ⟨row, _, rfl⟩
    exact pairwise_singleton _ _

theorem versionsAt_pointSources : versionsAt clustering (view.pointSources key clustering) =
      versionsAt clustering (view.readSources key 0 none) := by
  rw [readSources_zero, pointSources, versionsAt_append, versionsAt_append, versionsAt_filterMap,
    versionsAt_filterMap, versionsAt_filterMap, versionsAt_filterMap]
  congr 1
  · apply List.flatMap_congr
    intro memtable _
    cases memtable.get key with
    | none => rfl
    | some partition =>
      simp only [bind_some, partitionWithMatchingClustering]
      split_ifs with dropped
      · simp only [Bool.and_eq_true, List.isEmpty_iff] at dropped
        simp [rowsOf, dropped.1.1]
      · simp [rowsOf]
  · apply List.flatMap_congr
    intro sstable _
    rw [getClusteringRow_eq]
    cases found : sstable.get key with
    | none => rfl
    | some partition =>
      have sorted := sstable.rowsSorted partition (mem_of_lookup found).1
      have keeps := (view.mappingOf sstable).remapRegularRow_clustering
      simp only [bind_some, map_some, rowsOf, elim_some, remapPartition]
      rw [withKey_map keeps, sorted.withKey_eq]
      cases atClustering : lookup Row.clustering clustering partition.rows with
      | none => rfl
      | some row =>
        simp [remapPartition, withKey_cons, (mem_of_lookup atClustering).2]

theorem forall_pointSources_iff : (∀ source ∈ view.pointSources key clustering,
        source.deletion.markedForDeleteAt ≤ timestamp) ↔
      (∀ memtable ∈ view.memtables, ∀ partition ∈ memtable.get key,
        partition.deletion.markedForDeleteAt ≤ timestamp) ∧
      ∀ sstable ∈ view.sstables, ∀ partition ∈ sstable.get key,
        (∃ row ∈ partition.rows, row.clustering = clustering) →
          partition.deletion.markedForDeleteAt ≤ timestamp := by
  rw [pointSources, forall_mem_append, forall_mem_filterMap, forall_mem_filterMap]
  refine and_congr (forall₂_congr fun memtable _ => ?_) (forall₂_congr fun sstable _ => ?_)
  · cases memtable.get key with
    | none => simp
    | some partition =>
      by_cases isLive : partition.deletion.isLive
      · simp [partitionWithMatchingClustering, DeletionTime.le_of_isLive isLive timestamp]
      · simp [partitionWithMatchingClustering, isLive]
  · rw [getClusteringRow_eq]
    cases found : sstable.get key with
    | none => simp
    | some partition =>
      have sorted := sstable.rowsSorted partition (mem_of_lookup found).1
      simp only [bind_some, map_eq_some_iff, sorted.lookup_eq_some_iff]
      constructor
      · rintro seen _ ⟨⟩ ⟨row, atClustering⟩
        exact seen ((view.mappingOf sstable).remapPartition { partition with rows := [row] })
          ⟨_, ⟨row, atClustering, rfl⟩, rfl⟩
      · rintro seen _ ⟨_, ⟨row, atClustering, rfl⟩, rfl⟩
        exact seen partition rfl ⟨row, atClustering⟩

theorem forall_readSources_iff :
    (∀ source ∈ view.readSources key 0 none, source.deletion.markedForDeleteAt ≤ timestamp) ↔
      (∀ memtable ∈ view.memtables, ∀ partition ∈ memtable.get key,
        partition.deletion.markedForDeleteAt ≤ timestamp) ∧
      ∀ sstable ∈ view.sstables, ∀ partition ∈ sstable.get key,
        partition.deletion.markedForDeleteAt ≤ timestamp := by
  rw [readSources_zero, forall_mem_append, forall_mem_filterMap, forall_mem_filterMap]
  refine and_congr Iff.rfl (forall₂_congr fun sstable _ => ?_)
  cases sstable.get key <;> simp [remapPartition]

/-- A point read returns the row that a partition read shows at its clustering. -/
def PointReadAgrees : Prop :=
  (view.readClusteringRow token key clustering).bind
      (fun partition => lookup Row.clustering clustering partition.rows) =
    (view.read token key).bind (fun partition => lookup Row.clustering clustering partition.rows)

/-- A row that survives the deletions of the memtables, of the SSTables that hold it and of the
table survives those of the other SSTables. -/
def DeletionsReachRow : Prop :=
  ∀ newest ∈ ((versionsAt clustering (view.readSources key 0 none)).map
      Row.primaryKeyLiveness).argmax LivenessInfo.timestamp,
    (view.tableDeletion token).markedForDeleteAt ≤ newest.timestamp →
    (∀ memtable ∈ view.memtables, ∀ partition ∈ memtable.get key,
      partition.deletion.markedForDeleteAt ≤ newest.timestamp) →
    (∀ sstable ∈ view.sstables, ∀ partition ∈ sstable.get key,
      (∃ row ∈ partition.rows, row.clustering = clustering) →
        partition.deletion.markedForDeleteAt ≤ newest.timestamp) →
    ∀ sstable ∈ view.sstables, ∀ partition ∈ sstable.get key,
      partition.deletion.markedForDeleteAt ≤ newest.timestamp

theorem lookup_read : lookup Row.clustering clustering (rowsOf (view.read token key)) =
      visibleRow (view.tableDeletion token) (view.readSources key 0 none) clustering := by
  have rows := readRows_merge (view.tableDeletion token)
    (fun source => view.sorted_of_mem_readSources key)
  exact rows.rowAt clustering

theorem lookup_readClusteringRow :
    lookup Row.clustering clustering (rowsOf (view.readClusteringRow token key clustering)) =
      visibleRow (view.tableDeletion token) (view.pointSources key clustering) clustering := by
  have rows := readRows_merge (view.tableDeletion token)
    (fun source => view.sorted_of_mem_pointSources key clustering)
  rw [← rows.rowAt clustering, lookup_rowsOf, lookup_rowsOf, readClusteringRow]
  cases mergePartitions (view.pointSources key clustering) with
  | none => rfl
  | some merged =>
    simp only [bind_some, map_some]
    split_ifs with empty
    · rw [List.isEmpty_iff] at empty
      rw [← lookup_withKey, empty]
      rfl
    · simp

/-- A point read agrees with the partition read exactly when no SSTable without the row holds
a deletion that matters for it. -/
theorem pointReadAgrees_iff :
    view.PointReadAgrees token key clustering ↔ view.DeletionsReachRow token key clustering := by
  rw [PointReadAgrees, ← lookup_rowsOf, ← lookup_rowsOf, lookup_read, lookup_readClusteringRow,
    visibleRow, visibleRow, versionsAt_pointSources, DeletionsReachRow,
    ← reduce_mergeRows_liveness]
  cases reduce mergeRows (versionsAt clustering (view.readSources key 0 none)) with
  | none => simp
  | some folded =>
    simp only [filter_some, Survives, forall_pointSources_iff, forall_readSources_iff,
      map_some, mem_some_iff, decide_eq_true_eq, forall_eq']
    constructor
    · intro agree table memtables holding
      rw [if_pos ⟨table, memtables, holding⟩] at agree
      split_ifs at agree with seen
      · exact seen.2.2
      · simp at agree
    · intro reach
      by_cases point : (view.tableDeletion token).markedForDeleteAt ≤
          folded.primaryKeyLiveness.timestamp ∧
          (∀ memtable ∈ view.memtables, ∀ partition ∈ memtable.get key,
            partition.deletion.markedForDeleteAt ≤ folded.primaryKeyLiveness.timestamp) ∧
          ∀ sstable ∈ view.sstables, ∀ partition ∈ sstable.get key,
            (∃ row ∈ partition.rows, row.clustering = clustering) →
              partition.deletion.markedForDeleteAt ≤ folded.primaryKeyLiveness.timestamp
      · rw [if_pos point, if_pos ⟨point.1, point.2.1, reach point.1 point.2.1 point.2.2⟩]
      · rw [if_neg point, if_neg]
        rintro ⟨table, memtables, sstables⟩
        exact point ⟨table, memtables, fun sstable inView partition found _ =>
          sstables sstable inView partition found⟩

end StoreView

def SSTable.plain (header : SerializationHeader) (table : PartitionTable) : SSTable where
  toPartitionTable := table
  header := header
  minToken := Int64.minValue
  maxToken := Int64.maxValue
  mayContainKey := fun _ => true
  rowIndex := fun _ => none
  inBounds := fun partition _ =>
    ⟨Int64.minValue_le partition.key.token, Int64.le_maxValue partition.key.token⟩
  noFalseNegative := fun _ _ => rfl
  indexed := by simp

def deletedElsewhereView : StoreView where
  schema := ⟨[], [], []⟩
  active := ⟨[], by decide, by decide⟩
  flushing := []
  sstables :=
    [.plain ⟨[], []⟩ ⟨[⟨⟨0, [1]⟩, ⟨10, 0⟩, none, []⟩], by decide, by decide⟩,
      .plain ⟨[], []⟩ ⟨[⟨⟨0, [1]⟩, .live, none, [⟨[1], [], .live, .withTimestamp 5⟩]⟩],
        by decide, by decide⟩]

/-- The partition read hides the deleted row, the point read returns it. -/
theorem not_pointReadAgrees_deletedElsewhere :
    ¬deletedElsewhereView.PointReadAgrees (fun _ => 0) ⟨0, [1]⟩ [1] := by
  unfold StoreView.PointReadAgrees
  decide

end Ferrosa.Storage
