import Ferrosa.Cluster.GatheredReads
import Ferrosa.Storage.SettledPartitions

/-!
# What a quorum read returns

Replicas answer with the first rows of their own slice, so the coordinator merges partitions
that were cut before the merge.  Its rows are the first rows of the merge of the whole
partitions exactly when no row among those needs a version that was cut off, as in a limited
read of several sources.
-/

namespace Ferrosa.Cluster

open Storage KeyedFold List Option ReadRequest

namespace PartitionReadSlice

variable (slice : PartitionReadSlice)

def cut (n : ℕ) (partition : Partition) : Partition :=
  if n = 0 then { partition with rows := rowsAfter slice.startClustering partition.rows }
  else cutSource slice.startClustering n partition

def pageRows : ℕ := min slice.rowLimit u32Max

def requestedRows : ℕ :=
  if slice.startClustering.isNone ∧ 0 < slice.pageRows then slice.pageRows + 1
  else slice.pageRows

variable {slice}

theorem cut_rows (n : ℕ) (partition : Partition) : (slice.cut n partition).rows =
      Coordinator.truncateRows n (rowsAfter slice.startClustering partition.rows) := by
  unfold cut Coordinator.truncateRows
  by_cases unlimited : n = 0
  · simp [unlimited]
  · rw [if_neg unlimited, if_pos (by omega)]
    rfl

theorem cut_eq_iff {n m : ℕ} {left right : Partition} : slice.cut n left = slice.cut m right ↔
      left.key = right.key ∧ left.deletion = right.deletion ∧ left.staticRow = right.staticRow ∧
        (slice.cut n left).rows = (slice.cut m right).rows := by
  have fields : ∀ n partition, slice.cut n partition =
      { partition with rows := (slice.cut n partition).rows } := by
    intro n partition
    unfold cut
    split_ifs <;> rfl
  rw [fields n left, fields m right]
  simp

theorem cut_rows_sublist (n : ℕ) (partition : Partition) :
    (slice.cut n partition).rows.Sublist partition.rows := by
  rw [cut_rows, Coordinator.truncateRows]
  split_ifs
  · exact (take_sublist _ _).trans filter_sublist
  · exact filter_sublist

theorem cut_pageRows_of_cut_requestedRows {left right : Partition}
    (same : slice.cut slice.requestedRows left = slice.cut slice.pageRows right) :
    slice.cut slice.pageRows left = slice.cut slice.pageRows right := by
  by_cases oneMore : slice.startClustering.isNone ∧ 0 < slice.pageRows
  · rw [requestedRows, if_pos oneMore] at same
    rw [cut_eq_iff] at same ⊢
    refine ⟨same.1, same.2.1, same.2.2.1, ?_⟩
    rw [← same.2.2.2]
    have sameRows := same.2.2.2
    rw [cut_rows, cut_rows] at sameRows ⊢
    simp only [Coordinator.truncateRows, oneMore.2, if_true, Nat.succ_pos] at sameRows ⊢
    have few : (rowsAfter slice.startClustering left.rows).length ≤ slice.pageRows := by
      have lengths := congrArg List.length sameRows
      simp only [length_take] at lengths
      omega
    rw [take_of_length_le few, take_of_length_le (by omega)]
  · rwa [requestedRows, if_neg oneMore] at same

theorem settled_cut {n : ℕ} {partition : Partition} (settled : partition.Settled) :
    (slice.cut n partition).Settled := by
  have sublist : (slice.cut n partition).rows.Sublist partition.rows := cut_rows_sublist n partition
  unfold cut at sublist ⊢
  split_ifs at sublist ⊢
  · exact settled.of_sublist sublist
  · exact settled.of_sublist sublist

end PartitionReadSlice

section Answers

variable (token : Bytes → Int64) (key : DecoratedKey) (slice : PartitionReadSlice)

/-- The limited reads of a store give the first rows of the slice of its whole partition, and a
page has room for them. -/
structure OwnFirstRows (view : StoreView) : Prop where
  localRead : view.readWithView token key slice.rowLimit slice.startClustering =
    (view.read token key).map (slice.cut slice.rowLimit)
  requested : view.readWithView token key slice.requestedRows slice.startClustering =
    (view.read token key).map (slice.cut slice.requestedRows)
  page : (view.read token key).map (slice.cut slice.pageRows) =
    (view.read token key).map (slice.cut slice.rowLimit)

variable {token key slice} {view : StoreView}

theorem page_fst (partition : Partition) : ((partitionReadRequest slice false).page partition).1 =
      { partition with rows := Coordinator.truncateRows slice.pageRows partition.rows } := by
  unfold ReadRequest.page Coordinator.truncateRows
  simp only [partitionReadRequest, pageOffset, getD_none, Nat.zero_add,
    PartitionReadSlice.pageRows]
  by_cases limited : 0 < min slice.rowLimit u32Max
  · by_cases more : partition.rows.length > min slice.rowLimit u32Max
    · rw [min_eq_left more.le]
      simp [limited, more]
    · have whole : partition.rows.take (min slice.rowLimit u32Max) = partition.rows :=
        take_of_length_le (by omega)
      simp [more, whole]
  · simp [limited]

theorem page_cut_requestedRows (partition : Partition) :
    ((partitionReadRequest slice false).page (slice.cut slice.requestedRows partition)).1 =
      slice.cut slice.pageRows partition := by
  have rows : Coordinator.truncateRows slice.pageRows
      (slice.cut slice.requestedRows partition).rows = (slice.cut slice.pageRows partition).rows := by
    rw [PartitionReadSlice.cut_rows, PartitionReadSlice.cut_rows]
    unfold Coordinator.truncateRows PartitionReadSlice.requestedRows
    by_cases limited : 0 < slice.pageRows
    · split_ifs <;> simp [take_take]
    · simp [limited]
  rw [page_fst, rows]
  unfold PartitionReadSlice.cut
  split_ifs <;> rfl

section

variable (ranged : slice.clustering = none) (own : OwnFirstRows token key slice view)

include ranged own

theorem readLocalPartition_eq : readLocalPartition token key view slice =
      (view.read token key).map (slice.cut slice.rowLimit) := by
  rw [← own.localRead, readLocalPartition, ranged]
  cases slice.startClustering <;> rfl

theorem storageRead_eq (digestOnly : Bool) :
    (partitionReadRequest slice digestOnly).storageRead token key view =
      (view.read token key).map (slice.cut slice.requestedRows) := by
  rw [← own.requested]
  unfold storageRead PartitionReadSlice.requestedRows PartitionReadSlice.pageRows
  simp only [partitionReadRequest, ranged, pageOffset, getD_none]
  cases slice.startClustering with
  | some start => rfl
  | none =>
    by_cases limited : 0 < min slice.rowLimit u32Max
    · simp [limited, StoreView.readLimitedRows]
    · have unlimited : min slice.rowLimit u32Max = 0 := by omega
      simp [unlimited, StoreView.read]

variable {crc : Bytes → UInt32} {response : ReadResponse}

theorem handleReadRequest_full
    (handled : handleReadRequest crc token key view (partitionReadRequest slice false) =
      some response) :
    (if response.found then response.partition else none) =
      (view.read token key).map (slice.cut slice.rowLimit) := by
  rw [← own.page]
  rw [handleReadRequest, ite_none_left_eq_some, storageRead_eq ranged own] at handled
  replace handled := handled.2
  cases held : view.read token key with
  | none =>
    rw [held] at handled
    obtain rfl := Option.some.inj handled
    rfl
  | some partition =>
    rw [held] at handled
    obtain rfl := Option.some.inj handled
    exact congrArg some (page_cut_requestedRows partition)

theorem handleReadRequest_digest
    (handled : handleReadRequest crc token key view (partitionReadRequest slice true) =
      some response) :
    response.digest = (view.read token key).map
          (fun held => computePartitionDigest crc (slice.cut slice.requestedRows held)) ∧
      (view.read token key = none → response.timestamp = Int64.minValue) := by
  rw [handleReadRequest, ite_none_left_eq_some, storageRead_eq ranged own] at handled
  replace handled := handled.2
  cases held : view.read token key with
  | none =>
    rw [held] at handled
    obtain rfl := Option.some.inj handled
    exact ⟨rfl, fun _ => rfl⟩
  | some partition =>
    rw [held] at handled
    obtain rfl := Option.some.inj handled
    refine ⟨?_, by simp⟩
    simp [ReadRequest.page, partitionReadRequest]

end

end Answers

namespace Coordinator

section Held

variable (coordinator : Coordinator) (crc : Bytes → UInt32) (token : Bytes → Int64)
  (stores : HostId → StoreView) (key : DecoratedKey) (slice : PartitionReadSlice)

def storeOf (replica : NodeId) : Option HostId :=
  if coordinator.isLocal replica then some coordinator.localHostId
  else coordinator.hostOf replica

def heldBy (replica : NodeId) : Option Partition :=
  (coordinator.storeOf replica).bind fun host => (stores host).read token key

def digested : Set Partition :=
  {partition | ∃ host held n, (stores host).read token key = some held ∧
    (n = slice.rowLimit ∨ n = slice.requestedRows) ∧ partition = slice.cut n held}

/-- Every replica answers with its own first rows of the slice, and no two of the partitions it
may send a digest of collide. -/
structure ReliableReplicas : Prop where
  sorted : ∀ host, ∀ source ∈ (stores host).readSources key 0 none, source.Sorted
  own : ∀ host, OwnFirstRows token key slice (stores host)
  fits : ∀ partition ∈ digested token stores key slice, FitsWire partition
  noCollision : Set.InjOn crc (digestInput '' digested token stores key slice)

end Held

variable {coordinator : Coordinator} {crc : Bytes → UInt32} {token : Bytes → Int64}
  {stores : HostId → StoreView} {key : DecoratedKey} {slice : PartitionReadSlice}
  (ranged : slice.clustering = none) (reliable : ReliableReplicas crc token stores key slice)

include ranged reliable

variable {hostId : Option HostId} {partitions : List Partition}

theorem fullReadAttempt_eq {replica : NodeId} {partition : Option Partition}
    (answered : coordinator.fullReadAttempt crc token stores key slice replica =
      .full partition hostId) :
    partition = (coordinator.heldBy token stores key replica).map (slice.cut slice.rowLimit) := by
  unfold fullReadAttempt at answered
  unfold heldBy storeOf
  split_ifs at answered ⊢
  · injection answered with isPartition
    rw [← isPartition]
    exact readLocalPartition_eq ranged (reliable.own _)
  · split at answered
    · cases answered
    · rename_i response host reached
      injection answered with isPartition
      unfold remotePartitionRead at reached
      cases isHost : coordinator.hostOf replica with
      | none => simp [isHost] at reached
      | some host =>
        simp only [isHost, map_eq_some_iff, Prod.mk.injEq] at reached
        rcases reached with ⟨_, handled, rfl, rfl⟩
        rw [← isPartition]
        exact handleReadRequest_full ranged (reliable.own _) handled

theorem digestReadAttempt_eq {replica : NodeId} {digest : Option UInt32} {timestamp : Int64}
    (answered : coordinator.digestReadAttempt crc token stores key slice replica =
      .digest digest timestamp hostId) :
    (∃ n, (n = slice.rowLimit ∨ n = slice.requestedRows) ∧
        digest = (coordinator.heldBy token stores key replica).map
          (fun held => computePartitionDigest crc (slice.cut n held))) ∧
      (coordinator.heldBy token stores key replica = none → timestamp = Int64.minValue) ∧
      ∀ host ∈ hostId,
        coordinator.heldBy token stores key replica = (stores host).read token key := by
  unfold digestReadAttempt at answered
  unfold heldBy storeOf
  split_ifs at answered ⊢
  · have isLocal : coordinator.localRead token stores key slice =
        ((stores coordinator.localHostId).read token key).map (slice.cut slice.rowLimit) :=
      readLocalPartition_eq ranged (reliable.own _)
    simp only [bind_some]
    cases held : (stores coordinator.localHostId).read token key with
    | none =>
      simp only [isLocal, held, map_none, ReplicaRead.digest.injEq] at answered
      rcases answered with ⟨rfl, rfl, rfl⟩
      exact ⟨⟨slice.rowLimit, Or.inl rfl, rfl⟩, fun _ => rfl, by simp⟩
    | some partition =>
      simp only [isLocal, held, map_some, ReplicaRead.digest.injEq] at answered
      rcases answered with ⟨rfl, _, rfl⟩
      exact ⟨⟨slice.rowLimit, Or.inl rfl, rfl⟩, by simp, by simp⟩
  · split at answered
    · cases answered
    · rename_i response host reached
      injection answered with isDigest isTimestamp isHostId
      unfold remotePartitionRead at reached
      cases isHost : coordinator.hostOf replica with
      | none => simp [isHost] at reached
      | some host =>
        simp only [isHost, map_eq_some_iff, Prod.mk.injEq] at reached
        rcases reached with ⟨_, handled, rfl, rfl⟩
        rcases handleReadRequest_digest ranged (reliable.own _) handled with ⟨digestOf, minimal⟩
        subst isDigest isTimestamp isHostId
        exact ⟨⟨slice.requestedRows, Or.inr rfl, digestOf⟩, minimal, by simp⟩

theorem fullRefetch_eq {network : Network} {host : HostId} {answer : Option Partition}
    (fetched : fullRefetch crc token stores key slice network host = .ok answer) :
    answer = ((stores host).read token key).map (slice.cut slice.rowLimit) := by
  unfold fullRefetch at fetched
  split at fetched
  · cases fetched
  · split at fetched
    · cases fetched
    · rename_i response handled
      rw [← Except.ok.inj fetched]
      exact handleReadRequest_full ranged (reliable.own host) handled

omit ranged in
theorem cut_eq_of_digest_eq {leftHost rightHost : HostId} {left right : Partition} {n : ℕ}
    (heldLeft : (stores leftHost).read token key = some left)
    (heldRight : (stores rightHost).read token key = some right)
    (asked : n = slice.rowLimit ∨ n = slice.requestedRows)
    (same : computePartitionDigest crc (slice.cut n left) =
      computePartitionDigest crc (slice.cut slice.rowLimit right)) :
    slice.cut slice.rowLimit left = slice.cut slice.rowLimit right := by
  have sameCut : slice.cut n left = slice.cut slice.rowLimit right :=
    computePartitionDigest_injOn reliable.fits reliable.noCollision
      ⟨leftHost, left, n, heldLeft, asked, rfl⟩
      ⟨rightHost, right, slice.rowLimit, heldRight, Or.inl rfl, rfl⟩ same
  have pageLeft := (reliable.own leftHost).page
  have pageRight := (reliable.own rightHost).page
  rw [heldLeft] at pageLeft
  rw [heldRight] at pageRight
  rcases asked with rfl | rfl
  · exact sameCut
  · rw [← Option.some.inj pageRight] at sameCut ⊢
    rw [← Option.some.inj pageLeft]
    exact PartitionReadSlice.cut_pageRows_of_cut_requestedRows sameCut

section Gathered

variable {reads : QuorumReads} (answered : coordinator.Answered crc token stores key slice reads)

include answered

theorem fullPartition_eq : reads.full.partition =
    (coordinator.heldBy token stores key reads.full.replica).map (slice.cut slice.rowLimit) :=
  fullReadAttempt_eq ranged reliable answered.full

theorem cut_heldBy_of_digest_eq {read : DigestRead} (present : read ∈ reads.digests)
    (same : read.digest = reads.full.digest) :
    (coordinator.heldBy token stores key read.replica).map (slice.cut slice.rowLimit) =
      reads.full.partition := by
  have isFull := fullPartition_eq ranged reliable answered
  rcases digestReadAttempt_eq ranged reliable (answered.digests read present) with
    ⟨⟨n, asked, isDigest⟩, _, _⟩
  rw [isDigest, answered.fullDigest, isFull, Option.map_map] at same
  rw [isFull]
  cases heldFull : coordinator.heldBy token stores key reads.full.replica with
  | none =>
    rw [heldFull] at same
    simpa using same
  | some right =>
    cases held : coordinator.heldBy token stores key read.replica with
    | none => simp [held, heldFull] at same
    | some left =>
      rw [held, heldFull] at same
      rcases Option.bind_eq_some_iff.mp held with ⟨leftHost, _, heldLeft⟩
      rcases Option.bind_eq_some_iff.mp heldFull with ⟨rightHost, _, heldRight⟩
      exact congrArg some (cut_eq_of_digest_eq reliable heldLeft heldRight asked
        (Option.some.inj same))

variable {network : Network}

omit answered in
theorem fetchDiffering_eq {required received : ℕ}
    {fullDigest : Option UInt32} {digests : List DigestRead} {partitions fetched : List Partition}
    (answered : ∀ read ∈ digests,
      coordinator.digestReadAttempt crc token stores key slice read.replica =
        .digest read.digest read.timestamp read.hostId)
    (fetch : fetchDiffering crc token stores key slice network required received fullDigest digests
      partitions = .ok fetched) :
    fetched = partitions ++
      (digests.filter fun read => read.digest ≠ fullDigest).filterMap fun read =>
        (coordinator.heldBy token stores key read.replica).map (slice.cut slice.rowLimit) := by
  induction digests generalizing partitions with
  | nil => simpa [fetchDiffering] using fetch.symm
  | cons read digests ih =>
    have later := fun read present => answered read (mem_cons_of_mem _ present)
    rcases digestReadAttempt_eq ranged reliable (answered read mem_cons_self) with
      ⟨_, _, sameStore⟩
    rw [fetchDiffering] at fetch
    by_cases same : read.digest = fullDigest
    · rw [if_pos same] at fetch
      rw [ih later fetch, filter_cons_of_neg (by simpa using same)]
    · rw [if_neg same] at fetch
      split at fetch
      · cases fetch
      · rename_i host isHost
        rw [filter_cons_of_pos (by simpa using same), filterMap_cons, sameStore host isHost]
        split at fetch
        · rename_i partition refetched
          rw [← fullRefetch_eq ranged reliable refetched, ih later fetch]
          simp
        · rename_i refetched
          split_ifs at fetch
          rw [← fullRefetch_eq ranged reliable refetched, ih later fetch]
        · cases fetch
        · cases fetch

theorem map_cut_heldBy : (reads.counted.filterMap (coordinator.heldBy token stores key)).map
      (slice.cut slice.rowLimit) =
    reads.full.partition.toList ++ reads.digests.filterMap fun read =>
      (coordinator.heldBy token stores key read.replica).map (slice.cut slice.rowLimit) := by
  rw [fullPartition_eq ranged reliable answered, map_filterMap, QuorumReads.counted,
    filterMap_cons, filterMap_map]
  cases coordinator.heldBy token stores key reads.full.replica <;> rfl

omit ranged answered in
theorem settled_heldBy {replica : NodeId} {held : Partition}
    (isHeld : coordinator.heldBy token stores key replica = some held) : held.Settled := by
  rcases bind_eq_some_iff.mp isHeld with ⟨host, _, read⟩
  exact StoreView.settled_read (reliable.sorted host) read

omit ranged answered in
theorem settled_cut_heldBy {replica : NodeId} {partition : Partition}
    (isCut : (coordinator.heldBy token stores key replica).map (slice.cut slice.rowLimit) =
      some partition) : partition.Settled := by
  rcases map_eq_some_iff.mp isCut with ⟨held, isHeld, rfl⟩
  exact PartitionReadSlice.settled_cut (settled_heldBy reliable isHeld)

theorem reconcile_eq {required : ℕ} {rows : Option (List Row)}
    (returned : reconcile crc token stores key slice network required reads = .ok rows) :
    ∃ merged, ReadRows .live ((reads.counted.filterMap (coordinator.heldBy token stores key)).map
        (slice.cut slice.rowLimit)) merged ∧
      rows.getD [] = truncateRows slice.rowLimit merged := by
  have copies : ∀ read ∈ reads.digests, decide (read.digest ≠ reads.full.digest) = false →
      (coordinator.heldBy token stores key read.replica).map (slice.cut slice.rowLimit) =
        reads.full.partition := by
    intro read present same
    exact cut_heldBy_of_digest_eq ranged reliable answered present (by simpa using same)
  have settledFull : ∀ source ∈ reads.full.partition, source.Settled := by
    intro source isFull
    rw [fullPartition_eq ranged reliable answered] at isFull
    exact settled_cut_heldBy reliable isFull
  have dropCopies := fun rows => @readRows_filterMap_iff .live _ reads.full.partition
    reads.digests _ _ copies (fun source isFull => (settledFull source isFull).sorted)
    (fun read _ source isCut => (settled_cut_heldBy reliable isCut).sorted) rows
  rw [map_cut_heldBy ranged reliable answered]
  simp only [← dropCopies]
  unfold reconcile at returned
  split_ifs at returned with allMatch
  · have noneKept : (reads.digests.filter fun read => read.digest ≠ reads.full.digest) = [] := by
      rw [filter_eq_nil_iff]
      intro read present
      simpa using all_eq_true.mp allMatch read present
    rw [noneKept, ← Except.ok.inj returned]
    cases isFull : reads.full.partition with
    | none => exact ⟨[], @readRows_mergePartitions [] (by simp), by simp [truncateRows]⟩
    | some partition =>
      refine ⟨partition.rows, (settledFull partition isFull).readRows, ?_⟩
      rw [fullPartition_eq ranged reliable answered] at isFull
      rcases map_eq_some_iff.mp isFull with ⟨held, _, rfl⟩
      rw [map_some, getD_some, PartitionReadSlice.cut_rows]
      unfold truncateRows
      split_ifs <;> simp
  · cases fetch : fetchDiffering crc token stores key slice network required reads.received
        reads.full.digest reads.digests reads.full.partition.toList with
    | error error =>
      rw [fetch] at returned
      cases returned
    | ok fetched =>
      rw [fetch] at returned
      have isFetched := fetchDiffering_eq ranged reliable answered.digests fetch
      have sortedFetched : ∀ source ∈ fetched, StrictlySorted Row.clustering source.rows := by
        intro source present
        rw [isFetched] at present
        rcases mem_append.mp present with isFull | isOther
        · exact (settledFull source (mem_toList.mp isFull)).sorted.rows
        · rcases mem_filterMap.mp isOther with ⟨read, _, isCut⟩
          exact (settled_cut_heldBy reliable isCut).sorted.rows
      refine ⟨rowsOf (mergePartitions fetched), ?_, ?_⟩
      · rw [← isFetched]
        exact readRows_mergePartitions sortedFetched
      · rw [← Except.ok.inj returned]
        simp only
        cases mergePartitions fetched with
        | none => simp [rowsOf, truncateRows]
        | some merged => rfl

end Gathered

section Result

variable (coordinator crc token stores key slice) (network : Network) (level : ConsistencyLevel)
  (rawReplicas : List NodeId) (requirement : ReadQuorumRequirement)

omit ranged reliable

def countedPartitions : List Partition :=
  match coordinator.quorumReads crc token stores key slice network level rawReplicas
      requirement with
  | some (.ok reads) => reads.counted.filterMap (coordinator.heldBy token stores key)
  | _ => []

def mergedSlice (partitions : List Partition) : List Row :=
  truncateRows slice.rowLimit
    (rowsAfter slice.startClustering (rowsOf (mergePartitions partitions)))

end Result

omit ranged reliable in
theorem eq_rowsAfter_of_unlimited {merged rows : List Row} (whole : ReadRows .live partitions rows)
    (read : ReadRows .live (partitions.map (slice.cut 0)) merged) :
    merged = rowsAfter slice.startClustering rows := by
  let n := (partitions.map (·.rows.length)).sum + merged.length + rows.length
  have few : ∀ partition ∈ partitions, partition.rows.length ≤ n := by
    intro partition present
    have bound := le_sum_of_mem (mem_map_of_mem (f := (·.rows.length)) present)
    omega
  have sameCut : partitions.map (slice.cut 0) =
      partitions.map (cutSource slice.startClustering n) := by
    apply map_congr_left
    intro partition present
    have short : (rowsAfter slice.startClustering partition.rows).length ≤ n :=
      (length_filter_le _ _).trans (few partition present)
    rw [PartitionReadSlice.cut, if_pos rfl, cutSource, take_of_length_le short]
  rw [sameCut] at read
  have taken := (whole.take_eq_iff read).mpr (earlyRowsSuffice_of_length_le few)
  have short : (rowsAfter slice.startClustering rows).length ≤ n :=
    (length_filter_le _ _).trans (by omega)
  rwa [take_of_length_le (by omega), take_of_length_le short] at taken

omit ranged reliable in
theorem truncateRows_eq_mergedSlice_iff {merged : List Row}
    (sorted : ∀ partition ∈ partitions, StrictlySorted Row.clustering partition.rows)
    (read : ReadRows .live (partitions.map (slice.cut slice.rowLimit)) merged) :
    truncateRows slice.rowLimit merged = mergedSlice slice partitions ↔ slice.rowLimit = 0 ∨
        EarlyRowsSuffice .live partitions slice.startClustering slice.rowLimit := by
  have whole := readRows_mergePartitions sorted
  by_cases unlimited : slice.rowLimit = 0
  · rw [unlimited] at read
    have same := eq_rowsAfter_of_unlimited whole read
    simp [truncateRows, mergedSlice, unlimited, same]
  · have limited : slice.rowLimit > 0 := by omega
    have cutEq : slice.cut slice.rowLimit = cutSource slice.startClustering slice.rowLimit := by
      funext partition
      rw [PartitionReadSlice.cut, if_neg unlimited]
    rw [cutEq] at read
    simp only [truncateRows, mergedSlice, limited, if_true, unlimited, false_or]
    exact whole.take_eq_iff read

end Coordinator

def insertedRowsView : StoreView where
  schema := ⟨[], [], []⟩
  active := ⟨[⟨⟨0, [1]⟩, .live, none, [⟨[1], [], .live, .withTimestamp 1⟩,
    ⟨[2], [], .live, .withTimestamp 9⟩]⟩], by decide, by decide⟩
  flushing := []
  sstables := []

def deletedPartitionView : StoreView where
  schema := ⟨[], [], []⟩
  active := ⟨[⟨⟨0, [1]⟩, ⟨5, 0⟩, none, []⟩], by decide, by decide⟩
  flushing := []
  sstables := []

def divergedStores (host : HostId) : StoreView :=
  if host = 1 then insertedRowsView else deletedPartitionView

def twoNodeCoordinator : Coordinator where
  localNodeId := 1
  localHostId := 1
  ring :=
    { ring := .empty
      nodes := .ofList [(1, ⟨1, .normal⟩), (2, ⟨2, .normal⟩)]
      dataCenter := fun _ => "datacenter1"
      rack := fun _ => "rack1" }

def healthyNetwork : Network where
  completions := [⟨0, true⟩, ⟨0, true⟩]
  refetch := fun _ => none
  localFailure := none
  pages := fun _ => []

def lengthChecksum (bytes : Bytes) : UInt32 := UInt32.ofNat bytes.length

def readDiverged (rowLimit : ℕ) : Option (Except ReadError (Option (List Row))) :=
  twoNodeCoordinator.coordinateReadFromReplicas lengthChecksum (fun _ => 0) divergedStores
    ⟨0, [1]⟩ (.prefixRows rowLimit) healthyNetwork .quorum [1, 2] ⟨2, none⟩

def countedDiverged (rowLimit : ℕ) : List Partition :=
  twoNodeCoordinator.countedPartitions lengthChecksum (fun _ => 0) divergedStores
    ⟨0, [1]⟩ (.prefixRows rowLimit) healthyNetwork .quorum [1, 2] ⟨2, none⟩

def divergedAnswers : List Partition :=
  [⟨⟨0, [1]⟩, .live, none, [⟨[1], [], .live, .withTimestamp 1⟩]⟩,
    ⟨⟨0, [1]⟩, .live, none, [⟨[1], [], .live, .withTimestamp 1⟩,
      ⟨[2], [], .live, .withTimestamp 9⟩]⟩,
    ⟨⟨0, [1]⟩, ⟨5, 0⟩, none, []⟩]

theorem divergedStores_eq (host : HostId) :
    divergedStores host = insertedRowsView ∨ divergedStores host = deletedPartitionView := by
  unfold divergedStores
  split_ifs
  · exact Or.inl rfl
  · exact Or.inr rfl

section Diverged

variable {rowLimit : ℕ} (small : rowLimit = 1 ∨ rowLimit = 2)

include small

theorem mem_divergedAnswers {partition : Partition}
    (digested : partition ∈ Coordinator.digested (fun _ => 0) divergedStores ⟨0, [1]⟩
      (.prefixRows rowLimit)) :
    partition ∈ divergedAnswers := by
  rcases digested with ⟨host, held, n, isHeld, asked, rfl⟩
  rcases divergedStores_eq host with isView | isView <;> rw [isView] at isHeld <;>
    obtain rfl := Option.some.inj isHeld.symm <;> rcases small with rfl | rfl <;>
    rcases asked with rfl | rfl <;> decide

set_option maxRecDepth 8000 in
theorem reliable_divergedStores :
    Coordinator.ReliableReplicas lengthChecksum (fun _ => 0) divergedStores ⟨0, [1]⟩
      (.prefixRows rowLimit) := by
  constructor
  · intro host
    rcases divergedStores_eq host with isView | isView <;> rw [isView] <;> decide
  · intro host
    rcases divergedStores_eq host with isView | isView <;> rw [isView] <;>
      rcases small with rfl | rfl <;> exact ⟨by decide, by decide, by decide⟩
  · intro partition digested
    have listed : ∀ partition ∈ divergedAnswers, FitsWire partition := by decide
    exact listed partition (mem_divergedAnswers small digested)
  · rintro _ ⟨left, digestedLeft, rfl⟩ _ ⟨right, digestedRight, rfl⟩
    have listed : ∀ left ∈ divergedAnswers, ∀ right ∈ divergedAnswers,
        lengthChecksum (digestInput left) = lengthChecksum (digestInput right) →
          digestInput left = digestInput right := by
      decide
    exact listed left (mem_divergedAnswers small digestedLeft) right
      (mem_divergedAnswers small digestedRight)

end Diverged

end Ferrosa.Cluster
