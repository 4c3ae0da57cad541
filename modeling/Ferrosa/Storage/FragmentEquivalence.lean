import Ferrosa.Storage.RangeScan

/-!
# Fragments against whole partitions

The fragments of a scan, grouped by key and put together again, are compared with
the partitions that the same scan yields whole.  Rows and static rows always agree.
The partition deletion agrees unless it is a marker at the least timestamp that is
not the live marker, which the fragment path normalizes.  The end of a partition
stays unmarked when a full fragment is followed only by rows that the partition
deletion discards.
-/

namespace Ferrosa.Storage

open KeyedFold Runs DeletionTime
open List hiding lookup_cons

namespace RangeMerger

def groupByKey (fragments : List PartitionFragment) : List (List PartitionFragment) :=
  fragments.splitBy (fun a b => a.key == b.key)

/-- The partition that the fragments of one key describe: the header of the first, and the rows
of all. -/
def reassemble : List PartitionFragment → Option Partition
  | [] => none
  | first :: rest => some
      { key := first.key
        deletion := first.deletion
        staticRow := first.staticRow
        rows := (first :: rest).flatMap PartitionFragment.rows }

/-- Grouping the fragments by key yields the partitions, and every group is marked at its two
ends and nowhere else. -/
structure Reassembles (fragments : List PartitionFragment) (partitions : List Partition) :
    Prop where
  partitions : (groupByKey fragments).filterMap reassemble = partitions
  first : ∀ group ∈ groupByKey fragments, StartsMarked group
  last : ∀ group ∈ groupByKey fragments, EndsMarked group

def clusterings (versions : List Partition) : Finset Bytes :=
  ((versions.flatMap Partition.rows).map Row.clustering).toFinset

def keptClusterings (versions : List Partition) : Finset Bytes :=
  (clusterings versions).filter (fun clustering => ¬DiscardsRow clustering versions)

/-- The newest deletion is above the least timestamp or live, and survivors in a multiple of `k` are
not followed by a discarded row. -/
structure StreamsExactly (k : Nat) (versions : List Partition) : Prop where
  deletion : ∀ deletion ∈ (versions.map Partition.deletion).argmax DeletionTime.markedForDeleteAt,
    Int64.minValue < deletion.markedForDeleteAt ∨ deletion = DeletionTime.live
  ending : keptClusterings versions ≠ ∅ → k ∣ (keptClusterings versions).card →
    ∀ clustering ∈ clusterings versions, (∀ other ∈ clusterings versions, other ≤ clustering) →
      ¬DiscardsRow clustering versions

theorem mergeHeaderStatics_eq (versions : List Partition) :
    mergeHeaderStatics (versions.map headerOf) =
      reduce mergeRows (versions.filterMap Partition.staticRow) := by
  rw [mergeHeaderStatics, foldl_map]
  induction versions using List.reverseRecOn with
  | nil => rfl
  | append_singleton init last ih =>
    rw [foldl_append, ih, filterMap_append, reduce_append, foldl_cons,
      foldl_nil, mergeStaticRows_eq_merge]
    cases isStatic : last.staticRow <;> simp [isStatic, headerOf]

variable {deletion : DeletionTime} {sources : List MergeSource} {k : Nat}
  {versions : List Partition} {other : DeletionTime} {scanned : ScannedKey}
  {scan : List ScannedKey}

/-- The fragment path starts from the live marker, so it normalizes every deletion at the least
timestamp. -/
theorem mergeHeaderDeletions_eq
    (newest : (versions.map Partition.deletion).argmax DeletionTime.markedForDeleteAt =
      some deletion) :
    mergeHeaderDeletions (versions.map headerOf) =
      newer DeletionTime.markedForDeleteAt DeletionTime.live deletion := by
  have folded : some (mergeHeaderDeletions (versions.map headerOf)) =
      reduce (newer markedForDeleteAt) ([live] ++ versions.map Partition.deletion) := by
    rw [mergeHeaderDeletions, foldl_map, singleton_append, reduce, foldl_map]
    rfl
  rw [reduce_append, reduce_newer_eq_argmax _ (versions.map Partition.deletion), newest] at folded
  simpa using folded

theorem newer_live_eq_iff :
    newer DeletionTime.markedForDeleteAt DeletionTime.live deletion = deletion ↔
      Int64.minValue < deletion.markedForDeleteAt ∨ deletion = DeletionTime.live := by
  change (if Int64.minValue < deletion.markedForDeleteAt then _ else _) = _ ↔ _
  by_cases above : Int64.minValue < deletion.markedForDeleteAt
  · simp [above]
  · simp [above, eq_comm]

theorem newer_live_marked (deletion : DeletionTime) :
    (newer DeletionTime.markedForDeleteAt DeletionTime.live deletion).markedForDeleteAt =
      deletion.markedForDeleteAt :=
  (rank_newer markedForDeleteAt _ _).trans (max_eq_right (Int64.minValue_le _))

theorem survivors_congr (rows : List Row)
    (same : deletion.markedForDeleteAt = other.markedForDeleteAt) :
    survivors deletion rows = survivors other rows := by
  simp only [survivors, rowSuppressed, same]

theorem not_rowSuppressed (deletion : DeletionTime) (row : Row) : (!rowSuppressed deletion row) =
      decide (deletion.markedForDeleteAt ≤ row.primaryKeyLiveness.timestamp) := by
  by_cases older : row.primaryKeyLiveness.timestamp < deletion.markedForDeleteAt
  · simp [rowSuppressed, older, not_le.mpr older]
  · simp [rowSuppressed, older, not_lt.mp older]

theorem mergeGroup_spec {raw merged : Partition}
    (rawEq : mergeProjectionMetadata versions = some raw) (from_ : MergedFrom versions raw)
    (mergedEq : mergeGroup versions = .ok merged) :
    merged.key = raw.key ∧ merged.deletion = raw.deletion ∧
      merged.rows = survivors raw.deletion raw.rows ∧
      (Int64.minValue < raw.deletion.markedForDeleteAt ∨ raw.deletion = DeletionTime.live →
        merged.staticRow = if raw.deletion.isLive then raw.staticRow
          else raw.staticRow.bind (Row.applyPartitionDeletion raw.deletion.markedForDeleteAt)) := by
  have suppressed : (applyDeletions raw).rows = survivors raw.deletion raw.rows := by
    simp only [applyDeletions_rows, survivors, not_rowSuppressed]
  rcases versions with _ | ⟨only, _ | ⟨second, rest⟩⟩
  · simp [mergeProjectionMetadata, mergePartitionMetadata] at rawEq
  · have isRaw : only = raw := by
      simpa [mergeProjectionMetadata, mergePartitionMetadata] using rawEq
    subst isRaw
    by_cases needs : partitionNeedsDeletionSuppression only
    · obtain rfl : merged = applyDeletions only := by
        simpa [mergeGroup, needs] using mergedEq.symm
      exact ⟨applyDeletions_key only, applyDeletions_deletion only, suppressed,
        fun _ => applyDeletions_staticRow only⟩
    · have unchanged : merged = only := by simpa [mergeGroup, needs] using mergedEq.symm
      subst unchanged
      simp only [partitionNeedsDeletionSuppression, Bool.or_eq_true, bne_iff_ne, not_or,
        not_not, any_eq_true, Bool.not_eq_true', not_exists, not_and,
        Bool.not_eq_false] at needs
      rcases needs with ⟨atLeast, rowsLive⟩
      refine ⟨rfl, rfl, ?_, ?_⟩
      · have keepsAll : merged.rows.filter (fun row => !rowSuppressed merged.deletion row) =
            merged.rows := by
          rw [filter_eq_self]
          intro row _
          rw [not_rowSuppressed, atLeast]
          exact decide_eq_true (Int64.minValue_le _)
        have keepsCells : merged.rows.map Row.applyRowDeletion = merged.rows := by
          conv_rhs => rw [← map_id merged.rows]
          apply map_congr_left
          intro row rowMem
          rw [Row.applyRowDeletion, if_pos (rowsLive row rowMem), id]
        rw [survivors, keepsAll, keepsCells]
      · rintro (above | isLive)
        · rw [atLeast] at above
          exact absurd above (lt_irrefl _)
        · rw [if_pos (isLive_iff.mpr isLive)]
  · have mergeEq := mergePartitions_eq_map (only :: second :: rest)
    rw [rawEq, Option.map_some] at mergeEq
    obtain rfl : merged = applyDeletions raw := by
      simpa [mergeGroup, mergeEq] using mergedEq.symm
    exact ⟨applyDeletions_key raw, applyDeletions_deletion raw, suppressed,
      fun _ => applyDeletions_staticRow raw⟩

theorem ScannedKey.Valid.rowsSorted (sorted : SortedSources sources)
    (valid : scanned.Valid k sources) :
    ∀ version ∈ scanned.versions, StrictlySorted Row.clustering version.rows := by
  intro version versionMem
  rw [valid.versions] at versionMem
  rcases mem_versionsOf versionMem with ⟨_, source, sourceMem, inSource⟩
  exact sorted.rows source sourceMem version inSource

theorem ScannedKey.Valid.key_eq (valid : scanned.Valid k sources) {raw : Partition}
    (rawEq : mergeProjectionMetadata scanned.versions = some raw)
    (from_ : MergedFrom scanned.versions raw) : scanned.partition.key = scanned.key := by
  have firstKey := from_.key
  rw [Option.map_eq_some_iff] at firstKey
  rcases firstKey with ⟨version, isFirst, versionKey⟩
  have versionMem := mem_of_mem_head? isFirst
  rw [valid.versions] at versionMem
  rw [(mergeGroup_spec rawEq from_ valid.merged).1, ← versionKey, (mem_versionsOf versionMem).1]

/-- The fragments of a key, put together, carry the normalized deletion and otherwise what the
whole-partition path yields. -/
theorem ScannedKey.Valid.reassemble_eq_iff (valid : scanned.Valid k sources)
    {raw : Partition} (rawEq : mergeProjectionMetadata scanned.versions = some raw)
    (from_ : MergedFrom scanned.versions raw) :
    reassemble scanned.fragments = some scanned.partition ↔
      Int64.minValue < raw.deletion.markedForDeleteAt ∨ raw.deletion = DeletionTime.live := by
  rcases mergeGroup_spec rawEq from_ valid.merged with ⟨_, deletionEq, rowsEq, staticEq⟩
  have headerDeletion := mergeHeaderDeletions_eq from_.deletion
  have streamedRows := valid.streamed.flatMap_rows
  rcases valid.streamed.exists_head with ⟨⟨out, last, rest, shape⟩, _⟩
  have rowsMerged : mergedRows (scanned.versions.map Partition.rows) = raw.rows := from_.rows.symm
  have sameRows : scanned.fragments.flatMap PartitionFragment.rows = scanned.partition.rows := by
    rw [streamedRows, rowsMerged, rowsEq]
    apply survivors_congr
    exact (congrArg markedForDeleteAt headerDeletion).trans (newer_live_marked _)
  have reassembled : reassemble scanned.fragments = some
      { key := scanned.partition.key
        deletion := newer markedForDeleteAt live raw.deletion
        staticRow := (streamedHeader scanned.key scanned.versions).pendingStaticRow
        rows := scanned.partition.rows } := by
    rw [valid.key_eq rawEq from_, ← sameRows, ← headerDeletion, shape]
    rfl
  rw [reassembled, Option.some.injEq, ← newer_live_eq_iff]
  constructor
  · intro same
    exact (congrArg Partition.deletion same).trans deletionEq
  · intro normalized
    have isStatic := staticEq (newer_live_eq_iff.mp normalized)
    have headerStatic : (streamedHeader scanned.key scanned.versions).pendingStaticRow =
        scanned.partition.staticRow := by
      rw [isStatic, from_.staticRow, ← mergeHeaderStatics_eq]
      simp only [streamedHeader, mergeHeaders, headerDeletion, normalized]
    rw [headerStatic, normalized, ← deletionEq]

section Ending

variable {versions : List Partition} {raw : Partition}

section

variable (from_ : MergedFrom versions raw)

include from_

theorem rowSuppressed_iff {row : Row} (rowMem : row ∈ raw.rows) :
    rowSuppressed raw.deletion row = true ↔ DiscardsRow row.clustering versions := by
  have found := from_.lookup_rows row.clustering
  rw [from_.rowsSorted.lookup_of_mem rowMem] at found
  rw [← from_.discardsRow_iff found.symm, rowSuppressed, decide_eq_true_eq]

theorem mem_clusterings_iff {clustering : Bytes} :
    clustering ∈ clusterings versions ↔ ∃ row ∈ raw.rows, row.clustering = clustering := by
  rw [from_.rows, sortAndFoldRows, exists_mem_sortFold_iff clustering_mergeRows, clusterings,
    mem_toFinset, mem_map]

theorem card_keptClusterings :
    (keptClusterings versions).card = (survivors raw.deletion raw.rows).length := by
  let kept := raw.rows.filter (fun row => !rowSuppressed raw.deletion row)
  have keptSorted : StrictlySorted Row.clustering kept := from_.rowsSorted.filter _
  have nodup : (kept.map Row.clustering).Nodup :=
    pairwise_map.mpr (keptSorted.imp (fun below => ne_of_lt below))
  have sameSet : keptClusterings versions = (kept.map Row.clustering).toFinset := by
    ext clustering
    rw [keptClusterings, Finset.mem_filter, mem_clusterings_iff from_, mem_toFinset, mem_map]
    constructor
    · rintro ⟨⟨row, rowMem, rfl⟩, notDiscarded⟩
      refine ⟨row, mem_filter.mpr ⟨rowMem, ?_⟩, rfl⟩
      rw [← rowSuppressed_iff from_ rowMem] at notDiscarded
      simpa using notDiscarded
    · rintro ⟨row, keptMem, rfl⟩
      rcases mem_filter.mp keptMem with ⟨rowMem, notSuppressed⟩
      refine ⟨⟨row, rowMem, rfl⟩, fun discards => ?_⟩
      rw [← rowSuppressed_iff from_ rowMem] at discards
      simp [discards] at notSuppressed
  rw [sameSet, toFinset_card_of_nodup nodup, length_map, survivors, length_map]

theorem lastSuppressed_iff : LastSuppressed raw.deletion raw.rows ↔
      ∃ clustering ∈ clusterings versions, (∀ other ∈ clusterings versions, other ≤ clustering) ∧
        DiscardsRow clustering versions := by
  have lastGreatest : ∀ last ∈ raw.rows.getLast?, ∀ row ∈ raw.rows,
      row.clustering ≤ last.clustering := by
    intro last isLast row rowMem
    rcases getLast?_eq_some_iff.mp isLast with ⟨front, shape⟩
    have sorted := from_.rowsSorted
    rw [shape] at sorted rowMem
    rcases mem_append.mp rowMem with inFront | isLastRow
    · exact ((pairwise_append.mp sorted).2.2 row inFront last (by simp)).le
    · rw [mem_singleton.mp isLastRow]
  constructor
  · rintro ⟨last, isLast, suppressed⟩
    have lastMem := mem_of_getLast? isLast
    refine ⟨last.clustering, (mem_clusterings_iff from_).mpr ⟨last, lastMem, rfl⟩, ?_,
      (rowSuppressed_iff from_ lastMem).mp suppressed⟩
    intro other otherMem
    rcases (mem_clusterings_iff from_).mp otherMem with ⟨row, rowMem, rfl⟩
    exact lastGreatest last isLast row rowMem
  · rintro ⟨clustering, clusteringMem, greatest, discards⟩
    rcases (mem_clusterings_iff from_).mp clusteringMem with ⟨row, rowMem, rfl⟩
    have nonempty := ne_nil_of_mem rowMem
    have isLast : raw.rows.getLast nonempty ∈ raw.rows.getLast? :=
      getLast?_eq_getLast_of_ne_nil nonempty
    have lastMem := getLast_mem nonempty
    have sameClustering : row.clustering = (raw.rows.getLast nonempty).clustering :=
      le_antisymm (lastGreatest _ isLast row rowMem)
        (greatest _ ((mem_clusterings_iff from_).mpr ⟨_, lastMem, rfl⟩))
    refine ⟨raw.rows.getLast nonempty, isLast, (rowSuppressed_iff from_ lastMem).mpr ?_⟩
    rw [← sameClustering]
    exact discards

end

end Ending

/-- The fragments of a key describe its partition, marked at both ends, exactly when the key's
versions stream exactly. -/
theorem ScannedKey.Valid.streamsExactly_iff (positive : 0 < k)
    (sorted : SortedSources sources) (valid : scanned.Valid k sources) :
    (reassemble scanned.fragments = some scanned.partition ∧
        StartsMarked scanned.fragments ∧ EndsMarked scanned.fragments) ↔
      StreamsExactly k scanned.versions := by
  rcases exists_mergedFrom valid.nonempty (valid.rowsSorted sorted) with ⟨raw, rawEq, from_⟩
  have rowsMerged : mergedRows (scanned.versions.map Partition.rows) = raw.rows := from_.rows.symm
  have sameMarked : (streamedHeader scanned.key scanned.versions).deletion.markedForDeleteAt =
      raw.deletion.markedForDeleteAt :=
    (congrArg markedForDeleteAt (mergeHeaderDeletions_eq from_.deletion)).trans
      (newer_live_marked _)
  have starts := valid.streamed.exists_head.2
  have ends := valid.streamed.endsMarked_iff positive
  have sameLast : LastSuppressed (streamedHeader scanned.key scanned.versions).deletion raw.rows ↔
      LastSuppressed raw.deletion raw.rows := by
    simp only [LastSuppressed, rowSuppressed, sameMarked]
  rw [rowsMerged, survivors_congr raw.rows sameMarked, sameLast, lastSuppressed_iff from_,
    ← card_keptClusterings from_] at ends
  have keptNonempty : survivors raw.deletion raw.rows ≠ [] ↔
      keptClusterings scanned.versions ≠ ∅ := by
    rw [← length_pos_iff, ← card_keptClusterings from_, Finset.card_pos,
      Finset.nonempty_iff_ne_empty]
  rw [valid.reassemble_eq_iff rawEq from_, ends, keptNonempty]
  constructor
  · rintro ⟨deletionExact, _, _, notCut⟩
    constructor
    · intro deletion isNewest
      rw [from_.deletion] at isNewest
      exact Option.some.inj isNewest ▸ deletionExact
    · intro nonempty divides clustering clusteringMem greatest discards
      exact notCut ⟨nonempty, divides, clustering, clusteringMem, greatest, discards⟩
  · rintro ⟨deletionExact, ending⟩
    refine ⟨deletionExact raw.deletion from_.deletion, starts, Or.inl rfl, ?_⟩
    rintro ⟨nonempty, divides, clustering, clusteringMem, greatest, discards⟩
    exact ending nonempty divides clustering clusteringMem greatest discards

theorem groupByKey_scan (sorted : StrictlySorted ScannedKey.key scan)
    (valid : ∀ scanned ∈ scan, scanned.Valid k sources) :
    groupByKey (scan.flatMap ScannedKey.fragments) = scan.map ScannedKey.fragments := by
  have nonempty : ∀ scanned ∈ scan, scanned.fragments ≠ [] := by
    intro scanned scannedMem empty
    rcases (valid scanned scannedMem).streamed.exists_head with ⟨⟨out, last, rest, shape⟩, _⟩
    rw [empty] at shape
    exact absurd shape (by simp)
  have keyOf : ∀ scanned ∈ scan, ∀ fragment ∈ scanned.fragments, fragment.key = scanned.key :=
    fun scanned scannedMem => (valid scanned scannedMem).streamed.key_eq
  apply splitBy_flatten
  · intro emptyMem
    rcases mem_map.mp emptyMem with ⟨scanned, scannedMem, empty⟩
    exact nonempty scanned scannedMem empty
  · intro fragments fragmentsMem
    rcases mem_map.mp fragmentsMem with ⟨scanned, scannedMem, rfl⟩
    apply List.Pairwise.isChain
    apply pairwise_of_forall_mem_list
    intro a memA b memB
    simp [keyOf scanned scannedMem a memA, keyOf scanned scannedMem b memB]
  · apply List.Pairwise.isChain
    refine pairwise_map.mpr (List.Pairwise.imp_of_mem ?_ sorted)
    intro a b memA memB below
    refine ⟨nonempty a memA, nonempty b memB, ?_⟩
    rw [keyOf a memA _ (getLast_mem _), keyOf b memB _ (head_mem _)]
    simpa using below.ne

theorem reassembles_scan_iff (positive : 0 < k) (sortedSources : SortedSources sources)
    (sorted : StrictlySorted ScannedKey.key scan)
    (valid : ∀ scanned ∈ scan, scanned.Valid k sources) :
    Reassembles (scan.flatMap ScannedKey.fragments) (scan.map ScannedKey.partition) ↔
      ∀ scanned ∈ scan, StreamsExactly k scanned.versions := by
  have groups := groupByKey_scan sorted valid
  have exactly : ∀ scanned ∈ scan, ((reassemble scanned.fragments = some scanned.partition ∧
        StartsMarked scanned.fragments ∧ EndsMarked scanned.fragments) ↔
        StreamsExactly k scanned.versions) :=
    fun scanned scannedMem => (valid scanned scannedMem).streamsExactly_iff positive sortedSources
  have reassembled : (scan.map ScannedKey.fragments).filterMap reassemble =
      scan.map ScannedKey.partition ↔
      ∀ scanned ∈ scan, reassemble scanned.fragments = some scanned.partition := by
    have isSome : ∀ scanned ∈ scan, ∃ partition, reassemble scanned.fragments = some partition := by
      intro scanned scannedMem
      rcases (valid scanned scannedMem).streamed.exists_head with ⟨⟨out, last, rest, shape⟩, _⟩
      exact ⟨_, by rw [shape]; rfl⟩
    clear valid exactly groups sorted
    induction scan with
    | nil => simp
    | cons first rest ih =>
      rcases isSome first mem_cons_self with ⟨partition, firstEq⟩
      have restIff := ih (fun scanned mem => isSome scanned (mem_cons_of_mem _ mem))
      rw [map_cons, filterMap_cons, firstEq, map_cons, List.cons.injEq,
        forall_mem_cons, firstEq, Option.some.injEq]
      exact and_congr_right fun _ => restIff
  constructor
  · rintro ⟨partitions, first, last⟩ scanned scannedMem
    rw [groups] at partitions first last
    have fragmentsMem := mem_map_of_mem (f := ScannedKey.fragments) scannedMem
    exact (exactly scanned scannedMem).mp ⟨reassembled.mp partitions scanned scannedMem,
      first _ fragmentsMem, last _ fragmentsMem⟩
  · intro streamsExactly
    have each := fun scanned scannedMem =>
      (exactly scanned scannedMem).mpr (streamsExactly scanned scannedMem)
    constructor
    · rw [groups]
      exact reassembled.mpr fun scanned scannedMem => (each scanned scannedMem).1
    · rw [groups]
      intro group groupMem
      rcases mem_map.mp groupMem with ⟨scanned, scannedMem, rfl⟩
      exact (each scanned scannedMem).2.1
    · rw [groups]
      intro group groupMem
      rcases mem_map.mp groupMem with ⟨scanned, scannedMem, rfl⟩
      exact (each scanned scannedMem).2.2

theorem streamsExactly_nil (k : Nat) : StreamsExactly k [] :=
  ⟨by simp, fun nonempty => absurd rfl nonempty⟩

/-- Both ways of pulling end, and the fragments reassemble to the partitions exactly when the
versions of every key in the range stream exactly. -/
theorem fragments_reassemble_iff {k : Nat} (positive : 0 < k) {sources : List MergeSource}
    (sorted : SortedSources sources) (start stop : Option DecoratedKey) :
    (∃ fragments, Drains (nextFragment · k) (new sources start stop) fragments) ∧
      (∃ partitions, Drains nextMergedPartition (new sources start stop) partitions) ∧
      ∀ fragments partitions, Drains (nextFragment · k) (new sources start stop) fragments →
        Drains nextMergedPartition (new sources start stop) partitions →
        (Reassembles fragments partitions ↔
          ∀ key, InRange start stop key → StreamsExactly k (versionsOf sources key)) := by
  rcases exists_scan positive sorted start stop with
    ⟨scan, scanSorted, valid, covers, merges, streams⟩
  refine ⟨⟨_, streams⟩, ⟨_, merges⟩, ?_⟩
  intro fragments partitions fragmentsDrained partitionsDrained
  rw [fragmentsDrained.unique streams, partitionsDrained.unique merges,
    reassembles_scan_iff positive sorted scanSorted valid]
  constructor
  · intro scanExact key inRange
    by_cases empty : versionsOf sources key = []
    · rw [empty]
      exact streamsExactly_nil k
    · rcases (covers key).mpr ⟨inRange, empty⟩ with ⟨scanned, scannedMem, rfl⟩
      rw [← (valid scanned scannedMem).versions]
      exact scanExact scanned scannedMem
  · intro rangeExact scanned scannedMem
    rw [(valid scanned scannedMem).versions]
    exact rangeExact scanned.key ((covers scanned.key).mp ⟨scanned, scannedMem, rfl⟩).1

def reinsertedFirstRow : Partition :=
  ⟨⟨0, [1]⟩, ⟨10, 0⟩, none,
    [⟨[0], [], .live, .withTimestamp 20⟩, ⟨[1], [], .live, .withTimestamp 5⟩]⟩

def reinsertedLastRow : Partition :=
  ⟨⟨0, [1]⟩, ⟨10, 0⟩, none,
    [⟨[0], [], .live, .withTimestamp 5⟩, ⟨[1], [], .live, .withTimestamp 20⟩]⟩

theorem fragments_reassemble_reinsertedLastRow : ∃ fragments partitions,
      Drains (nextFragment · 1) (new [⟨.ssTable, [reinsertedLastRow]⟩] none none) fragments ∧
      Drains nextMergedPartition (new [⟨.ssTable, [reinsertedLastRow]⟩] none none) partitions ∧
      Reassembles fragments partitions := by
  have sorted : SortedSources [⟨.ssTable, [reinsertedLastRow]⟩] :=
    ⟨by decide, by decide⟩
  rcases fragments_reassemble_iff Nat.one_pos sorted none none with
    ⟨⟨fragments, streams⟩, ⟨partitions, merges⟩, reassembles⟩
  refine ⟨fragments, partitions, streams, merges,
    (reassembles fragments partitions streams merges).mpr fun key _ => ?_⟩
  by_cases atKey : reinsertedLastRow.key = key
  · have versions : versionsOf [⟨.ssTable, [reinsertedLastRow]⟩] key = [reinsertedLastRow] := by
      rw [← atKey]
      decide
    rw [versions]
    exact ⟨by decide, by decide⟩
  · have versions : versionsOf [⟨.ssTable, [reinsertedLastRow]⟩] key = [] := by
      simp [versionsOf, lookup_cons, atKey]
    rw [versions]
    exact streamsExactly_nil 1

/-- A scan yields, in key order, the merge of all versions of every key of the range that has
any. -/
theorem scan_exact {sources : List MergeSource} (sorted : SortedSources sources)
    (start stop : Option DecoratedKey) {partitions : List Partition}
    (drained : Drains nextMergedPartition (new sources start stop) partitions) :
    StrictlySorted Partition.key partitions ∧ ∀ partition, partition ∈ partitions ↔
      InRange start stop partition.key ∧
        mergeGroup (versionsOf sources partition.key) = .ok partition := by
  rcases exists_scan Nat.one_pos sorted start stop with ⟨scan, scanSorted, valid, covers, merges, _⟩
  rw [drained.unique merges]
  have keyOf : ∀ scanned ∈ scan, scanned.partition.key = scanned.key := by
    intro scanned scannedMem
    have isValid := valid scanned scannedMem
    rcases exists_mergedFrom isValid.nonempty (isValid.rowsSorted sorted) with ⟨raw, rawEq, from_⟩
    exact isValid.key_eq rawEq from_
  refine ⟨pairwise_map.mpr (scanSorted.imp_of_mem ?_), fun partition => mem_map.trans ⟨?_, ?_⟩⟩
  · intro first second firstMem secondMem below
    rwa [keyOf first firstMem, keyOf second secondMem]
  · rintro ⟨scanned, scannedMem, rfl⟩
    have isValid := valid scanned scannedMem
    rw [keyOf scanned scannedMem, ← isValid.versions]
    exact ⟨((covers scanned.key).mp ⟨scanned, scannedMem, rfl⟩).1, isValid.merged⟩
  · rintro ⟨inRange, merged⟩
    have nonempty : versionsOf sources partition.key ≠ [] := by
      intro empty
      rw [empty] at merged
      cases merged
    rcases (covers partition.key).mpr ⟨inRange, nonempty⟩ with ⟨scanned, scannedMem, atKey⟩
    have isValid := valid scanned scannedMem
    rw [← atKey, ← isValid.versions, isValid.merged] at merged
    exact ⟨scanned, scannedMem, Except.ok.inj merged⟩

theorem scan_exact_reinsertedLastRow : ∃ partitions, Drains nextMergedPartition
      (new [⟨.ssTable, [reinsertedLastRow]⟩] none none) partitions ∧
    StrictlySorted Partition.key partitions := by
  have sorted : SortedSources [⟨.ssTable, [reinsertedLastRow]⟩] := ⟨by decide, by decide⟩
  rcases exists_scan Nat.one_pos sorted none none with ⟨scan, _, _, _, merges, _⟩
  exact ⟨_, merges, (scan_exact sorted none none merges).1⟩

/-- With one row per fragment the reinserted first row fills a fragment, the older row after it
is discarded, and no fragment is marked last. -/
theorem fragments_of_reinsertedFirstRow_unmarked :
    SortedSources [⟨.ssTable, [reinsertedFirstRow]⟩] ∧
    ∃ fragments partitions,
      Drains (nextFragment · 1) (new [⟨.ssTable, [reinsertedFirstRow]⟩] none none) fragments ∧
      Drains nextMergedPartition (new [⟨.ssTable, [reinsertedFirstRow]⟩] none none) partitions ∧
      ¬Reassembles fragments partitions := by
  refine ⟨⟨by decide, by decide⟩,
    [⟨⟨0, [1]⟩, ⟨10, 0⟩, none, [⟨[0], [], .live, .withTimestamp 20⟩], true, false⟩],
    [⟨⟨0, [1]⟩, ⟨10, 0⟩, none, [⟨[0], [], .live, .withTimestamp 20⟩]⟩], ?_, ?_, ?_⟩
  · apply Drains.of_drain
    show drain _ 2 _ = _
    decide
  · apply Drains.of_drain
    show drain _ 2 _ = _
    decide
  · intro reassembles
    exact absurd reassembles.last (by decide)

end RangeMerger

end Ferrosa.Storage
