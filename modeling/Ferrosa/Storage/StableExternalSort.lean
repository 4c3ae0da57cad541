import Ferrosa.Storage.RunMerging

/-!
# The external sorter sorts stably

At any time the run files, one after the other, and then the buffer hold the pushed rows with
equal rows in push order, and every run is sorted.  Merging consecutive runs keeps that, so the
last merge yields the stable sort of the pushed rows, however often and whenever the buffer was
spilled.
-/

namespace Ferrosa.Storage.ExternalSort

open StableMerge Runs List SameTies Function

variable {T : Type} {codec : RowCodec T} {order : T → T → Ordering}

namespace SortedRows

theorem drains_inMemory (rows : List T) : Drains (next codec order) (.inMemory rows) rows := by
  induction rows with
  | nil => exact .done rfl
  | cons row rest ih => exact .pull rfl ih

variable {rows : List T} {dir : Directory}

theorem drains_merged {merger : KWayMerge T}
    (drains : Drains (KWayMerge.nextRow codec order) merger rows) :
    Drains (next codec order) (.merged merger) rows := by
  induction drains with
  | @done state final ended =>
    have last : next codec order (.merged state) = .ok (none, .merged final) := by
      simp only [next, ended, bind, Except.bind, pure, Except.pure]
    exact .done last
  | @pull state later row _ pulled _ ih =>
    have step : next codec order (.merged state) = .ok (some row, .merged later) := by
      simp only [next, pulled, bind, Except.bind, pure, Except.pure]
    exact .pull step ih

def Parkable (dir : Directory) (result : SortedRows T) : Prop :=
  dir .parkedRun = none ∨ ∃ merger, result = .merged merger

theorem Parkable.next {result later : SortedRows T} {row : Option T}
    (parkable : result.Parkable dir) (pulled : next codec order result = .ok (row, later)) :
    later.Parkable dir := by
  rcases parkable with absent | ⟨merger, rfl⟩
  · exact Or.inl absent
  · right
    rw [SortedRows.next] at pulled
    cases step : merger.nextRow codec order with
    | error error =>
      rw [step] at pulled
      cases pulled
    | ok next =>
      rw [step] at pulled
      cases pulled
      exact ⟨_, rfl⟩

theorem skip_drains {result : SortedRows T} (drains : Drains (next codec order) result rows)
    (parkable : result.Parkable dir) {count : ℕ} (within : count ≤ rows.length) :
    ∃ rest, skip codec order count result = .ok rest ∧
      Drains (next codec order) rest (rows.drop count) ∧ rest.Parkable dir := by
  induction count generalizing result rows with
  | zero => exact ⟨result, rfl, drains, parkable⟩
  | succ count ih =>
    cases drains with
    | done ended => simp at within
    | pull pulled later =>
      rcases ih later (parkable.next pulled) (by simpa using within) with
        ⟨rest, skipped, drainsRest, parkableRest⟩
      refine ⟨rest, ?_, by simpa using drainsRest, parkableRest⟩
      simp only [skip, pulled, bind, Except.bind, skipped]

end SortedRows

variable [Std.TransCmp order]

def Older (generation : ℕ) (file : RunFile) : Prop :=
  ∀ made index, file = .merge made index → made < generation

def MadeBy (generation : ℕ) (files : List RunFile) (file : RunFile) : Prop :=
  Older generation file ∨ ∃ index < files.length, file = .merge generation index

variable {files : List RunFile} {file : RunFile} {generation : ℕ} {dir : Directory}

theorem MadeBy.mono {more : List RunFile} (made : MadeBy generation files file) :
    MadeBy generation (files ++ more) file := by
  rcases made with isOlder | ⟨index, bound, isMade⟩
  · exact Or.inl isOlder
  · exact Or.inr ⟨index, by simp only [length_append]; omega, isMade⟩

theorem MadeBy.older (made : MadeBy generation files file) : Older (generation + 1) file := by
  intro other index isMerge
  rcases made with isOlder | ⟨_, _, isMade⟩
  · exact (isOlder other index isMerge).trans (Nat.lt_succ_self _)
  · cases isMerge.symm.trans isMade
    exact Nat.lt_succ_self _

theorem Older.ne_merge {index : ℕ} (older : Older generation file) :
    file ≠ .merge generation index := by
  intro isMerge
  exact (older generation index isMerge).false

theorem MadeBy.ne_merge (made : MadeBy generation files file) :
    file ≠ .merge generation files.length := by
  rcases made with isOlder | ⟨index, bound, rfl⟩
  · exact isOlder.ne_merge
  · simpa using bound.ne

theorem removeFiles_update {group : List RunFile} {out : RunFile}
    {bytes : Option Bytes} (notOut : file ≠ out) (notInput : file ∉ group) :
    removeFiles (Function.update dir out bytes) group file = dir file := by
  rw [removeFiles, if_neg notInput, update_of_ne notOut]

theorem mergeGroup_eq {group rest merged : List RunFile} {done now later : List (List T)}
    (storedDone : Stored codec order dir merged done) (storedNow : Stored codec order dir group now)
    (storedLater : Stored codec order dir rest later) (distinct : (merged ++ (group ++ rest)).Nodup)
    (older : ∀ file ∈ group ++ rest, Older generation file)
    (made : ∀ file ∈ merged, MadeBy generation merged file) :
    ∃ dir' run, mergeRunsInto codec order dir group (.merge generation merged.length) = .ok dir' ∧
      Stored codec order (removeFiles dir' group) (merged ++ [.merge generation merged.length])
        (done ++ [run]) ∧
      Stored codec order (removeFiles dir' group) rest later ∧
      SameTies order now.flatten run := by
  rcases storedNow.mergeRunsInto_eq (.merge generation merged.length) with
    ⟨run, isMerged, sorted⟩
  have apart := nodup_append.mp distinct
  have apartRest := nodup_append.mp apart.2.1
  refine ⟨_, run, isMerged, .append ?_ (.singleton ?_ sorted.ordered ?_), ?_, sorted.sameTies⟩
  · refine storedDone.frame fun file present => removeFiles_update (made file present).ne_merge ?_
    intro inGroup
    exact apart.2.2 file present file (mem_append_left _ inGroup) rfl
  · have notInput : RunFile.merge generation merged.length ∉ group := fun inGroup =>
      (older _ (mem_append_left _ inGroup)).ne_merge rfl
    rw [removeFiles, if_neg notInput, update_self]
  · intro row present
    rcases mem_flatten.mp (sorted.sameTies.perm.mem_iff.mpr present) with ⟨other, inNow, inRun⟩
    exact storedNow.readable other inNow row inRun
  · refine storedLater.frame fun file present => removeFiles_update ?_ ?_
    · exact (older file (mem_append_right _ present)).ne_merge
    · intro inGroup
      exact apartRest.2.2 file inGroup file present rfl

theorem mergeGroups_eq {groups : List (List RunFile)} {merged : List RunFile}
    {done pending : List (List T)} (storedDone : Stored codec order dir merged done)
    (storedPending : Stored codec order dir groups.flatten pending)
    (distinct : (merged ++ groups.flatten).Nodup)
    (older : ∀ file ∈ groups.flatten, Older generation file)
    (made : ∀ file ∈ merged, MadeBy generation merged file) :
    ∃ dir' files runs, mergeGroups codec order generation groups dir merged = .ok (dir', files) ∧
      Stored codec order dir' files runs ∧ files.Nodup ∧
      files.length = merged.length + groups.length ∧
      (∀ file ∈ files, Older (generation + 1) file) ∧
      SameTies order (done ++ pending).flatten runs.flatten := by
  induction groups generalizing dir merged done pending with
  | nil =>
    have noPending : pending = [] := by simpa using storedPending.holds.symm
    refine ⟨dir, merged, done, rfl, storedDone, by simpa using distinct, rfl,
      fun file present => (made file present).older, ?_⟩
    rw [noPending, append_nil]
    exact refl _
  | cons group rest ih =>
    rw [flatten_cons] at storedPending distinct older
    rcases storedPending.exists_split with ⟨now, later, rfl, storedNow, storedLater⟩
    have olderRest : ∀ file ∈ rest.flatten, Older generation file := fun file present =>
      older file (mem_append_right _ present)
    rw [mergeGroups]
    split_ifs with lone
    · have distinct' : ((merged ++ group) ++ rest.flatten).Nodup := by
        rwa [append_assoc]
      have made' : ∀ file ∈ merged ++ group, MadeBy generation (merged ++ group) file := by
        intro file present
        rcases mem_append.mp present with old | new
        · exact (made file old).mono
        · exact Or.inl (older file (mem_append_left _ new))
      rcases ih (storedDone.append storedNow) storedLater distinct' olderRest made' with
        ⟨dir', files, runs, isPass, stored, nodup, count, olderFiles, ties⟩
      refine ⟨dir', files, runs, isPass, stored, nodup, ?_, olderFiles, ?_⟩
      · rw [count, length_append, lone, length_cons]
        omega
      · rwa [append_assoc] at ties
    · rcases mergeGroup_eq storedDone storedNow storedLater distinct older made with
        ⟨written, run, isMerged, storedMerged, storedRest, groupTies⟩
      have distinct' : (merged ++ [RunFile.merge generation merged.length] ++
          rest.flatten).Nodup := by
        rw [append_assoc, singleton_append, nodup_middle, nodup_cons]
        refine ⟨?_, distinct.sublist
          ((List.Sublist.refl merged).append (sublist_append_right group _))⟩
        intro present
        rcases mem_append.mp present with inMerged | inRest
        · exact (made _ inMerged).ne_merge rfl
        · exact (olderRest _ inRest).ne_merge rfl
      have made' : ∀ file ∈ merged ++ [.merge generation merged.length],
          MadeBy generation (merged ++ [.merge generation merged.length]) file := by
        intro file present
        rcases mem_append.mp present with old | new
        · exact (made file old).mono
        · exact Or.inr ⟨merged.length, by simp, mem_singleton.mp new⟩
      rcases ih storedMerged storedRest distinct' olderRest made' with
        ⟨dir', files, runs, isPass, stored, nodup, count, olderFiles, ties⟩
      refine ⟨dir', files, runs, ?_, stored, nodup, ?_, olderFiles, ?_⟩
      · simp only [isMerged, bind, Except.bind, isPass]
      · simp only [count, length_append, length_cons, length_nil]
        omega
      · refine trans ?_ ties
        simp only [flatten_append, append_assoc, flatten_singleton]
        exact (refl _).append (groupTies.append (refl _))

namespace ExternalSorter

variable {sorter : ExternalSorter T} {runs : List (List T)}

theorem reduceRunsToFanin_eq {fuel generation : ℕ} (enough : sorter.runs.length ≤ fuel)
    (stored : Stored codec order sorter.dir sorter.runs runs) (distinct : sorter.runs.Nodup)
    (older : ∀ file ∈ sorter.runs, Older generation file) :
    ∃ reduced reducedRuns, reduceRunsToFanin codec order fuel generation sorter = .ok reduced ∧
      Stored codec order reduced.dir reduced.runs reducedRuns ∧
      SameTies order runs.flatten reducedRuns.flatten := by
  induction fuel generalizing sorter runs generation with
  | zero =>
    have few : sorter.runs.length ≤ mergeFanin := by omega
    exact ⟨sorter, runs, by rw [reduceRunsToFanin, if_pos few], stored, .refl _⟩
  | succ fuel ih =>
    by_cases few : sorter.runs.length ≤ mergeFanin
    · exact ⟨sorter, runs, by rw [reduceRunsToFanin, if_pos few], stored, .refl _⟩
    · have positive : 0 < mergeFanin := by decide
      have pieces := flatten_chunks positive sorter.runs
      rcases @mergeGroups_eq T codec order _ generation sorter.dir
          (chunks mergeFanin sorter.runs) [] [] runs .nil (by rwa [pieces])
          (by simpa [pieces] using distinct) (by rwa [pieces]) (by simp) with
        ⟨dir, files, passRuns, isPass, storedPass, nodup, count, olderFiles, ties⟩
      have fewer : files.length ≤ fuel := by
        have bound := length_chunks_mul_lt positive sorter.runs
        rw [length_nil, Nat.zero_add] at count
        rw [count]
        simp only [mergeFanin] at bound few ⊢
        omega
      rcases @ih { sorter with dir := dir, runs := files } passRuns (generation + 1) fewer
        storedPass nodup olderFiles with ⟨reduced, reducedRuns, isReduced, storedReduced, laterTies⟩
      refine ⟨reduced, reducedRuns, ?_, storedReduced, ties.trans laterTies⟩
      rw [reduceRunsToFanin, if_neg few]
      simp only [isPass, bind, Except.bind, isReduced]

/-- The runs and the buffer hold the pushed rows, with equal rows in push order. -/
structure Holds (codec : RowCodec T) (order : T → T → Ordering) (sorter : ExternalSorter T)
    (pushed : List T) : Prop where
  stored : ∃ runs, Stored codec order sorter.dir sorter.runs runs ∧
    SameTies order pushed (runs.flatten ++ sorter.buffer)
  numbered : sorter.runs = (List.range sorter.runs.length).map RunFile.run
  readable : ∀ row ∈ sorter.buffer, Readable codec row
  unparked : sorter.dir .parkedRun = none

theorem isStableSort_sortedBuffer : IsStableSort order sorter.buffer (sorter.sortedBuffer order) :=
  isStableSort_mergeSort sorter.buffer

variable {pushed : List T}

section

variable (holds : sorter.Holds codec order pushed)

include holds

theorem Holds.readable_sortedBuffer : ∀ row ∈ sorter.sortedBuffer order, Readable codec row := by
  intro row present
  exact holds.readable row (isStableSort_sortedBuffer.sameTies.perm.mem_iff.mpr present)

theorem Holds.spillBuffer :
    ∃ spilled, sorter.spillBuffer codec order = .ok spilled ∧ spilled.Holds codec order pushed ∧
      spilled.buffer = [] := by
  unfold ExternalSorter.spillBuffer
  split_ifs with empty
  · exact ⟨sorter, rfl, holds, isEmpty_iff.mp empty⟩
  · have readable := holds.readable_sortedBuffer
    have sorted : IsStableSort order sorter.buffer (sorter.sortedBuffer order) :=
      isStableSort_sortedBuffer
    rcases holds.stored with ⟨runs, stored, ties⟩
    rw [writeRows_eq readable]
    refine ⟨_, rfl, ⟨?_, ?_, by simp, ?_⟩, rfl⟩
    · refine ⟨runs ++ [sorter.sortedBuffer order], .append ?_ (.singleton ?_ sorted.ordered
        readable), ?_⟩
      · refine stored.frame fun file present => update_of_ne ?_ _ _
        rw [holds.numbered] at present
        rcases mem_map.mp present with ⟨index, inRange, rfl⟩
        simpa using (mem_range.mp inRange).ne
      · exact update_self _ _ _
      · simpa using ties.trans ((refl _).append sorted.sameTies)
    · rw [length_append, length_singleton, range_succ, map_append, map_singleton, ← holds.numbered]
    · simpa using holds.unparked

theorem Holds.push
    (retainedBytes : T → ℕ) {row : T} (readable : Readable codec row) (answer : PoolAnswer) :
    ∃ next, sorter.push codec order retainedBytes row answer = .ok next ∧
      next.Holds codec order (pushed ++ [row]) := by
  have admits : ∃ admitted, sorter.admitPush codec order answer = .ok admitted ∧
      admitted.Holds codec order pushed := by
    unfold ExternalSorter.admitPush
    split_ifs
    · rcases holds.spillBuffer with ⟨admitted, isSpilled, holdsAdmitted, _⟩
      exact ⟨admitted, isSpilled, holdsAdmitted⟩
    · exact ⟨sorter, rfl, holds⟩
  rcases admits with ⟨admitted, isAdmitted, holdsAdmitted⟩
  have buffered : Holds codec order { admitted with
        bufferBytes := admitted.bufferBytes + retainedBytes row
        buffer := admitted.buffer ++ [row] } (pushed ++ [row]) := by
    rcases holdsAdmitted.stored with ⟨runs, stored, ties⟩
    refine ⟨⟨runs, stored, ?_⟩, holdsAdmitted.numbered, ?_, holdsAdmitted.unparked⟩
    · rw [← append_assoc]
      exact ties.append (refl _)
    · exact forall_mem_append.mpr ⟨holdsAdmitted.readable, forall_mem_singleton.mpr readable⟩
  rw [ExternalSorter.push, isAdmitted]
  simp only [bind, Except.bind]
  split_ifs
  · rcases buffered.spillBuffer with ⟨next, isSpilled, holdsNext, _⟩
    exact ⟨next, isSpilled, holdsNext⟩
  · exact ⟨_, rfl, buffered⟩

theorem Holds.pushAll (retainedBytes : T → ℕ) {pushes : List (T × PoolAnswer)}
    (readable : ∀ push ∈ pushes, Readable codec push.1) :
    ∃ last, ExternalSorter.pushAll codec order retainedBytes pushes sorter = .ok last ∧
      last.Holds codec order (pushed ++ pushes.map Prod.fst) := by
  induction pushes generalizing sorter pushed with
  | nil => exact ⟨sorter, rfl, by simpa using holds⟩
  | cons first rest ih =>
    rw [forall_mem_cons] at readable
    rcases holds.push retainedBytes readable.1 first.2 with ⟨next, isPushed, holdsNext⟩
    rcases ih holdsNext readable.2 with ⟨last, isLast, holdsLast⟩
    refine ⟨last, ?_, by simpa using holdsLast⟩
    simp only [ExternalSorter.pushAll, isPushed, bind, Except.bind, isLast]

end

end ExternalSorter

theorem SortedRows.intoDiskBacked_drains {rows : List T} {result : SortedRows T}
    (drains : Drains (next codec order) result rows) (ordered : Ordered order rows)
    (readable : ∀ row ∈ rows, Readable codec row) (parkable : result.Parkable dir) :
    ∃ parked, intoDiskBacked codec order dir result = .ok parked ∧
      Drains (next codec order) parked rows := by
  cases result with
  | merged merger => exact ⟨_, rfl, drains⟩
  | inMemory held =>
    obtain rfl : held = rows := (drains_inMemory held).unique drains
    have absent : dir .parkedRun = none := by simpa [Parkable] using parkable
    have stored : Stored codec order
        (Function.update dir .parkedRun (some (encodeRows codec held))) [.parkedRun] [held] :=
      .singleton (update_self _ _ _) ordered readable
    rcases stored.openMerge_eq with ⟨merger, opened, represents⟩
    rcases represents.exists_merges with ⟨merged, drainsMerged, merges⟩
    refine ⟨.merged merger, ?_, drains_merged ?_⟩
    · rw [intoDiskBacked, absent]
      simp only [Option.isSome_none, Bool.false_eq_true, if_false, writeRows_eq readable, bind,
        Except.bind, opened, pure, Except.pure]
    · have sorted := merges.isStableSort stored.ordered
      rw [flatten_singleton] at sorted
      rwa [sorted.sameTies.eq_of_ordered ordered sorted.ordered]

theorem ExternalSorter.Holds.finish {sorter : ExternalSorter T} {pushed : List T}
    (holds : sorter.Holds codec order pushed) :
    ∃ result dir rows, sorter.finish codec order = .ok (result, dir) ∧
      Drains (SortedRows.next codec order) result rows ∧ IsStableSort order pushed rows ∧
      result.Parkable dir := by
  unfold ExternalSorter.finish
  split_ifs with unspilled
  · rcases holds.stored with ⟨runs, stored, ties⟩
    have noRuns : runs = [] := by
      simpa [isEmpty_iff.mp unspilled] using stored.holds.symm
    have sorted : IsStableSort order sorter.buffer (sorter.sortedBuffer order) :=
      isStableSort_sortedBuffer
    rw [noRuns, flatten_nil, nil_append] at ties
    exact ⟨_, _, _, rfl, SortedRows.drains_inMemory _,
      ⟨sorted.ordered, ties.trans sorted.sameTies⟩, Or.inl holds.unparked⟩
  · rcases holds.spillBuffer with ⟨spilled, isSpilled, holdsSpilled, empty⟩
    rcases holdsSpilled.stored with ⟨runs, stored, ties⟩
    rw [empty, append_nil] at ties
    have distinct : spilled.runs.Nodup := by
      rw [holdsSpilled.numbered]
      exact nodup_range.map fun _ _ same => RunFile.run.inj same
    have older : ∀ file ∈ spilled.runs, Older 0 file := by
      intro file present made index isMerge
      rw [holdsSpilled.numbered] at present
      rcases mem_map.mp present with ⟨_, _, rfl⟩
      cases isMerge
    rcases reduceRunsToFanin_eq le_rfl stored distinct older with
      ⟨reduced, reducedRuns, isReduced, storedReduced, reducedTies⟩
    rcases storedReduced.openMerge_eq with ⟨merger, opened, represents⟩
    rcases represents.exists_merges with ⟨rows, drains, merges⟩
    have sorted := merges.isStableSort storedReduced.ordered
    refine ⟨.merged merger, reduced.dir, rows, ?_, SortedRows.drains_merged drains,
      ⟨sorted.ordered, (ties.trans reducedTies).trans sorted.sameTies⟩, Or.inr ⟨merger, rfl⟩⟩
    simp only [isSpilled, bind, Except.bind, isReduced, opened, pure, Except.pure]

/-- For every pattern of spills the result yields the pushed rows sorted stably, and the rows
that are left when it is parked on disk. -/
theorem finish_isStableSort (retainedBytes : T → ℕ) {dir : Directory} (thresholdBytes : ℕ)
    (pushes : List (T × PoolAnswer)) (unparked : dir .parkedRun = none)
    (readable : ∀ push ∈ pushes, Readable codec push.1) :
    ∃ sorter result last rows,
      ExternalSorter.pushAll codec order retainedBytes pushes (.new dir thresholdBytes) =
          .ok sorter ∧
        sorter.finish codec order = .ok (result, last) ∧
        Drains (SortedRows.next codec order) result rows ∧
        IsStableSort order (pushes.map Prod.fst) rows ∧ rows.Perm (pushes.map Prod.fst) ∧
        ∀ count ≤ rows.length, ∃ rest parked, SortedRows.skip codec order count result = .ok rest ∧
            SortedRows.intoDiskBacked codec order last rest = .ok parked ∧
            Drains (SortedRows.next codec order) parked (rows.drop count) := by
  have start : (ExternalSorter.new dir thresholdBytes).Holds codec order ([] : List T) :=
    ⟨⟨[], .nil, .refl _⟩, rfl, by simp [ExternalSorter.new], unparked⟩
  rcases start.pushAll retainedBytes readable with ⟨sorter, isPushed, holds⟩
  rw [nil_append] at holds
  rcases holds.finish with ⟨result, last, rows, isFinished, drains, sorted, parkable⟩
  have perm := sorted.sameTies.perm
  refine ⟨sorter, result, last, rows, isPushed, isFinished, drains, sorted, perm.symm, ?_⟩
  intro count within
  rcases SortedRows.skip_drains drains parkable within with
    ⟨rest, skipped, drainsRest, parkableRest⟩
  have readableRest : ∀ row ∈ rows.drop count, Readable codec row := by
    intro row present
    rcases mem_map.mp (perm.mem_iff.mpr (mem_of_mem_drop present)) with ⟨push, inPushes, rfl⟩
    exact readable push inPushes
  rcases SortedRows.intoDiskBacked_drains drainsRest sorted.ordered.drop readableRest
    parkableRest with ⟨parked, isParked, drainsParked⟩
  exact ⟨rest, parked, skipped, isParked, drainsParked⟩

def pairCodec : RowCodec (UInt8 × UInt8) where
  encode row := [row.1, row.2]
  decode
    | [key, label] => some (key, label)
    | _ => none

def pairPushes : List ((UInt8 × UInt8) × PoolAnswer) :=
  [((2, 0), ⟨false, true⟩), ((1, 1), ⟨false, false⟩), ((2, 2), ⟨true, false⟩)]

/-- The rows with the key 2 stay in their order. -/
theorem finish_pairPushes : ∃ sorter result last,
      ExternalSorter.pushAll pairCodec (compareOn Prod.fst) (fun _ => 2) pairPushes
          (.new (fun _ => none) 100) = .ok sorter ∧
        sorter.finish pairCodec (compareOn Prod.fst) = .ok (result, last) ∧
        Drains (SortedRows.next pairCodec (compareOn Prod.fst)) result [(1, 1), (2, 0), (2, 2)] := by
  have readable : ∀ push ∈ pairPushes, Readable pairCodec push.1 :=
    fun push _ => ⟨rfl, show 2 < Framing.payloadLimit by decide⟩
  rcases @finish_isStableSort _ pairCodec (compareOn Prod.fst) _ (fun _ => 2) (fun _ => none) 100
      pairPushes rfl readable with
    ⟨sorter, result, last, rows, isPushed, isFinished, drains, sorted, _, _⟩
  have expected : SameTies (compareOn Prod.fst) (pairPushes.map Prod.fst)
      [((1 : UInt8), (1 : UInt8)), (2, 0), (2, 2)] := by
    intro a
    by_cases one : compare a.1 1 = .eq
    · simp_all [ties, pairPushes, compareOn]
    · by_cases two : compare a.1 2 = .eq <;> simp [ties, pairPushes, compareOn, one, two]
  have isSorted : rows = [(1, 1), (2, 0), (2, 2)] := by
    refine eq_of_ordered (fun a => ?_) sorted.ordered (by unfold Ordered; decide)
    rw [← sorted.sameTies a, expected a]
  exact ⟨sorter, result, last, isPushed, isFinished, isSorted ▸ drains⟩

end Ferrosa.Storage.ExternalSort
