import Ferrosa.Lib.Runs
import Ferrosa.Lib.StableMerge
import Ferrosa.Storage.ExternalSort

/-!
# Merging run files

The heap of a k-way merge holds the head of every run that is not exhausted, in popping order,
and the cursors hold the rest.  So pulling rows from it merges the runs with ties in the order
of the runs.
-/

namespace Ferrosa.Storage.ExternalSort

open StableMerge Runs List

variable {T : Type} {codec : RowCodec T} {order : T → T → Ordering}

/-- The serializer reads the row back, and its record is not too long. -/
structure Readable (codec : RowCodec T) (row : T) : Prop where
  decodes : codec.decode (codec.encode row) = some row
  fits : (codec.encode row).length < Framing.payloadLimit

def encodeRows (codec : RowCodec T) (rows : List T) : Bytes :=
  Framing.frames (rows.map codec.encode)

@[simp] theorem encodeRows_nil : encodeRows codec [] = [] := rfl

@[simp] theorem encodeRows_cons (row : T) (rows : List T) :
    encodeRows codec (row :: rows) = Framing.frame (codec.encode row) ++ encodeRows codec rows :=
  rfl

@[simp] theorem encodeRows_append (front back : List T) :
    encodeRows codec (front ++ back) = encodeRows codec front ++ encodeRows codec back := by
  simp [encodeRows]

theorem flatten_map_encodeRows (runs : List (List T)) :
    (runs.map (encodeRows codec)).flatten = encodeRows codec runs.flatten := by
  induction runs with
  | nil => rfl
  | cons run runs ih =>
    rw [map_cons, flatten_cons, ih, flatten_cons, encodeRows_append]

theorem length_le_length_encodeRows (rows : List T) :
    rows.length ≤ (encodeRows codec rows).length := by
  induction rows with
  | nil => simp
  | cons row rest ih =>
    simp only [encodeRows_cons, length_append, Framing.length_frame, length_cons]
    omega

theorem writeRows_eq {rows : List T} (readable : ∀ row ∈ rows, Readable codec row) :
    writeRows codec rows = .ok (encodeRows codec rows) := by
  induction rows with
  | nil => rfl
  | cons row rest ih =>
    rw [forall_mem_cons] at readable
    simp [writeRows, writeRow, readable.1.fits, ih readable.2, bind, Except.bind, pure, Except.pure]

theorem readRow_frame_append {row : T} (readable : Readable codec row) (bytes : Bytes) :
    readRow codec (Framing.frame (codec.encode row) ++ bytes) = .ok (some row, bytes) := by
  have longEnough : ¬ (Framing.frame (codec.encode row) ++ bytes).length < 4 := by
    simp only [length_append, Framing.length_frame]
    omega
  rw [readRow, if_neg longEnough, Framing.nextFrame_frame_append readable.fits]
  simp [readable.decodes]

theorem readRow_encodeRows {rows : List T} (readable : ∀ row ∈ rows, Readable codec row) :
    readRow codec (encodeRows codec rows) = .ok (rows.head?, encodeRows codec rows.tail) := by
  cases rows with
  | nil => rfl
  | cons row rest => exact readRow_frame_append (readable row mem_cons_self) _

section Heap

variable {heap : List (HeapEntry T)} {row : Option T} {runIdx : ℕ}

theorem HeapEntry.le_iff {left right : HeapEntry T} : HeapEntry.le order left right ↔
    order left.row right.row = .lt ∨
      (order left.row right.row = .eq ∧ left.runIdx ≤ right.runIdx) := by
  rw [HeapEntry.le, Ordering.isLE_then_iff_or, Nat.isLE_compare]

theorem KWayMerge.mem_refill {entry : HeapEntry T} : entry ∈ refill order heap row runIdx ↔
      entry ∈ heap ∨ (row = some entry.row ∧ entry.runIdx = runIdx) := by
  cases row with
  | none => simp [refill]
  | some row =>
    rcases entry with ⟨other, otherIdx⟩
    rw [refill, (perm_orderedInsert _ _ heap).mem_iff, mem_cons]
    simp only [HeapEntry.mk.injEq, Option.some.injEq, eq_comm]
    tauto

theorem KWayMerge.nodup_refill (distinct : (heap.map (·.runIdx)).Nodup)
    (absent : ∀ entry ∈ heap, entry.runIdx ≠ runIdx) :
    ((refill order heap row runIdx).map (·.runIdx)).Nodup := by
  cases row with
  | none => exact distinct
  | some row =>
    rw [refill, ((perm_orderedInsert _ _ heap).map _).nodup_iff, map_cons, nodup_cons]
    refine ⟨?_, distinct⟩
    rw [mem_map]
    rintro ⟨entry, present, same⟩
    exact absent entry present same

variable [Std.TransCmp order]

instance : Std.Total (HeapEntry.le order) where
  total left right := by
    have swapped : order right.row left.row = (order left.row right.row).swap :=
      Std.OrientedCmp.eq_swap
    rw [HeapEntry.le_iff, HeapEntry.le_iff, swapped]
    cases order left.row right.row with
    | lt => simp
    | eq => simpa using le_total left.runIdx right.runIdx
    | gt => simp

instance : IsTrans (HeapEntry T) (HeapEntry.le order) where
  trans left middle right first second := by
    rw [HeapEntry.le_iff] at *
    rcases first with below | ⟨equal, atMost⟩
    · left
      apply Std.TransCmp.lt_of_lt_of_isLE below
      rcases second with belowRight | ⟨equalRight, _⟩
      · simp [belowRight]
      · simp [equalRight]
    · rw [Std.TransCmp.congr_left equal]
      rcases second with belowRight | ⟨equalRight, atMostRight⟩
      · exact Or.inl belowRight
      · exact Or.inr ⟨equalRight, atMost.trans atMostRight⟩

theorem KWayMerge.sorted_refill (sorted : heap.Pairwise (HeapEntry.le order)) :
    (refill order heap row runIdx).Pairwise (HeapEntry.le order) := by
  cases row with
  | none => exact sorted
  | some row => exact sorted.orderedInsert _ _

end Heap

namespace KWayMerge

structure Represents (codec : RowCodec T) (order : T → T → Ordering) (merge : KWayMerge T)
    (runs : List (List T)) : Prop where
  readable : ∀ run ∈ runs, ∀ row ∈ run, Readable codec row
  cursors : merge.cursors = runs.map fun run => encodeRows codec run.tail
  entries : ∀ entry, entry ∈ merge.heap ↔ ∃ rest, runs[entry.runIdx]? = some (entry.row :: rest)
  distinct : (merge.heap.map (·.runIdx)).Nodup
  sorted : merge.heap.Pairwise (HeapEntry.le order)

variable {merge : KWayMerge T} {runs : List (List T)}

theorem represents_nil : Represents codec order (⟨[], []⟩ : KWayMerge T) [] where
  readable := by simp
  cursors := rfl
  entries := by simp
  distinct := nodup_nil
  sorted := List.Pairwise.nil

theorem pullAll_eq_of_drains {rows : List T} (drains : Drains (nextRow codec order) merge rows)
    {fuel : ℕ} (enough : rows.length < fuel) : pullAll codec order fuel merge = .ok rows := by
  induction drains generalizing fuel with
  | done ended =>
    cases fuel with
    | zero => omega
    | succ fuel => simp [pullAll, ended, bind, Except.bind, pure, Except.pure]
  | pull pulled _ ih =>
    cases fuel with
    | zero => omega
    | succ fuel =>
      have later := ih (by simpa using enough)
      simp [pullAll, pulled, later, bind, Except.bind, pure, Except.pure]

section

variable (represents : Represents codec order merge runs)

include represents

theorem Represents.nextRow_of_nil (noEntry : merge.heap = []) :
    nextRow codec order merge = .ok (none, merge) ∧ ∀ run ∈ runs, run = [] := by
  refine ⟨by rw [nextRow, noEntry], fun run present => ?_⟩
  rcases mem_iff_getElem?.mp present with ⟨i, isRun⟩
  cases run with
  | nil => rfl
  | cons row rest =>
    have entry := (represents.entries ⟨row, i⟩).mpr ⟨rest, isRun⟩
    rw [noEntry] at entry
    cases entry

variable {top : HeapEntry T} {heap : List (HeapEntry T)}

theorem Represents.nextRow_of_cons (isHeap : merge.heap = top :: heap) :
    ∃ rest, runs[top.runIdx]? = some (top.row :: rest) ∧
      nextRow codec order merge = .ok (some top.row,
        ⟨merge.cursors.set top.runIdx (encodeRows codec rest.tail),
          refill order heap rest.head? top.runIdx⟩) := by
  rcases (represents.entries top).mp (by simp [isHeap]) with ⟨rest, isRun⟩
  refine ⟨rest, isRun, ?_⟩
  have reader : merge.cursors.getD top.runIdx [] = encodeRows codec rest := by
    simp [represents.cursors, getD_eq_getElem?_getD, isRun]
  have readable : ∀ row ∈ rest, Readable codec row := fun row inRest =>
    represents.readable _ (mem_of_getElem? isRun) row (mem_cons_of_mem _ inRest)
  simp only [nextRow, isHeap, reader, readRow_encodeRows readable]
  rfl

variable [Std.TransCmp order]

theorem Represents.leads (isHeap : merge.heap = top :: heap) :
    Leads order runs top.runIdx top.row := by
  intro j head tail isRun
  have entry := (represents.entries ⟨head, j⟩).mpr ⟨tail, isRun⟩
  have sorted := represents.sorted
  rw [isHeap] at entry sorted
  rcases mem_cons.mp entry with rfl | below
  · exact Or.inr ⟨Std.ReflCmp.compare_self, le_rfl⟩
  · exact HeapEntry.le_iff.mp ((pairwise_cons.mp sorted).1 _ below)

theorem Represents.pull (isHeap : merge.heap = top :: heap) {rest : List T}
    (isRun : runs[top.runIdx]? = some (top.row :: rest)) :
    Represents codec order ⟨merge.cursors.set top.runIdx (encodeRows codec rest.tail),
        refill order heap rest.head? top.runIdx⟩ (runs.set top.runIdx rest) := by
  have inRange := (List.getElem?_eq_some_iff.mp isRun).1
  have distinct := represents.distinct
  have sorted := represents.sorted
  rw [isHeap] at distinct sorted
  rw [List.map_cons, List.nodup_cons] at distinct
  have absent : ∀ entry ∈ heap, entry.runIdx ≠ top.runIdx := by
    intro entry present same
    exact distinct.1 (List.mem_map.mpr ⟨entry, present, same⟩)
  constructor
  · intro run present row inRun
    rcases List.mem_or_eq_of_mem_set present with old | rfl
    · exact represents.readable run old row inRun
    · exact represents.readable _ (List.mem_of_getElem? isRun) row (List.mem_cons_of_mem _ inRun)
  · simp [represents.cursors, List.map_set]
  · intro entry
    rw [mem_refill]
    by_cases same : entry.runIdx = top.runIdx
    · have popped : entry ∉ heap := fun present => absent entry present same
      rw [same, List.getElem?_set_self inRange]
      cases rest <;> simp [popped]
    · rw [List.getElem?_set_ne (Ne.symm same), ← represents.entries, isHeap, List.mem_cons]
      have notTop : entry ≠ top := by
        rintro rfl
        exact same rfl
      simp [same, notTop]
  · exact nodup_refill distinct.2 absent
  · exact sorted_refill (List.pairwise_cons.mp sorted).2

theorem Represents.exists_merges :
    ∃ merged, Drains (nextRow codec order) merge merged ∧ Merges order runs merged := by
  induction count : runs.flatten.length generalizing merge runs with
  | zero =>
    have empty : ∀ run ∈ runs, run = [] :=
      flatten_eq_nil_iff.mp (length_eq_zero_iff.mp count)
    have noEntry : merge.heap = [] := by
      rw [eq_nil_iff_forall_not_mem]
      intro entry present
      rcases (represents.entries entry).mp present with ⟨rest, isRun⟩
      cases empty _ (mem_of_getElem? isRun)
    exact ⟨[], .done (represents.nextRow_of_nil noEntry).1, .done empty⟩
  | succ remaining ih =>
    cases isHeap : merge.heap with
    | nil =>
      have empty := (represents.nextRow_of_nil isHeap).2
      rw [flatten_eq_nil_iff.mpr empty] at count
      cases count
    | cons top heap =>
      rcases represents.nextRow_of_cons isHeap with ⟨rest, isRun, pulled⟩
      have fewer : (runs.set top.runIdx rest).flatten.length = remaining := by
        rcases exists_split_of_getElem? isRun with ⟨front, back, _, split, changed⟩
        rw [changed rest]
        rw [split] at count
        simp at count ⊢
        omega
      rcases ih (represents.pull isHeap isRun) fewer with ⟨merged, drains, merges⟩
      exact ⟨top.row :: merged, .pull pulled drains, .pull isRun (represents.leads isHeap) merges⟩

end

variable [Std.TransCmp order]

theorem Represents.concat (represents : Represents codec order merge runs) {run : List T}
    (readable : ∀ row ∈ run, Readable codec row) :
    Represents codec order ⟨merge.cursors ++ [encodeRows codec run.tail],
        refill order merge.heap run.head? merge.cursors.length⟩ (runs ++ [run]) := by
  have sameLength : merge.cursors.length = runs.length := by simp [represents.cursors]
  have inRange : ∀ entry ∈ merge.heap, entry.runIdx < runs.length := by
    intro entry present
    rcases (represents.entries entry).mp present with ⟨_, isRun⟩
    exact (List.getElem?_eq_some_iff.mp isRun).1
  constructor
  · exact forall_mem_append.mpr ⟨represents.readable, forall_mem_singleton.mpr readable⟩
  · simp [represents.cursors]
  · intro entry
    rw [mem_refill, represents.entries, sameLength]
    by_cases old : entry.runIdx < runs.length
    · simp [getElem?_append_left old, old.ne]
    · have missing : runs[entry.runIdx]? = none := getElem?_eq_none (by omega)
      by_cases new : entry.runIdx = runs.length
      · simp only [new, getElem?_append_right le_rfl, Nat.sub_self, and_true]
        cases run <;> simp
      · have missingBoth : (runs ++ [run])[entry.runIdx]? = none :=
          getElem?_eq_none (by simp; omega)
        simp [missing, missingBoth, new]
  · apply nodup_refill represents.distinct
    intro entry present
    have old := inRange entry present
    omega
  · exact sorted_refill represents.sorted

theorem openFrom_encodeRows (represents : Represents codec order merge runs)
    {more : List (List T)} (readable : ∀ run ∈ more, ∀ row ∈ run, Readable codec row) :
    ∃ opened, openFrom codec order (more.map (encodeRows codec)) merge = .ok opened ∧
      Represents codec order opened (runs ++ more) := by
  induction more generalizing merge runs with
  | nil => exact ⟨merge, rfl, by simpa using represents⟩
  | cons run rest ih =>
    rw [forall_mem_cons] at readable
    rcases ih (represents.concat readable.1) readable.2 with ⟨opened, isOpened, represented⟩
    refine ⟨opened, ?_, by simpa using represented⟩
    rw [map_cons, openFrom, readRow_encodeRows readable.1]
    exact isOpened

theorem openRuns_encodeRows (readable : ∀ run ∈ runs, ∀ row ∈ run, Readable codec row) :
    ∃ opened, openRuns codec order (runs.map (encodeRows codec)) = .ok opened ∧
      Represents codec order opened runs :=
  openFrom_encodeRows represents_nil readable

end KWayMerge

structure Stored (codec : RowCodec T) (order : T → T → Ordering) (dir : Directory)
    (files : List RunFile) (runs : List (List T)) : Prop where
  holds : files.map dir = runs.map fun run => some (encodeRows codec run)
  ordered : ∀ run ∈ runs, Ordered order run
  readable : ∀ run ∈ runs, ∀ row ∈ run, Readable codec row

namespace Stored

variable {dir : Directory} {files : List RunFile} {runs : List (List T)}

theorem nil : Stored codec order dir [] [] := ⟨rfl, by simp, by simp⟩

variable {moreFiles : List RunFile}

theorem append {moreRuns : List (List T)} (stored : Stored codec order dir files runs)
    (more : Stored codec order dir moreFiles moreRuns) :
    Stored codec order dir (files ++ moreFiles) (runs ++ moreRuns) where
  holds := by rw [List.map_append, List.map_append, stored.holds, more.holds]
  ordered run present := (mem_append.mp present).elim (stored.ordered run) (more.ordered run)
  readable run present :=
    (mem_append.mp present).elim (stored.readable run) (more.readable run)

theorem exists_split (stored : Stored codec order dir (files ++ moreFiles) runs) :
    ∃ front back, runs = front ++ back ∧ Stored codec order dir files front ∧
      Stored codec order dir moreFiles back := by
  have holds := stored.holds
  rw [map_append] at holds
  rcases append_eq_map_iff.mp holds with ⟨front, back, rfl, isFront, isBack⟩
  refine ⟨front, back, rfl, ⟨isFront.symm, ?_, ?_⟩, ⟨isBack.symm, ?_, ?_⟩⟩
  · exact fun run present => stored.ordered run (mem_append_left _ present)
  · exact fun run present => stored.readable run (mem_append_left _ present)
  · exact fun run present => stored.ordered run (mem_append_right _ present)
  · exact fun run present => stored.readable run (mem_append_right _ present)

theorem singleton {file : RunFile} {run : List T} (holds : dir file = some (encodeRows codec run))
    (ordered : Ordered order run) (readable : ∀ row ∈ run, Readable codec row) :
    Stored codec order dir [file] [run] :=
  ⟨by simp [holds], by simpa using ordered, by simpa using readable⟩

section

variable (stored : Stored codec order dir files runs)

include stored

theorem frame {other : Directory}
    (same : ∀ file ∈ files, other file = dir file) : Stored codec order other files runs :=
  { stored with holds := (List.map_congr_left same).trans stored.holds }

theorem mapM_openFile : files.mapM (openFile dir) = .ok (runs.map (encodeRows codec)) := by
  have holds := stored.holds
  clear stored
  induction files generalizing runs with
  | nil =>
    cases runs with
    | nil => rfl
    | cons run rest => cases holds
  | cons file files ih =>
    cases runs with
    | nil => cases holds
    | cons run runs =>
      rw [map_cons, map_cons, List.cons.injEq] at holds
      rw [mapM_cons, openFile, holds.1, ih holds.2]
      rfl

variable [Std.TransCmp order]

theorem openMerge_eq : ∃ merger, openMerge codec order dir files = .ok merger ∧
      KWayMerge.Represents codec order merger runs := by
  rcases @KWayMerge.openRuns_encodeRows T codec order runs _ stored.readable with
    ⟨merger, opened, represents⟩
  refine ⟨merger, ?_, represents⟩
  rw [openMerge, stored.mapM_openFile]
  exact opened

theorem mergeRunsInto_eq (out : RunFile) : ∃ merged, mergeRunsInto codec order dir files out =
        .ok (Function.update dir out (some (encodeRows codec merged))) ∧
      IsStableSort order runs.flatten merged := by
  rcases @KWayMerge.openRuns_encodeRows T codec order runs _ stored.readable with
    ⟨merger, opened, represents⟩
  rcases represents.exists_merges with ⟨merged, drains, merges⟩
  have sorted := merges.isStableSort stored.ordered
  have readable : ∀ row ∈ merged, Readable codec row := by
    intro row present
    rcases mem_flatten.mp (sorted.sameTies.perm.mem_iff.mpr present) with ⟨run, inRuns, inRun⟩
    exact stored.readable run inRuns row inRun
  have enough : merged.length < (runs.map (encodeRows codec)).flatten.length + 1 := by
    have bound : runs.flatten.length ≤ (encodeRows codec runs.flatten).length :=
      length_le_length_encodeRows runs.flatten
    rw [flatten_map_encodeRows, ← sorted.sameTies.perm.length_eq]
    omega
  refine ⟨merged, ?_, sorted⟩
  rw [mergeRunsInto, stored.mapM_openFile]
  simp only [bind, Except.bind, opened, KWayMerge.pullAll_eq_of_drains drains enough,
    writeRows_eq readable, pure, Except.pure]

end

end Stored

end Ferrosa.Storage.ExternalSort
