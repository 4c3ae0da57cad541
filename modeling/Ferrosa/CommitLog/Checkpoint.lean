import Ferrosa.CommitLog.SegmentReader
import Ferrosa.Lib.FiniteMap

/-!
# Tables, positions and the checkpoint file

The checkpoint keeps the last flushed position of every table.  In the file a
table is the text `keyspace.table`, which is read back by cutting it at its first
dot; the text of a table whose keyspace has a dot is read back as another table.
-/

namespace Ferrosa.CommitLog

open List FiniteMap

structure TableId where
  keyspace : String
  table : String
deriving DecidableEq, Repr

def Mutation.tableId (mutation : Mutation) : TableId := ⟨mutation.keyspace, mutation.table⟩

namespace CommitLogPosition

instance : LinearOrder CommitLogPosition :=
  LinearOrder.lift' (fun position => toLex (position.segmentId, position.offset)) (by
    rintro ⟨segmentId, offset⟩ ⟨otherId, otherOffset⟩ same
    cases same
    rfl)

theorem le_iff {first second : CommitLogPosition} :
    first ≤ second ↔ first.segmentId < second.segmentId ∨
      first.segmentId = second.segmentId ∧ first.offset ≤ second.offset :=
  Prod.Lex.toLex_le_toLex

theorem le_of_segmentId_lt {first second : CommitLogPosition}
    (older : first.segmentId < second.segmentId) : first ≤ second :=
  le_iff.mpr (.inl older)

end CommitLogPosition

def TableId.display (tableId : TableId) : String :=
  String.ofList (tableId.keyspace.toList ++ '.' :: tableId.table.toList)

/-- `splitn(2, '.')`: the keyspace ends at the first dot. -/
def parseTableId (text : String) : Option TableId :=
  match text.toList.dropWhile (· != '.') with
  | [] => none
  | _ :: table => some ⟨String.ofList (text.toList.takeWhile (· != '.')), String.ofList table⟩

def TableId.Undotted (tableId : TableId) : Prop := '.' ∉ tableId.keyspace.toList

variable {tableId : TableId}

theorem undotted_of_parseTableId {text : String} (parsed : parseTableId text = some tableId) :
    tableId.Undotted := by
  unfold parseTableId at parsed
  split at parsed
  · cases parsed
  · cases parsed
    intro dotted
    rw [String.toList_ofList] at dotted
    have differs := mem_takeWhile_imp dotted
    simp at differs

theorem display_of_parseTableId {text : String} (parsed : parseTableId text = some tableId) :
    tableId.display = text := by
  unfold parseTableId at parsed
  split at parsed
  · cases parsed
  · rename_i first table dropped
    cases parsed
    have dot : first = '.' := by
      have stopped := head?_dropWhile_not (· != '.') text.toList
      simp only [dropped, head?_cons] at stopped
      simpa using stopped
    have parts := takeWhile_append_dropWhile (p := (· != '.')) (l := text.toList)
    rw [dropped, dot] at parts
    simp only [TableId.display, String.toList_ofList, parts, String.ofList_toList]

theorem parseTableId_display (undotted : tableId.Undotted) :
    parseTableId tableId.display = some tableId := by
  have before : ∀ letter ∈ tableId.keyspace.toList, (letter != '.') = true := by
    intro letter member
    rw [bne_iff_ne]
    rintro rfl
    exact undotted member
  unfold parseTableId TableId.display
  rw [String.toList_ofList, dropWhile_append_of_pos before, takeWhile_append_of_pos before]
  simp [List.takeWhile, List.dropWhile, String.ofList_toList]

theorem eq_of_display_eq {first second : TableId} (undotted : first.Undotted)
    (alsoUndotted : second.Undotted) (same : first.display = second.display) :
    first = second := by
  have parsed := parseTableId_display undotted
  rw [same, parseTableId_display alsoUndotted] at parsed
  exact (Option.some.inj parsed).symm

abbrev Positions := FiniteMap TableId CommitLogPosition

abbrev CheckpointFile := FiniteMap String CommitLogPosition

namespace CommitLogCheckpoint

/-- A key that is no table name makes the load fail. -/
def load (file : CheckpointFile) : Option Positions :=
  file.entries.foldlM (fun positions entry =>
    (parseTableId entry.1).map fun tableId => positions.insert tableId entry.2) ∅

/-- Tables with one text share one entry; which of them stays depends on the map's order. -/
def save (positions : Positions) : CheckpointFile :=
  positions.entries.foldl (fun file entry => file.insert entry.1.display entry.2) ∅

def advance (positions : Positions) (tableId : TableId) (position : CommitLogPosition) :
    Positions :=
  match positions.lookup tableId with
  | none => positions.insert tableId position
  | some existing =>
    if existing < position then positions.insert tableId position else positions

variable {position : CommitLogPosition} {positions : Positions} {tableId : TableId} {key : String}

theorem lookup_advance {other : TableId} {found : CommitLogPosition}
    (isFound : (advance positions tableId position).lookup other = some found) :
    positions.lookup other = some found ∨ other = tableId ∧ found = position := by
  unfold advance at isFound
  split at isFound
  · rw [lookup_insert_ite] at isFound
    split_ifs at isFound with same
    · exact .inr ⟨same, (Option.some.inj isFound).symm⟩
    · exact .inl isFound
  · split_ifs at isFound
    · rw [lookup_insert_ite] at isFound
      split_ifs at isFound with same
      · exact .inr ⟨same, (Option.some.inj isFound).symm⟩
      · exact .inl isFound
    · exact .inl isFound

theorem lookup_foldl_insert {entries : List (Sigma fun _ : TableId => CommitLogPosition)}
    {start : CheckpointFile}
    (found : (entries.foldl (fun file entry => file.insert entry.1.display entry.2) start).lookup
      key = some position) :
    (∃ tableId, ⟨tableId, position⟩ ∈ entries ∧ tableId.display = key) ∨
      start.lookup key = some position := by
  induction entries generalizing start with
  | nil => exact .inr found
  | cons entry entries ih =>
    rcases ih found with ⟨tableId, member, same⟩ | earlier
    · exact .inl ⟨tableId, mem_cons_of_mem _ member, same⟩
    · rw [lookup_insert_ite] at earlier
      split_ifs at earlier with same
      · obtain rfl := Option.some.inj earlier
        exact .inl ⟨entry.1, mem_cons_self, same.symm⟩
      · exact .inr earlier

theorem lookup_save (found : (save positions).lookup key = some position) :
    ∃ tableId, positions.lookup tableId = some position ∧ tableId.display = key := by
  rcases lookup_foldl_insert found with ⟨tableId, member, same⟩ | empty
  · exact ⟨tableId, AList.mem_lookup_iff.mpr member, same⟩
  · cases empty

variable {start : Positions} {file : CheckpointFile}

theorem lookup_foldlM_iff {entries : List (Sigma fun _ : String => CommitLogPosition)}
    (distinct : entries.NodupKeys) (loaded : entries.foldlM (fun positions entry =>
      (parseTableId entry.1).map fun tableId => positions.insert tableId entry.2) start =
        some positions) :
    positions.lookup tableId = some position ↔
      (∃ key, ⟨key, position⟩ ∈ entries ∧ parseTableId key = some tableId) ∨
        (∀ entry ∈ entries, parseTableId entry.1 ≠ some tableId) ∧
          start.lookup tableId = some position := by
  induction entries generalizing start with
  | nil =>
    cases loaded
    simp
  | cons entry entries ih =>
    rcases nodupKeys_cons.mp distinct with ⟨notLater, laterDistinct⟩
    rw [foldlM_cons] at loaded
    rcases Option.bind_eq_some_iff.mp loaded with ⟨next, inserted, rest⟩
    rcases Option.map_eq_some_iff.mp inserted with ⟨parsed, isParsed, rfl⟩
    rw [ih laterDistinct rest, lookup_insert_ite]
    by_cases same : tableId = parsed
    · subst same
      -- A later entry of this table would have the same text as key.
      have none : ∀ later ∈ entries, parseTableId later.1 ≠ some tableId := by
        intro later member parses
        have inKeys := mem_keys_of_mem member
        rw [← display_of_parseTableId parses, display_of_parseTableId isParsed] at inKeys
        exact notLater inKeys
      rcases entry with ⟨text, value⟩
      simp only [if_true, mem_cons]
      grind
    · have other : parseTableId entry.1 ≠ some tableId := by simpa [isParsed, eq_comm] using same
      rcases entry with ⟨text, value⟩
      simp only [if_neg same, mem_cons]
      grind

theorem lookup_load (loaded : load file = some positions)
    (found : positions.lookup tableId = some position) :
    file.lookup tableId.display = some position ∧ tableId.Undotted := by
  rcases (lookup_foldlM_iff file.nodupKeys loaded).mp found with ⟨key, member, parsed⟩ | ⟨_, empty⟩
  · rw [display_of_parseTableId parsed]
    exact ⟨AList.mem_lookup_iff.mpr member, undotted_of_parseTableId parsed⟩
  · cases empty

end CommitLogCheckpoint

end Ferrosa.CommitLog
