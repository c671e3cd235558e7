import SpeedTables.Table.RoundTrip
import SpeedTables.Table.Rows
import SpeedTables.Table.Sample

/-! Columns of tab-separated lines that are to be read as null. -/

namespace SpeedTables

open Lib

variable {creator : CreatorTable} {host : Host}

-----------------------------------------------------------------------------------------
-- The columns of a line
-----------------------------------------------------------------------------------------

/-- The text of a column: the rest of the line from it on, and how much of that is its own. -/
structure ColumnText where
  missing : Bool
  rest : CString
  length : Nat

/-- The raw text of a column. -/
def ColumnText.raw (column : ColumnText) : CString :=
  column.rest.take column.length

namespace TabsepOptions

/-- The rest of the line at the next field: the key column is passed over. -/
def fieldText (options : TabsepOptions creator) (column : Nat) (line : Option CString)
    : Option CString :=
  if options.keyColumn = some column then (nextColumn options line).2.2 else line

/-- The column of the next field. -/
def columnText (options : TabsepOptions creator) (column : Nat) (line : Option CString)
    : ColumnText :=
  let line := options.fieldText column line
  ⟨line.isNone, (nextColumn options line).1, (nextColumn options line).2.1⟩

/-- The number of the column behind that of the next field. -/
def columnAfter (options : TabsepOptions creator) (column : Nat) : Nat :=
  if options.keyColumn = some column then column + 2 else column + 1

/-- The line behind the column of the next field. -/
def lineAfter (options : TabsepOptions creator) (column : Nat) (line : Option CString)
    : Option CString :=
  (nextColumn options (options.fieldText column line)).2.2

/-- The column and the line that the columns of some fields leave. -/
def columnsLeft (options : TabsepOptions creator)
    : List (Option creator.Field) → Nat → Option CString → Nat × Option CString
  | [], column, line => (column, line)
  | _ :: fields, column, line =>
      options.columnsLeft fields (options.columnAfter column) (options.lineAfter column line)

/-- The cell that a column leaves, if its field can be set to it. -/
def columnCell (host : Host) (options : TabsepOptions creator) (field : creator.Field)
    (column : ColumnText) (cell : Cell (creator.type field))
    : Option (Cell (creator.type field)) :=
  if columnIsNull options field column.missing column.rest then some cell
  else
    match columnObj options field column.rest column.length with
    | .ok obj => (cellSet creator host field cell obj).leaves cell
    | .error _ => none

/-- The cell of a field that the columns of a line leave. -/
def columnsCell (host : Host) (options : TabsepOptions creator) (field : creator.Field)
    : List (Option creator.Field) → Nat → Option CString → Cell (creator.type field) →
      Option (Cell (creator.type field))
  | [], _, _, cell => some cell
  | other :: fields, column, line, cell =>
      let left :=
        if other = some field then
          options.columnCell host field (options.columnText column line) cell
        else some cell
      left.bind (options.columnsCell host field fields (options.columnAfter column)
        (options.lineAfter column line))

end TabsepOptions

theorem setColumns_cons {options : TabsepOptions creator} {ctl : IndexCtl} {id : RowId}
    {field : Option creator.Field} {fields : List (Option creator.Field)} {column : Nat}
    {line : Option CString}
    : setColumns host options ctl id (field :: fields) column line
        = (do
          setColumn host options ctl id (options.columnText column line).missing
            (options.columnText column line).rest (options.columnText column line).length field
          setColumns host options ctl id fields (options.columnAfter column)
            (options.lineAfter column line)) :=
  rfl

-----------------------------------------------------------------------------------------
-- Other fields
-----------------------------------------------------------------------------------------

/-- A row is still there, and its cell for a field still the same. -/
structure CTable.CellKept (field : creator.Field) (id : RowId) (before after : CTable creator)
    : Prop where
  alive : (after.rows id).isSome = (before.rows id).isSome
  cell : (after.rowAt id).cells field = (before.rowAt id).cells field

instance cellKept_preorder (field : creator.Field) (id : RowId)
    : IsPreorder (CTable creator) (CTable.CellKept field id) where
  refl := fun _ => ⟨rfl, rfl⟩
  trans := fun _ _ _ first second =>
    ⟨second.alive.trans first.alive, second.cell.trans first.cell⟩

theorem CTable.CellKept.of_rows {field : creator.Field} {id : RowId} {before after : CTable creator}
    (rows : after.rows = before.rows)
    : before.CellKept field id after :=
  ⟨by rw [rows], by rw [CTable.rowAt, CTable.rowAt, rows]⟩

section Others

variable {field : creator.Field} {id : RowId}

theorem CTable.CellKept.found {row : Row creator} {before after : CTable creator}
    (kept : before.CellKept field id after) (found : before.rows id = some row)
    : ∃ now, after.rows id = some now ∧ now.cells field = row.cells field := by
  obtain ⟨now, here⟩ := Option.isSome_iff_exists.mp (kept.alive.trans (by rw [found]; rfl))
  have same := kept.cell
  rw [CTable.rowAt, CTable.rowAt, here, found] at same
  exact ⟨now, here, same⟩

theorem insertIntoIndex_kept (other : creator.Field)
    : Respects (CTable.CellKept field id) (insertIntoIndex host other id) :=
  (respects_insertIntoIndex host other id).mono fun frame => .of_rows frame.rows

/-- Setting another field keeps the cell of a field that is not the flag. -/
theorem setField_kept {other : creator.Field} (different : other ≠ field)
    (clean : field ≠ creator.dirtyField) (ctl : IndexCtl) (obj : Obj)
    : Respects (CTable.CellKept field id) (setField host ctl id other obj) := by
  by_cases isKey : other = creator.keyField
  · subst isKey
    have keys {before after : CTable creator} (frame : CTable.KeyFrame id before after)
        : CTable.CellKept field id before after :=
      ⟨frame.alive, frame.cells field clean⟩
    refine (respects_inspect _).bind fun row => ?_
    rw [if_pos rfl]
    refine Respects.ite Respects.pure (Respects.bind ?_ fun _ => (respects_setDirty id).mono keys)
    refine reinsertRow_frame host ctl id obj keys ?_
    exact Respects.ite (Respects.forM fun entered _ => insertIntoIndex_kept entered) Respects.pure
  · exact (respects_setField_cell host ctl id obj isKey).mono fun frame =>
      ⟨frame.alive, frame.cells field different.symm clean⟩

/-- So do the steps behind the columns of a line. -/
theorem finishLine_kept (clean : field ≠ creator.dirtyField) (options : TabsepOptions creator)
    (ctl : IndexCtl)
    : Respects (CTable.CellKept field id) (do
        markRead options id
        finishRow host ctl id : TableM creator Unit) := by
  refine Respects.bind ?_ fun _ => ?_
  · refine Respects.ite ((respects_setDirty id).mono fun frame => ?_) Respects.pure
    exact ⟨frame.alive, frame.cells field clean⟩
  · refine Respects.ite (Respects.forM fun entered _ => ?_) Respects.pure
    exact Respects.get.bind fun table => Respects.ite (insertIntoIndex_kept entered) Respects.pure

end Others

-----------------------------------------------------------------------------------------
-- The cell a line leaves
-----------------------------------------------------------------------------------------

section Columns

variable {table : CTable creator} {ctl : IndexCtl} {id : RowId} {row : Row creator}
  {field : creator.Field} {options : TabsepOptions creator}

/-- A column of the field leaves the cell that its text is set to, unless it is left unset. -/
theorem setColumn_cell (notKey : field ≠ creator.keyField) (column : ColumnText)
    (found : table.rows id = some row)
    : wp (setColumn host options ctl id column.missing column.rest column.length (some field))
        (fun _ after => ∃ now, after.rows id = some now
          ∧ options.columnCell host field column (row.cells field) = some (now.cells field))
        (fun _ _ => True) table := by
  rw [setColumn, TabsepOptions.columnCell]
  split
  · exact ⟨row, found, rfl⟩
  · rw [wp_bind, wp_inspect]
    refine ⟨fun obj read => ?_, fun _ _ => trivial⟩
    rw [read]
    exact setField_leaves notKey found

/-- A column of another field keeps it. -/
theorem setColumn_kept {other : Option creator.Field} (different : other ≠ some field)
    (clean : field ≠ creator.dirtyField) (column : ColumnText)
    : Respects (CTable.CellKept field id)
        (setColumn host options ctl id column.missing column.rest column.length other) := by
  cases other with
  | none => exact Respects.pure
  | some other =>
      have differs : other ≠ field := fun same => different (congrArg some same)
      exact Respects.ite Respects.pure
        ((respects_inspect _).bind fun obj => setField_kept differs clean ctl obj)

/-- The columns of a line leave the cell that those of the field leave, by induction on the fields.
-/
theorem setColumns_cell (notKey : field ≠ creator.keyField) (clean : field ≠ creator.dirtyField)
    (fields : List (Option creator.Field)) (column : Nat) (line : Option CString)
    (found : table.rows id = some row)
    : wp (setColumns host options ctl id fields column line)
        (fun _ after => ∃ now, after.rows id = some now
          ∧ options.columnsCell host field fields column line (row.cells field)
            = some (now.cells field))
        (fun _ _ => True) table := by
  induction fields generalizing table row column line with
  | nil => exact ⟨row, found, rfl⟩
  | cons other fields ih =>
      rw [setColumns_cons, TabsepOptions.columnsCell, wp_bind]
      split
      next same =>
        subst same
        refine wp_mono (setColumn_cell notKey _ found) ?_ fun _ _ _ => trivial
        rintro _ middle ⟨now, here, left⟩
        rw [left, Option.bind_some]
        exact ih _ _ here
      next different =>
        refine wp_mono (setColumn_kept different clean _ table) ?_ fun _ _ _ => trivial
        intro _ middle kept
        obtain ⟨now, here, same⟩ := kept.found found
        rw [Option.bind_some, ← same]
        exact ih _ _ here

/-- Columns of other fields leave the cell as it is, by induction on the fields. -/
theorem columnsCell_others {fields : List (Option creator.Field)} (others : some field ∉ fields)
    (column : Nat) (line : Option CString) (cell : Cell (creator.type field))
    : options.columnsCell host field fields column line cell = some cell := by
  induction fields generalizing column line with
  | nil => rfl
  | cons other fields ih =>
      rw [List.mem_cons, not_or] at others
      rw [TabsepOptions.columnsCell]
      simp only [if_neg (Ne.symm others.1), Option.bind_some]
      exact ih others.2 _ _

/-- The last column of a field decides what it holds, by induction on the fields before it. -/
theorem columnsCell_last {before behind : List (Option creator.Field)}
    (last : some field ∉ behind) (column : Nat) (line : Option CString)
    (cell : Cell (creator.type field))
    : options.columnsCell host field (before ++ some field :: behind) column line cell
        = (options.columnsCell host field before column line cell).bind
          (options.columnCell host field
            (options.columnText (options.columnsLeft before column line).1
              (options.columnsLeft before column line).2)) := by
  induction before generalizing column line cell with
  | nil =>
      simp only [List.nil_append, TabsepOptions.columnsCell, TabsepOptions.columnsLeft,
        Option.bind_some, if_true]
      cases options.columnCell host field (options.columnText column line) cell with
      | none => rfl
      | some left => exact columnsCell_others last _ _ left
  | cons other before ih =>
      rw [List.cons_append, TabsepOptions.columnsCell, TabsepOptions.columnsCell,
        TabsepOptions.columnsLeft, Option.bind_assoc]
      simp only [ih]

/-- A line that is read leaves in a field of its row what its columns leave. -/
theorem setFromTabsep_cell {line key : CString} {keyed middle after : CTable creator}
    (notKey : field ≠ creator.keyField) (clean : field ≠ creator.dirtyField)
    (keys : lineKey options line table = .ok key keyed)
    (creates : findOrCreate host key keyed = .ok (id, ctl) middle)
    (found : middle.rows id = some row)
    (reads : setFromTabsep host options line table = .ok () after)
    : ∃ now, after.rows id = some now
        ∧ options.columnsCell host field options.fieldIds 0 (some line) (row.cells field)
          = some (now.cells field) := by
  have whole : setFromTabsep host options line table
      = (do
        setColumns host options ctl id options.fieldIds 0 (some line)
        markRead options id
        finishRow host ctl id : TableM creator Unit) middle := by
    simp only [setFromTabsep, bind, EStateM.bind, keys, creates]
  rw [whole] at reads
  have steps : wp (do
        setColumns host options ctl id options.fieldIds 0 (some line)
        markRead options id
        finishRow host ctl id : TableM creator Unit)
      (fun _ after => ∃ now, after.rows id = some now
        ∧ options.columnsCell host field options.fieldIds 0 (some line) (row.cells field)
          = some (now.cells field))
      (fun _ _ => True) middle := by
    rw [wp_bind]
    refine wp_mono (setColumns_cell notKey clean _ 0 (some line) found) ?_ fun _ _ _ => trivial
    rintro _ set ⟨now, here, left⟩
    refine wp_mono (finishLine_kept clean options ctl set) ?_ fun _ _ _ => trivial
    intro _ last kept
    obtain ⟨final, there, same⟩ := kept.found here
    exact ⟨final, there, same ▸ left⟩
  exact wp_returns steps reads

end Columns

-----------------------------------------------------------------------------------------
-- Nulls
-----------------------------------------------------------------------------------------

/-- A setter that returns has set a nullable field to null exactly for a null value. -/
theorem standardSet_null {type : CtableType} {α : Type} {isNull : Bool} {parsed : Except TclError α}
    {unchanged : Storage type → α → Bool} {stored : α → Storage type} {null : Storage type}
    {cell next : Cell type}
    (leaves : (standardSet false isNull parsed unchanged stored null cell).leaves cell = some next)
    : next.isNull = isNull := by
  cases isNull with
  | false =>
      obtain ⟨value, -, shown, -⟩ := standardSet_leaves leaves
      simpa using shown
  | true =>
      simp only [standardSet, Bool.not_false, Bool.and_true, if_true] at leaves
      split at leaves
      next already =>
        cases leaves
        exact already
      · cases leaves
        rfl

theorem cellSet_null {field : creator.Field} {cell next : Cell (creator.type field)} {obj : Obj}
    (nullable : (creator.fields field).notnull = false)
    (leaves : (cellSet creator host field cell obj).leaves cell = some next)
    : next.isNull = creator.objIsNull obj := by
  have notKeyType : creator.type field ≠ .key := by
    intro isKey
    rw [(creator.keyField_iff field).mp isKey, creator.keyField_notnull] at nullable
    cases nullable
  unfold cellSet at leaves
  revert cell next notKeyType nullable
  unfold CreatorTable.type
  generalize creator.objIsNull obj = isNull
  generalize creator.fields field = info
  obtain ⟨name, type, notnull, indexed, unique, length, default⟩ := info
  intro cell next nullable leaves notKeyType
  obtain rfl : notnull = false := nullable
  cases type with
  | fixedstring =>
      simp only [cellSetType, fixedstringSet] at leaves
      exact standardSet_null leaves
  | varstring =>
      simp only [cellSetType, varstringSet_leaves] at leaves
      exact standardSet_null leaves
  | char =>
      simp only [cellSetType, charSet] at leaves
      exact standardSet_null leaves
  | mac =>
      simp only [cellSetType, macSet] at leaves
      split at leaves
      · cases leaves
      · exact standardSet_null leaves
  | tclobj =>
      cases isNull with
      | false =>
          cases leaves
          rfl
      | true =>
          simp only [cellSetType, tclobjSet, Bool.not_false, Bool.and_true, if_true] at leaves
          split at leaves
          next already =>
            cases leaves
            exact already
          · cases leaves
            rfl
  | key => exact absurd rfl notKeyType
  | _ => exact standardSet_null leaves

/-- The raw text of a column is the null string, or the null value of the table. -/
def ColumnText.IsNull (options : TabsepOptions creator) (column : ColumnText) : Prop :=
  options.nullString = some column.raw ∨ column.raw = creator.nullValue

instance (options : TabsepOptions creator) (column : ColumnText)
    : Decidable (column.IsNull options) :=
  inferInstanceAs (Decidable (_ ∨ _))

section Nulls

variable {field : creator.Field} {options : TabsepOptions creator} {column : ColumnText}

/-- What a column is to do with a field that held a cell: it leaves it null for a null text, and
otherwise set to its dequoted text.
-/
def ColumnRight (host : Host) (options : TabsepOptions creator) (field : creator.Field)
    (column : ColumnText) (cell now : Cell (creator.type field)) : Prop :=
  (now.isNull = true ↔ column.IsNull options)
    ∧ (¬ column.IsNull options →
      ∃ obj, columnObj options field column.rest column.length = .ok obj
        ∧ (cellSet creator host field cell obj).leaves cell = some now)

/-- When a column does that. One that is left unset needs a cell that is null already, or already
holds the text; any other is the null value once dequoted exactly if it is a null text.
-/
def ColumnDecides (host : Host) (options : TabsepOptions creator) (field : creator.Field)
    (column : ColumnText) (cell : Cell (creator.type field)) : Prop :=
  if columnIsNull options field column.missing column.rest then
    (column.IsNull options → cell.isNull = true)
      ∧ (¬ column.IsNull options → cell.isNull = false
        ∧ ∃ obj, columnObj options field column.rest column.length = .ok obj
          ∧ (cellSet creator host field cell obj).leaves cell = some cell)
  else
    ∀ obj, columnObj options field column.rest column.length = .ok obj →
      (obj = creator.nullValue ↔ column.IsNull options)

theorem columnCell_right_iff {cell now : Cell (creator.type field)}
    (nullable : (creator.fields field).notnull = false)
    (left : options.columnCell host field column cell = some now)
    : ColumnRight host options field column cell now
        ↔ ColumnDecides host options field column cell := by
  unfold TabsepOptions.columnCell at left
  unfold ColumnDecides
  split at left
  next unset =>
    cases left
    rw [if_pos unset]
    constructor
    · intro ⟨null, held⟩
      refine ⟨null.mpr, fun text => ⟨?_, held text⟩⟩
      rw [← Bool.not_eq_true, null]
      exact text
    · intro ⟨null, held⟩
      refine ⟨⟨fun isNull => ?_, null⟩, fun text => (held text).2⟩
      by_contra text
      rw [(held text).1] at isNull
      cases isNull
  next set =>
    rw [if_neg set]
    cases read : columnObj options field column.rest column.length with
    | error fault =>
        rw [read] at left
        cases left
    | ok obj =>
        rw [read] at left
        have null : now.isNull = true ↔ obj = creator.nullValue := by
          rw [cellSet_null nullable left, CreatorTable.objIsNull, decide_eq_true_iff]
        simp only [Except.ok.injEq, forall_eq']
        constructor
        · intro ⟨right, _⟩
          rw [← null, right]
        · intro same
          exact ⟨null.trans same, fun _ => ⟨obj, read, left⟩⟩

/-- Reading a line does with a nullable field what its text says, exactly when its last column
decides so. The line is read into the row found or created for its key.
-/
theorem setFromTabsep_null_iff {line key : CString} {table keyed middle after : CTable creator}
    {id : RowId} {ctl : IndexCtl} {row : Row creator} {before behind : List (Option creator.Field)}
    (flag : (creator.fields creator.dirtyField).notnull = true)
    (nullable : (creator.fields field).notnull = false)
    (fields : options.fieldIds = before ++ some field :: behind) (last : some field ∉ behind)
    (keys : lineKey options line table = .ok key keyed)
    (creates : findOrCreate host key keyed = .ok (id, ctl) middle)
    (found : middle.rows id = some row)
    (reads : setFromTabsep host options line table = .ok () after)
    : ∃ cell now,
        options.columnsCell host field before 0 (some line) (row.cells field) = some cell
        ∧ after.rows id = some now
        ∧ let left := options.columnsLeft before 0 (some line)
          let column := options.columnText left.1 left.2
          ColumnRight host options field column cell (now.cells field)
            ↔ ColumnDecides host options field column cell := by
  have notKey : field ≠ creator.keyField := by
    rintro rfl
    rw [creator.keyField_notnull] at nullable
    cases nullable
  have clean : field ≠ creator.dirtyField := by
    rintro rfl
    rw [flag] at nullable
    cases nullable
  obtain ⟨now, here, left⟩ := setFromTabsep_cell notKey clean keys creates found reads
  rw [fields, columnsCell_last last, Option.bind_eq_some_iff] at left
  obtain ⟨cell, held, decides⟩ := left
  exact ⟨cell, now, held, here, columnCell_right_iff nullable decides⟩

end Nulls

/-- Lines of a key and a string, with the null string `NA`. -/
def nullColumns : TabsepOptions sampleCreator where
  fieldIds := [some (3 : Fin 6)]
  keyColumn := some 0
  separator := [9]
  nullString := some [78, 65]
  quoteType := .none
  dirty := false

/-- The line with the key `a` and the text `No`, read into an empty table. -/
theorem setFromTabsep_null_iff_sample
    : ∃ (middle after : CTable sampleCreator) (row now : Row sampleCreator)
        (cell : Cell (sampleCreator.type (3 : Fin 6))),
        findOrCreate sampleHost [97] (sampleTable []) = .ok (0, .new) middle
        ∧ middle.rows 0 = some row
        ∧ setFromTabsep sampleHost nullColumns [97, 9, 78, 111] (sampleTable []) = .ok () after
        ∧ nullColumns.columnsCell sampleHost (3 : Fin 6) [] 0 (some [97, 9, 78, 111])
            (row.cells (3 : Fin 6)) = some cell
        ∧ after.rows 0 = some now
        ∧ (ColumnRight sampleHost nullColumns (3 : Fin 6)
              (nullColumns.columnText 0 (some [97, 9, 78, 111])) cell (now.cells (3 : Fin 6))
            ↔ ColumnDecides sampleHost nullColumns (3 : Fin 6)
              (nullColumns.columnText 0 (some [97, 9, 78, 111])) cell) := by
  have creates : endsWell (fun made middle => made == (0, .new) && (middle.rows 0).isSome)
      (findOrCreate sampleHost [97] (sampleTable [])) = true := by decide +kernel
  have reads : endsWell (fun _ _ => true)
      (setFromTabsep sampleHost nullColumns [97, 9, 78, 111] (sampleTable [])) = true := by
    decide +kernel
  obtain ⟨result, middle, made, right⟩ := endsWell_iff.mp creates
  simp only [Bool.and_eq_true, beq_iff_eq] at right
  obtain ⟨rfl, there⟩ := right
  obtain ⟨row, found⟩ := Option.isSome_iff_exists.mp there
  obtain ⟨ended, after, read, -⟩ := endsWell_iff.mp reads
  obtain ⟨cell, now, held, here, right⟩ := @setFromTabsep_null_iff sampleCreator sampleHost
    (3 : Fin 6) nullColumns [97, 9, 78, 111] [97] (sampleTable []) (sampleTable []) middle
    after 0 .new row [] [] (by decide) (by decide) rfl (by decide) rfl made found read
  exact ⟨middle, after, row, now, cell, made, found, read, held, here, right⟩

/-- Whether the string of the first row is null after a line has been read. -/
def nullAfter (line : CString) (table : CTable sampleCreator) : Option Bool :=
  match setFromTabsep sampleHost nullColumns line table with
  | .ok _ after => some ((after.rowAt 0).cells (3 : Fin 6)).isNull
  | .error _ _ => none

/-- The text `No` is lost because it starts like `NA`, and `NA` leaves a row with a string as it is.
-/
theorem setFromTabsep_null_lost
    : (nullAfter [97, 9, 78, 111] (sampleTable []) = some true
        ∧ ¬ (nullColumns.columnText 0 (some [97, 9, 78, 111])).IsNull nullColumns)
      ∧ (nullAfter [97, 9, 78, 65] (sampleTable [setCommand sampleHost [[97], [115], [120]]])
          = some false
        ∧ (nullColumns.columnText 0 (some [97, 9, 78, 65])).IsNull nullColumns) := by
  decide +kernel

end SpeedTables
