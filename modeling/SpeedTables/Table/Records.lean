import SpeedTables.Table.DirtyRows
import SpeedTables.Table.KeyCommands

/-! The records of a table: the data under each key, apart from rows, chains and indexes, and what
the setters make of one record.
-/

namespace SpeedTables

open Lib

variable {creator : CreatorTable} {host : Host}

-----------------------------------------------------------------------------------------
-- Records
-----------------------------------------------------------------------------------------

/-- The fields of data: all but the key and `_dirty`. -/
abbrev CreatorTable.DataField (creator : CreatorTable) :=
  {field : creator.Field // field ≠ creator.keyField ∧ field ≠ creator.dirtyField}

/-- A cell for every field of data. -/
abbrev CreatorTable.Data (creator : CreatorTable) :=
  (field : creator.DataField) → Cell (creator.type field)

def Row.data (row : Row creator) : creator.Data :=
  fun field => row.cells field

/-- Data under a key. -/
structure Record (creator : CreatorTable) where
  key : CString
  data : creator.Data

namespace Record

/-- Change the cell of a field of data. Other fields are no part of a record. -/
def change (record : Record creator) (field : creator.Field)
    (value : Cell (creator.type field) → Cell (creator.type field)) : Record creator :=
  if isData : field ≠ creator.keyField ∧ field ≠ creator.dirtyField then
    { record with
      data := Function.update record.data ⟨field, isData⟩ (value (record.data ⟨field, isData⟩)) }
  else
    record

/-- What a setter makes of a record, unless it refuses the value. -/
def write (host : Host) (record : Record creator) : Write creator → Option (Record creator)
  | .set field obj =>
      if field = creator.keyField then
        some { record with key := obj }
      else if isData : field ≠ creator.keyField ∧ field ≠ creator.dirtyField then
        let cell := record.data ⟨field, isData⟩
        ((cellSet creator host field cell obj).leaves cell).map
          (fun left => record.change field (fun _ => left))
      else
        some record
  | .incr field obj =>
      match incrValue host (creator.type field), host.getInt obj with
      | some add, some amount =>
          some (record.change field (fun cell => { value := add cell amount, isNull := false }))
      | _, _ => none
  | .null field =>
      if (creator.fields field).notnull then none
      else some (record.change field (fun cell => { cell with isNull := true }))

/-- What setters make of a record, one after another. -/
def writes (host : Host) (record : Record creator) (writes : List (Write creator))
    : Option (Record creator) :=
  writes.foldlM (write host) record

theorem writes_cons {record : Record creator} {first : Write creator}
    {rest : List (Write creator)}
    : record.writes host (first :: rest)
      = (record.write host first).bind (fun next => next.writes host rest) :=
  rfl

@[simp]
theorem change_key (record : Record creator) (field : creator.Field)
    (value : Cell (creator.type field) → Cell (creator.type field))
    : (record.change field value).key = record.key := by
  unfold change
  split <;> rfl

end Record

-----------------------------------------------------------------------------------------
-- The record of a row
-----------------------------------------------------------------------------------------

/-- A row has the key and the data of a record. -/
def Row.Shows (row : Row creator) (record : Record creator) : Prop :=
  row.key = some record.key ∧ row.data = record.data

/-- The row at an address has the key and the data of a record. -/
def CTable.Shows (table : CTable creator) (id : RowId) (record : Record creator) : Prop :=
  ∃ row, table.rows id = some row ∧ row.Shows record

theorem CTable.Shows.congr {table after : CTable creator} {id : RowId} {record : Record creator}
    (shows' : table.Shows id record) (rows : after.rows = table.rows)
    : after.Shows id record := by
  unfold CTable.Shows
  rw [rows]
  exact shows'

/-- A row whose cells are those of a record but one shows the record with that cell changed. -/
theorem Row.Shows.change {row now : Row creator} {record : Record creator} {field : creator.Field}
    {value : Cell (creator.type field) → Cell (creator.type field)} (shows' : row.Shows record)
    (key : now.key = row.key) (cell : now.cells field = value (row.cells field))
    (others : ∀ other, other ≠ field → other ≠ creator.dirtyField →
      now.cells other = row.cells other)
    : now.Shows (record.change field value) := by
  obtain ⟨hasKey, hasData⟩ := shows'
  refine ⟨by rw [key, hasKey, Record.change_key], ?_⟩
  have old (other : creator.DataField) : row.cells other = record.data other :=
    congrFun hasData other
  funext other
  by_cases same : other.val = field
  · obtain ⟨other, isData⟩ := other
    subst same
    rw [Record.change, dif_pos isData]
    simp only [Row.data, Function.update_self]
    rw [cell, old ⟨other, isData⟩]
  · have kept : (record.change field value).data other = record.data other := by
      unfold Record.change
      split
      · exact Function.update_of_ne (fun equal => same (congrArg Subtype.val equal)) _ _
      · rfl
    rw [kept, Row.data, others other same other.property.2, old]

/-- A row whose `_dirty` cell alone differs shows the same record. -/
theorem Row.Shows.dirty {row now : Row creator} {record : Record creator}
    (shows' : row.Shows record) (key : now.key = row.key)
    (others : ∀ other, other ≠ creator.dirtyField → now.cells other = row.cells other)
    : now.Shows record := by
  refine ⟨key.trans shows'.1, ?_⟩
  rw [← shows'.2]
  exact funext fun field => others field field.property.2

section Setters

variable {table : CTable creator} {ctl : IndexCtl} {id : RowId} {record : Record creator}

/-- Marking a row as dirty changes no data. -/
theorem setDirty_shows (shows' : table.Shows id record)
    : wp (setDirty id) (fun _ after => after.Shows id record) (fun _ _ => True) table := by
  obtain ⟨row, found, shown⟩ := shows'
  rw [setDirty, putCell_spec found]
  refine ⟨_, Function.update_self .., shown.dirty rfl ?_⟩
  exact fun other clean => Row.setCell_cells_of_ne _ _ clean

/-- Setting the key gives the record the key. -/
theorem setField_key_shows {obj : Obj} (shows' : table.Shows id record)
    : wp (setField host ctl id creator.keyField obj)
        (fun _ after => after.Shows id { record with key := obj }) (fun _ _ => True) table := by
  obtain ⟨row, found, hasKey, hasData⟩ := shows'
  have keyed := @setField_key creator host table ctl id row obj found
  have data : wp (setField host ctl id creator.keyField obj)
      (fun _ after => ∃ now, after.rows id = some now ∧ now.data = row.data) (fun _ _ => True)
      table := by
    rw [setField, wp_bind, wp_inspectRow found, if_pos rfl]
    split
    · exact ⟨row, found, rfl⟩
    · rw [wp_bind]
      refine wp_mono (respects_reinsertRow_cells host ctl id obj table) ?_ fun _ _ _ => trivial
      intro _ middle cells
      obtain ⟨key, here⟩ := cells row found
      rw [setDirty, putCell_spec here]
      refine ⟨_, Function.update_self .., ?_⟩
      exact funext fun field => Row.setCell_cells_of_ne _ _ field.property.2
  refine wp_mono (wp_and keyed data) ?_ fun _ _ _ => trivial
  rintro _ after ⟨⟨now, here, isKey⟩, other, there, same⟩
  cases here.symm.trans there
  exact ⟨now, here, isKey, same.trans hasData⟩

/-- A setter that changes one field shows the record with that field changed. -/
theorem CTable.CellFrame.shows {after : CTable creator} {field : creator.Field}
    {row now : Row creator}
    {value : Cell (creator.type field) → Cell (creator.type field)}
    (frame : table.CellFrame field id after) (found : table.rows id = some row)
    (shown : row.Shows record) (here : after.rows id = some now)
    (cell : now.cells field = value (row.cells field))
    : after.Shows id (record.change field value) := by
  have before : table.rowAt id = row := by simp [CTable.rowAt, found]
  have behind : after.rowAt id = now := by simp [CTable.rowAt, here]
  have key := frame.key
  have cells := frame.cells
  rw [before, behind] at key cells
  exact ⟨now, here, shown.change key cell cells⟩

/-- A setter that changes no data. -/
theorem CTable.CellFrame.shows_dirty {after : CTable creator}
    (frame : table.CellFrame creator.dirtyField id after) (shows' : table.Shows id record)
    : after.Shows id record := by
  obtain ⟨row, found, shown⟩ := shows'
  have there : (after.rows id).isSome = true := by rw [frame.alive, found]; rfl
  obtain ⟨now, here⟩ := Option.isSome_iff_exists.mp there
  have before : table.rowAt id = row := by simp [CTable.rowAt, found]
  have behind : after.rowAt id = now := by simp [CTable.rowAt, here]
  have key := frame.key
  have cells := frame.cells
  rw [before, behind] at key cells
  exact ⟨now, here, shown.dirty key fun other clean => cells other clean clean⟩

/-- What a setter that returns makes of a row is what it makes of the record. -/
theorem CTable.Shows.write (shows' : table.Shows id record) (write : Write creator)
    : wp (write.run host ctl id)
        (fun _ after => ∃ next, record.write host write = some next ∧ after.Shows id next)
        (fun _ _ => True) table := by
  obtain ⟨row, found, shown⟩ := shows'
  cases write with
  | set field obj =>
      rw [Write.run]
      by_cases isKey : field = creator.keyField
      · subst isKey
        refine wp_mono (setField_key_shows ⟨row, found, shown⟩) ?_ fun _ _ _ => trivial
        intro _ after here
        exact ⟨_, by rw [Record.write, if_pos rfl], here⟩
      · have frame := respects_setField_cell host ctl id obj isKey table
        by_cases isDirty : field = creator.dirtyField
        · subst isDirty
          refine wp_mono frame ?_ fun _ _ _ => trivial
          intro _ after frame
          refine ⟨record, ?_, frame.shows_dirty ⟨row, found, shown⟩⟩
          rw [Record.write, if_neg isKey, dif_neg (fun isData => isData.2 rfl)]
        · have isData : field ≠ creator.keyField ∧ field ≠ creator.dirtyField := ⟨isKey, isDirty⟩
          have leaves := @setField_leaves creator host table ctl id row field obj isKey found
          refine wp_mono (wp_and leaves frame) ?_ fun _ _ _ => trivial
          rintro _ after ⟨⟨now, here, left⟩, frame⟩
          have old : row.cells field = record.data ⟨field, isData⟩ :=
            congrFun shown.2 ⟨field, isData⟩
          refine ⟨record.change field (fun _ => now.cells field), ?_,
            frame.shows found shown here rfl⟩
          rw [Record.write, if_neg isKey, dif_pos isData]
          dsimp only
          rw [← old, left]
          rfl
  | incr field obj =>
      rw [Write.run, incrField]
      dsimp only
      cases numeric : incrValue host (creator.fields field).type with
      | none => trivial
      | some add =>
          cases reads : host.getInt obj with
          | none => trivial
          | some amount =>
              have frame := respects_incrField host ctl id field obj table
              rw [incrField] at frame
              dsimp only at frame ⊢
              rw [numeric, reads] at frame
              dsimp only at frame
              have stored : wp (do
                    let row ← inspect (CTable.row · id)
                    let cell := { value := add (row.cells field) amount, isNull := false }
                    storeIndexed host ctl id field cell false cell)
                  (fun _ after => after.rows id = some (row.setCell field
                    { value := add (row.cells field) amount, isNull := false }))
                  (fun _ _ => True) table := by
                rw [wp_bind, wp_inspectRow found]
                exact wp_mono (storeIndexed_row found) (fun _ _ here => here) fun _ _ _ => trivial
              refine wp_mono (wp_and stored frame) ?_ fun _ _ _ => trivial
              rintro _ after ⟨here, frame⟩
              have shows' : after.Shows id (record.change field
                  (fun cell => { value := add cell amount, isNull := false })) :=
                frame.shows found shown here (Row.setCell_cells_self _ _ _)
              refine ⟨_, ?_, shows'⟩
              rw [Record.write]
              have same : incrValue host (creator.type field) = some add := numeric
              rw [same, reads]
  | null field =>
      have frame := respects_setNull host id field table
      have stored : wp (setNull host id field)
          (fun _ after => (creator.fields field).notnull = false
            ∧ ∃ now, after.rows id = some now
              ∧ now.cells field = { row.cells field with isNull := true })
          (fun _ _ => True) table := by
        rw [setNull, wp_bind, wp_inspectRow found]
        dsimp only
        split
        · trivial
        · next nullable =>
            have nullable := Bool.eq_false_iff.mpr nullable
            split
            · next isNull =>
                refine ⟨nullable, row, found, ?_⟩
                rw [← isNull]
            · refine wp_mono (storeIndexed_row found) ?_ fun _ _ _ => trivial
              exact fun _ _ here => ⟨nullable, _, here, Row.setCell_cells_self _ _ _⟩
      rw [Write.run]
      refine wp_mono (wp_and stored frame) ?_ fun _ _ _ => trivial
      rintro _ after ⟨⟨nullable, now, here, cell⟩, frame⟩
      refine ⟨record.change field (fun cell => { cell with isNull := true }), ?_,
        frame.shows found shown here cell⟩
      rw [Record.write, if_neg (by simp [nullable])]

end Setters

-----------------------------------------------------------------------------------------
-- The writes of a command
-----------------------------------------------------------------------------------------

/-- The writes of a key-value list, unless it names a field that there is not. -/
def pairWrites (creator : CreatorTable) (nocomplain : Bool)
    : List Obj → Option (List (Write creator))
  | fieldObj :: obj :: rest =>
      match creator.fieldNumber fieldObj with
      | some field => (pairWrites creator nocomplain rest).map (.set field obj :: ·)
      | none => if nocomplain then pairWrites creator nocomplain rest else none
  | _ => some []

/-- The writes of the pairs of `incr`. -/
def incrWrites (creator : CreatorTable) : List Obj → Option (List (Write creator))
  | fieldObj :: obj :: rest =>
      match creator.fieldNumber fieldObj with
      | some field => (incrWrites creator rest).map (.incr field obj :: ·)
      | none => none
  | _ => some []

/-- The writes of the fields of `null`. -/
def nullWrites (creator : CreatorTable) : List Obj → Option (List (Write creator))
  | [] => some []
  | fieldObj :: rest =>
      match creator.fieldNumber fieldObj with
      | some field => (nullWrites creator rest).map (.null field :: ·)
      | none => none

/-- The write of a column, if it is not null. -/
def columnWrite (options : TabsepOptions creator) (missing : Bool) (text : CString) (length : Nat)
    : Option creator.Field → Option (List (Write creator))
  | none => some []
  | some field =>
      if columnIsNull options field missing text then some []
      else
        match columnObj options field text length with
        | .ok obj => some [.set field obj]
        | .error _ => none

/-- The writes of the columns of a line. -/
def columnWrites (options : TabsepOptions creator)
    : List (Option creator.Field) → Nat → Option CString → Option (List (Write creator))
  | [], _, _ => some []
  | field :: fields, column, line =>
      let isKey := options.keyColumn = some column
      let line := if isKey then (nextColumn options line).2.2 else line
      let column := if isKey then column + 2 else column + 1
      let (text, length, rest) := nextColumn options line
      match columnWrite options line.isNone text length field,
        columnWrites options fields column rest with
      | some first, some others => some (first ++ others)
      | _, _ => none

/-- A row shows what some writes have made of a record. -/
def CTable.Written (host : Host) (id : RowId) (record : Record creator)
    (writes : Option (List (Write creator))) (after : CTable creator) : Prop :=
  ∃ made next, writes = some made ∧ record.writes host made = some next ∧ after.Shows id next

section Loops

variable {table : CTable creator} {ctl : IndexCtl} {id : RowId} {record : Record creator}

theorem CTable.Shows.written (shows' : table.Shows id record)
    : table.Written host id record (some []) :=
  ⟨[], record, rfl, rfl, shows'⟩

/-- A write, and then others. -/
theorem CTable.Written.cons {next : Record creator} {first : Write creator}
    {writes : Option (List (Write creator))} {after : CTable creator}
    (step : record.write host first = some next) (written : after.Written host id next writes)
    : after.Written host id record (writes.map (first :: ·)) := by
  obtain ⟨made, final, rfl, runs, shows'⟩ := written
  refine ⟨first :: made, final, rfl, ?_, shows'⟩
  rw [Record.writes_cons, step]
  exact runs

/-- An error that is wrapped leaves the results as they are. -/
theorem wp_rethrown {α : Type} {action : TableM creator α} {wrap : TclError → TclError}
    {ok : α → CTable creator → Prop} (returns : wp action ok (fun _ _ => True) table)
    : wp (onTclError action (fun error => fail (wrap error))) ok (fun _ _ => True) table := by
  rw [wp_onTclError]
  refine wp_mono returns (fun _ _ here => here) ?_
  intro stop after _
  cases stop <;> trivial

/-- The loop of `set` makes the writes of its pairs, by induction on them. -/
theorem setPairs_written (nocomplain : Bool) (elements : List Obj)
    : ∀ {table : CTable creator} {record : Record creator}, table.Shows id record →
        wp (setPairs host ctl id nocomplain elements)
          (fun _ => CTable.Written host id record (pairWrites creator nocomplain elements))
          (fun _ _ => True) table := by
  fun_induction setPairs host ctl id nocomplain elements with
  | case1 fieldObj obj rest ih =>
      intro table record shows'
      rw [wp_bind, setFieldobj, pairWrites]
      cases creator.fieldNumber fieldObj with
      | some field =>
          have written := @CTable.Shows.write creator host table ctl id record shows'
            (.set field obj)
          refine wp_mono (wp_rethrown written) ?_ fun _ _ _ => trivial
          rintro _ middle ⟨next, step, here⟩
          refine wp_mono (ih here) ?_ fun _ _ _ => trivial
          exact fun _ _ behind => .cons step behind
      | none =>
          cases nocomplain with
          | true => exact ih shows'
          | false => trivial
  | case2 rest short =>
      intro table record shows'
      have none : pairWrites creator nocomplain rest = some [] := by
        rcases rest with _ | ⟨first, _ | ⟨second, others⟩⟩
        · rfl
        · rfl
        · exact (short first second others rfl).elim
      rw [none]
      exact shows'.written

/-- The loop of `incr` makes the writes of its pairs. -/
theorem incrPairs_written (elements : List Obj)
    : ∀ {table : CTable creator} {record : Record creator}, table.Shows id record →
        wp (incrPairs host ctl id elements)
          (fun _ => CTable.Written host id record (incrWrites creator elements))
          (fun _ _ => True) table := by
  fun_induction incrPairs host ctl id elements with
  | case1 fieldObj obj rest unknown =>
      intro table record shows'
      trivial
  | case2 fieldObj obj rest field known ih =>
      intro table record shows'
      rw [wp_bind, incrWrites, known]
      have written := @CTable.Shows.write creator host table ctl id record shows' (.incr field obj)
      refine wp_mono (wp_rethrown written) ?_ fun _ _ _ => trivial
      rintro _ middle ⟨next, step, here⟩
      rw [wp_bind, wp_inspect]
      refine ⟨fun row _ => ?_, fun _ _ => trivial⟩
      rw [wp_bind]
      refine wp_mono (ih here) ?_ fun _ _ _ => trivial
      exact fun _ _ behind => .cons step behind
  | case3 rest short =>
      intro table record shows'
      have none : incrWrites creator rest = some [] := by
        rcases rest with _ | ⟨first, _ | ⟨second, others⟩⟩
        · rfl
        · rfl
        · exact (short first second others rfl).elim
      rw [none]
      exact shows'.written

/-- The loop of `null` makes the writes of its fields. -/
theorem nullFields_written (fieldObjs : List Obj)
    : ∀ {table : CTable creator} {record : Record creator}, table.Shows id record →
        wp (nullFields host id fieldObjs)
          (fun _ => CTable.Written host id record (nullWrites creator fieldObjs))
          (fun _ _ => True) table := by
  induction fieldObjs with
  | nil => exact fun shows' => shows'.written
  | cons fieldObj rest ih =>
      intro table record shows'
      rw [nullFields, nullWrites]
      cases creator.fieldNumber fieldObj with
      | none => trivial
      | some field =>
          dsimp only
          rw [wp_bind]
          have written := @CTable.Shows.write creator host table .normal id record shows'
            (.null field)
          refine wp_mono written ?_ fun _ _ _ => trivial
          rintro _ middle ⟨next, step, here⟩
          refine wp_mono (ih here) ?_ fun _ _ _ => trivial
          exact fun _ _ behind => .cons step behind

/-- A column that is not null makes its write. -/
theorem setColumn_written (options : TabsepOptions creator) (missing : Bool) (text : CString)
    (length : Nat) (field : Option creator.Field) (shows' : table.Shows id record)
    : wp (setColumn host options ctl id missing text length field)
        (fun _ => CTable.Written host id record (columnWrite options missing text length field))
        (fun _ _ => True) table := by
  cases field with
  | none => exact shows'.written
  | some field =>
      rw [setColumn, columnWrite]
      split
      · exact shows'.written
      · rw [wp_bind, wp_inspect]
        refine ⟨fun obj taken => ?_, fun _ _ => trivial⟩
        rw [taken]
        have written := @CTable.Shows.write creator host table ctl id record shows' (.set field obj)
        refine wp_mono written ?_ fun _ _ _ => trivial
        rintro _ after ⟨next, step, here⟩
        exact .cons step here.written

/-- The columns of a line make their writes, by induction on the fields. -/
theorem setColumns_written (options : TabsepOptions creator) (fields : List (Option creator.Field))
    : ∀ {table : CTable creator} {record : Record creator} (column : Nat) (line : Option CString),
        table.Shows id record →
        wp (setColumns host options ctl id fields column line)
          (fun _ => CTable.Written host id record (columnWrites options fields column line))
          (fun _ _ => True) table := by
  induction fields with
  | nil => exact fun _ _ shows' => shows'.written
  | cons field rest ih =>
      intro table record column line shows'
      simp only [setColumns, columnWrites, wp_bind]
      refine wp_mono (setColumn_written options _ _ _ field shows') ?_ fun _ _ _ => trivial
      rintro _ middle ⟨made, next, writes, runs, here⟩
      refine wp_mono (ih _ _ here) ?_ fun _ _ _ => trivial
      rintro _ after ⟨others, final, rest, continues, behind⟩
      refine ⟨made ++ others, final, ?_, ?_, behind⟩
      · rw [writes, rest]
      · rw [Record.writes, List.foldlM_append]
        change (record.writes host made).bind (fun next => next.writes host others) = some final
        rw [runs]
        exact continues

/-- The end of a creation changes no row. -/
theorem finishRow_rows (ctl : IndexCtl) (id : RowId)
    : wp (finishRow host ctl id) (fun _ after => after.rows = table.rows) (fun _ _ => True)
        table := by
  rw [finishRow]
  split
  · rw [indexDefaults]
    refine @wp_forM _ _ _ _ _ (fun after : CTable creator => after.rows = table.rows) _ _ ?_ rfl
    intro field _ middle same
    rw [wp_bind, wp_get]
    split
    · refine wp_mono insertIntoIndex_rows ?_ fun _ _ _ => trivial
      exact fun _ _ kept => kept.trans same
    · exact same
  · exact rfl

theorem CTable.Written.congr {after final : CTable creator}
    {writes : Option (List (Write creator))} (written : after.Written host id record writes)
    (rows : final.rows = after.rows)
    : final.Written host id record writes := by
  obtain ⟨made, next, isMade, runs, shows'⟩ := written
  exact ⟨made, next, isMade, runs, shows'.congr rows⟩

theorem finishRow_written {writes : Option (List (Write creator))}
    (written : table.Written host id record writes)
    : wp (finishRow host ctl id) (fun _ => CTable.Written host id record writes) (fun _ _ => True)
        table :=
  wp_mono (finishRow_rows ctl id) (fun _ _ same => written.congr same) fun _ _ _ => trivial

end Loops

end SpeedTables
