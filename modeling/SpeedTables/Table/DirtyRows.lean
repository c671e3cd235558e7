import SpeedTables.Table.FailedWrites
import SpeedTables.Table.RoundTrip
import SpeedTables.Table.IndexCreation

/-! The `_dirty` flag of the rows that have changed, and the setter calls that leave it. -/

namespace SpeedTables

open Lib

variable {creator : CreatorTable} {host : Host} {table : CTable creator} {ctl : IndexCtl}
  {id : RowId} {row : Row creator} {field : creator.Field}

-----------------------------------------------------------------------------------------
-- Dirty rows
-----------------------------------------------------------------------------------------

def Row.Dirty (row : Row creator) : Prop :=
  row.cells creator.dirtyField = creator.dirtyCell

/-- The values and null states are the same, apart from `_dirty`. -/
def Row.SameValues (row other : Row creator) : Prop :=
  ∀ field, field ≠ creator.dirtyField → other.cells field = row.cells field

/-- A row that was there has the key and the values that it had, a new one those of new rows. -/
def Row.UnchangedSince (row : Row creator) : Option (Row creator) → Prop
  | some old => row.key = old.key ∧ old.SameValues row
  | none => creator.init.SameValues row

/-- The rows that have changed since the rows were those are dirty. The rows that were there have
their addresses still.
-/
structure CTable.Flagged (since : RowId → Option (Row creator)) (table : CTable creator)
    : Prop where
  older : ∀ id, (since id).isSome = true → id < table.nextRow
  changed : ∀ id row, table.rows id = some row → row.Dirty ∨ row.UnchangedSince (since id)

/-- Rows that stay or go leave the others flagged. -/
theorem CTable.Flagged.fewer {since : RowId → Option (Row creator)} {after : CTable creator}
    (flagged : table.Flagged since) (nextRow : table.nextRow ≤ after.nextRow)
    (rows : ∀ id, after.rows id = table.rows id ∨ after.rows id = none)
    : after.Flagged since := by
  refine ⟨fun id old => Nat.lt_of_lt_of_le (flagged.older id old) nextRow, fun id row found => ?_⟩
  cases rows id with
  | inl same => exact flagged.changed id row (same ▸ found)
  | inr gone => exact nomatch gone.symm.trans found

/-- A table whose rows are those since which changes count is flagged. -/
theorem CTable.Flagged.start (unused : ∀ id, table.nextRow ≤ id → table.rows id = none)
    : table.Flagged table.rows := by
  refine ⟨fun id there => ?_, fun id row found => .inr ?_⟩
  · by_contra late
    rw [unused id (Nat.not_lt.mp late)] at there
    cases there
  · rw [found]
    exact ⟨rfl, fun _ _ => rfl⟩

-----------------------------------------------------------------------------------------
-- Setter calls
-----------------------------------------------------------------------------------------

/-- Once the row is out of the unique index of the field, the index has an equal row. -/
def CTable.IndexRefuses (table : CTable creator) (ctl : IndexCtl) (field : creator.Field)
    (id : RowId) (row : Row creator) : Prop :=
  (creator.fields field).unique = true
  ∧ ∃ removed skip other,
      (if ctl = .normal then table.removeFromIndex field id else .ok table) = .ok removed
      ∧ removed.skipLists field = some skip ∧ other ∈ entries skip.nodes
      ∧ (other = id ∨ creator.compareFunction field row (table.rowAt other) = .eq)

/-- A setter call on a row that is not dirty flags it or changes nothing: a set does not fail behind
its tests, unless what it has stored by then was there before; an increment adds nothing; and a null
setting finds the field null or refuses.
-/
def Write.Flags (host : Host) (table : CTable creator) (ctl : IndexCtl) (id : RowId)
    (row : Row creator) : Write creator → Prop
  | .set field obj =>
      if field = creator.keyField then
        ctl = .normal → row.key = some obj ∨ table.Keyed
      else
        ∀ flagged allocates stored,
          cellSet creator host field (row.cells field) obj = .assign flagged allocates stored →
          (creator.type field).storedUnindexed = true
          ∨ (table.AllocationFails host allocates → flagged = row.cells field)
            ∧ (¬ table.AllocationFails host allocates →
                table.IndexRefuses ctl field id (row.setCell field stored) →
                stored = row.cells field)
  | .incr field obj =>
      ∀ add amount, incrValue host (creator.fields field).type = some add →
        host.getInt obj = some amount →
        row.cells field = { value := add (row.cells field) amount, isNull := false }
  | .null field => (creator.fields field).notnull = true ∨ (row.cells field).isNull = true

/-- A setter call flags its row, or leaves what a row that is not dirty has. It is not a call on
`_dirty` itself.
-/
def Call.Flags (host : Host) (call : Call creator) : Prop :=
  call.write.field ≠ creator.dirtyField
  ∧ ∀ row, call.table.rows call.id = some row →
      row.Dirty ∨ call.write.Flags host call.table call.ctl call.id row

/-- The row is dirty, or it was not and has its values still, and its key if it is not new. -/
def CTable.MarkedOrSame (ctl : IndexCtl) (id : RowId) (row : Row creator) (after : CTable creator)
    : Prop :=
  ∃ now, after.rows id = some now
    ∧ (now.Dirty
      ∨ ¬ row.Dirty ∧ row.SameValues now ∧ (ctl = .normal → now.key = row.key))

/-- A row that is as it was. -/
theorem CTable.MarkedOrSame.same {after : CTable creator} (found : after.rows id = some row)
    : after.MarkedOrSame ctl id row := by
  refine ⟨row, found, ?_⟩
  by_cases dirty : row.Dirty
  · exact .inl dirty
  · exact .inr ⟨dirty, fun _ _ => rfl, fun _ => rfl⟩

/-- A row whose cell is stored, which was as it is or belongs to a dirty row. -/
theorem CTable.MarkedOrSame.stored {after : CTable creator} {cell : Cell (creator.type field)}
    (found : after.rows id = some (row.setCell field cell)) (clean : field ≠ creator.dirtyField)
    (same : row.Dirty ∨ cell = row.cells field)
    : after.MarkedOrSame ctl id row := by
  refine ⟨_, found, ?_⟩
  by_cases dirty : row.Dirty
  · refine .inl ?_
    rw [Row.Dirty, Row.setCell_cells_of_ne _ _ (Ne.symm clean)]
    exact dirty
  · refine .inr ⟨dirty, fun other _ => ?_, fun _ => rfl⟩
    by_cases written : other = field
    · subst written
      simp [Row.setCell, same.resolve_left dirty]
    · exact Row.setCell_cells_of_ne _ _ written

/-- A unique index that refuses a row has an equal one. -/
theorem insertIntoIndex_refuses (found : table.rows id = some row)
    : wp (insertIntoIndex host field id) (fun _ after => after.rows = table.rows)
        (stopped (fun after => after.rows = table.rows ∧ (creator.fields field).unique = true
            ∧ ∃ skip other, table.skipLists field = some skip ∧ other ∈ entries skip.nodes
              ∧ creator.compareFunction field row (table.rowAt other) = .eq)
          (fun _ => True)) table := by
  have frame := wp_mono (respects_insertIntoIndex host field id table)
    (fun _ _ frame => frame.rows) (fun _ _ frame => frame.rows)
  have refused : wp (insertIntoIndex host field id) (fun _ _ => True)
      (stopped (fun _ => (creator.fields field).unique = true
          ∧ ∃ skip other, table.skipLists field = some skip ∧ other ∈ entries skip.nodes
            ∧ creator.compareFunction field row (table.rowAt other) = .eq)
        (fun _ => True)) table := by
    rw [insertIntoIndex, wp_bind, wp_get]
    cases chain : table.skipLists field with
    | none => trivial
    | some skip =>
        dsimp only
        split
        · trivial
        · rw [wp_bind, wp_inspectRow found, wp_bind, wp_inspect]
          refine ⟨fun inserted result => ?_, fun _ _ => trivial⟩
          cases inserted with
          | some after => trivial
          | none =>
              have grown : ∀ rest, table.insertNode host field skip rest id ≠ .ok none := by
                intro rest linked
                unfold CTable.insertNode at linked
                split at linked <;> cases linked
              unfold CTable.sinsertLinked at result
              split at result
              · cases result
              · exact absurd result (grown _)
              · next node rest located =>
                  have inside : node ∈ skip.nodes := by
                    unfold CTable.locate at located
                    split at located
                    · cases located
                    · exact Lib.locate_subset located (by simp)
                  split at result
                  · cases result
                  · next compared =>
                      obtain ⟨first, others, bucket, equal⟩ := CTable.compareBucket_eq compared
                      split at result
                      · next unique =>
                          exact ⟨unique, skip, first, rfl,
                            mem_entries.mpr ⟨node, inside, by simp [bucket]⟩, equal.symm⟩
                      · cases result
                  · exact absurd result (grown _)
  refine wp_mono (wp_and frame refused) (fun _ _ both => both.1) ?_
  intro stop after both
  cases stop with
  | tcl error => exact both
  | fault fault => trivial

/-- What a store with index maintenance leaves in the row, and when it fails. -/
theorem storeIndexed_row (found : table.rows id = some row)
    {flagged stored : Cell (creator.type field)} {allocates : Bool}
    : wp (storeIndexed host ctl id field flagged allocates stored)
        (fun _ after => after.rows id = some (row.setCell field stored))
        (stopped (fun after =>
            table.AllocationFails host allocates
              ∧ after.rows id = some (row.setCell field flagged)
            ∨ ¬ table.AllocationFails host allocates
              ∧ table.IndexRefuses ctl field id (row.setCell field stored)
              ∧ after.rows id = some (row.setCell field stored))
          (fun _ => True)) table := by
  have replaced : (row.setCell field flagged).setCell field stored = row.setCell field stored := by
    simp [Row.setCell]
  have removal : wp (removeFromIndexSource ctl field id)
      (fun _ removed => removed.rows = table.rows ∧ removed.sharedMaster = table.sharedMaster
        ∧ removed.allocations = table.allocations
        ∧ (if ctl = .normal then table.removeFromIndex field id else .ok table) = .ok removed)
      (stopped (fun _ => False) (fun _ => True)) table := by
    cases ctl with
    | new => exact ⟨rfl, rfl, rfl, rfl⟩
    | normal =>
        have frame := respects_removeFromIndex field id table
        rw [removeFromIndexSource, if_pos rfl]
        refine wp_of_results (fun value removed run => ?_) (fun stop removed run => ?_)
        · have kept := wp_returns frame run
          have result : table.removeFromIndex field id = .ok removed := by
            cases isResult : table.removeFromIndex field id with
            | error fault =>
                simp [removeFromIndex, inspect, isResult, Bind.bind, EStateM.bind, get, getThe,
                  MonadStateOf.get, EStateM.get, crash, throw, throwThe, MonadExceptOf.throw,
                  EStateM.throw] at run
            | ok other =>
                simp [removeFromIndex, inspect, isResult, Bind.bind, EStateM.bind, get, getThe,
                  MonadStateOf.get, EStateM.get, pure, EStateM.pure, set, MonadStateOf.set,
                  EStateM.set] at run
                rw [run]
          exact ⟨kept.rows, kept.sharedMaster, CTable.removeFromIndex_allocations result, result⟩
        · have faults : wp (removeFromIndex field id) (fun _ _ => True)
              (stopped (fun _ => False) (fun _ => True)) table := by
            rw [removeFromIndex, wp_bind, wp_inspect]
            exact ⟨fun _ _ => trivial, fun _ _ => trivial⟩
          exact wp_stops faults run
  rw [storeIndexed, wp_bind]
  refine wp_mono removal ?_ ?_
  · rintro - removed ⟨rows, shared, allocations, taken⟩
    have fails : removed.AllocationFails host allocates ↔ table.AllocationFails host allocates := by
      simp [CTable.AllocationFails, shared, allocations]
    rw [wp_bind, putCell_spec (rows ▸ found), wp_bind]
    refine wp_mono allocateMayFail_spec ?_ ?_
    · rintro _ _ ⟨granted, count, rfl⟩
      have granted : ¬ table.AllocationFails host allocates :=
        fun denied => granted (fails.mpr denied)
      have contents : ({ removed.putRow id (row.setCell field flagged) with
          allocations := count } : CTable creator).rows id = some (row.setCell field flagged) := by
        simp [CTable.putRow]
      rw [wp_bind, putCell_spec contents, replaced]
      have here : (CTable.putRow { removed.putRow id (row.setCell field flagged) with
          allocations := count } id (row.setCell field stored)).rows id
          = some (row.setCell field stored) := by
        simp [CTable.putRow]
      refine wp_mono (insertIntoIndex_refuses here) (fun _ after same => same ▸ here) ?_
      intro stop after refused
      cases stop with
      | fault fault => trivial
      | tcl error =>
          obtain ⟨same, unique, skip, other, chain, inside, equal⟩ := refused
          refine .inr ⟨granted, ⟨unique, removed, skip, other, taken, chain, inside, ?_⟩,
            same ▸ here⟩
          by_cases itself : other = id
          · exact .inl itself
          · refine .inr ?_
            have unmoved : (CTable.putRow { removed.putRow id (row.setCell field flagged) with
                allocations := count } id (row.setCell field stored)).rowAt other
                = table.rowAt other := by
              simp [CTable.rowAt, CTable.putRow, itself, rows]
            rwa [unmoved] at equal
    · rintro stop after ⟨denied, -, count, rfl⟩
      cases stop with
      | fault fault => trivial
      | tcl error =>
          refine .inl ⟨fails.mp denied, ?_⟩
          simp [CTable.putRow]
  · intro stop after never
    cases stop with
    | fault fault => trivial
    | tcl error => exact never.elim

-----------------------------------------------------------------------------------------
-- Keys
-----------------------------------------------------------------------------------------

/-- Of the row at most the key has changed. -/
def CTable.SameCells (id : RowId) (before after : CTable creator) : Prop :=
  ∀ row, before.rows id = some row → ∃ key, after.rows id = some { row with key := key }

instance sameCells_preorder (id : RowId) : IsPreorder (CTable creator) (CTable.SameCells id) where
  refl := fun _ row found => ⟨row.key, found⟩
  trans := by
    intro first second third before after row found
    obtain ⟨key, middle⟩ := before row found
    obtain ⟨next, there⟩ := after _ middle
    exact ⟨next, there⟩

theorem CTable.SameCells.of_rows {before after : CTable creator} (same : after.rows = before.rows)
    : CTable.SameCells id before after :=
  fun row found => ⟨row.key, same ▸ found⟩

/-- Relinking a row under another key changes none of its cells, by the steps of `reinsert_row`. -/
theorem respects_reinsertRow_cells (host : Host) (ctl : IndexCtl) (id : RowId) (value : CString)
    : Respects (@CTable.SameCells creator id) (reinsertRow host ctl id value) := by
  refine (respects_inspect _).bind fun entry => ?_
  cases entry with
  | some other => exact Respects.throw
  | none =>
      have unlinked : Respects (@CTable.SameCells creator id) (unlinkOldKey host ctl id) := by
        refine Respects.ite (Respects.bind ?_ fun _ => ?_) Respects.pure
        · intro table
          rw [copySharedKey, wp_bind, wp_get]
          split
          · rw [wp_bind, wp_shmalloc]
            split
            · exact .of_rows rfl
            · split <;> exact .of_rows rfl
          · exact .of_rows rfl
        · intro table
          rw [unlinkHashEntry, wp_bind, wp_inspect]
          exact ⟨fun _ _ => .of_rows rfl, fun _ _ => .of_rows rfl⟩
      refine unlinked.bind fun _ => ?_
      intro table
      rw [wp_bind, wp_inspect]
      refine ⟨?_, fun _ _ => .of_rows rfl⟩
      intro row found
      have there := (CTable.row_eq found).1
      have put (key : Option CString)
          : CTable.SameCells id table (table.putRow id { row with key := key }) := by
        intro old isOld
        cases there.symm.trans isOld
        exact ⟨key, by simp [CTable.putRow]⟩
      rw [wp_bind, wp_modify, wp_bind]
      refine wp_mono (storeHashEntry_spec _ value id { row with key := none }) ?_ ?_
      · intro result next stored
        have moved : CTable.SameCells id table next := by
          cases stored with
          | found lookup => exact put none
          | created lookup linked =>
              intro old isOld
              cases there.symm.trans isOld
              exact ⟨some value, by simp [CTable.putRow]⟩
        dsimp only
        split
        · have entered : Respects (@CTable.SameCells creator id) (enterIndexes host ctl id) :=
            Respects.ite (Respects.forM fun field _ =>
              (respects_insertIntoIndex host field id).mono fun frame => .of_rows frame.rows)
              Respects.pure
          exact wp_mono (entered next)
            (fun _ _ after => (sameCells_preorder id).trans _ _ _ moved after)
            (fun _ _ after => (sameCells_preorder id).trans _ _ _ moved after)
        · exact moved
      · rintro stop next ⟨-, rfl | rfl⟩
        · exact put none
        · intro old isOld
          cases there.symm.trans isOld
          exact ⟨some value, by simp [CTable.putRow]⟩

-----------------------------------------------------------------------------------------
-- What a setter call does to the flag
-----------------------------------------------------------------------------------------

/-- Marking a row that is there makes it dirty. -/
theorem setDirty_marks (found : table.rows id = some row) {error : Stop → CTable creator → Prop}
    : wp (setDirty id) (fun _ after => ∃ now, after.rows id = some now ∧ now.Dirty) error
        table := by
  rw [setDirty, putCell_spec found]
  refine ⟨row.setCell creator.dirtyField creator.dirtyCell, by simp [CTable.putRow], ?_⟩
  simp [Row.Dirty, Row.setCell]

theorem markDirty_marks (found : table.rows id = some row) (clean : field ≠ creator.dirtyField)
    {error : Stop → CTable creator → Prop}
    : wp (markDirty id field) (fun _ after => ∃ now, after.rows id = some now ∧ now.Dirty) error
        table := by
  rw [markDirty, if_neg clean]
  exact setDirty_marks found

theorem CTable.MarkedOrSame.marked {after : CTable creator}
    (marked : ∃ now, after.rows id = some now ∧ now.Dirty)
    : after.MarkedOrSame ctl id row := by
  obtain ⟨now, there, dirty⟩ := marked
  exact ⟨now, there, .inl dirty⟩

/-- Setting the key of a row marks it, or leaves its values. -/
theorem setField_key_marks {obj : Obj} (found : table.rows id = some row)
    (listed : id ∈ table.llHead)
    (flags : row.Dirty ∨ (ctl = .normal → row.key = some obj ∨ table.Keyed))
    : wp (setField host ctl id creator.keyField obj) (fun _ after => after.MarkedOrSame ctl id row)
        (stopped (CTable.MarkedOrSame ctl id row) (fun _ => True)) table := by
  rw [setField, wp_bind, wp_inspectRow found, if_pos rfl]
  split
  · exact .same found
  · next different =>
      rw [wp_bind]
      have cells := respects_reinsertRow_cells host ctl id obj table
      have kept : wp (reinsertRow host ctl id obj) (fun _ _ => True)
          (stopped (CTable.MarkedOrSame ctl id row) (fun _ => True)) table := by
        by_cases dirty : row.Dirty
        · refine wp_mono cells (fun _ _ _ => trivial) (fun stop after same => ?_)
          cases stop with
          | fault fault => trivial
          | tcl error =>
              obtain ⟨key, there⟩ := same row found
              exact ⟨_, there, .inl dirty⟩
        · cases ctl with
          | new =>
              refine wp_mono cells (fun _ _ _ => trivial) (fun stop after same => ?_)
              cases stop with
              | fault fault => trivial
              | tcl error =>
                  obtain ⟨key, there⟩ := same row found
                  exact ⟨_, there, .inr ⟨dirty, fun _ _ => rfl, fun same => by cases same⟩⟩
          | normal =>
              have keyed := ((flags.resolve_left dirty) rfl).resolve_left different
              refine wp_mono (reinsertRow_keyed host keyed listed obj) (fun _ _ _ => trivial)
                (fun stop after stops => ?_)
              cases stop with
              | fault fault => trivial
              | tcl error =>
                  obtain ⟨allocations, rfl⟩ := stops
                  exact .same found
      refine wp_mono (wp_and cells kept) ?_ (fun _ _ both => both.2)
      intro _ middle both
      obtain ⟨key, there⟩ := both.1 row found
      exact wp_mono (setDirty_marks there) (fun _ _ marked => .marked marked)
        (fun _ _ stop => stop)

/-- Setting a cell marks the row, or leaves its values. -/
theorem setField_cell_marks {obj : Obj} (found : table.rows id = some row)
    (notKey : field ≠ creator.keyField) (clean : field ≠ creator.dirtyField)
    (flags : row.Dirty ∨ ∀ flagged allocates stored,
      cellSet creator host field (row.cells field) obj = .assign flagged allocates stored →
      (creator.type field).storedUnindexed = true
      ∨ (table.AllocationFails host allocates → flagged = row.cells field)
        ∧ (¬ table.AllocationFails host allocates →
            table.IndexRefuses ctl field id (row.setCell field stored) →
            stored = row.cells field))
    : wp (setField host ctl id field obj) (fun _ after => after.MarkedOrSame ctl id row)
        (stopped (CTable.MarkedOrSame ctl id row) (fun _ => True)) table := by
  rw [setField, wp_bind, wp_inspectRow found, if_neg notKey]
  cases outcome : cellSet creator host field (row.cells field) obj with
  | error error => exact .same found
  | same => exact .same found
  | nullPointer => trivial
  | assign flagged allocates stored =>
      dsimp only
      rw [wp_bind]
      have fails : wp (storeCell host ctl id field flagged allocates stored) (fun _ _ => True)
          (stopped (CTable.MarkedOrSame ctl id row) (fun _ => True)) table := by
        rw [storeCell]
        split
        · refine wp_mono storeUnindexed_succeeds (fun _ _ _ => trivial) ?_
          intro stop after never
          cases stop with
          | fault fault => trivial
          | tcl error => exact never.elim
        · next indexed =>
            have same (dirty : ¬ row.Dirty) :=
              ((flags.resolve_left dirty) flagged allocates stored outcome).resolve_left indexed
            refine wp_mono (storeIndexed_row found) (fun _ _ _ => trivial) ?_
            intro stop after left
            cases stop with
            | fault fault => trivial
            | tcl error =>
                cases left with
                | inl denied =>
                    refine .stored denied.2 clean ?_
                    by_cases dirty : row.Dirty
                    · exact .inl dirty
                    · exact .inr ((same dirty).1 denied.1)
                | inr refused =>
                    refine .stored refused.2.2 clean ?_
                    by_cases dirty : row.Dirty
                    · exact .inl dirty
                    · exact .inr ((same dirty).2 refused.1 refused.2.1)
      refine wp_mono (wp_and (storeCell_stores found) fails) ?_ (fun _ _ both => both.2)
      intro _ middle both
      exact wp_mono (markDirty_marks both.1 clean) (fun _ _ marked => .marked marked)
        (fun _ _ stop => stop)

/-- A store without a mark leaves the row as the flags allow. -/
theorem storeIndexed_marks (mode : IndexCtl) {cell : Cell (creator.type field)}
    (found : table.rows id = some row) (clean : field ≠ creator.dirtyField)
    (same : row.Dirty ∨ cell = row.cells field)
    : wp (storeIndexed host mode id field cell false cell)
        (fun _ after => after.MarkedOrSame ctl id row)
        (stopped (CTable.MarkedOrSame ctl id row) (fun _ => True)) table := by
  refine wp_mono (storeIndexed_row found) (fun _ _ stored => .stored stored clean same) ?_
  intro stop after left
  cases stop with
  | fault fault => trivial
  | tcl error =>
      cases left with
      | inl denied => exact .stored denied.2 clean same
      | inr refused => exact .stored refused.2.2 clean same

/-- A call that flags its row leaves it dirty or as it was, by the setter that it runs. -/
theorem Call.marks {call : Call creator} (flags : call.Flags host)
    (found : call.table.rows call.id = some row) (listed : call.id ∈ call.table.llHead)
    : wp (call.run host) (fun _ after => after.MarkedOrSame call.ctl call.id row)
        (stopped (CTable.MarkedOrSame call.ctl call.id row) (fun _ => True)) call.table := by
  obtain ⟨ctl, id, write, table⟩ := call
  obtain ⟨clean, flags⟩ := flags
  dsimp only at found listed clean flags ⊢
  have flags := flags row found
  cases write with
  | set field obj =>
      change wp (setField host ctl id field obj) _ _ table
      change field ≠ creator.dirtyField at clean
      by_cases isKey : field = creator.keyField
      · subst isKey
        refine setField_key_marks found listed (flags.imp_right fun keyed => ?_)
        rw [Write.Flags, if_pos rfl] at keyed
        exact keyed
      · refine setField_cell_marks found isKey clean (flags.imp_right fun stores => ?_)
        rw [Write.Flags, if_neg isKey] at stores
        exact stores
  | incr field obj =>
      change wp (incrField host ctl id field obj) _ _ table
      change field ≠ creator.dirtyField at clean
      unfold incrField
      dsimp only
      cases numeric : incrValue host (creator.fields field).type with
      | none => exact .same found
      | some add =>
          cases number : host.getInt obj with
          | none => exact .same found
          | some amount =>
              dsimp only
              rw [wp_bind, wp_inspectRow found]
              exact storeIndexed_marks ctl found clean
                (flags.imp_right fun adds => (adds add amount numeric number).symm)
  | null field =>
      change wp (setNull host id field) _ _ table
      change field ≠ creator.dirtyField at clean
      rw [setNull, wp_bind, wp_inspectRow found]
      dsimp only
      split
      · exact .same found
      · next nullable =>
          split
          · exact .same found
          · next isSet =>
              have dirty : row.Dirty := by
                rcases flags with dirty | notnull | isNull
                · exact dirty
                · exact absurd notnull nullable
                · exact absurd isNull isSet
              exact storeIndexed_marks .normal found clean (.inl dirty)

end SpeedTables
