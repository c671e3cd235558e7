import SpeedTables.Table.Pointers
import SpeedTables.Table.SetterIndex
import SpeedTables.Table.Upkeep

/-! Every command whose setters maintain the indexes keeps all rows in all indexes. -/

namespace SpeedTables

open Lib Std

variable {creator : CreatorTable} {host : Host}

-----------------------------------------------------------------------------------------
-- The invariant
-----------------------------------------------------------------------------------------

/-- The indexes are in order, and every row that is not excepted is in each of them. -/
structure CTable.IndexedExcept (except : RowId → Prop) (table : CTable creator) : Prop where
  leads : table.Leads
  index : ∀ field, table.FieldIndex field
  complete : ∀ field, table.Complete field except

/-- The indexes are in order and hold every row. -/
def CTable.Indexed (table : CTable creator) : Prop :=
  table.IndexedExcept (fun _ => False)

/-- The invariant while a row is written: a new row may be missing in the indexes. -/
def CTable.IndexedDuring (ctl : IndexCtl) (id : RowId) (table : CTable creator) : Prop :=
  table.IndexedExcept (fun other => ctl = .new ∧ other = id) ∧ id ∈ table.llHead

-----------------------------------------------------------------------------------------
-- Writes that maintain the index
-----------------------------------------------------------------------------------------

/-- A write keeps the index of a field: it stays in order, and no row drops out of it. -/
structure CTable.FieldKept (field : creator.Field) (id : RowId) (before after : CTable creator)
    : Prop where
  index : after.FieldIndex field
  others : ∀ other, other ≠ id → after.links field other = before.links field other
  stays : (before.links field id).isSome = true → (after.skipLists field).isSome = true →
    (after.links field id).isSome = true

theorem CTable.FieldKept.refl {table : CTable creator} {field : creator.Field}
    (index : table.FieldIndex field) (id : RowId)
    : table.FieldKept field id table :=
  ⟨index, fun _ _ => rfl, fun linked _ => linked⟩

/-- A write of another field keeps the index. -/
theorem CTable.FieldKept.cellFrame {before after : CTable creator} {field written : creator.Field}
    {id : RowId} (index : before.FieldIndex field) (frame : before.CellFrame written id after)
    (other : field ≠ written)
    : before.FieldKept field id after where
  index := index.cellFrame frame other
  others := fun _ _ => by rw [frame.links field other]
  stays := fun linked _ => by rw [frame.links field other]; exact linked

/-- A kept index holds every row it should. -/
theorem CTable.FieldKept.complete {before after : CTable creator} {field : creator.Field}
    {id : RowId} {except : RowId → Prop} (kept : before.FieldKept field id after)
    (frame : before.RowFrame id after) (complete : before.Complete field except)
    : after.Complete field except := by
  intro other listed included chain
  rw [frame.llHead] at listed
  have linked := complete other listed included (frame.exists' field ▸ chain)
  by_cases same : other = id
  · subst same
    exact kept.stays linked chain
  · rw [kept.others other same]
    exact linked

/-- Storing in the index of a new row that is linked there already is the panic, unless the
allocation fails before.
-/
theorem storeIndexed_doubles {table : CTable creator} {id : RowId} {field : creator.Field}
    {row : Row creator} {flagged stored : Cell (creator.type field)} {allocates : Bool}
    (found : table.rows id = some row) (chain : (table.skipLists field).isSome = true)
    (linked : (table.links field id).isSome = true)
    : wp (storeIndexed host .new id field flagged allocates stored) (fun _ _ => False)
        (fun stop _ =>
          (¬ table.AllocationFails host allocates →
            stop = .fault (.doubleInsert (creator.fields field).name))
          ∧ (table.AllocationFails host allocates → table.AllocationStop field stop))
        table := by
  rw [storeIndexed, wp_bind, removeFromIndexSource, if_neg (by simp), wp_pure, wp_bind,
    putCell_spec found, wp_bind]
  refine wp_mono allocateMayFail_spec ?_ ?_
  · rintro - allocated ⟨granted, count, rfl⟩
    have there : ({ table.putRow id (row.setCell field flagged) with
        allocations := count } : CTable creator).rows id = some (row.setCell field flagged) := by
      simp [CTable.putRow]
    rw [wp_bind, putCell_spec there]
    refine Iff.mpr (insertIntoIndex_linked ?_ ?_) ?_
    · exact chain
    · exact linked
    · exact ⟨fun _ => rfl, fun failing => absurd failing granted⟩
  · rintro stop after ⟨failing, how, -⟩
    exact ⟨fun granted => absurd failing granted, fun _ => how⟩

/-- Storing with index maintenance keeps the index, where it does not panic. -/
theorem storeIndexed_kept {table : CTable creator} (ctl : IndexCtl) {id : RowId}
    {field : creator.Field} {row : Row creator} (flagged : Cell (creator.type field))
    (allocates : Bool) (stored : Cell (creator.type field)) (index : table.FieldIndex field)
    (listed : id ∈ table.llHead) (old : id < table.nextRow) (found : table.rows id = some row)
    : wp (storeIndexed host ctl id field flagged allocates stored)
        (fun _ => table.FieldKept field id) (fun _ _ => True) table := by
  by_cases free : ctl = .new → table.links field id = none
  · refine wp_mono (storeIndexed_spec index listed old found free) ?_ (fun _ _ _ => trivial)
    rintro - after ⟨stored, -, -⟩
    exact ⟨stored.index, stored.others, fun _ chain => stored.linked chain⟩
  · obtain ⟨rfl, linked⟩ : ctl = .new ∧ table.links field id ≠ none := by
      simpa using free
    have chain : (table.skipLists field).isSome = true := by
      by_contra absent
      exact linked (index.unlinked (by simpa using absent) id listed)
    exact wp_mono (storeIndexed_doubles found chain (Option.isSome_iff_ne_none.mpr linked))
      (fun _ _ impossible => impossible.elim) (fun _ _ _ => trivial)

/-- A row stored without touching the index keeps it when the index does not hold the row,
or the row is equal to what it was.
-/
theorem CTable.FieldKept.putRow {table : CTable creator} {field : creator.Field} {id : RowId}
    (index : table.FieldIndex field) {row : Row creator}
    (safe : table.links field id = none
      ∨ creator.compareFunction field row (table.rowAt id) = .eq)
    : table.FieldKept field id (table.putRow id row) := by
  refine ⟨?_, fun _ _ => rfl, fun linked _ => linked⟩
  rcases safe with unlinked | equal
  · exact index.putRow unlinked row
  · refine index.transport rfl rfl rfl rfl (Nat.le_refl _) ?_
    intro skip chain indexed other inside
    by_cases same : other = id
    · subst same
      simpa [CTable.rowAt, CTable.putRow] using equal
    · have unchanged : (table.putRow id row).rowAt other = table.rowAt other := by
        simp [CTable.rowAt, CTable.putRow, same]
      rw [unchanged]
      exact ReflCmp.compare_self

/-- A row that is not linked is not removed. -/
theorem removeFromIndexSource_unlinked {table : CTable creator} (ctl : IndexCtl)
    {field : creator.Field} {id : RowId} {ok : Unit → CTable creator → Prop}
    {err : Stop → CTable creator → Prop} (unlinked : table.links field id = none)
    (holds : ok () table)
    : wp (removeFromIndexSource ctl field id) ok err table := by
  have same : table.removeFromIndex field id = .ok table := by
    unfold CTable.removeFromIndex
    simp only [unlinked]
    cases table.skipLists field <;> rfl
  unfold removeFromIndexSource
  split
  · rw [removeFromIndex, wp_bind, wp_inspect, same]
    simpa using holds
  · exact holds

/-- Storing without index maintenance only replaces the cell, where the row is not linked or
keeps its null flag.
-/
theorem storeUnindexed_puts {table : CTable creator} (ctl : IndexCtl) {id : RowId}
    {field : creator.Field} {row : Row creator} (flagged stored : Cell (creator.type field))
    {ok : Unit → CTable creator → Prop} {err : Stop → CTable creator → Prop}
    (found : table.rows id = some row)
    (safe : table.links field id = none ∨ (row.cells field).isNull = stored.isNull)
    (holds : ok () (table.putRow id (row.setCell field stored)))
    : wp (storeUnindexed ctl id field flagged stored) ok err table := by
  have puts : ∀ middle : CTable creator,
      middle = table ∨ middle = table.putRow id (row.setCell field flagged) →
      wp (putCell field id stored) ok err middle := by
    rintro middle (rfl | rfl)
    · rw [putCell_spec found]
      exact holds
    · have there : (table.putRow id (row.setCell field flagged)).rows id =
          some (row.setCell field flagged) := by simp [CTable.putRow]
      rw [putCell_spec there]
      simpa [CTable.putRow, Row.setCell] using holds
  have continues : ∀ middle : CTable creator,
      middle = table ∨ middle = table.putRow id (row.setCell field flagged) →
      wp (if (row.cells field).isNull != stored.isNull then do
            removeFromIndexSource ctl field id
            putCell field id stored
          else putCell field id stored) ok err middle := by
    intro middle shape
    split
    · next flips =>
        rcases safe with unlinked | same
        · have free : middle.links field id = none := by
            rcases shape with rfl | rfl <;> exact unlinked
          rw [wp_bind]
          exact removeFromIndexSource_unlinked ctl free (puts middle shape)
        · simp [same] at flips
    · exact puts middle shape
  rw [storeUnindexed, wp_bind, wp_inspectRow found, wp_bind, releaseObj]
  split
  · rw [putCell_spec found]
    exact continues _ (.inr rfl)
  · exact continues _ (.inl rfl)

-----------------------------------------------------------------------------------------
-- Setter calls
-----------------------------------------------------------------------------------------

/-- A call that changes what the index of its field compares without moving the row in the
index: the setters of boolean and tclobj fields do so, and that of the key of an existing row.
-/
inductive Call.Bypasses (host : Host) (call : Call creator) : Prop where
  | key {obj row} (write : call.write = .set creator.keyField obj) (existing : call.ctl = .normal)
    (found : call.table.rows call.id = some row)
    (linked : (call.table.links creator.keyField call.id).isSome = true)
    (differs : creator.compareFunction creator.keyField { row with key := some obj } row ≠ .eq)
  | cell {field obj row flagged allocates stored} (write : call.write = .set field obj)
    (notKey : field ≠ creator.keyField) (unindexed : (creator.type field).storedUnindexed = true)
    (found : call.table.rows call.id = some row)
    (linked : (call.table.links field call.id).isSome = true)
    (assigns : cellSet creator host field (row.cells field) obj = .assign flagged allocates stored)
    (differs : (row.cells field).isNull ≠ stored.isNull
      ∨ creator.compareFunction field (row.setCell field stored) row ≠ .eq)

/-- What a setter call keeps of all indexes. -/
def CTable.IndexesKept (id : RowId) (before after : CTable creator) : Prop :=
  ∀ field, before.FieldKept field id after

/-- Marking a row as dirty keeps the indexes. -/
theorem CTable.FieldKept.dirty {before middle after : CTable creator} {field : creator.Field}
    {id : RowId} (kept : before.FieldKept field id middle)
    (frame : middle.KeyFrame id after) (sameKey : (after.rowAt id).key = (middle.rowAt id).key)
    : before.FieldKept field id after where
  index := by
    refine kept.index.keyFrame frame ?_
    rintro rfl
    exact .inr (CreatorTable.SameOn.equal ⟨fun _ => sameKey, fun notKey => absurd rfl notKey⟩)
  others := fun other different => by rw [frame.links]; exact kept.others other different
  stays := fun linked chain => by
    rw [frame.links]
    exact kept.stays linked (frame.skipLists ▸ chain)

/-- A kept index stays kept while another field is written. -/
theorem CTable.FieldKept.frame {before middle after : CTable creator}
    {field written : creator.Field} {id : RowId} (kept : before.FieldKept field id middle)
    (frame : middle.CellFrame written id after) (other : field ≠ written)
    : before.FieldKept field id after where
  index := kept.index.cellFrame frame other
  others := fun row different => by
    rw [frame.links field other]
    exact kept.others row different
  stays := fun linked chain => by
    rw [frame.links field other]
    exact kept.stays linked (frame.skipLists field other ▸ chain)

/-- Whether a row can be entered in the index of a field: it is not linked there and the
index is in order, or it is linked and entering it panics.
-/
def CTable.Enterable (table : CTable creator) (id : RowId) (field : creator.Field) : Prop :=
  (table.links field id = none ∧ table.FieldIndex field)
    ∨ ((table.links field id).isSome = true ∧ (table.skipLists field).isSome = true)

/-- The assertion of the loop that enters a row in all indexes: the fields to come can be
entered, and the others are kept.
-/
structure CTable.Entering (before : CTable creator) (id : RowId) (rest : List creator.Field)
    (table : CTable creator) : Prop where
  distinct : rest.Nodup
  listed : id ∈ table.llHead
  old : id < table.nextRow
  coming : ∀ field ∈ rest, table.Enterable id field
  others : ∀ field ∈ rest, ∀ other, other ≠ id → table.links field other = before.links field other
  done : ∀ field, field ∉ rest → before.FieldKept field id table

/-- Entering a row in the index of one field. -/
theorem CTable.Entering.step {before table : CTable creator} {id : RowId}
    {field : creator.Field} {rest : List creator.Field}
    (entering : before.Entering id (field :: rest) table)
    : wp (insertIntoIndex host field id) (fun _ => before.Entering id rest) (fun _ _ => True)
        table := by
  obtain ⟨first, distinct⟩ := List.nodup_cons.mp entering.distinct
  rcases entering.coming field (by simp) with ⟨free, index⟩ | ⟨linked, chain⟩
  · have framed := respects_insertIntoIndex host field id table
    have inserted := @insertIntoIndex_spec creator table host field id index entering.listed
      entering.old free
    refine wp_mono (wp_and inserted framed) ?_ (fun _ _ _ => trivial)
    rintro - after ⟨⟨entered, -⟩, frame⟩
    have cellFrame := frame.cellFrame id
    refine {
      distinct := distinct
      listed := frame.llHead ▸ entering.listed
      old := frame.nextRow ▸ entering.old
      coming := ?_, others := ?_, done := ?_ }
    · intro other member
      have different : other ≠ field := by
        rintro rfl
        exact first member
      rcases entering.coming other (by simp [member]) with ⟨free, index⟩ | ⟨linked, chain⟩
      · exact .inl ⟨by rw [frame.links other different]; exact free,
          index.cellFrame cellFrame different⟩
      · exact .inr ⟨by rw [frame.links other different]; exact linked,
          by rw [frame.skipLists other different]; exact chain⟩
    · intro other member row different
      have apart : other ≠ field := by
        rintro rfl
        exact first member
      rw [frame.links other apart]
      exact entering.others other (by simp [member]) row different
    · intro other absent
      by_cases same : other = field
      · subst same
        refine ⟨entered.index, ?_, fun _ chain => entered.linked chain⟩
        intro row different
        rw [entered.others row different, entering.others other (by simp) row different]
      · exact (entering.done other (by simp [same, absent])).frame cellFrame same
  · exact (insertIntoIndex_linked chain linked).mpr trivial

/-- Entering a row in all indexes keeps them, by the loop over the fields. -/
theorem enterIndexes_kept {before table : CTable creator} {id : RowId}
    (entering : before.Entering id (List.finRange creator.nFields) table)
    : wp (enterIndexes host .new id) (fun _ after => before.IndexesKept id after) (fun _ _ => True)
        table := by
  rw [enterIndexes, if_pos rfl]
  refine wp_mono (@wp_forM_rest Stop (CTable creator) _
    (fun field => insertIntoIndex host field id) (fun _ _ => True) (before.Entering id) ?_ _ _
    entering) ?_ (fun _ _ _ => trivial)
  · exact fun field rest state here => here.step
  · exact fun _ after final field => final.done field (by simp)

/-- Re-keying a row ends with entering it in the indexes, from a state with the new key. -/
theorem reinsertRow_rule {table : CTable creator} {ctl : IndexCtl} {id : RowId} {value : CString}
    {row : Row creator} {ok : Unit → CTable creator → Prop} (found : table.rows id = some row)
    (enter : ∀ rekeyed, table.KeyFrame id rekeyed →
      rekeyed.rows id = some { row with key := some value } →
      wp (enterIndexes host ctl id) ok (fun _ _ => True) rekeyed)
    : wp (reinsertRow host ctl id value) ok (fun _ _ => True) table := by
  rw [reinsertRow, wp_bind, wp_inspect]
  refine ⟨?_, fun _ _ => trivial⟩
  intro entry _
  cases entry with
  | some other => trivial
  | none =>
      have unlinked : wp (unlinkOldKey host ctl id)
          (fun _ after => ∃ keyTable allocations,
            after = { table with keyTable := keyTable, allocations := allocations })
          (fun _ _ => True) table := by
        unfold unlinkOldKey
        split
        · rw [wp_bind]
          refine wp_mono (copySharedKey_spec host table) ?_ (fun _ _ _ => trivial)
          rintro - after ⟨allocations, rfl⟩
          rw [unlinkHashEntry, wp_bind, wp_inspect]
          exact ⟨fun keyTable _ => ⟨keyTable, allocations, rfl⟩, fun _ _ => trivial⟩
        · exact ⟨table.keyTable, table.allocations, rfl⟩
      rw [wp_bind]
      refine wp_mono unlinked ?_ (fun _ _ _ => trivial)
      rintro - middle ⟨keyTable, allocations, rfl⟩
      rw [wp_bind, wp_inspect]
      refine ⟨?_, fun _ _ => trivial⟩
      intro same read
      obtain rfl : row = same := by
        have here := (CTable.row_eq read).1
        rw [show ({ table with keyTable := keyTable, allocations := allocations } :
          CTable creator).rows id = some row from found] at here
        simpa using here
      rw [wp_bind, wp_modify, wp_bind]
      have unkeyed := (keyFrame_preorder id).trans _ _ _
        (CTable.KeyFrame.hash table id keyTable allocations)
        (CTable.KeyFrame.putKey (by exact found) none)
      have there : (CTable.putRow
          { table with keyTable := keyTable, allocations := allocations } id
          { row with key := none }).rows id = some { row with key := none } := by
        simp [CTable.putRow]
      refine wp_mono (wp_and (storeHashEntry_spec _ value id _)
        (storeHashEntry_keyFrame there value)) ?_ (fun _ _ _ => trivial)
      rintro result after ⟨stored, moved⟩
      have frame := (keyFrame_preorder id).trans _ _ _ unkeyed moved
      cases stored with
      | found lookup => trivial
      | created lookup linked => exact enter _ frame (by simp [CTable.putRow])

/-- Setting the key keeps the indexes unless the index of the key field holds the old key. -/
theorem setField_key_kept {table : CTable creator} {ctl : IndexCtl} {id : RowId} {obj : Obj}
    {row : Row creator} (index : ∀ field, table.FieldIndex field) (listed : id ∈ table.llHead)
    (old : id < table.nextRow) (found : table.rows id = some row)
    (safe : ctl = .normal → table.links creator.keyField id = none
      ∨ creator.compareFunction creator.keyField { row with key := some obj } row = .eq)
    : wp (setField host ctl id creator.keyField obj) (fun _ after => table.IndexesKept id after)
        (fun _ _ => True) table := by
  have read : table.row id = .ok row := by simp [CTable.row, found]
  have rowAt : table.rowAt id = row := (CTable.row_eq read).2
  rw [setField, wp_bind, wp_inspectRow found, if_pos rfl]
  split
  · exact fun field => .refl (index field) id
  · rw [wp_bind]
    have dirtied : ∀ entered : CTable creator, table.IndexesKept id entered
        → wp (setDirty id) (fun _ after => table.IndexesKept id after) (fun _ _ => True) entered := by
      intro entered kept
      rw [setDirty, putCell, wp_bind, wp_inspect]
      refine ⟨?_, fun _ _ => trivial⟩
      intro here readHere
      have there := (CTable.row_eq readHere).1
      rw [wp_modify]
      refine fun field => (kept field).dirty (CTable.KeyFrame.setDirty there) ?_
      simp [CTable.rowAt, CTable.putRow, there]
    refine wp_mono (reinsertRow_rule found ?_) (fun _ entered kept => dirtied entered kept)
      (fun _ _ _ => trivial)
    intro rekeyed frame there
    have newKey : rekeyed.rowAt id = { row with key := some obj } := by
      simp [CTable.rowAt, there]
    cases ctl with
    | normal =>
        intro field
        refine ⟨(index field).keyFrame frame ?_, fun other _ => by rw [frame.links], ?_⟩
        · rintro rfl
          rw [newKey, rowAt]
          exact safe rfl
        · intro linked _
          rw [frame.links]
          exact linked
    | new =>
        refine enterIndexes_kept {
          distinct := List.nodup_finRange _
          listed := frame.llHead ▸ listed
          old := frame.nextRow ▸ old
          coming := ?_
          others := fun field _ other _ => by rw [frame.links]
          done := fun field absent => absurd (List.mem_finRange field) absent }
        intro field _
        by_cases free : table.links field id = none
        · refine .inl ⟨by rw [frame.links]; exact free, ?_⟩
          exact (index field).keyFrame frame (fun _ => .inl free)
        · refine .inr ⟨by rw [frame.links]; exact Option.isSome_iff_ne_none.mpr free, ?_⟩
          rw [frame.skipLists]
          by_contra absent
          exact free ((index field).unlinked (by simpa using absent) id listed)

/-- A setter of another field than the key keeps the indexes when it does not bypass the one
of its field.
-/
theorem setField_cell_kept {table : CTable creator} {ctl : IndexCtl} {id : RowId}
    {field : creator.Field} {obj : Obj} {row : Row creator}
    (index : ∀ field, table.FieldIndex field) (listed : id ∈ table.llHead)
    (old : id < table.nextRow) (found : table.rows id = some row) (notKey : field ≠ creator.keyField)
    (safe : ∀ flagged allocates stored, (creator.type field).storedUnindexed = true
      → cellSet creator host field (row.cells field) obj = .assign flagged allocates stored
      → table.links field id = none
        ∨ ((row.cells field).isNull = stored.isNull
          ∧ creator.compareFunction field (row.setCell field stored) row = .eq))
    : wp (setField host ctl id field obj) (fun _ after => table.IndexesKept id after)
        (fun _ _ => True) table := by
  have read : table.row id = .ok row := by simp [CTable.row, found]
  have rowAt : table.rowAt id = row := (CTable.row_eq read).2
  -- the fields that are not written
  have framed := respects_setField_cell host ctl id obj notKey table
  suffices written : wp (setField host ctl id field obj)
      (fun _ after => table.FieldKept field id after) (fun _ _ => True) table by
    refine wp_mono (wp_and framed written) ?_ (fun _ _ _ => trivial)
    rintro - after ⟨frame, kept⟩ other
    by_cases same : other = field
    · rw [same]
      exact kept
    · exact .cellFrame (index other) frame same
  have dirtied : ∀ stored : CTable creator, table.FieldKept field id stored
      → wp (markDirty id field) (fun _ after => table.FieldKept field id after) (fun _ _ => True)
          stored := by
    intro stored kept
    unfold markDirty
    split
    · exact kept
    · next different =>
        have marked := @respects_putCell _ creator.dirtyField _ id creator.dirtyCell
          (.inl rfl) stored
        exact wp_mono marked (fun _ _ frame => kept.frame frame different) (fun _ _ _ => trivial)
  rw [setField, wp_bind, wp_inspectRow found, if_neg notKey]
  split
  · trivial
  · exact .refl (index field) id
  · trivial
  · next flagged allocates stored assigns =>
      rw [wp_bind]
      refine wp_mono ?_ (fun _ stored kept => dirtied stored kept) (fun _ _ stop => stop)
      unfold storeCell
      split
      · next unindexed =>
          have kept := safe flagged allocates stored unindexed assigns
          refine storeUnindexed_puts ctl flagged stored found (kept.imp_right And.left) ?_
          exact .putRow (index field) (by rw [rowAt]; exact kept.imp_right And.right)
      · exact storeIndexed_kept ctl flagged allocates stored (index field) listed old found

end SpeedTables
