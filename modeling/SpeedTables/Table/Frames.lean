import SpeedTables.Table.Faults
import SpeedTables.Table.IndexInvariant
import SpeedTables.Table.Outcomes
import SpeedTables.Table.Setters

/-! What the setters leave alone, however they end. -/

namespace SpeedTables

open Lib

variable {creator : CreatorTable}

-----------------------------------------------------------------------------------------
-- Index operations change one index
-----------------------------------------------------------------------------------------

instance indexFrame_preorder (field : creator.Field)
    : IsPreorder (CTable creator) (CTable.IndexFrame field) where
  refl := CTable.IndexFrame.refl field
  trans := by
    intro first second third before after
    constructor
    case nextNode => exact before.nextNode.trans after.nextNode
    case skipLists | links | lastNext =>
      intro other different
      simp only [after.skipLists other different, before.skipLists other different,
        after.links other different, before.links other different,
        after.lastNext other different, before.lastNext other different]
    all_goals
      simp only [after.rows, before.rows, after.nextRow, before.nextRow, after.llHead,
        before.llHead, after.keyTable, before.keyTable, after.exists', before.exists',
        after.count, before.count, after.autoRowNumber, before.autoRowNumber,
        after.sharedMaster, before.sharedMaster, after.sharePanic, before.sharePanic,
        after.searches, before.searches, after.cursors, before.cursors, after.destroyed,
        before.destroyed]

/-- A removal that ends changes the index of its field only. -/
theorem CTable.removeFromIndex_frame {table after : CTable creator} {field : creator.Field}
    {id : RowId} (removed : table.removeFromIndex field id = .ok after)
    : table.IndexFrame field after := by
  unfold CTable.removeFromIndex at removed
  split at removed
  · next skip node chain link =>
      split at removed
      · cases removed
      · next row found =>
          dsimp only at removed
          split at removed
          · split at removed
            · cases removed
            · cases removed
              constructor <;>
                simp +contextual [CTable.unlinkRow, CTable.setSkipList, CTable.setLink, chain]
          · cases removed
            constructor <;>
              simp +contextual [CTable.unlinkRow, CTable.setSkipList, CTable.setLink, chain]
  · cases removed
    exact .refl field table

/-- An insertion that ends changes the index of its field only. -/
theorem CTable.sinsertLinked_frame {table after : CTable creator} {host : Host}
    {field : creator.Field} {skip : SkipList RowId} {id : RowId} {row : Row creator}
    (chain : table.skipLists field = some skip)
    (inserted : table.sinsertLinked host field skip id row = .ok (some after))
    : table.IndexFrame field after := by
  have grown : ∀ rest, table.insertNode host field skip rest id = .ok (some after)
      → table.IndexFrame field after := by
    intro rest linked
    unfold CTable.insertNode at linked
    split at linked
    · cases linked
    · cases linked
      constructor <;>
        simp +contextual [CTable.linkNode, CTable.setSkipList, CTable.setLink, chain]
  unfold CTable.sinsertLinked at inserted
  split at inserted
  · cases inserted
  · exact grown _ inserted
  · split at inserted
    · cases inserted
    · split at inserted
      · cases inserted
      · cases inserted
        constructor <;> simp +contextual [CTable.setSkipList, CTable.setLink, chain]
    · exact grown _ inserted

theorem respects_removeFromIndex (field : creator.Field) (id : RowId)
    : Respects (CTable.IndexFrame field) (removeFromIndex field id) := by
  intro table
  rw [removeFromIndex, wp_bind, wp_inspect]
  exact ⟨fun _ removed => CTable.removeFromIndex_frame removed, fun _ _ => .refl field table⟩

theorem respects_insertIntoIndex (host : Host) (field : creator.Field) (id : RowId)
    : Respects (CTable.IndexFrame field) (insertIntoIndex host field id) := by
  intro table
  rw [insertIntoIndex, wp_bind, wp_get]
  split
  · exact .refl field table
  · next skip chain =>
      split
      · exact .refl field table
      · rw [wp_bind, wp_inspect]
        refine ⟨?_, fun _ _ => .refl field table⟩
        intro row _
        rw [wp_bind, wp_inspect]
        refine ⟨?_, fun _ _ => .refl field table⟩
        intro inserted result
        cases inserted with
        | some after => exact CTable.sinsertLinked_frame chain result
        | none => exact .refl field table

-----------------------------------------------------------------------------------------
-- Setters change one row
-----------------------------------------------------------------------------------------

/-- No row but one has changed, the row is still there, and the list of rows is as it was. -/
structure CTable.RowFrame (id : RowId) (before after : CTable creator) : Prop where
  rows : ∀ other, other ≠ id → after.rows other = before.rows other
  alive : (after.rows id).isSome = (before.rows id).isSome
  nextRow : after.nextRow = before.nextRow
  llHead : after.llHead = before.llHead
  nextNode : before.nextNode ≤ after.nextNode
  exists' : ∀ field, (after.skipLists field).isSome = (before.skipLists field).isSome
  count : after.count = before.count
  autoRowNumber : after.autoRowNumber = before.autoRowNumber
  sharedMaster : after.sharedMaster = before.sharedMaster
  sharePanic : after.sharePanic = before.sharePanic
  searches : after.searches = before.searches
  cursors : after.cursors = before.cursors
  destroyed : after.destroyed = before.destroyed

/-- Of the row only one field and its dirty flag have changed, and of the indexes only that
of the field.
-/
structure CTable.CellFrame (field : creator.Field) (id : RowId) (before after : CTable creator)
    : Prop extends CTable.RowFrame id before after where
  keyTable : after.keyTable = before.keyTable
  key : (after.rowAt id).key = (before.rowAt id).key
  cells : ∀ other, other ≠ field → other ≠ creator.dirtyField →
    (after.rowAt id).cells other = (before.rowAt id).cells other
  skipLists : ∀ other, other ≠ field → after.skipLists other = before.skipLists other
  links : ∀ other, other ≠ field → after.links other = before.links other
  lastNext : ∀ other, other ≠ field → after.lastNext other = before.lastNext other

instance rowFrame_preorder (id : RowId)
    : IsPreorder (CTable creator) (CTable.RowFrame id) where
  refl := by
    intro table
    constructor <;> simp
  trans := by
    intro first second third before after
    constructor
    case nextNode => exact before.nextNode.trans after.nextNode
    case rows =>
      intro other different
      rw [after.rows other different, before.rows other different]
    case exists' =>
      intro field
      rw [after.exists' field, before.exists' field]
    all_goals
      simp only [after.alive, before.alive, after.nextRow, before.nextRow, after.llHead,
        before.llHead, after.count, before.count, after.autoRowNumber, before.autoRowNumber,
        after.sharedMaster, before.sharedMaster, after.sharePanic, before.sharePanic,
        after.searches, before.searches, after.cursors, before.cursors, after.destroyed,
        before.destroyed]

instance cellFrame_preorder (field : creator.Field) (id : RowId)
    : IsPreorder (CTable creator) (CTable.CellFrame field id) where
  refl := by
    intro table
    exact { (rowFrame_preorder id).refl table with
      keyTable := rfl
      key := rfl
      cells := fun _ _ _ => rfl
      skipLists := fun _ _ => rfl
      links := fun _ _ => rfl
      lastNext := fun _ _ => rfl }
  trans := by
    intro first second third before after
    exact { (rowFrame_preorder id).trans _ _ _ before.toRowFrame after.toRowFrame with
      keyTable := after.keyTable.trans before.keyTable
      key := after.key.trans before.key
      cells := fun other different clean =>
        (after.cells other different clean).trans (before.cells other different clean)
      skipLists := fun other different =>
        (after.skipLists other different).trans (before.skipLists other different)
      links := fun other different =>
        (after.links other different).trans (before.links other different)
      lastNext := fun other different =>
        (after.lastNext other different).trans (before.lastNext other different) }

/-- Index operations change no row. -/
theorem CTable.IndexFrame.cellFrame {field : creator.Field} {before after : CTable creator}
    (frame : before.IndexFrame field after) (id : RowId)
    : before.CellFrame field id after where
  rows := fun other _ => by rw [frame.rows]
  alive := by rw [frame.rows]
  nextRow := frame.nextRow
  llHead := frame.llHead
  nextNode := frame.nextNode
  exists' := by
    intro other
    by_cases same : other = field
    · rw [same]
      exact frame.exists'
    · rw [frame.skipLists other same]
  count := frame.count
  autoRowNumber := frame.autoRowNumber
  sharedMaster := frame.sharedMaster
  sharePanic := frame.sharePanic
  searches := frame.searches
  cursors := frame.cursors
  destroyed := frame.destroyed
  keyTable := frame.keyTable
  key := by simp [CTable.rowAt, frame.rows]
  cells := by simp [CTable.rowAt, frame.rows]
  skipLists := frame.skipLists
  links := frame.links
  lastNext := frame.lastNext

/-- Counting an allocation changes no row and no index. -/
theorem CTable.CellFrame.allocated (table : CTable creator) (field : creator.Field) (id : RowId)
    (allocations : Nat)
    : table.CellFrame field id { table with allocations := allocations } := by
  refine { (cellFrame_preorder field id).refl table with .. }

/-- Storing a cell changes that field of the row. -/
theorem CTable.CellFrame.putCell {table : CTable creator} {id : RowId} {row : Row creator}
    (found : table.rows id = some row) {field : creator.Field} {written : creator.Field}
    (cell : Cell (creator.type written)) (covered : written = field ∨ written = creator.dirtyField)
    : table.CellFrame field id (table.putRow id (row.setCell written cell)) := by
  refine { (cellFrame_preorder field id).refl table with
    rows := ?_, alive := ?_, key := ?_, cells := ?_ }
  · intro other different
    simp [CTable.putRow, different]
  · simp [CTable.putRow, found]
  · simp [CTable.rowAt, CTable.putRow, found]
  · intro other different clean
    have apart : other ≠ written := by
      rcases covered with rfl | rfl
      · exact different
      · exact clean
    simp [CTable.rowAt, CTable.putRow, found, Row.setCell_cells_of_ne _ _ apart]

theorem respects_putCell {field written : creator.Field} (id : RowId)
    (cell : Cell (creator.type written)) (covered : written = field ∨ written = creator.dirtyField)
    : Respects (CTable.CellFrame field id) (putCell written id cell) := by
  intro table
  rw [putCell, wp_bind, wp_inspect]
  refine ⟨?_, fun _ _ => (cellFrame_preorder field id).refl table⟩
  intro row found
  exact CTable.CellFrame.putCell (CTable.row_eq found).1 cell covered

theorem respects_removeFromIndexSource (ctl : IndexCtl) (field : creator.Field) (id : RowId)
    : Respects (CTable.CellFrame field id) (removeFromIndexSource ctl field id) :=
  Respects.ite ((respects_removeFromIndex field id).mono (fun frame => frame.cellFrame id))
    Respects.pure

theorem respects_allocateMayFail (host : Host) (field : creator.Field) (id : RowId)
    (allocates : Bool)
    : Respects (CTable.CellFrame field id) (allocateMayFail host field allocates) := by
  intro table
  rw [allocateMayFail, wp_bind, wp_get]
  have counted := CTable.CellFrame.allocated table field id (table.allocations + 1)
  split
  · rw [wp_bind, wp_shmalloc]
    split
    · exact counted
    · split <;> exact counted
  · exact (cellFrame_preorder field id).refl table

theorem respects_storeIndexed (host : Host) (ctl : IndexCtl) (id : RowId) (field : creator.Field)
    (flagged : Cell (creator.type field)) (allocates : Bool) (stored : Cell (creator.type field))
    : Respects (CTable.CellFrame field id)
        (storeIndexed host ctl id field flagged allocates stored) := by
  refine (respects_removeFromIndexSource ctl field id).bind fun _ => ?_
  refine (respects_putCell id flagged (.inl rfl)).bind fun _ => ?_
  refine (respects_allocateMayFail host field id allocates).bind fun _ => ?_
  refine (respects_putCell id stored (.inl rfl)).bind fun _ => ?_
  exact (respects_insertIntoIndex host field id).mono (fun frame => frame.cellFrame id)

theorem respects_storeUnindexed (ctl : IndexCtl) (id : RowId) (field : creator.Field)
    (flagged stored : Cell (creator.type field))
    : Respects (CTable.CellFrame field id) (storeUnindexed ctl id field flagged stored) := by
  refine (respects_inspect _).bind fun row => ?_
  refine Respects.bind ?_ fun _ => Respects.ite ?_ (respects_putCell id stored (.inl rfl))
  · exact Respects.ite (respects_putCell id flagged (.inl rfl)) Respects.pure
  · exact (respects_removeFromIndexSource ctl field id).bind
      fun _ => respects_putCell id stored (.inl rfl)

theorem respects_markDirty (id : RowId) (field : creator.Field)
    : Respects (CTable.CellFrame field id) (markDirty id field) :=
  Respects.ite Respects.pure (respects_putCell id _ (.inr rfl))

/-- Setting a field other than the key changes that field of the row, its dirty flag and
the field's index, by the steps of the setters.
-/
theorem respects_setField_cell (host : Host) (ctl : IndexCtl) (id : RowId)
    {field : creator.Field} (obj : Obj) (notKey : field ≠ creator.keyField)
    : Respects (CTable.CellFrame field id) (setField host ctl id field obj) := by
  refine (respects_inspect _).bind fun row => ?_
  rw [if_neg notKey]
  split
  · exact Respects.throw
  · exact Respects.pure
  · exact Respects.throw
  · next flagged allocates stored _ =>
      refine Respects.bind ?_ fun _ => respects_markDirty id field
      exact Respects.ite (respects_storeUnindexed ctl id field flagged stored)
        (respects_storeIndexed host ctl id field flagged allocates stored)

theorem respects_incrField (host : Host) (ctl : IndexCtl) (id : RowId) (field : creator.Field)
    (obj : Obj)
    : Respects (CTable.CellFrame field id) (incrField host ctl id field obj) := by
  unfold incrField
  dsimp only
  split
  · exact Respects.throw
  · split
    · exact Respects.throw
    · exact (respects_inspect _).bind fun row => respects_storeIndexed host ctl id field _ _ _

theorem respects_setNull (host : Host) (id : RowId) (field : creator.Field)
    : Respects (CTable.CellFrame field id) (setNull host id field) := by
  refine (respects_inspect _).bind fun row => ?_
  exact Respects.ite Respects.throw
    (Respects.ite Respects.pure (respects_storeIndexed host .normal id field _ _ _))

-----------------------------------------------------------------------------------------
-- Setting the key
-----------------------------------------------------------------------------------------

/-- Of the row only the key and the dirty flag have changed, and no index has. -/
structure CTable.KeyFrame (id : RowId) (before after : CTable creator)
    : Prop extends CTable.RowFrame id before after where
  cells : ∀ other, other ≠ creator.dirtyField →
    (after.rowAt id).cells other = (before.rowAt id).cells other
  skipLists : after.skipLists = before.skipLists
  links : after.links = before.links
  lastNext : after.lastNext = before.lastNext

instance keyFrame_preorder (id : RowId)
    : IsPreorder (CTable creator) (CTable.KeyFrame id) where
  refl := by
    intro table
    exact { (rowFrame_preorder id).refl table with
      cells := fun _ _ => rfl
      skipLists := rfl
      links := rfl
      lastNext := rfl }
  trans := by
    intro first second third before after
    exact { (rowFrame_preorder id).trans _ _ _ before.toRowFrame after.toRowFrame with
      cells := fun other clean => (after.cells other clean).trans (before.cells other clean)
      skipLists := after.skipLists.trans before.skipLists
      links := after.links.trans before.links
      lastNext := after.lastNext.trans before.lastNext }

/-- Changing the hash table alone keeps rows and indexes. -/
theorem CTable.KeyFrame.hash (table : CTable creator) (id : RowId) (keyTable : HashTable)
    (allocations : Nat)
    : table.KeyFrame id { table with keyTable := keyTable, allocations := allocations } := by
  refine { (keyFrame_preorder id).refl table with .. }

/-- Changing the key of a row keeps its cells. -/
theorem CTable.KeyFrame.putKey {table : CTable creator} {id : RowId} {row : Row creator}
    (found : table.rows id = some row) (key : Option CString)
    : table.KeyFrame id (table.putRow id { row with key := key }) := by
  refine { (keyFrame_preorder id).refl table with rows := ?_, alive := ?_, cells := ?_ }
  · intro other different
    simp [CTable.putRow, different]
  · simp [CTable.putRow, found]
  · intro other clean
    simp [CTable.rowAt, CTable.putRow, found]

/-- Changing the dirty flag of a row keeps its other cells and the key. -/
theorem CTable.KeyFrame.setDirty {table : CTable creator} {id : RowId} {row : Row creator}
    (found : table.rows id = some row)
    : table.KeyFrame id (table.putRow id (row.setCell creator.dirtyField creator.dirtyCell)) := by
  refine { (keyFrame_preorder id).refl table with rows := ?_, alive := ?_, cells := ?_ }
  · intro other different
    simp [CTable.putRow, different]
  · simp [CTable.putRow, found]
  · intro other clean
    simp [CTable.rowAt, CTable.putRow, found, Row.setCell_cells_of_ne _ _ clean]

theorem respects_setDirty (id : RowId) : Respects (CTable.KeyFrame id) (setDirty id : TableM creator Unit) := by
  intro table
  rw [setDirty, putCell, wp_bind, wp_inspect]
  refine ⟨?_, fun _ _ => (keyFrame_preorder id).refl table⟩
  intro row found
  exact CTable.KeyFrame.setDirty (CTable.row_eq found).1

theorem respects_unlinkHashEntry (id entry : RowId)
    : Respects (CTable.KeyFrame id) (unlinkHashEntry entry : TableM creator Unit) := by
  intro table
  rw [unlinkHashEntry, wp_bind, wp_inspect]
  exact ⟨fun keyTable _ => CTable.KeyFrame.hash table id keyTable table.allocations,
    fun _ _ => (keyFrame_preorder id).refl table⟩

theorem respects_copySharedKey (host : Host) (id : RowId)
    : Respects (@CTable.KeyFrame creator id) (copySharedKey host) := by
  intro table
  rw [copySharedKey, wp_bind, wp_get]
  have counted := CTable.KeyFrame.hash table id table.keyTable (table.allocations + 1)
  split
  · rw [wp_bind, wp_shmalloc]
    split
    · exact counted
    · split <;> exact counted
  · exact (keyFrame_preorder id).refl table

theorem respects_unlinkOldKey (host : Host) (ctl : IndexCtl) (id : RowId)
    : Respects (@CTable.KeyFrame creator id) (unlinkOldKey host ctl id) :=
  Respects.ite ((respects_copySharedKey host id).bind fun _ => respects_unlinkHashEntry id id)
    Respects.pure

/-- What storing a hash entry leaves: a key that is there already changes nothing, and a new
one is stored in the row provided and linked.
-/
inductive CTable.EntryStored (table : CTable creator) (key : CString) (id : RowId)
    (fresh : Row creator) : RowId × Bool → CTable creator → Prop
  | found {other} (lookup : table.findHashEntry key = .ok (some other))
    : EntryStored table key id fresh (other, false) table
  | created {keyTable} (lookup : table.findHashEntry key = .ok none)
    (linked : (table.putRow id { fresh with key := some key }).linkHashEntry key id = .ok keyTable)
    : EntryStored table key id fresh (id, true)
        { table.putRow id { fresh with key := some key } with keyTable := keyTable }

/-- Storing a hash entry stops with a fault only, before or after the key is stored. -/
theorem storeHashEntry_spec (table : CTable creator) (key : CString) (id : RowId)
    (fresh : Row creator)
    : wp (storeHashEntry key id fresh) (table.EntryStored key id fresh)
        (fun stop after => (∃ fault, stop = .fault fault ∧ fault.NotDouble)
          ∧ (after = table ∨ after = table.putRow id { fresh with key := some key })) table := by
  rw [storeHashEntry, wp_bind, wp_inspect]
  refine ⟨?_, fun fault stops => ⟨⟨fault, rfl, CTable.findHashEntry_fault stops⟩, .inl rfl⟩⟩
  intro entry lookup
  cases entry with
  | some other => exact .found lookup
  | none =>
      rw [wp_bind, wp_modify, wp_bind, wp_inspect]
      refine ⟨fun keyTable linked => .created lookup linked, ?_⟩
      exact fun fault stops => ⟨⟨fault, rfl, CTable.linkHashEntry_fault stops⟩, .inr rfl⟩

/-- Linking an existing row under a key changes its key only. -/
theorem storeHashEntry_keyFrame {table : CTable creator} {id : RowId} {row : Row creator}
    (found : table.rows id = some row) (key : CString)
    : wp (storeHashEntry key id { row with key := none }) (fun _ => table.KeyFrame id)
        (fun _ => table.KeyFrame id) table := by
  have put := CTable.KeyFrame.putKey found (some key)
  refine wp_mono (storeHashEntry_spec table key id { row with key := none }) ?_ ?_
  · intro result after stored
    cases stored with
    | found lookup => exact (keyFrame_preorder id).refl table
    | created lookup linked =>
        exact (keyFrame_preorder id).trans _ _ _ put
          (CTable.KeyFrame.hash (table.putRow id { row with key := some key }) id _ _)
  · rintro stop after ⟨-, rfl | rfl⟩
    · exact (keyFrame_preorder id).refl after
    · exact put

/-- Relinking a row under a new key changes its key, and the indexes only for a new row. -/
theorem reinsertRow_frame (host : Host) (ctl : IndexCtl) (id : RowId) (value : CString)
    {related : CTable creator → CTable creator → Prop} [IsPreorder (CTable creator) related]
    (weaker : ∀ {before after}, CTable.KeyFrame id before after → related before after)
    (entering : Respects related (enterIndexes host ctl id : TableM creator Unit))
    : Respects related (reinsertRow host ctl id value : TableM creator Unit) := by
  refine (respects_inspect _).bind fun entry => ?_
  cases entry with
  | some other => exact Respects.throw
  | none =>
      refine ((respects_unlinkOldKey host ctl id).mono weaker).bind fun _ => ?_
      intro table
      rw [wp_bind, wp_inspect]
      refine ⟨?_, fun _ _ => (IsPreorder.toRefl : Std.Refl related).refl table⟩
      intro row found
      rw [wp_bind, wp_modify, wp_bind]
      have unkeyed := CTable.KeyFrame.putKey (CTable.row_eq found).1 none
      have there : (table.putRow id { row with key := none }).rows id =
          some { row with key := none } := by
        simp [CTable.putRow]
      refine wp_mono (storeHashEntry_keyFrame there value) ?_ ?_
      · intro result next stored
        have moved := weaker ((keyFrame_preorder id).trans _ _ _ unkeyed stored)
        dsimp only
        split
        · exact wp_mono (entering next)
            (fun _ _ after => IsTrans.trans _ _ _ moved after)
            (fun _ _ after => IsTrans.trans _ _ _ moved after)
        · exact moved
      · intro stop next stored
        exact weaker ((keyFrame_preorder id).trans _ _ _ unkeyed stored)

end SpeedTables
