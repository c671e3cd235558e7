import SpeedTables.Table.Frames

/-! The setters and the index of the field they write. -/

namespace SpeedTables

open Lib Std

variable {creator : CreatorTable}

-----------------------------------------------------------------------------------------
-- Changes that keep an index
-----------------------------------------------------------------------------------------

/-- A row of the table stands in the chain of an index exactly when it is linked. -/
theorem CTable.IndexWf.mem_entries_iff {table : CTable creator} {field : creator.Field}
    {skip : SkipList RowId} (wf : table.IndexWf field skip) {id : RowId}
    (listed : id ∈ table.llHead)
    : id ∈ entries skip.nodes ↔ (table.links field id).isSome = true := by
  rw [mem_entries, Option.isSome_iff_exists]
  constructor
  · rintro ⟨n, member, inside⟩
    exact ⟨n.id, (wf.links id listed n.id).mpr ⟨n, member, rfl, inside⟩⟩
  · rintro ⟨number, link⟩
    obtain ⟨n, member, -, inside⟩ := (wf.links id listed number).mp link
    exact ⟨n, member, inside⟩

/-- A row that is not linked stands nowhere in the chain. -/
theorem CTable.IndexWf.notMem_of_unlinked {table : CTable creator} {field : creator.Field}
    {skip : SkipList RowId} (wf : table.IndexWf field skip) {id : RowId}
    (unlinked : table.links field id = none)
    : id ∉ entries skip.nodes := by
  intro inside
  have linked := (wf.mem_entries_iff (wf.members id inside)).mp inside
  simp [unlinked] at linked

/-- An index stays in order when its rows are still equal to what they were. -/
theorem CTable.FieldIndex.transport {before after : CTable creator} {field : creator.Field}
    (index : before.FieldIndex field)
    (skipLists : after.skipLists field = before.skipLists field)
    (links : after.links field = before.links field)
    (llHead : after.llHead = before.llHead) (nextRow : after.nextRow = before.nextRow)
    (nextNode : before.nextNode ≤ after.nextNode)
    (alike : ∀ skip, before.skipLists field = some skip → (creator.fields field).indexed = true →
      ∀ id ∈ entries skip.nodes,
        creator.compareFunction field (after.rowAt id) (before.rowAt id) = .eq)
    : after.FieldIndex field := by
  constructor
  · intro skip chain
    rw [skipLists] at chain
    obtain ⟨indexed, wf⟩ := index.wf skip chain
    refine ⟨indexed, { wf with ordered := ?_, members := ?_, links := ?_, fresh := ?_ }⟩
    · refine wf.ordered.congr ?_
      intro a left b right
      rw [TransCmp.congr_left (alike skip chain indexed a left),
        TransCmp.congr_right (alike skip chain indexed b right)]
    · rw [llHead]
      exact wf.members
    · rw [llHead, links]
      exact wf.links
    · intro n member
      exact Nat.lt_of_lt_of_le (wf.fresh n member) nextNode
  · rw [skipLists, llHead, links]
    exact index.unlinked
  · rw [nextRow, links]
    exact index.unused

/-- Changing a row that is not linked keeps the index. -/
theorem CTable.FieldIndex.putRow {table : CTable creator} {field : creator.Field} {id : RowId}
    (index : table.FieldIndex field) (unlinked : table.links field id = none) (row : Row creator)
    : (table.putRow id row).FieldIndex field := by
  refine index.transport rfl rfl rfl rfl (Nat.le_refl _) ?_
  intro skip chain indexed other inside
  obtain ⟨-, wf⟩ := index.wf skip chain
  have different : other ≠ id := by
    rintro rfl
    exact wf.notMem_of_unlinked unlinked inside
  have same : (table.putRow id row).rowAt other = table.rowAt other := by
    simp [CTable.rowAt, CTable.putRow, different]
  rw [same]
  exact ReflCmp.compare_self

/-- A setter of another field keeps the index. -/
theorem CTable.FieldIndex.cellFrame {before after : CTable creator} {field written : creator.Field}
    {id : RowId} (index : before.FieldIndex field) (frame : before.CellFrame written id after)
    (other : field ≠ written)
    : after.FieldIndex field := by
  refine index.transport (frame.skipLists field other) (frame.links field other) frame.llHead
    frame.nextRow frame.nextNode ?_
  intro skip chain indexed row inside
  by_cases same : row = id
  · subst same
    have clean : field ≠ creator.dirtyField := by
      rintro rfl
      simp [creator.dirtyField_unindexed] at indexed
    exact CreatorTable.SameOn.equal ⟨fun _ => frame.key, fun _ => frame.cells field other clean⟩
  · have unchanged : after.rowAt row = before.rowAt row := by
      simp [CTable.rowAt, frame.rows row same]
    rw [unchanged]
    exact ReflCmp.compare_self

/-- Setting the key of a row keeps the indexes that do not hold it by its key, or hold an
equal key.
-/
theorem CTable.FieldIndex.keyFrame {before after : CTable creator} {field : creator.Field}
    {id : RowId} (index : before.FieldIndex field) (frame : before.KeyFrame id after)
    (free : field = creator.keyField → before.links field id = none
      ∨ creator.compareFunction field (after.rowAt id) (before.rowAt id) = .eq)
    : after.FieldIndex field := by
  refine index.transport (by rw [frame.skipLists]) (by rw [frame.links]) frame.llHead
    frame.nextRow frame.nextNode ?_
  intro skip chain indexed row inside
  by_cases same : row = id
  · subst same
    have clean : field ≠ creator.dirtyField := by
      rintro rfl
      simp [creator.dirtyField_unindexed] at indexed
    by_cases isKey : field = creator.keyField
    · rcases free isKey with unlinked | equal
      · exact absurd inside ((index.wf skip chain).2.notMem_of_unlinked unlinked)
      · exact equal
    · exact CreatorTable.SameOn.equal
        ⟨fun here => absurd here isKey, fun _ => frame.cells field clean⟩
  · have unchanged : after.rowAt row = before.rowAt row := by
      simp [CTable.rowAt, frame.rows row same]
    rw [unchanged]
    exact ReflCmp.compare_self

-----------------------------------------------------------------------------------------
-- Uniqueness
-----------------------------------------------------------------------------------------

/-- Another row in the unique index of a field equals a row on that field. -/
def CTable.Clashes (table : CTable creator) (field : creator.Field) (id : RowId)
    (row : Row creator) : Prop :=
  (creator.fields field).unique = true
    ∧ (table.skipLists field).isSome = true
    ∧ ∃ other ∈ table.llHead, other ≠ id ∧ (table.links field other).isSome = true
        ∧ creator.compareFunction field row (table.rowAt other) = .eq

/-- Clashes depend on the other rows of the index only. -/
theorem CTable.Clashes.congr {table after : CTable creator} {field : creator.Field} {id : RowId}
    {row : Row creator}
    (rows : ∀ other, other ≠ id → after.rows other = table.rows other)
    (llHead : after.llHead = table.llHead)
    (chain : (after.skipLists field).isSome = (table.skipLists field).isSome)
    (links : ∀ other, other ≠ id → after.links field other = table.links field other)
    : after.Clashes field id row ↔ table.Clashes field id row := by
  have same : ∀ other, other ≠ id →
      ((after.links field other).isSome = true
        ∧ creator.compareFunction field row (after.rowAt other) = .eq ↔
      (table.links field other).isSome = true
        ∧ creator.compareFunction field row (table.rowAt other) = .eq) := by
    intro other different
    simp [CTable.rowAt, rows other different, links other different]
  unfold CTable.Clashes
  rw [llHead, chain]
  refine and_congr_right fun _ => and_congr_right fun _ => exists_congr fun other =>
    and_congr_right fun _ => and_congr_right fun different => same other different

-----------------------------------------------------------------------------------------
-- Removal and insertion as operations
-----------------------------------------------------------------------------------------

/-- Removal does not allocate. -/
theorem CTable.removeFromIndex_allocations {table after : CTable creator} {field : creator.Field}
    {id : RowId} (removed : table.removeFromIndex field id = .ok after)
    : after.allocations = table.allocations := by
  unfold CTable.removeFromIndex at removed
  split at removed
  · split at removed
    · cases removed
    · dsimp only at removed
      split at removed
      · split at removed
        · cases removed
        · cases removed
          rfl
      · cases removed
        rfl
  · cases removed
    rfl

/-- Removal before a write leaves the row unlinked: it is taken out of the index, or it was
not linked before.
-/
theorem removeFromIndexSource_spec {table : CTable creator} {field : creator.Field} {id : RowId}
    (ctl : IndexCtl) (index : table.FieldIndex field) (listed : id ∈ table.llHead)
    (old : id < table.nextRow) (free : ctl = .new → table.links field id = none)
    : wp (removeFromIndexSource ctl field id)
        (fun _ after => table.TakenOut field id after ∧ after.allocations = table.allocations)
        (stopped (fun _ => False) Fault.NotDouble)
        table := by
  cases ctl with
  | normal =>
      rw [removeFromIndexSource, if_pos rfl, removeFromIndex, wp_bind, wp_inspect]
      refine ⟨fun after removed => ?_, fun fault stops => CTable.removeFromIndex_fault stops⟩
      exact ⟨CTable.removeFromIndex_spec index listed old removed,
        CTable.removeFromIndex_allocations removed⟩
  | new =>
      rw [removeFromIndexSource, if_neg (by simp)]
      exact ⟨⟨index, .refl field table, free rfl, fun _ _ => rfl⟩, rfl⟩

/-- What an insertion into the index of a field leaves. -/
structure CTable.Entered (field : creator.Field) (id : RowId) (before after : CTable creator)
    : Prop where
  index : after.FieldIndex field
  frame : before.IndexFrame field after
  linked : (after.skipLists field).isSome = true → (after.links field id).isSome = true
  others : ∀ other, other ≠ id → after.links field other = before.links field other

/-- Inserting a row that is not linked enters it, or stops because a unique index has an
equal row.
-/
theorem insertIntoIndex_spec {table : CTable creator} {host : Host} {field : creator.Field}
    {id : RowId} (index : table.FieldIndex field) (listed : id ∈ table.llHead)
    (old : id < table.nextRow) (free : table.links field id = none)
    : wp (insertIntoIndex host field id)
        (fun _ after =>
          table.Entered field id after ∧ ¬ table.Clashes field id (table.rowAt id))
        (fun stop after =>
          stopped (fun after => after = table ∧ table.Clashes field id (table.rowAt id))
            Fault.NotDouble stop after)
        table := by
  rw [insertIntoIndex, wp_bind, wp_get]
  split
  · next chain =>
      refine ⟨⟨index, .refl field table, ?_, fun _ _ => rfl⟩, ?_⟩
      · simp [chain]
      · simp [CTable.Clashes, chain]
  · next skip chain =>
      obtain ⟨-, wf⟩ := index.wf skip chain
      have clash : (∃ other ∈ entries skip.nodes,
            creator.compareFunction field (table.rowAt id) (table.rowAt other) = .eq) ↔
          ∃ other ∈ table.llHead, other ≠ id ∧ (table.links field other).isSome = true
            ∧ creator.compareFunction field (table.rowAt id) (table.rowAt other) = .eq := by
        constructor
        · rintro ⟨other, inside, equal⟩
          refine ⟨other, wf.members other inside, ?_, ?_, equal⟩
          · rintro rfl
            exact wf.notMem_of_unlinked free inside
          · exact (wf.mem_entries_iff (wf.members other inside)).mp inside
        · rintro ⟨other, inTable, -, linked, equal⟩
          exact ⟨other, (wf.mem_entries_iff inTable).mpr linked, equal⟩
      rw [if_neg (by simp [free]), wp_bind, wp_inspect]
      refine ⟨?_, fun fault stops => CTable.row_fault stops⟩
      intro row found
      rw [wp_bind, wp_inspect, ← (CTable.row_eq found).2]
      refine ⟨?_, fun fault stops => CTable.sinsertLinked_fault stops⟩
      intro inserted result
      have spec := CTable.sinsertLinked_spec index chain listed old free result
      cases inserted with
      | some after =>
          obtain ⟨putIn, unequal⟩ := spec
          refine ⟨⟨putIn.index, putIn.frame, fun _ => putIn.linked, putIn.others⟩, ?_⟩
          rintro ⟨one, -, equal⟩
          obtain ⟨other, inside, same⟩ := clash.mpr equal
          exact unequal one other inside same
      | none =>
          exact ⟨rfl, spec.1, by simp [chain], clash.mp spec.2⟩

/-- Inserting a row that is linked already is the panic. -/
theorem insertIntoIndex_linked {table : CTable creator} {host : Host} {field : creator.Field}
    {id : RowId} {ok : Unit → CTable creator → Prop} {err : Stop → CTable creator → Prop}
    (chain : (table.skipLists field).isSome = true)
    (linked : (table.links field id).isSome = true)
    : wp (insertIntoIndex host field id) ok err table ↔
        err (.fault (.doubleInsert (creator.fields field).name)) table := by
  obtain ⟨skip, found⟩ := Option.isSome_iff_exists.mp chain
  rw [insertIntoIndex, wp_bind, wp_get]
  simp only [found, linked, if_true, wp_crash]

-----------------------------------------------------------------------------------------
-- Storing a cell
-----------------------------------------------------------------------------------------

/-- The space for a varstring cannot be allocated. -/
def CTable.AllocationFails (table : CTable creator) (host : Host) (allocates : Bool) : Prop :=
  allocates = true ∧ table.sharedMaster = true ∧ host.shmalloc table.allocations = false

/-- Storing in a row that is there replaces its cell. -/
theorem putCell_spec {table : CTable creator} {id : RowId} {row : Row creator}
    {field : creator.Field} {cell : Cell (creator.type field)}
    {ok : Unit → CTable creator → Prop} {err : Stop → CTable creator → Prop}
    (found : table.rows id = some row)
    : wp (putCell field id cell) ok err table ↔ ok () (table.putRow id (row.setCell field cell)) := by
  rw [putCell, wp_bind, wp_inspectRow found, wp_modify]

/-- How a setter stops when its allocation fails. -/
def CTable.AllocationStop (table : CTable creator) (field : creator.Field) (stop : Stop) : Prop :=
  (stop = .fault .outOfSharedMemory ∧ table.sharePanic = true)
    ∨ (stop = .tcl (.outOfMemory (creator.fields field).name) ∧ table.sharePanic = false)

/-- The allocation of a setter either counts or fails. -/
theorem allocateMayFail_spec {table : CTable creator} {host : Host} {field : creator.Field}
    {allocates : Bool}
    : wp (allocateMayFail host field allocates)
        (fun _ after => ¬ table.AllocationFails host allocates
          ∧ ∃ allocations, after = { table with allocations := allocations })
        (fun stop after => table.AllocationFails host allocates ∧ table.AllocationStop field stop
          ∧ ∃ allocations, after = { table with allocations := allocations })
        table := by
  rw [allocateMayFail, wp_bind, wp_get]
  unfold CTable.AllocationFails CTable.AllocationStop
  split
  · next shared =>
      obtain ⟨needed, master⟩ : allocates = true ∧ table.sharedMaster = true := by
        simpa using shared
      rw [wp_bind, wp_shmalloc]
      split
      · next granted => exact ⟨by simp [granted], _, rfl⟩
      · next denied =>
          have failing : allocates = true ∧ table.sharedMaster = true
              ∧ host.shmalloc table.allocations = false := ⟨needed, master, by simpa using denied⟩
          split
          · next panics => exact ⟨failing, .inl ⟨rfl, panics⟩, _, rfl⟩
          · next reports => exact ⟨failing, .inr ⟨rfl, by simpa using reports⟩, _, rfl⟩
  · next unshared =>
      refine ⟨?_, table.allocations, rfl⟩
      rintro ⟨needed, master, -⟩
      simp [needed, master] at unshared

/-- What a setter with index maintenance leaves in the index of its field. -/
structure CTable.Stored (field : creator.Field) (id : RowId) (row : Row creator)
    (before after : CTable creator) : Prop where
  index : after.FieldIndex field
  contents : after.rows id = some row
  linked : (after.skipLists field).isSome = true → (after.links field id).isSome = true
  others : ∀ other, other ≠ id → after.links field other = before.links field other

/-- What a setter leaves when it stops after it has left the index. -/
structure CTable.LeftOut (field : creator.Field) (id : RowId) (before after : CTable creator)
    : Prop where
  index : after.FieldIndex field
  unlinked : after.links field id = none
  others : ∀ other, other ≠ id → after.links field other = before.links field other

/-- Storing with index maintenance leaves the row in the index under its new value. It stops
out of the index when the allocation fails or another row of a unique index is equal.
-/
theorem storeIndexed_spec {table : CTable creator} {host : Host} {ctl : IndexCtl} {id : RowId}
    {field : creator.Field} {row : Row creator} {flagged stored : Cell (creator.type field)}
    {allocates : Bool}
    (index : table.FieldIndex field) (listed : id ∈ table.llHead) (old : id < table.nextRow)
    (found : table.rows id = some row) (free : ctl = .new → table.links field id = none)
    : wp (storeIndexed host ctl id field flagged allocates stored)
        (fun _ after => table.Stored field id (row.setCell field stored) after
          ∧ ¬ table.AllocationFails host allocates
          ∧ ¬ table.Clashes field id (row.setCell field stored))
        (stopped
          (fun after => table.LeftOut field id after
            ∧ (table.AllocationFails host allocates ∧ table.sharePanic = false
                ∧ after.rows id = some (row.setCell field flagged)
              ∨ ¬ table.AllocationFails host allocates
                ∧ table.Clashes field id (row.setCell field stored)
                ∧ after.rows id = some (row.setCell field stored)))
          Fault.NotDouble)
        table := by
  rw [storeIndexed, wp_bind]
  refine wp_mono (removeFromIndexSource_spec ctl index listed old free) ?_ ?_
  · rintro - removed ⟨out, allocations⟩
    have there : removed.rows id = some row := by rw [out.frame.rows, found]
    have fails : removed.AllocationFails host allocates ↔ table.AllocationFails host allocates := by
      simp [CTable.AllocationFails, out.frame.sharedMaster, allocations]
    have flaggedIndex := out.index.putRow out.unlinked (row.setCell field flagged)
    rw [wp_bind, putCell_spec there, wp_bind]
    refine wp_mono allocateMayFail_spec ?_ ?_
    · rintro - allocated ⟨granted, count, rfl⟩
      have contents : ({ removed.putRow id (row.setCell field flagged) with
          allocations := count } : CTable creator).rows id = some (row.setCell field flagged) := by
        simp [CTable.putRow]
      rw [wp_bind, putCell_spec contents]
      have same : (row.setCell field flagged).setCell field stored = row.setCell field stored := by
        simp [Row.setCell]
      rw [same]
      -- the state in which the insertion starts
      generalize hStored : CTable.putRow _ id (row.setCell field stored) = next
      have rows : next.rows id = some (row.setCell field stored) := by
        simp [← hStored, CTable.putRow]
      have otherRows : ∀ other, other ≠ id → next.rows other = table.rows other := by
        intro other different
        simp [← hStored, CTable.putRow, different, out.frame.rows]
      have chain : next.skipLists field = removed.skipLists field := by simp [← hStored, CTable.putRow]
      have links : next.links field = removed.links field := by simp [← hStored, CTable.putRow]
      have llHead : next.llHead = table.llHead := by
        simp [← hStored, CTable.putRow, out.frame.llHead]
      have nextRow : next.nextRow = table.nextRow := by
        simp [← hStored, CTable.putRow, out.frame.nextRow]
      have nextIndex : next.FieldIndex field := by
        have step := flaggedIndex.putRow (by simpa [CTable.putRow] using out.unlinked)
          (row.setCell field stored)
        refine step.transport ?_ ?_ ?_ ?_ ?_ ?_
        case refine_6 =>
          intro skip _ _ other _
          rw [← hStored]
          exact ReflCmp.compare_self
        all_goals simp [← hStored, CTable.putRow]
      have contentsAt : next.rowAt id = row.setCell field stored := by
        simp [CTable.rowAt, rows]
      have linksBefore : ∀ other, other ≠ id → next.links field other = table.links field other := by
        intro other different
        rw [links]
        exact out.others other different
      have clash : next.Clashes field id (next.rowAt id) ↔
          table.Clashes field id (row.setCell field stored) := by
        rw [contentsAt]
        refine CTable.Clashes.congr otherRows llHead ?_ linksBefore
        rw [chain, out.frame.exists']
      have granted' : ¬ table.AllocationFails host allocates := fun denied =>
        granted (by simpa [CTable.AllocationFails, CTable.putRow] using fails.mpr denied)
      refine wp_mono (insertIntoIndex_spec nextIndex (llHead ▸ listed) (nextRow ▸ old)
        (by rw [links]; exact out.unlinked)) ?_ ?_
      · rintro - after ⟨entered, unequal⟩
        refine ⟨⟨entered.index, ?_, entered.linked, ?_⟩, granted', clash.not.mp unequal⟩
        · rw [entered.frame.rows, rows]
        · intro other different
          rw [entered.others other different, linksBefore other different]
      · rintro stop after stops
        cases stop with
        | fault fault => exact stops
        | tcl error =>
            obtain ⟨rfl, equal⟩ := stops
            refine ⟨⟨nextIndex, by rw [links]; exact out.unlinked, linksBefore⟩, .inr ?_⟩
            exact ⟨granted', clash.mp equal, rows⟩
    · rintro stop after ⟨denied, how, count, rfl⟩
      rcases how with ⟨rfl, -⟩ | ⟨rfl, reports⟩
      · exact fun _ same => by cases same
      · refine ⟨⟨?_, ?_, ?_⟩, .inl ⟨?_, ?_, ?_⟩⟩
        · refine flaggedIndex.transport rfl rfl rfl rfl (Nat.le_refl _) ?_
          intro skip _ _ other _
          exact ReflCmp.compare_self
        · exact out.unlinked
        · exact out.others
        · exact fails.mp (by simpa [CTable.AllocationFails, CTable.putRow] using denied)
        · simpa [CTable.putRow, out.frame.sharePanic] using reports
        · simp [CTable.putRow]
  · rintro stop after stops
    cases stop with
    | fault fault => exact stops
    | tcl error => exact stops.elim

end SpeedTables
