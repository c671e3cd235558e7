import SpeedTables.Table.Commands
import SpeedTables.Table.Frames

/-! What creating and deleting rows does to a table. -/

namespace SpeedTables

open Lib

variable {creator : CreatorTable}

-----------------------------------------------------------------------------------------
-- What lookups read
-----------------------------------------------------------------------------------------

theorem CTable.row_congr {left right : CTable creator} (rows : left.rows = right.rows)
    : left.row = right.row := by
  funext id
  simp [CTable.row, rows]

/-- A chain search depends on the rows and the hash table, by induction on its steps. -/
theorem CTable.searchChain_congr {left right : CTable creator} {key : CString} {hash : UInt32}
    (rows : left.rows = right.rows) (keyTable : left.keyTable = right.keyTable)
    (sharedMaster : left.sharedMaster = right.sharedMaster)
    : ∀ (fuel : Nat) (start : Option RowId),
        left.searchChain key hash fuel start = right.searchChain key hash fuel start := by
  intro fuel
  induction fuel with
  | zero =>
      intro start
      cases start <;> rfl
  | succ fuel ih =>
      intro start
      cases start with
      | none => rfl
      | some entry =>
          have readKey : left.entryKey = right.entryKey := by
            funext row
            simp [CTable.entryKey, sharedMaster]
          simp only [CTable.searchChain, CTable.row_congr rows, keyTable, readKey, ih]

theorem CTable.findHashEntry_congr {left right : CTable creator} {key : CString}
    (rows : left.rows = right.rows) (keyTable : left.keyTable = right.keyTable)
    (sharedMaster : left.sharedMaster = right.sharedMaster) (nextRow : left.nextRow = right.nextRow)
    : left.findHashEntry key = right.findHashEntry key := by
  simp only [CTable.findHashEntry, CTable.chainFuel, keyTable, nextRow]
  exact CTable.searchChain_congr rows keyTable sharedMaster _ _

theorem CTable.searchPrevious_congr {left right : CTable creator} {entry : RowId}
    (rows : left.rows = right.rows) (keyTable : left.keyTable = right.keyTable)
    : ∀ (fuel : Nat) (start : Option RowId),
        left.searchPrevious entry fuel start = right.searchPrevious entry fuel start := by
  intro fuel
  induction fuel with
  | zero =>
      intro start
      cases start <;> rfl
  | succ fuel ih =>
      intro start
      cases start with
      | none => rfl
      | some previous => simp only [CTable.searchPrevious, CTable.row_congr rows, keyTable, ih]

theorem CTable.deleteHashEntry_congr {left right : CTable creator} {entry : RowId}
    (rows : left.rows = right.rows) (keyTable : left.keyTable = right.keyTable)
    (nextRow : left.nextRow = right.nextRow)
    : left.deleteHashEntry entry = right.deleteHashEntry entry := by
  simp only [CTable.deleteHashEntry, CTable.chainFuel, keyTable, nextRow,
    CTable.searchPrevious_congr rows keyTable]

-----------------------------------------------------------------------------------------
-- Creation
-----------------------------------------------------------------------------------------

/-- The table with a new row under a key, at the next address. -/
def CTable.withRow (table : CTable creator) (key : CString) (keyTable : HashTable)
    (allocations : Nat) : CTable creator :=
  { table.putRow table.nextRow { creator.init with key := some key } with
    keyTable := keyTable
    llHead := table.nextRow :: table.llHead
    count := table.count + 1
    nextRow := table.nextRow + 1
    allocations := allocations }

/-- What `find_or_create` leaves: the row of the key, or a new one linked under it. -/
inductive CTable.FoundOrCreated (table : CTable creator) (key : CString)
    : RowId × IndexCtl → CTable creator → Prop
  | found {id allocations} (lookup : table.findHashEntry key = .ok (some id))
    : FoundOrCreated table key (id, .normal) { table with allocations := allocations }
  | created {keyTable allocations} (lookup : table.findHashEntry key = .ok none)
    (linked
      : ({ table with allocations := allocations }.putRow table.nextRow
          { creator.init with key := some key }).linkHashEntry key table.nextRow = .ok keyTable)
    : FoundOrCreated table key (table.nextRow, .new) (table.withRow key keyTable allocations)

theorem allocateRow_spec (host : Host) (key : CString) (table : CTable creator)
    : wp (allocateRow host key)
        (fun _ after => ∃ allocations, after = { table with allocations := allocations })
        (stopped (fun after => ∃ allocations, after = { table with allocations := allocations })
          Fault.NotDouble) table := by
  rw [allocateRow, wp_bind, wp_get]
  split
  · rw [wp_bind, wp_shmalloc]
    split
    · exact ⟨_, rfl⟩
    · split
      · exact fun _ same => nomatch same
      · exact ⟨_, rfl⟩
  · exact ⟨table.allocations, rfl⟩

/-- Copying the key only counts an allocation. -/
theorem copySharedKey_spec (host : Host) (table : CTable creator)
    : wp (copySharedKey host)
        (fun _ after => ∃ allocations, after = { table with allocations := allocations })
        (stopped (fun after => ∃ allocations, after = { table with allocations := allocations })
          (fun _ => True)) table := by
  rw [copySharedKey, wp_bind, wp_get]
  split
  · rw [wp_bind, wp_shmalloc]
    split
    · exact ⟨_, rfl⟩
    · split
      · trivial
      · exact ⟨_, rfl⟩
  · exact ⟨table.allocations, rfl⟩

/-- `find_or_create` stops with a Tcl error only when it has allocated nothing. -/
theorem findOrCreate_spec (host : Host) (key : CString) (table : CTable creator)
    : wp (findOrCreate host key) (table.FoundOrCreated key)
        (stopped (fun after => ∃ allocations, after = { table with allocations := allocations })
          Fault.NotDouble) table := by
  rw [findOrCreate, wp_bind]
  refine wp_mono (allocateRow_spec host key table) ?_ (fun _ _ stop => stop)
  rintro - after ⟨allocations, rfl⟩
  have same : CTable.findHashEntry { table with allocations := allocations } key =
      table.findHashEntry key := CTable.findHashEntry_congr rfl rfl rfl rfl
  rw [wp_bind, wp_get, wp_bind]
  refine wp_mono (storeHashEntry_spec { table with allocations := allocations } key table.nextRow
    creator.init) ?_ ?_
  · intro result after stored
    cases stored with
    | found lookup => exact .found (same ▸ lookup)
    | created lookup linked =>
        exact .created (same ▸ lookup) linked
  · rintro stop after ⟨⟨fault, rfl, other⟩, -⟩
    exact other

-----------------------------------------------------------------------------------------
-- Deletion
-----------------------------------------------------------------------------------------

/-- The table without a row, once its indexes are left and its hash entry is unlinked. -/
def CTable.discarded (table : CTable creator) (id : RowId) (keyTable : HashTable)
    : CTable creator :=
  { table.freeRow id with
    keyTable := keyTable
    llHead := table.llHead.erase id
    count := table.count - 1 }

/-- A removal does not look at the row list. -/
theorem removeFromIndex_commutes (field : creator.Field) (id : RowId) (rows : List RowId)
    : Commutes (fun table : CTable creator => { table with llHead := rows })
        (removeFromIndex field id) := by
  intro table ok err
  have same : CTable.removeFromIndex { table with llHead := rows } field id =
      (table.removeFromIndex field id).map (fun after => { after with llHead := rows }) := by
    have located : ∀ skip row,
        CTable.serase { table with llHead := rows } field skip row = table.serase field skip row :=
      fun _ _ => rfl
    unfold CTable.removeFromIndex
    simp only [located]
    cases table.skipLists field with
    | none => rfl
    | some skip =>
        cases table.links field id with
        | none => rfl
        | some node =>
            simp only [CTable.row]
            cases table.rows id with
            | none => rfl
            | some row =>
                dsimp only
                cases (bucketOf skip node id).erase id with
                | nil => cases table.serase field skip row <;> rfl
                | cons first others => rfl
  rw [removeFromIndex, wp_bind, wp_inspect, wp_bind, wp_inspect, same]
  cases table.removeFromIndex field id with
  | error fault => simp [Except.map]
  | ok after => simp [Except.map]

/-- The removals of `delete`, with the row still in the list. -/
def leaveIndexes (id : RowId) : TableM creator Unit :=
  (List.finRange creator.nFields).forM (fun field => removeFromIndex field id)

/-- Deleting a row takes it out of the indexes and the row list, unlinks it and frees it. It
stops with a fault only.
-/
theorem discardRow_spec {table : CTable creator} {id : RowId} {failed : CTable creator → Prop}
    {lost : Fault → Prop} {ok : Unit → CTable creator → Prop}
    (others : ∀ fault, fault.NotDouble → lost fault)
    (leaving : wp (leaveIndexes id)
      (fun _ left => ∀ keyTable, left.deleteHashEntry id = .ok keyTable →
        id ∈ table.llHead → left.llHead = table.llHead → ok () (left.discarded id keyTable))
      (stopped (fun _ => False) lost) table)
    : wp (discardRow id) ok (stopped failed lost) table := by
  have framed : Respects (@CTable.RowFrame creator id) (leaveIndexes id) :=
    Respects.forM fun field _ =>
      (respects_removeFromIndex field id).mono (fun frame => (frame.cellFrame id).toRowFrame)
  have left := wp_and leaving (framed table)
  rw [discardRow, wp_bind, deleteRow, wp_bind, removeFromAllIndexes, wp_bind, wp_get]
  split
  · next listed =>
      generalize shorter : table.llHead.erase id = rest
      have moved : Commutes
          (fun table : CTable creator => { table with llHead := rest }) (leaveIndexes id) :=
        Commutes.forM (fun field => removeFromIndex_commutes field id rest)
      rw [wp_bind, wp_set]
      refine (moved table _ _).mpr (wp_mono left ?_ ?_)
      · rintro - middle ⟨ends, frame⟩
        rw [wp_bind, unlinkHashEntry, wp_bind, wp_inspect]
        have same : CTable.deleteHashEntry { middle with llHead := rest } id =
            middle.deleteHashEntry id := CTable.deleteHashEntry_congr rfl rfl rfl
        rw [same]
        refine ⟨?_, fun fault stops => others fault (CTable.deleteHashEntry_fault stops)⟩
        intro keyTable deleted
        have final := ends keyTable deleted listed frame.llHead
        rw [← shorter]
        simpa [CTable.discarded, CTable.freeRow, frame.llHead] using final
      · rintro stop middle ⟨stops, -⟩
        cases stop with
        | tcl error => exact stops.elim
        | fault fault => exact stops
  · exact others _ (fun _ same => by cases same)

-----------------------------------------------------------------------------------------
-- Dropping indexes and emptying the table
-----------------------------------------------------------------------------------------

/-- What dropping indexes leaves as it was. -/
structure CTable.IndexesDropped (before after : CTable creator) : Prop where
  rows : after.rows = before.rows
  nextRow : after.nextRow = before.nextRow
  llHead : after.llHead = before.llHead
  keyTable : after.keyTable = before.keyTable
  skipLists : ∀ field skip, after.skipLists field = some skip → before.skipLists field = some skip
  links : ∀ field id, id ∉ before.llHead → after.links field id = before.links field id
  lastNext : ∀ field id,
    after.lastNext field id = before.lastNext field id ∨ after.lastNext field id = none
  nextNode : after.nextNode = before.nextNode
  count : after.count = before.count
  searches : after.searches = before.searches
  cursors : after.cursors = before.cursors
  destroyed : after.destroyed = before.destroyed

theorem CTable.IndexesDropped.trans {first second third : CTable creator}
    (left : first.IndexesDropped second) (right : second.IndexesDropped third)
    : first.IndexesDropped third where
  rows := right.rows.trans left.rows
  nextRow := right.nextRow.trans left.nextRow
  llHead := right.llHead.trans left.llHead
  keyTable := right.keyTable.trans left.keyTable
  skipLists := fun field skip chain => left.skipLists field skip (right.skipLists field skip chain)
  links := fun field id absent => by
    rw [right.links field id (left.llHead ▸ absent), left.links field id absent]
  lastNext := fun field id => by
    rcases right.lastNext field id with same | cleared
    · rw [same]
      exact left.lastNext field id
    · exact .inr cleared
  nextNode := right.nextNode.trans left.nextNode
  count := right.count.trans left.count
  searches := right.searches.trans left.searches
  cursors := right.cursors.trans left.cursors
  destroyed := right.destroyed.trans left.destroyed

theorem CTable.dropIndex_dropped (table : CTable creator) (field : creator.Field)
    : table.IndexesDropped (table.dropIndex field) := by
  unfold CTable.dropIndex
  split
  · constructor <;> simp
  · next skip chain =>
      constructor <;> try rfl
      · intro other skip' shape
        by_cases same : other = field
        · simp [CTable.setSkipList, same] at shape
        · simpa [CTable.setSkipList, same] using shape
      · intro other id absent
        by_cases same : other = field
        · subst same
          simp [absent]
        · simp [same]
      · intro other id
        by_cases same : other = field
        · subst same
          by_cases listed : id ∈ table.llHead <;> simp [listed]
        · simp [same]

/-- Dropping all indexes drops each of them, by induction on the fields. -/
theorem CTable.dropAllIndexes_dropped (table : CTable creator)
    : table.IndexesDropped table.dropAllIndexes
      ∧ ∀ field, table.dropAllIndexes.skipLists field = none := by
  have dropped : ∀ (fields : List creator.Field) (start : CTable creator),
      start.IndexesDropped (fields.foldl CTable.dropIndex start)
        ∧ ∀ field ∈ fields, (fields.foldl CTable.dropIndex start).skipLists field = none := by
    intro fields
    induction fields with
    | nil =>
        intro start
        refine ⟨?_, by simp⟩
        constructor <;> simp
    | cons first rest ih =>
        intro start
        obtain ⟨later, gone⟩ := ih (start.dropIndex first)
        refine ⟨(start.dropIndex_dropped first).trans later, ?_⟩
        intro field member
        rcases List.mem_cons.mp member with rfl | behind
        · have here : (start.dropIndex field).skipLists field = none := by
            unfold CTable.dropIndex
            split
            · assumption
            · simp [CTable.setSkipList]
          by_contra some
          obtain ⟨skip, chain⟩ := Option.ne_none_iff_exists'.mp some
          cases here.symm.trans (later.skipLists field skip chain)
        · exact gone field behind
  obtain ⟨all, gone⟩ := dropped (List.finRange creator.nFields) table
  exact ⟨all, fun field => gone field (List.mem_finRange field)⟩

/-- What emptying the table leaves: no listed rows and no indexes. The last row of the list
stays allocated.
-/
structure CTable.Emptied (before after : CTable creator) : Prop where
  rows : ∀ id, after.rows id = before.rows id ∨ after.rows id = none
  nextRow : after.nextRow = before.nextRow
  llHead : after.llHead = []
  skipLists : ∀ field, after.skipLists field = none
  links : ∀ field id, after.links field id = before.links field id
  lastNext : ∀ field id,
    after.lastNext field id = before.lastNext field id ∨ after.lastNext field id = none
  nextNode : after.nextNode = before.nextNode
  count : after.count = 0
  searches : after.searches = before.searches
  cursors : after.cursors = before.cursors

/-- Freeing rows one after the other changes only those rows, by induction on the list. -/
theorem CTable.freeRows_rows (ids : List RowId)
    : ∀ table : CTable creator, ids.foldl CTable.freeRow table =
        { table with rows := fun id => if id ∈ ids then none else table.rows id } := by
  induction ids with
  | nil => exact fun _ => by simp
  | cons first rest ih =>
      intro table
      rw [List.foldl_cons, ih]
      have rows : (fun id => if id ∈ rest then none else (table.freeRow first).rows id) =
          fun id => if id ∈ first :: rest then none else table.rows id := by
        funext id
        by_cases same : id = first
        · simp [CTable.freeRow, same]
        · simp [CTable.freeRow, same]
      rw [rows]
      rfl

/-- Freeing rows of a table and dropping its list and indexes empties it. -/
theorem CTable.Emptied.of_freed {table freed : CTable creator}
    (rows : ∀ id, freed.rows id = table.rows id ∨ freed.rows id = none)
    (nextRow : freed.nextRow = table.nextRow) (llHead : freed.llHead = [])
    (links : freed.links = table.links) (lastNext : freed.lastNext = table.lastNext)
    (nextNode : freed.nextNode = table.nextNode) (searches : freed.searches = table.searches)
    (cursors : freed.cursors = table.cursors)
    : table.Emptied { freed.dropAllIndexes with count := 0, autoRowNumber := 0 } := by
  obtain ⟨dropped, gone⟩ := freed.dropAllIndexes_dropped
  refine {
    rows := fun id => by rw [dropped.rows]; exact rows id
    nextRow := dropped.nextRow.trans nextRow
    llHead := dropped.llHead.trans llHead
    skipLists := gone
    links := fun field id => ?_
    lastNext := fun field id => ?_
    nextNode := dropped.nextNode.trans nextNode
    count := rfl
    searches := dropped.searches.trans searches
    cursors := dropped.cursors.trans cursors }
  · rw [← links]
    exact dropped.links field id (by simp [llHead])
  · rw [← lastNext]
    exact dropped.lastNext field id

/-- `delete_all_rows` empties the table and keeps the hash table. -/
theorem deleteAllRows_spec {ok : Unit → CTable creator → Prop} {err : Stop → CTable creator → Prop}
    {table : CTable creator}
    (holds : ∀ after, table.Emptied after → after.keyTable = table.keyTable → ok () after)
    : wp deleteAllRows ok err table := by
  rw [deleteAllRows, wp_bind, wp_get, wp_set, CTable.freeRows_rows]
  refine holds _ (CTable.Emptied.of_freed ?_ rfl rfl rfl rfl rfl rfl rfl) ?_
  · intro id
    by_cases freed : id ∈ table.llHead.dropLast <;> simp [freed]
  · exact (CTable.dropAllIndexes_dropped _).1.keyTable

end SpeedTables
