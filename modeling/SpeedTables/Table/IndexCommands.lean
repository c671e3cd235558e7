import SpeedTables.Table.IndexUpkeep

/-! The table commands keep every row in every index, as long as no setter call bypasses one. -/

namespace SpeedTables

open Lib Std

variable {creator : CreatorTable} {host : Host}

-----------------------------------------------------------------------------------------
-- Setter calls
-----------------------------------------------------------------------------------------

/-- A write of one field keeps all indexes when it keeps the one of its field. -/
theorem CTable.IndexesKept.of_written {table : CTable creator} {id : RowId}
    {field : creator.Field} {action : TableM creator Unit}
    (index : ∀ field, table.FieldIndex field) (framed : Respects (CTable.CellFrame field id) action)
    (written : wp action (fun _ => table.FieldKept field id) (fun _ _ => True) table)
    : wp action (fun _ => table.IndexesKept id) (fun _ _ => True) table := by
  refine wp_mono (wp_and (framed table) written) ?_ (fun _ _ _ => trivial)
  rintro - after ⟨frame, kept⟩ other
  by_cases same : other = field
  · rw [same]
    exact kept
  · exact .cellFrame (index other) frame same

/-- Incrementing a field keeps the indexes. -/
theorem incrField_kept {table : CTable creator} (ctl : IndexCtl) {id : RowId}
    (field : creator.Field) (obj : Obj) {row : Row creator}
    (index : ∀ field, table.FieldIndex field) (listed : id ∈ table.llHead)
    (old : id < table.nextRow) (found : table.rows id = some row)
    : wp (incrField host ctl id field obj) (fun _ => table.IndexesKept id) (fun _ _ => True)
        table := by
  refine CTable.IndexesKept.of_written index (respects_incrField host ctl id field obj) ?_
  unfold incrField
  dsimp only
  split
  · trivial
  · split
    · trivial
    · rw [wp_bind, wp_inspect]
      refine ⟨fun _ _ => ?_, fun _ _ => trivial⟩
      exact storeIndexed_kept ctl _ false _ (index field) listed old found

/-- Setting a field to null keeps the indexes. -/
theorem setNull_kept {table : CTable creator} {id : RowId} (field : creator.Field)
    {row : Row creator} (index : ∀ field, table.FieldIndex field) (listed : id ∈ table.llHead)
    (old : id < table.nextRow) (found : table.rows id = some row)
    : wp (setNull host id field) (fun _ => table.IndexesKept id) (fun _ _ => True) table := by
  refine CTable.IndexesKept.of_written index (respects_setNull host id field) ?_
  rw [setNull, wp_bind, wp_inspect]
  refine ⟨fun _ _ => ?_, fun _ _ => trivial⟩
  dsimp only
  split
  · trivial
  · split
    · exact .refl (index field) id
    · exact storeIndexed_kept .normal _ false _ (index field) listed old found

/-- A call that does not bypass an index keeps all of them. -/
theorem Call.keeps_indexes {call : Call creator} (safe : ¬ call.Bypasses host)
    (index : ∀ field, call.table.FieldIndex field) (listed : call.id ∈ call.table.llHead)
    (old : call.id < call.table.nextRow) {row : Row creator}
    (found : call.table.rows call.id = some row)
    : wp (call.run host) (fun _ => call.table.IndexesKept call.id) (fun _ _ => True)
        call.table := by
  obtain ⟨ctl, id, write, table⟩ := call
  dsimp only at index listed old found ⊢
  cases write with
  | set field obj =>
      rcases Decidable.em (field = creator.keyField) with rfl | notKey
      · refine setField_key_kept index listed old found ?_
        rintro rfl
        by_contra moved
        rw [not_or] at moved
        exact safe (.key rfl rfl found (Option.isSome_iff_ne_none.mpr moved.1) moved.2)
      · refine setField_cell_kept index listed old found notKey ?_
        intro flagged allocates stored unindexed assigns
        by_contra moved
        rw [not_or, not_and_or] at moved
        exact safe (.cell rfl notKey unindexed found (Option.isSome_iff_ne_none.mpr moved.1)
          assigns moved.2)
  | incr field obj => exact incrField_kept ctl field obj index listed old found
  | null field => exact setNull_kept field index listed old found

/-- A call that does not bypass an index leaves no row out of one. -/
theorem Call.keeps_during {call : Call creator} (safe : ¬ call.Bypasses host)
    (here : call.table.IndexedDuring call.ctl call.id)
    : wp (call.run host) (fun _ => CTable.IndexedDuring call.ctl call.id) (fun _ _ => True)
        call.table := by
  obtain ⟨⟨leads, index, complete⟩, listed⟩ := here
  obtain ⟨row, found⟩ := Option.isSome_iff_exists.mp (leads.alive call.id listed)
  have kept := Call.keeps_indexes safe index listed (leads.bounded listed) found
  have framed := (writeSteps_rowFrame host call.id).write call.ctl call.write call.table
  have led := ((writeSteps_leads host call.id).write call.ctl call.write).keeps
    (show call.table.LeadsTo call.id from ⟨leads, listed⟩)
  refine wp_mono (wp_and kept (wp_and framed led)) ?_ (fun _ _ _ => trivial)
  rintro - after ⟨kept, frame, leads', listed'⟩
  exact ⟨⟨leads', fun field => (kept field).index,
    fun field => (kept field).complete frame (complete field)⟩, listed'⟩


-----------------------------------------------------------------------------------------
-- Creating rows
-----------------------------------------------------------------------------------------

/-- A computation that need not say how it stops. -/
theorem stopped_any (stop : Stop) (table : CTable creator)
    : stopped (fun _ => True) (fun _ => True) stop table := by
  cases stop <;> trivial

/-- The indexes are as before when nothing they are made of has changed. -/
theorem CTable.IndexedExcept.congr {before after : CTable creator} {except : RowId → Prop}
    (indexed : before.IndexedExcept except) (rows : after.rows = before.rows)
    (nextRow : after.nextRow = before.nextRow) (llHead : after.llHead = before.llHead)
    (keyTable : after.keyTable = before.keyTable) (skipLists : after.skipLists = before.skipLists)
    (links : after.links = before.links) (lastNext : after.lastNext = before.lastNext)
    (nextNode : after.nextNode = before.nextNode)
    : after.IndexedExcept except where
  leads := by
    refine indexed.leads.transport (by simp [rows]) nextRow llHead
      (by rw [keyTable]; exact indexed.leads.hash) ?_ ?_ ?_
    · rw [skipLists]
      exact indexed.leads.nodes
    · rw [lastNext]
      exact indexed.leads.lastNext
    · rw [lastNext]
      exact indexed.leads.fresh
  index := fun field => by
    refine (indexed.index field).transport (by rw [skipLists]) (by rw [links]) llHead nextRow
      nextNode.ge ?_
    intro skip _ _ other _
    simp only [CTable.rowAt, rows]
    exact ReflCmp.compare_self
  complete := fun field id listed included chain => by
    rw [links]
    exact indexed.complete field id (llHead ▸ listed) included (skipLists ▸ chain)

/-- Counting allocations changes no index. -/
theorem CTable.IndexedExcept.allocated {table : CTable creator} {except : RowId → Prop}
    (indexed : table.IndexedExcept except) (allocations : Nat)
    : CTable.IndexedExcept except { table with allocations := allocations } :=
  indexed.congr rfl rfl rfl rfl rfl rfl rfl rfl

/-- A new row is linked in no index. -/
theorem CTable.FieldIndex.withRow {table : CTable creator} {field : creator.Field}
    (index : table.FieldIndex field) (leads : table.Leads) (key : CString) (keyTable : HashTable)
    (allocations : Nat)
    : (table.withRow key keyTable allocations).FieldIndex field := by
  have notListed : table.nextRow ∉ table.llHead := fun inside =>
    absurd (leads.bounded inside) (Nat.lt_irrefl _)
  have free : table.links field table.nextRow = none := index.unused _ (Nat.le_refl _)
  constructor
  · intro skip chain
    obtain ⟨indexed, wf⟩ := index.wf skip chain
    have absent : table.nextRow ∉ entries skip.nodes := fun inside =>
      notListed (wf.members _ inside)
    refine ⟨indexed, { wf with ordered := ?_, members := ?_, links := ?_ }⟩
    · refine wf.ordered.congr ?_
      have same : ∀ other ∈ entries skip.nodes,
          (table.withRow key keyTable allocations).rowAt other = table.rowAt other := by
        intro other inside
        have different : other ≠ table.nextRow := by
          rintro rfl
          exact absent inside
        simp [CTable.rowAt, CTable.withRow, CTable.putRow, different]
      intro a left b right
      rw [same a left, same b right]
    · exact fun other inside => List.mem_cons_of_mem _ (wf.members other inside)
    · intro other listed node
      rcases List.mem_cons.mp listed with rfl | old
      · change table.links field table.nextRow = some node ↔ _
        rw [free]
        refine ⟨fun same => (by cases same), ?_⟩
        rintro ⟨n, member, -, inside⟩
        exact absurd (mem_entries.mpr ⟨n, member, inside⟩) absent
      · exact wf.links other old node
  · intro none other listed
    rcases List.mem_cons.mp listed with rfl | old
    · exact free
    · exact index.unlinked none other old
  · exact fun other late => index.unused other (Nat.le_of_succ_le late)

/-- Finding or creating a row hands it over: a new row may be missing in the indexes. -/
theorem CTable.FoundOrCreated.indexedDuring {table after : CTable creator} {key : CString}
    {row : RowId × IndexCtl} (outcome : table.FoundOrCreated key row after)
    (indexed : table.Indexed)
    : after.IndexedDuring row.2 row.1 := by
  obtain ⟨leads, listed⟩ := outcome.leads indexed.leads
  cases outcome with
  | found lookup =>
      have kept := indexed.allocated
      refine ⟨⟨leads, (kept _).index, fun field other inTable _ => ?_⟩, listed⟩
      exact (kept _).complete field other inTable not_false
  | created lookup linked =>
      refine ⟨⟨leads, fun field => (indexed.index field).withRow indexed.leads _ _ _, ?_⟩, listed⟩
      intro field other inTable included
      rcases List.mem_cons.mp inTable with rfl | old
      · exact absurd ⟨rfl, rfl⟩ included
      · exact indexed.complete field other old not_false

/-- The assertion of the loop that completes the indexes of a new row. -/
structure CTable.Completing (id : RowId) (rest : List creator.Field) (table : CTable creator)
    : Prop where
  here : table.IndexedDuring .new id
  done : ∀ field, field ∉ rest → table.Complete field (fun _ => False)

/-- One field of that loop. -/
theorem CTable.Completing.step {table : CTable creator} {id : RowId} {field : creator.Field}
    {rest : List creator.Field} (completing : table.Completing id (field :: rest))
    (linked : (table.skipLists field).isSome → (table.links field id).isSome)
    : table.Completing id rest where
  here := completing.here
  done := by
    intro other absent
    by_cases same : other = field
    · subst same
      intro row listed _ chain
      by_cases new : row = id
      · rw [new]
        exact linked chain
      · exact completing.here.1.complete other row listed (fun both => new both.2) chain
    · exact completing.done other (by simp [same, absent])

/-- The end of the creation of a row enters it in every index that it is not in yet. -/
theorem indexDefaults_indexed {table : CTable creator} {id : RowId}
    (here : table.IndexedDuring .new id)
    : wp (indexDefaults host id) (fun _ => CTable.Indexed) (fun _ _ => True) table := by
  have start : table.Completing id (List.finRange creator.nFields) :=
    ⟨here, fun field absent => absurd (List.mem_finRange field) absent⟩
  refine wp_mono (@wp_forM_rest Stop (CTable creator) _ _ (fun _ _ => True)
    (fun rest table => table.Completing id rest) ?_ _ _ start) ?_ (fun _ _ _ => trivial)
  · intro field rest table completing
    obtain ⟨indexed, listed⟩ := completing.here
    rw [wp_bind, wp_get]
    split
    · next enters =>
        have free : table.links field id = none := by
          have := enters
          simp only [Bool.and_eq_true] at this
          simpa using this.2
        have inserted := @insertIntoIndex_spec creator table host field id (indexed.index field)
          listed (indexed.leads.bounded listed) free
        have led := ((writeSteps_leads host id).insert field).keeps
          (show table.LeadsTo id from ⟨indexed.leads, listed⟩)
        refine wp_mono (wp_and inserted led) ?_ (fun _ _ _ => trivial)
        rintro - after ⟨⟨entered, -⟩, leads, listed'⟩
        have index : ∀ other, after.FieldIndex other := by
          intro other
          by_cases same : other = field
          · rw [same]
            exact entered.index
          · exact (indexed.index other).cellFrame (entered.frame.cellFrame id) same
        have links : ∀ other row, row ≠ id → after.links other row = table.links other row := by
          intro other row different
          by_cases same : other = field
          · rw [same]
            exact entered.others row different
          · rw [entered.frame.links other same]
        have chains : ∀ other, (after.skipLists other).isSome = (table.skipLists other).isSome :=
          (entered.frame.cellFrame id).exists'
        have complete : ∀ other, after.Complete other (fun row => IndexCtl.new = .new ∧ row = id) := by
          intro other row inTable included chain
          have different : row ≠ id := fun same => included ⟨rfl, same⟩
          rw [links other row different]
          exact indexed.complete other row (entered.frame.llHead ▸ inTable) included
            (chains other ▸ chain)
        refine CTable.Completing.step ⟨⟨⟨leads, index, complete⟩, listed'⟩, ?_⟩ entered.linked
        intro other absent row inTable _ chain
        have apart : other ≠ field := fun same => absent (by simp [same])
        rw [entered.frame.links other apart]
        exact completing.done other absent row (entered.frame.llHead ▸ inTable) not_false
          (chains other ▸ chain)
    · next stays =>
        refine completing.step fun chain => ?_
        obtain ⟨skip, found⟩ := Option.isSome_iff_exists.mp chain
        have indexable := ((indexed.index field).wf skip found).1
        by_contra free
        refine stays ?_
        simp only [Bool.and_eq_true]
        exact ⟨⟨indexable, chain⟩, by simpa using free⟩
  · intro _ after completing
    obtain ⟨⟨leads, index, -⟩, -⟩ := completing.here
    exact ⟨leads, index, fun field => completing.done field (by simp)⟩

/-- What the commands that write rows owe to the indexes. -/
theorem indexUpkeep (host : Host)
    : @Upkeep creator host CTable.Indexed CTable.IndexedDuring (fun _ => True)
        (fun _ => True) (fun call => ¬ call.Bypasses host) where
  stops := fun _ _ => trivial
  breaks := fun _ _ _ _ => trivial
  others := fun _ _ => trivial
  counter := fun table number indexed => indexed.congr rfl rfl rfl rfl rfl rfl rfl rfl
  find := fun table key id indexed lookup =>
    ⟨⟨indexed.leads, indexed.index, fun field other inTable _ =>
      indexed.complete field other inTable not_false⟩, indexed.leads.findHashEntry_listed lookup⟩
  create := fun table key indexed =>
    wp_mono (findOrCreate_spec host key table)
      (fun _ _ outcome => outcome.indexedDuring indexed) (fun stop after _ => stopped_any stop after)
  write := fun call safe here =>
    wp_mono (Call.keeps_during safe here) (fun _ _ kept => kept)
      (fun stop after _ => stopped_any stop after)
  dirty := by
    intro ctl id table here
    obtain ⟨⟨leads, index, complete⟩, listed⟩ := here
    rw [setDirty, putCell, wp_bind, wp_inspect]
    refine ⟨?_, fun fault _ => trivial⟩
    intro row read
    have there := (CTable.row_eq read).1
    have frame := CTable.KeyFrame.setDirty there
    have kept : table.IndexesKept id
        (table.putRow id (row.setCell creator.dirtyField creator.dirtyCell)) := fun field =>
      (CTable.FieldKept.refl (index field) id).dirty frame (by simp [CTable.rowAt, CTable.putRow, there])
    exact ⟨⟨leads.putRow listed _, fun field => (kept field).index,
      fun field => (kept field).complete frame.toRowFrame (complete field)⟩, listed⟩
  finish := by
    intro ctl id table here
    cases ctl with
    | normal =>
        refine ⟨here.1.leads, here.1.index, fun field other inTable _ => ?_⟩
        exact here.1.complete field other inTable (fun both => by cases both.1)
    | new =>
        exact wp_mono (indexDefaults_indexed here) (fun _ _ indexed => indexed)
          (fun stop after _ => stopped_any stop after)

-----------------------------------------------------------------------------------------
-- Deleting rows
-----------------------------------------------------------------------------------------

/-- The assertion of the loop that takes a row out of all indexes: it is out of those of the
fields behind, and the other rows stand where they stood.
-/
structure CTable.Leaving (before : CTable creator) (id : RowId) (rest : List creator.Field)
    (table : CTable creator) : Prop where
  frame : before.RowFrame id table
  rowsKept : table.rows = before.rows
  leads : table.LeadsTo id
  index : ∀ field, table.FieldIndex field
  others : ∀ field other, other ≠ id → table.links field other = before.links field other
  gone : ∀ field, field ∉ rest → table.links field id = none

/-- Taking a row out of all indexes, by the loop over the fields. -/
theorem leaveIndexes_leaving {table : CTable creator} {id : RowId} (indexed : table.Indexed)
    (listed : id ∈ table.llHead)
    : wp (leaveIndexes id) (fun _ => table.Leaving id [])
        (stopped (fun _ => False) (fun _ => True)) table := by
  have start : table.Leaving id (List.finRange creator.nFields) table := {
    frame := (rowFrame_preorder id).refl table
    rowsKept := rfl
    leads := ⟨indexed.leads, listed⟩
    index := indexed.index
    others := fun _ _ _ => rfl
    gone := fun field absent => absurd (List.mem_finRange field) absent }
  refine @wp_forM_rest Stop (CTable creator) _ (fun field => removeFromIndex field id) _
    (table.Leaving id) ?_ _ _ start
  intro field rest middle leaving
  obtain ⟨leads, inTable⟩ := leaving.leads
  rw [removeFromIndex, wp_bind, wp_inspect]
  refine ⟨?_, fun _ _ => trivial⟩
  intro after removed
  have out := CTable.removeFromIndex_spec (leaving.index field) inTable (leads.bounded inTable)
    removed
  have cellFrame := out.frame.cellFrame id
  rw [wp_set]
  refine {
    frame := (rowFrame_preorder id).trans _ _ _ leaving.frame cellFrame.toRowFrame
    rowsKept := out.frame.rows.trans leaving.rowsKept
    leads := ⟨leads.index inTable out.frame (CTable.removeFromIndex_pointers removed),
      out.frame.llHead ▸ inTable⟩
    index := ?_, others := ?_, gone := ?_ }
  · intro other
    by_cases same : other = field
    · rw [same]
      exact out.index
    · exact (leaving.index other).cellFrame cellFrame same
  · intro other row different
    rw [← leaving.others other row different]
    by_cases same : other = field
    · rw [same]
      exact out.others row different
    · rw [out.frame.links other same]
  · intro other absent
    by_cases same : other = field
    · rw [same]
      exact out.unlinked
    · rw [out.frame.links other same]
      exact leaving.gone other (by simp [same, absent])

/-- A row that is out of all indexes can be freed. -/
theorem CTable.Leaving.discarded {before table : CTable creator} {id : RowId}
    (leaving : before.Leaving id [] table) (indexed : before.Indexed) {keyTable : HashTable}
    (deleted : table.deleteHashEntry id = .ok keyTable)
    : (table.discarded id keyTable).Indexed := by
  obtain ⟨leads, listed⟩ := leaving.leads
  have free : ∀ field, table.links field id = none := fun field => leaving.gone field (by simp)
  have others : ∀ other, other ∈ table.llHead.erase id ↔ other ∈ table.llHead ∧ other ≠ id := by
    intro other
    rw [leads.nodup.mem_erase_iff]
    exact and_comm
  refine ⟨leads.discarded listed deleted, fun field => ⟨?_, ?_, (leaving.index field).unused⟩, ?_⟩
  · intro skip chain
    obtain ⟨indexable, wf⟩ := (leaving.index field).wf skip chain
    have absent : id ∉ entries skip.nodes := wf.notMem_of_unlinked (free field)
    refine ⟨indexable, { wf with ordered := ?_, members := ?_, links := ?_ }⟩
    · refine wf.ordered.congr ?_
      have same : ∀ other ∈ entries skip.nodes,
          (table.discarded id keyTable).rowAt other = table.rowAt other := by
        intro other inside
        have different : other ≠ id := by
          rintro rfl
          exact absent inside
        simp [CTable.rowAt, CTable.discarded, CTable.freeRow, different]
      intro a left b right
      rw [same a left, same b right]
    · intro other inside
      refine (others other).mpr ⟨wf.members other inside, ?_⟩
      rintro rfl
      exact absent inside
    · exact fun other known => wf.links other ((others other).mp known).1
  · exact fun none other known =>
      (leaving.index field).unlinked none other ((others other).mp known).1
  · intro field other known _ chain
    obtain ⟨inTable, different⟩ := (others other).mp known
    change (table.links field other).isSome
    rw [leaving.others field other different]
    exact indexed.complete field other (leaving.frame.llHead ▸ inTable) not_false
      (leaving.frame.exists' field ▸ chain)

/-- Deleting a row keeps the others in every index. -/
theorem discardRow_indexed {table : CTable creator} {id : RowId} (indexed : table.Indexed)
    : wp (discardRow id) (fun _ => CTable.Indexed) (stopped (fun _ => True) (fun _ => True))
        table := by
  by_cases listed : id ∈ table.llHead
  · refine discardRow_spec (fun _ _ => trivial) ?_
    refine wp_mono (leaveIndexes_leaving indexed listed) ?_ (fun _ _ stop => stop)
    exact fun _ left leaving keyTable deleted _ _ => leaving.discarded indexed deleted
  · rw [discardRow, wp_bind, deleteRow, wp_bind, removeFromAllIndexes, wp_bind, wp_get,
      if_neg listed]
    trivial

-----------------------------------------------------------------------------------------
-- Emptying the table and dropping indexes
-----------------------------------------------------------------------------------------

/-- An empty table has no index to keep. -/
theorem CTable.Emptied.indexed {before after : CTable creator} (emptied : before.Emptied after)
    (indexed : before.Indexed) (leads : after.Leads)
    : after.Indexed where
  leads := leads
  index := fun field => {
    wf := fun skip chain => nomatch (emptied.skipLists field).symm.trans chain
    unlinked := by simp [emptied.llHead]
    unused := fun id late => by
      rw [emptied.links field id]
      exact (indexed.index field).unused id (emptied.nextRow ▸ late) }
  complete := fun field id listed => by simp [emptied.llHead] at listed

/-- Dropping an index keeps the others. -/
theorem CTable.Indexed.dropIndex {table : CTable creator} (indexed : table.Indexed)
    (field : creator.Field)
    : (table.dropIndex field).Indexed := by
  have leads := indexed.leads.dropIndex field
  have dropped := table.dropIndex_dropped field
  unfold CTable.dropIndex at leads dropped ⊢
  split
  · exact indexed
  · next skip chain =>
      simp only [chain] at leads
      refine ⟨leads, ?_, ?_⟩
      · intro other
        by_cases same : other = field
        · subst same
          refine ⟨by simp [CTable.setSkipList], ?_, ?_⟩
          · intro _ id listed
            simp only [Function.update_self, ite_eq_left_iff]
            exact fun absent => absurd listed absent
          · intro id late
            have free := (indexed.index other).unused id late
            simp only [Function.update_self, free, ite_self]
        · refine (indexed.index other).transport ?_ ?_ rfl rfl (Nat.le_refl _) ?_
          · simp [CTable.setSkipList, same]
          · simp [same]
          · exact fun _ _ _ _ _ => ReflCmp.compare_self
      · intro other id listed included exists'
        by_cases same : other = field
        · subst same
          simp [CTable.setSkipList] at exists'
        · simp only [CTable.setSkipList, Function.update_of_ne same] at exists' ⊢
          exact indexed.complete other id listed included exists'

-----------------------------------------------------------------------------------------
-- Creating indexes
-----------------------------------------------------------------------------------------

/-- The assertion of the loop that fills a new index: the rows behind are in it. -/
structure CTable.Filling (before : CTable creator) (field : creator.Field) (rest : List RowId)
    (table : CTable creator) : Prop where
  leads : table.Leads
  llHead : table.llHead = before.llHead
  index : ∀ other, table.FieldIndex other
  complete : ∀ other, other ≠ field → table.Complete other (fun _ => False)
  distinct : rest.Nodup
  coming : ∀ id ∈ rest, id ∈ table.llHead ∧ table.links field id = none
  done : ∀ id ∈ table.llHead, id ∉ rest → (table.skipLists field).isSome →
    (table.links field id).isSome

/-- One row of that loop. -/
theorem CTable.Filling.step {before table : CTable creator} {field : creator.Field} {id : RowId}
    {rest : List RowId} (filling : before.Filling field (id :: rest) table)
    : wp (insertIntoIndex host field id) (fun _ => before.Filling field rest) (fun _ _ => True)
        table := by
  obtain ⟨first, distinct⟩ := List.nodup_cons.mp filling.distinct
  obtain ⟨listed, free⟩ := filling.coming id (by simp)
  have inserted := @insertIntoIndex_spec creator table host field id (filling.index field) listed
    (filling.leads.bounded listed) free
  have led := ((writeSteps_leads host id).insert field).keeps
    (show table.LeadsTo id from ⟨filling.leads, listed⟩)
  refine wp_mono (wp_and inserted led) ?_ (fun _ _ _ => trivial)
  rintro - after ⟨⟨entered, -⟩, leads, -⟩
  have cellFrame := entered.frame.cellFrame id
  refine {
    leads := leads
    llHead := entered.frame.llHead.trans filling.llHead
    index := ?_, complete := ?_
    distinct := distinct
    coming := ?_, done := ?_ }
  · intro other
    by_cases same : other = field
    · rw [same]
      exact entered.index
    · exact (filling.index other).cellFrame cellFrame same
  · intro other different row inTable _ chain
    rw [entered.frame.links other different]
    exact filling.complete other different row (entered.frame.llHead ▸ inTable) not_false
      (cellFrame.exists' other ▸ chain)
  · intro other member
    obtain ⟨inTable, unlinked⟩ := filling.coming other (by simp [member])
    refine ⟨entered.frame.llHead ▸ inTable, ?_⟩
    rw [entered.others other (fun same => first (same ▸ member))]
    exact unlinked
  · intro other inTable absent chain
    by_cases same : other = id
    · rw [same]
      exact entered.linked chain
    · rw [entered.others other same]
      exact filling.done other (entered.frame.llHead ▸ inTable) (by simp [same, absent])
        (cellFrame.exists' field ▸ chain)

/-- A new skip list with links is in order, and holds no row yet. -/
theorem CTable.Indexed.filling {table : CTable creator} (indexed : table.Indexed)
    {field : creator.Field} (indexable : (creator.fields field).indexed = true)
    (none : table.skipLists field = none) {skip : SkipList RowId} (empty : skip.nodes = [])
    (curl : skip.curl = Option.none) (depth : skip.maxh ≠ 1)
    : table.Filling field table.llHead
        { table.setSkipList field (some skip) with
          nextNode := table.nextNode + 1
          allocations := table.allocations + 1 } := by
  have free := (indexed.index field).unlinked none
  refine {
    leads := indexed.leads.setEmpty field (fun list same => by cases same; exact empty) _ _
    llHead := rfl
    index := ?_, complete := ?_
    distinct := indexed.leads.nodup
    coming := fun id listed => ⟨listed, free id listed⟩
    done := fun id listed absent => absurd listed absent }
  · intro other
    by_cases same : other = field
    · subst same
      refine ⟨?_, ?_, (indexed.index other).unused⟩
      · intro list chain
        obtain rfl : skip = list := by simpa [CTable.setSkipList] using chain
        refine ⟨indexable, {
          depth := depth
          headless := fun _ => empty
          ordered := by rw [empty]; constructor <;> simp
          unique := by simp [empty]
          members := by simp [empty]
          links := ?_
          fresh := by simp [empty]
          curl := by simp [curl] }⟩
        intro id listed node
        change table.links other id = some node ↔ _
        rw [free id listed, empty]
        exact ⟨fun same => (by cases same), by simp [Holds]⟩
      · intro absent
        simp [CTable.setSkipList] at absent
    · refine (indexed.index other).transport ?_ rfl rfl rfl (Nat.le_succ _)
        (fun _ _ _ _ _ => ReflCmp.compare_self)
      simp [CTable.setSkipList, same]
  · intro other different id listed included chain
    refine indexed.complete other id listed included ?_
    simpa [CTable.setSkipList, different] using chain

/-- Creating an index of another depth than 0 enters every row in it. -/
theorem createIndex_indexed {table : CTable creator} {field : creator.Field} {depth : Int}
    (indexed : table.Indexed) (deep : depth ≠ 0)
    : wp (createIndex host field depth) (fun _ => CTable.Indexed) (fun _ _ => True) table := by
  rw [createIndex, wp_bind, wp_get]
  split
  · trivial
  · next indexable =>
      split
      · exact indexed
      · next absent =>
          rw [wp_bind, wp_inspect]
          refine ⟨?_, fun _ _ => trivial⟩
          intro skip created
          obtain ⟨empty, curl, links⟩ : skip.nodes = [] ∧ skip.curl = none ∧ skip.maxh ≠ 1 := by
            unfold CTable.snew at created
            split at created
            · cases created
            · split at created <;> cases created
              exact ⟨rfl, rfl, by dsimp only; omega⟩
          have start := indexed.filling (by simpa using indexable) (by simpa using absent) empty
            curl links
          rw [wp_bind, wp_modify, wp_onTclError]
          refine wp_mono (@wp_forM_rest Stop (CTable creator) _ _ (fun _ _ => True)
            (table.Filling field) (fun id rest middle filling => filling.step) _ _ start) ?_ ?_
          · intro _ after filled
            refine ⟨filled.leads, filled.index, fun other => ?_⟩
            by_cases same : other = field
            · rw [same]
              exact fun id listed _ chain => filled.done id listed (by simp) chain
            · exact filled.complete other same
          · intro stop after _
            cases stop <;> trivial

end SpeedTables
