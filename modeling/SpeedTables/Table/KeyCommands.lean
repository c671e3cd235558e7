import SpeedTables.Table.KeyInvariant
import SpeedTables.Table.Pointers
import SpeedTables.Table.Upkeep

/-! The table commands keep the key hash table and the row list together, as long as none gives a
new row another key.
-/

namespace SpeedTables

open Lib

variable {creator : CreatorTable} {host : Host}

-----------------------------------------------------------------------------------------
-- The invariant and its parts
-----------------------------------------------------------------------------------------

/-- The hash table and the row list agree, and all pointers to rows are settled. -/
def CTable.KeyedRows (table : CTable creator) : Prop :=
  table.Keyed ∧ table.Leads

/-- A new table has no rows. -/
theorem CTable.KeyedRows.empty (creator : CreatorTable) (sharedMaster sharePanic : Bool)
    : (CTable.empty creator sharedMaster sharePanic).KeyedRows := by
  refine ⟨?_, CTable.Leads.empty creator sharedMaster sharePanic⟩
  exact
    { nodup := List.nodup_nil
      keyed := nofun
      distinct := nofun
      bounded := nofun
      unused := fun _ _ => rfl
      hash := nofun
      linked := fun index => ⟨[], rfl, List.nodup_nil, by simp [CTable.empty]⟩
      mask := rfl
      numEntries := rfl
      count := rfl }

/-- The invariant while a row is written: it is in the table. -/
def CTable.KeyedDuring (_ : IndexCtl) (id : RowId) (table : CTable creator) : Prop :=
  table.KeyedRows ∧ id ∈ table.llHead

/-- The rows, the hash table and the counter have not changed. -/
structure CTable.SameKeys (before after : CTable creator) : Prop where
  rows : after.rows = before.rows
  nextRow : after.nextRow = before.nextRow
  llHead : after.llHead = before.llHead
  keyTable : after.keyTable = before.keyTable
  count : after.count = before.count

instance sameKeys_preorder : IsPreorder (CTable creator) CTable.SameKeys where
  refl := fun _ => ⟨rfl, rfl, rfl, rfl, rfl⟩
  trans := fun _ _ _ first second =>
    ⟨second.rows.trans first.rows, second.nextRow.trans first.nextRow,
      second.llHead.trans first.llHead, second.keyTable.trans first.keyTable,
      second.count.trans first.count⟩

/-- The agreement is about nothing else. -/
theorem CTable.Keyed.congr {before after : CTable creator} (keyed : before.Keyed)
    (same : before.SameKeys after)
    : after.Keyed := by
  have rowAt : after.rowAt = before.rowAt := by
    funext id
    simp [CTable.rowAt, same.rows]
  obtain ⟨rows, nextRow, llHead, keyTable, count⟩ := same
  constructor
  · rw [llHead]; exact keyed.nodup
  · rw [llHead, rows]; exact keyed.keyed
  · rw [llHead, rowAt]; exact keyed.distinct
  · rw [llHead, nextRow]; exact keyed.bounded
  · rw [nextRow, rows]; exact keyed.unused
  · rw [llHead, keyTable, rowAt]; exact keyed.hash
  · rw [keyTable, llHead]; exact keyed.linked
  · rw [keyTable]; exact keyed.mask
  · rw [keyTable, llHead]; exact keyed.numEntries
  · rw [count, llHead]; exact keyed.count

theorem respects_removeFromIndex_keys (field : creator.Field) (id : RowId)
    : Respects CTable.SameKeys (removeFromIndex field id : TableM creator Unit) :=
  (respects_removeFromIndex field id).mono fun frame =>
    ⟨frame.rows, frame.nextRow, frame.llHead, frame.keyTable, frame.count⟩

theorem respects_insertIntoIndex_keys (field : creator.Field) (id : RowId)
    : Respects CTable.SameKeys (insertIntoIndex host field id : TableM creator Unit) :=
  (respects_insertIntoIndex host field id).mono fun frame =>
    ⟨frame.rows, frame.nextRow, frame.llHead, frame.keyTable, frame.count⟩

/-- However it ends, a computation that changes no key keeps the agreement. -/
theorem keeps_keyed {α : Type} {action : TableM creator α} {table : CTable creator}
    (respects : Respects CTable.SameKeys action) (keyed : table.Keyed)
    : wp action (fun _ => CTable.Keyed) (fun _ => CTable.Keyed) table :=
  wp_mono (respects table) (fun _ _ same => keyed.congr same) (fun _ _ same => keyed.congr same)

-----------------------------------------------------------------------------------------
-- Setter calls
-----------------------------------------------------------------------------------------

/-- A call that gives a row being created another key, which no row has: the row stays linked under
its first key as well.
-/
structure Call.RekeysNew (call : Call creator) : Prop where
  new : call.ctl = .new
  rekeys : ∃ obj, call.write = .set creator.keyField obj
    ∧ (call.table.rowAt call.id).key ≠ some obj
    ∧ ∀ other, call.table.findHashEntry obj ≠ .ok (some other)

/-- Marking a row as dirty keeps the agreement. -/
theorem setDirty_keyed {table : CTable creator} (keyed : table.Keyed) (id : RowId)
    : wp (setDirty id) (fun _ => CTable.Keyed) (fun _ => CTable.Keyed) table :=
  wp_mono (@respects_putCell _ creator.dirtyField _ id creator.dirtyCell (.inl rfl) table)
    (fun _ _ frame => keyed.cellFrame frame) (fun _ _ frame => keyed.cellFrame frame)

/-- Setting the key of a row keeps the agreement, unless the row is new and the key free. -/
theorem setField_key_keyed {table : CTable creator} {ctl : IndexCtl} {id : RowId} {obj : Obj}
    (keyed : table.Keyed) (listed : id ∈ table.llHead)
    (safe : ctl = .new → (table.rowAt id).key = some obj
      ∨ ∃ other, table.findHashEntry obj = .ok (some other))
    : wp (setField host ctl id creator.keyField obj) (fun _ => CTable.Keyed)
        (stopped CTable.Keyed (fun _ => True)) table := by
  rw [setField, wp_bind, wp_inspect]
  refine ⟨fun row read => ?_, fun _ _ => trivial⟩
  rw [if_pos rfl]
  split
  · exact keyed
  · next different =>
      rw [wp_bind]
      have rekeyed : wp (reinsertRow host ctl id obj) (fun _ => CTable.Keyed)
          (stopped CTable.Keyed (fun _ => True)) table := by
        cases ctl with
        | normal =>
            refine wp_mono (reinsertRow_keyed host keyed listed obj) (fun _ _ after => after) ?_
            intro stop after stops
            cases stop with
            | fault fault => trivial
            | tcl error =>
                obtain ⟨allocations, rfl⟩ := stops
                exact keyed.allocated allocations
        | new =>
            have here : (table.rowAt id).key ≠ some obj := by
              rw [(CTable.row_eq read).2]
              exact different
            obtain ⟨other, lookup⟩ := (safe rfl).resolve_left here
            rw [reinsertRow, wp_bind, wp_inspect]
            refine ⟨fun entry found => ?_, fun _ _ => trivial⟩
            obtain rfl : some other = entry := by simpa [lookup] using found
            exact keyed
      refine wp_mono rekeyed ?_ (fun _ _ stop => stop)
      intro _ after keyed
      refine wp_mono (setDirty_keyed keyed id) (fun _ _ after => after) ?_
      intro stop final here
      cases stop with
      | tcl error => exact here
      | fault fault => trivial

/-- A call that does not re-key a new row keeps the agreement. -/
theorem Call.keeps_keys {call : Call creator} (safe : ¬ call.RekeysNew)
    (here : call.table.KeyedDuring call.ctl call.id)
    : wp (call.run host) (fun _ => CTable.KeyedDuring call.ctl call.id)
        (stopped CTable.KeyedRows (fun _ => True)) call.table := by
  obtain ⟨ctl, id, write, table⟩ := call
  obtain ⟨⟨keyed, leads⟩, listed⟩ := here
  dsimp only at keyed leads listed ⊢
  have led := ((writeSteps_leads host id).write ctl write).keeps
    (show table.LeadsTo id from ⟨leads, listed⟩)
  have framed : ∀ {field : creator.Field},
      Respects (CTable.CellFrame field id) (write.run host ctl id) →
      wp (write.run host ctl id) (fun _ => CTable.Keyed) (stopped CTable.Keyed (fun _ => True))
        table := by
    intro field respects
    refine wp_mono (respects table) (fun _ _ frame => keyed.cellFrame frame) ?_
    intro stop after frame
    cases stop with
    | tcl error => exact keyed.cellFrame frame
    | fault fault => trivial
  have kept : wp (write.run host ctl id) (fun _ => CTable.Keyed)
      (stopped CTable.Keyed (fun _ => True)) table := by
    cases write with
    | incr field obj => exact framed (respects_incrField host ctl id field obj)
    | null field => exact framed (respects_setNull host id field)
    | set field obj =>
        rcases Decidable.em (field = creator.keyField) with rfl | notKey
        · refine setField_key_keyed keyed listed ?_
          rintro rfl
          by_contra rekeys
          rw [not_or, not_exists] at rekeys
          exact safe ⟨rfl, obj, rfl, rekeys.1, rekeys.2⟩
        · exact framed (respects_setField_cell host ctl id obj notKey)
  refine wp_mono (wp_and kept led) ?_ ?_
  · exact fun _ after both => ⟨⟨both.1, both.2.1⟩, both.2.2⟩
  · intro stop after both
    cases stop with
    | tcl error => exact ⟨both.1, both.2.1⟩
    | fault fault => trivial

-----------------------------------------------------------------------------------------
-- Creating and deleting rows
-----------------------------------------------------------------------------------------

/-- A row linked under a key that no row has joins the others. -/
theorem CTable.Keyed.withRow {table : CTable creator} (keyed : table.Keyed) {key : CString}
    {keyTable : HashTable} {allocations : Nat} (lookup : table.findHashEntry key = .ok none)
    (linked
      : ({ table with allocations := allocations }.putRow table.nextRow
          { creator.init with key := some key }).linkHashEntry key table.nextRow = .ok keyTable)
    : (table.withRow key keyTable allocations).Keyed := by
  obtain ⟨found, result, isFound⟩ := keyed.findHashEntry_eq key
  have free : ∀ other ∈ table.llHead, (table.rowAt other).key ≠ some key := by
    intro other inTable hasKey
    have here := (isFound other).mpr ⟨inTable, hasKey⟩
    rw [here, lookup] at result
    cases result
  have notListed : table.nextRow ∉ table.llHead := fun inside =>
    absurd (keyed.bounded _ inside) (Nat.lt_irrefl _)
  have before : (CTable.putRow { table with allocations := allocations } table.nextRow
      { creator.init with key := some key }).keyTable.Linked table.llHead := keyed.linked
  obtain ⟨holds, hash, mask, entries⟩ :=
    CTable.linkHashEntry_spec before notListed keyed.mask linked
  have hash : keyTable.hash =
      Function.update table.keyTable.hash table.nextRow (hashStringKey key) := hash
  have entries : keyTable.numEntries = table.keyTable.numEntries + 1 := entries
  have others : ∀ other, other ≠ table.nextRow →
      (table.withRow key keyTable allocations).rows other = table.rows other := by
    intro other different
    simp [CTable.withRow, CTable.putRow, different]
  have othersAt : ∀ other, other ≠ table.nextRow →
      (table.withRow key keyTable allocations).rowAt other = table.rowAt other := by
    intro other different
    simp [CTable.rowAt, others other different]
  have new : (table.withRow key keyTable allocations).rows table.nextRow =
      some { creator.init with key := some key } := by
    simp [CTable.withRow, CTable.putRow]
  have newAt : (table.withRow key keyTable allocations).rowAt table.nextRow =
      { creator.init with key := some key } := by
    simp [CTable.rowAt, new]
  have old : ∀ other ∈ table.llHead, other ≠ table.nextRow := by
    rintro other inside rfl
    exact notListed inside
  refine {
    nodup := List.nodup_cons.mpr ⟨notListed, keyed.nodup⟩
    keyed := ?_, distinct := ?_, bounded := ?_, unused := ?_, hash := ?_
    linked := holds
    mask := mask
    numEntries := ?_, count := ?_ }
  · intro id listed
    rcases List.mem_cons.mp listed with rfl | inside
    · exact ⟨_, key, new, rfl⟩
    · rw [others id (old id inside)]
      exact keyed.keyed id inside
  · intro left inLeft right inRight same
    rcases List.mem_cons.mp inLeft with rfl | left' <;>
      rcases List.mem_cons.mp inRight with rfl | right'
    · rfl
    · rw [newAt, othersAt right (old right right')] at same
      exact absurd same.symm (free right right')
    · rw [newAt, othersAt left (old left left')] at same
      exact absurd same (free left left')
    · rw [othersAt left (old left left'), othersAt right (old right right')] at same
      exact keyed.distinct left left' right right' same
  · intro id listed
    rcases List.mem_cons.mp listed with rfl | inside
    · exact Nat.lt_succ_self _
    · exact Nat.lt_succ_of_lt (keyed.bounded id inside)
  · intro id late
    rw [others id (Nat.ne_of_gt late)]
    exact keyed.unused id (Nat.le_of_lt late)
  · intro id listed
    change keyTable.hash id = _
    rw [hash]
    rcases List.mem_cons.mp listed with rfl | inside
    · rw [newAt]
      simp [Row.keyString]
    · rw [Function.update_of_ne (old id inside), othersAt id (old id inside)]
      exact keyed.hash id inside
  · change keyTable.numEntries = ((table.nextRow :: table.llHead).length : Int)
    rw [entries, keyed.numEntries, List.length_cons]
    rfl
  · change table.count + 1 = ((table.nextRow :: table.llHead).length : Int)
    rw [keyed.count, List.length_cons]
    rfl

/-- Finding or creating a row keeps the agreement. -/
theorem CTable.FoundOrCreated.keyed {table after : CTable creator} {key : CString}
    {row : RowId × IndexCtl} (outcome : table.FoundOrCreated key row after) (keyed : table.Keyed)
    : after.Keyed := by
  cases outcome with
  | found lookup => exact keyed.allocated _
  | created lookup linked => exact keyed.withRow lookup linked

/-- A row that is unlinked and taken off the list leaves the others in agreement. -/
theorem CTable.Keyed.discarded {table : CTable creator} (keyed : table.Keyed) {id : RowId}
    (listed : id ∈ table.llHead) {keyTable : HashTable}
    (deleted : table.deleteHashEntry id = .ok keyTable)
    : (table.discarded id keyTable).Keyed := by
  obtain ⟨holds, hash, mask, entries⟩ :=
    CTable.deleteHashEntry_spec keyed.linked keyed.mask deleted
  have members : ∀ other, other ∈ table.llHead.erase id ↔ other ∈ table.llHead ∧ other ≠ id := by
    intro other
    rw [keyed.nodup.mem_erase_iff]
    exact and_comm
  have others : ∀ other, other ≠ id →
      (table.discarded id keyTable).rows other = table.rows other := by
    intro other different
    simp [CTable.discarded, CTable.freeRow, different]
  have othersAt : ∀ other, other ≠ id →
      (table.discarded id keyTable).rowAt other = table.rowAt other := by
    intro other different
    simp [CTable.rowAt, others other different]
  have shorter : ((table.llHead.erase id).length : Int) = table.llHead.length - 1 := by
    have some := List.length_pos_of_mem listed
    rw [List.length_erase_of_mem listed]
    omega
  refine {
    nodup := keyed.nodup.erase id
    keyed := ?_, distinct := ?_, bounded := ?_, unused := ?_, hash := ?_, linked := ?_
    mask := mask
    numEntries := ?_, count := ?_ }
  · intro other known
    obtain ⟨inside, different⟩ := (members other).mp known
    rw [others other different]
    exact keyed.keyed other inside
  · intro left inLeft right inRight same
    obtain ⟨left', leftApart⟩ := (members left).mp inLeft
    obtain ⟨right', rightApart⟩ := (members right).mp inRight
    rw [othersAt left leftApart, othersAt right rightApart] at same
    exact keyed.distinct left left' right right' same
  · exact fun other known => keyed.bounded other ((members other).mp known).1
  · intro other late
    have apart : other ≠ id := by
      rintro rfl
      exact absurd (keyed.bounded other listed) (Nat.not_lt.mpr late)
    rw [others other apart]
    exact keyed.unused other late
  · intro other known
    obtain ⟨inside, different⟩ := (members other).mp known
    rw [othersAt other different]
    change keyTable.hash other = _
    rw [hash]
    exact keyed.hash other inside
  · refine BucketsHold.members_congr holds fun other => ?_
    change other ∈ table.llHead.erase id ↔ _
    rw [members other]
    simp
  · change keyTable.numEntries = ((table.llHead.erase id).length : Int)
    rw [entries, keyed.numEntries, shorter]
  · change table.count - 1 = ((table.llHead.erase id).length : Int)
    rw [keyed.count, shorter]

/-- Deleting a row keeps the agreement. -/
theorem discardRow_keyed {table : CTable creator} {id : RowId} (here : table.KeyedRows)
    : wp (discardRow id) (fun _ => CTable.KeyedRows)
        (stopped CTable.KeyedRows (fun _ => True)) table := by
  obtain ⟨keyed, leads⟩ := here
  by_cases listed : id ∈ table.llHead
  · refine discardRow_spec (fun _ _ => trivial) ?_
    have kept : wp (leaveIndexes id) (fun _ => CTable.Keyed) (fun _ => CTable.Keyed) table :=
      keeps_keyed (Respects.forM fun field _ => respects_removeFromIndex_keys field id) keyed
    have led := (respects_leaveIndexes id).keeps (show table.LeadsTo id from ⟨leads, listed⟩)
    have faults : wp (leaveIndexes id) (fun _ _ => True)
        (stopped (fun _ => False) (fun _ => True)) table := by
      refine @wp_forM Stop (CTable creator) _ (fun field => removeFromIndex field id) _
        (fun _ => True) _ _ (fun field _ state _ => ?_) trivial
      rw [removeFromIndex, wp_bind, wp_inspect]
      exact ⟨fun _ _ => trivial, fun _ _ => trivial⟩
    refine wp_mono (wp_and (wp_and kept led) faults) ?_ (fun _ _ both => both.2)
    rintro - left ⟨⟨keyed, leads, listed⟩, -⟩ keyTable deleted - -
    exact ⟨keyed.discarded listed deleted, leads.discarded listed deleted⟩
  · rw [discardRow, wp_bind, deleteRow, wp_bind, removeFromAllIndexes, wp_bind, wp_get,
      if_neg listed]
    trivial

/-- Emptying the table and its hash table leaves them in agreement. -/
theorem CTable.Emptied.keyed {before after : CTable creator} (emptied : before.Emptied after)
    (keyed : before.Keyed)
    : CTable.Keyed { after with keyTable := after.keyTable.init } where
  nodup := by simp [emptied.llHead]
  keyed := by simp [emptied.llHead]
  distinct := by simp [emptied.llHead]
  bounded := by simp [emptied.llHead]
  unused := by
    intro id late
    rcases emptied.rows id with same | freed
    · exact same.trans (keyed.unused id (emptied.nextRow ▸ late))
    · exact freed
  hash := by simp [emptied.llHead]
  linked := by
    rw [show ({ after with keyTable := after.keyTable.init } : CTable creator).llHead = [] from
      emptied.llHead]
    exact BucketsHold.empty _ _
  mask := rfl
  numEntries := by simp [emptied.llHead, HashTable.init]
  count := by simp [emptied.llHead, emptied.count]

-----------------------------------------------------------------------------------------
-- Indexes
-----------------------------------------------------------------------------------------

/-- Completing the indexes of a new row changes no key. -/
theorem finishRow_keys (ctl : IndexCtl) (id : RowId)
    : Respects CTable.SameKeys (finishRow host ctl id : TableM creator Unit) := by
  refine Respects.ite (Respects.forM fun field _ => ?_) Respects.pure
  exact Respects.get.bind fun table =>
    Respects.ite (respects_insertIntoIndex_keys field id) Respects.pure

/-- Creating an index changes no key, also when it fails. -/
theorem createIndex_keys (field : creator.Field) (depth : Int)
    : Respects CTable.SameKeys (createIndex host field depth : TableM creator Unit) := by
  intro table
  have same : ∀ {skip : Option (SkipList RowId)} {nextNode allocations : Nat},
      ∀ middle : CTable creator, middle.SameKeys { middle.setSkipList field skip with
        nextNode := nextNode, allocations := allocations } :=
    fun middle => ⟨rfl, rfl, rfl, rfl, rfl⟩
  rw [createIndex, wp_bind, wp_get]
  split
  · exact sameKeys_preorder.refl table
  · split
    · exact sameKeys_preorder.refl table
    · rw [wp_bind, wp_inspect]
      refine ⟨fun skip _ => ?_, fun _ _ => sameKeys_preorder.refl table⟩
      rw [wp_bind, wp_modify, wp_onTclError]
      have filled : Respects CTable.SameKeys
          (table.llHead.forM (fun id => insertIntoIndex host field id) : TableM creator Unit) :=
        Respects.forM fun id _ => respects_insertIntoIndex_keys field id
      refine wp_mono (filled _) (fun _ _ after => sameKeys_preorder.trans _ _ _ (same table) after)
        ?_
      intro stop after kept
      have moved := sameKeys_preorder.trans _ _ _ (same table) kept
      cases stop with
      | fault fault => exact moved
      | tcl error => exact sameKeys_preorder.trans _ _ _ moved (same after)

/-- Dropping an index changes no key. -/
theorem CTable.IndexesDropped.sameKeys {before after : CTable creator}
    (dropped : before.IndexesDropped after)
    : before.SameKeys after :=
  ⟨dropped.rows, dropped.nextRow, dropped.llHead, dropped.keyTable, dropped.count⟩

/-- What the commands that write rows owe to the agreement. -/
theorem keyUpkeep (host : Host)
    : @Upkeep creator host CTable.KeyedRows CTable.KeyedDuring CTable.KeyedRows
        (fun _ => True) (fun call => ¬ call.RekeysNew) where
  stops := fun _ here => here
  breaks := fun _ _ _ here => here.1
  others := fun _ _ => trivial
  counter := fun table number here =>
    ⟨{ here.1 with }, here.2.transport (fun _ => rfl) rfl rfl here.2.hash here.2.nodes
      here.2.lastNext here.2.fresh⟩
  find := fun table key id here lookup => ⟨here, here.2.findHashEntry_listed lookup⟩
  create := by
    intro table key here
    refine wp_mono (findOrCreate_spec host key table) ?_ ?_
    · intro row after outcome
      obtain ⟨leads, listed⟩ := outcome.leads here.2
      exact ⟨⟨outcome.keyed here.1, leads⟩, listed⟩
    · intro stop after stops
      cases stop with
      | fault fault => trivial
      | tcl error =>
          obtain ⟨allocations, rfl⟩ := stops
          exact ⟨here.1.allocated allocations, here.2.allocated allocations⟩
  write := fun call safe here => Call.keeps_keys safe here
  dirty := by
    intro ctl id table here
    obtain ⟨⟨keyed, leads⟩, listed⟩ := here
    have led := ((writeSteps_leads host id).setDirty).keeps
      (show table.LeadsTo id from ⟨leads, listed⟩)
    refine wp_mono (wp_and (setDirty_keyed keyed id) led) ?_ ?_
    · exact fun _ after both => ⟨⟨both.1, both.2.1⟩, both.2.2⟩
    · intro stop after both
      cases stop with
      | fault fault => trivial
      | tcl error => exact ⟨both.1, both.2.1⟩
  finish := by
    intro ctl id table here
    obtain ⟨⟨keyed, leads⟩, listed⟩ := here
    have led := ((writeSteps_leads host id).finishRow ctl).keeps
      (show table.LeadsTo id from ⟨leads, listed⟩)
    refine wp_mono (wp_and (keeps_keyed (finishRow_keys ctl id) keyed) led) ?_ ?_
    · exact fun _ after both => ⟨both.1, both.2.1⟩
    · intro stop after both
      cases stop with
      | fault fault => trivial
      | tcl error => exact ⟨both.1, both.2.1⟩

end SpeedTables
