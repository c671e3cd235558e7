import SpeedTables.Table.IndexCreation

/-! The indexes that a setter call links a row being created in, and the panic of a second link. -/

namespace SpeedTables

open Lib

variable {creator : CreatorTable} {host : Host}

/-- The panic of an insertion of a row that is linked already. -/
def Stop.DoublesInsert (stop : Stop) : Prop :=
  ∃ name, stop = .fault (.doubleInsert name)

theorem Fault.NotDouble.stop {fault : Fault} (other : fault.NotDouble)
    : ¬ (Stop.fault fault).DoublesInsert := by
  rintro ⟨name, same⟩
  exact other name (Stop.fault.inj same)

theorem Stop.tcl_notDouble (error : TclError) : ¬ (Stop.tcl error).DoublesInsert := by
  rintro ⟨name, same⟩
  cases same

-----------------------------------------------------------------------------------------
-- One index
-----------------------------------------------------------------------------------------

/-- A row is in the index of a field, and would be inserted again. -/
def CTable.Occupied (table : CTable creator) (id : RowId) (field : creator.Field) : Prop :=
  (table.skipLists field).isSome = true ∧ (table.links field id).isSome = true

/-- The row is linked in the index of a field as before, and now also if there is an index. -/
def CTable.NowLinked (field : creator.Field) (id : RowId) (before after : CTable creator) : Prop :=
  (after.links field id).isSome = true ↔
    (before.links field id).isSome = true ∨ (before.skipLists field).isSome = true

/-- An insertion links its row, and panics only where the row is linked already. -/
theorem insertIntoIndex_nowLinked {table : CTable creator} {field : creator.Field} {id : RowId}
    : wp (insertIntoIndex host field id) (fun _ => table.NowLinked field id)
        (fun stop _ => stop.DoublesInsert → table.Occupied id field) table := by
  rw [insertIntoIndex, wp_bind, wp_get]
  split
  · next absent => simp [CTable.NowLinked, absent]
  · next skip chain =>
      split
      · next linked => exact fun _ => ⟨by simp [chain], linked⟩
      · rw [wp_bind, wp_inspect]
        refine ⟨?_, fun fault stops double => absurd double (CTable.row_fault stops).stop⟩
        intro row found
        rw [wp_bind, wp_inspect]
        refine ⟨?_, fun fault stops double =>
          absurd double (CTable.sinsertLinked_fault stops).stop⟩
        intro inserted result
        cases inserted with
        | none => exact fun double => absurd double (Stop.tcl_notDouble _)
        | some after =>
            have linked := (CTable.sinsertLinked_links result).1
            change (after.links field id).isSome = true ↔ _
            simp [chain, Option.isSome_iff_ne_none, linked]

/-- A removal that ends leaves no index that holds the row. -/
theorem CTable.removeFromIndex_unoccupied {table after : CTable creator} {field : creator.Field}
    {id : RowId} (removed : table.removeFromIndex field id = .ok after)
    : ¬ after.Occupied id field := by
  rintro ⟨chain, linked⟩
  unfold CTable.removeFromIndex at removed
  split at removed
  · split at removed
    · cases removed
    · dsimp only at removed
      split at removed
      · split at removed
        · cases removed
        · cases removed
          simp [CTable.unlinkRow, CTable.setSkipList, CTable.setLink] at linked
      · cases removed
        simp [CTable.unlinkRow, CTable.setSkipList, CTable.setLink] at linked
  · next free =>
      cases removed
      obtain ⟨skip, present⟩ := Option.isSome_iff_exists.mp chain
      obtain ⟨node, link⟩ := Option.isSome_iff_exists.mp linked
      exact free skip node present link

/-- Removal before a write does not panic. -/
theorem removeFromIndexSource_unoccupied {table : CTable creator} (ctl : IndexCtl)
    {field : creator.Field} {id : RowId}
    : wp (removeFromIndexSource ctl field id)
        (fun _ after => (ctl = .normal → ¬ after.Occupied id field) ∧ (ctl = .new → after = table))
        (fun stop _ => ¬ stop.DoublesInsert) table := by
  cases ctl with
  | normal =>
      rw [removeFromIndexSource, if_pos rfl, removeFromIndex, wp_bind, wp_inspect]
      refine ⟨?_, fun fault stops => (CTable.removeFromIndex_fault stops).stop⟩
      exact fun after removed =>
        ⟨fun _ => CTable.removeFromIndex_unoccupied removed, fun same => by cases same⟩
  | new =>
      rw [removeFromIndexSource, if_neg (by simp)]
      exact ⟨fun same => (by cases same), fun _ => rfl⟩

-----------------------------------------------------------------------------------------
-- One setter
-----------------------------------------------------------------------------------------

/-- Storing in a row being created enters it in the index, and panics only where the index holds
it already.
-/
theorem storeIndexed_new {table : CTable creator} {id : RowId} {field : creator.Field}
    {row : Row creator} {flagged stored : Cell (creator.type field)} {allocates : Bool}
    (found : table.rows id = some row)
    : wp (storeIndexed host .new id field flagged allocates stored)
        (fun _ after => table.NowLinked field id after ∧ ¬ table.AllocationFails host allocates)
        (fun stop _ => stop.DoublesInsert →
          table.Occupied id field ∧ ¬ table.AllocationFails host allocates)
        table := by
  rw [storeIndexed, wp_bind, removeFromIndexSource, if_neg (by simp), wp_pure, wp_bind,
    putCell_spec found, wp_bind]
  refine wp_mono allocateMayFail_spec ?_ ?_
  · rintro - allocated ⟨granted, count, rfl⟩
    have there : ({ table.putRow id (row.setCell field flagged) with
        allocations := count } : CTable creator).rows id = some (row.setCell field flagged) := by
      simp [CTable.putRow]
    rw [wp_bind, putCell_spec there]
    refine wp_mono insertIntoIndex_nowLinked ?_ ?_
    · exact fun _ _ linked => ⟨linked, granted⟩
    · exact fun _ _ occupied double => ⟨occupied double, granted⟩
  · rintro stop after ⟨-, ⟨rfl, -⟩ | ⟨rfl, -⟩, -⟩ double
    · obtain ⟨name, same⟩ := double
      cases same
    · exact absurd double (Stop.tcl_notDouble _)

/-- Storing in an existing row does not panic. -/
theorem storeIndexed_normal {table : CTable creator} {id : RowId} {field : creator.Field}
    {flagged stored : Cell (creator.type field)} {allocates : Bool}
    : wp (storeIndexed host .normal id field flagged allocates stored) (fun _ _ => True)
        (fun stop _ => ¬ stop.DoublesInsert) table := by
  have puts : ∀ (cell : Cell (creator.type field)) (middle : CTable creator),
      ¬ middle.Occupied id field →
      wp (putCell field id cell) (fun _ after => ¬ after.Occupied id field)
        (fun stop _ => ¬ stop.DoublesInsert) middle := by
    intro cell middle free
    rw [putCell, wp_bind, wp_inspect]
    exact ⟨fun _ _ => free, fun fault stops => (CTable.row_fault stops).stop⟩
  rw [storeIndexed, wp_bind]
  refine wp_mono (removeFromIndexSource_unoccupied .normal) ?_ (fun _ _ single => single)
  rintro - removed ⟨free, -⟩
  rw [wp_bind]
  refine wp_mono (puts flagged removed (free rfl)) ?_ (fun _ _ single => single)
  rintro - put free
  rw [wp_bind]
  refine wp_mono allocateMayFail_spec ?_ ?_
  · rintro - allocated ⟨-, count, rfl⟩
    rw [wp_bind]
    refine wp_mono (puts stored _ free) ?_ (fun _ _ single => single)
    rintro - written free
    exact wp_mono insertIntoIndex_nowLinked (fun _ _ _ => trivial)
      (fun _ _ occupied double => free (occupied double))
  · rintro stop after ⟨-, ⟨rfl, -⟩ | ⟨rfl, -⟩, -⟩
    · rintro ⟨name, same⟩
      cases same
    · exact Stop.tcl_notDouble _

/-- Storing without index maintenance does not panic, and leaves the links of a row being created
as they are.
-/
theorem storeUnindexed_unlinked {table : CTable creator} (ctl : IndexCtl) {id : RowId}
    {field : creator.Field} {flagged stored : Cell (creator.type field)}
    : wp (storeUnindexed ctl id field flagged stored)
        (fun _ after => ctl = .new → after.links = table.links)
        (fun stop _ => ¬ stop.DoublesInsert) table := by
  have puts : ∀ (cell : Cell (creator.type field)) (middle : CTable creator),
      (ctl = .new → middle.links = table.links) →
      wp (putCell field id cell) (fun _ after => ctl = .new → after.links = table.links)
        (fun stop _ => ¬ stop.DoublesInsert) middle := by
    intro cell middle same
    rw [putCell, wp_bind, wp_inspect]
    exact ⟨fun _ _ => same, fun fault stops => (CTable.row_fault stops).stop⟩
  rw [storeUnindexed, wp_bind, wp_inspect]
  refine ⟨?_, fun fault stops => (CTable.row_fault stops).stop⟩
  intro row _
  rw [wp_bind]
  have released : wp (releaseObj field id flagged)
      (fun _ after => ctl = .new → after.links = table.links)
      (fun stop _ => ¬ stop.DoublesInsert) table := by
    unfold releaseObj
    split
    · exact puts flagged table (fun _ => rfl)
    · exact fun _ => rfl
  refine wp_mono released ?_ (fun _ _ single => single)
  rintro - middle same
  split
  · rw [wp_bind]
    refine wp_mono (removeFromIndexSource_unoccupied ctl) ?_ (fun _ _ single => single)
    rintro - removed ⟨-, unchanged⟩
    exact puts stored removed (fun new => by rw [unchanged new, same new])
  · exact puts stored middle same

-----------------------------------------------------------------------------------------
-- All indexes
-----------------------------------------------------------------------------------------

/-- The index of a field has not changed, and neither have its links. -/
def CTable.SameIndex (field : creator.Field) (before after : CTable creator) : Prop :=
  after.skipLists field = before.skipLists field ∧ after.links field = before.links field

instance sameIndex_preorder (field : creator.Field)
    : IsPreorder (CTable creator) (CTable.SameIndex field) where
  refl := fun _ => ⟨rfl, rfl⟩
  trans := fun _ _ _ first second => ⟨second.1.trans first.1, second.2.trans first.2⟩

/-- Insertions in the indexes of some fields. -/
def insertAll (host : Host) (id : RowId) (fields : List creator.Field) : TableM creator Unit :=
  fields.forM (fun field => insertIntoIndex host field id)

theorem insertAll_append (host : Host) (id : RowId) (before rest : List creator.Field)
    : insertAll host id (before ++ rest) =
        insertAll host id before >>= fun _ => insertAll host id rest := by
  exact List.forM_append

theorem insertAll_elsewhere {id : RowId} {field : creator.Field} {fields : List creator.Field}
    (absent : field ∉ fields)
    : Respects (CTable.SameIndex field) (insertAll host id fields) := by
  refine Respects.forM fun other member => ?_
  refine (respects_insertIntoIndex host other id).mono fun frame => ?_
  have apart : field ≠ other := by
    rintro rfl
    exact absent member
  exact ⟨frame.skipLists field apart, frame.links field apart⟩

/-- The insertions in the indexes of the fields before a field succeed. -/
def CTable.EntersUpTo (table : CTable creator) (host : Host) (id : RowId) (field : creator.Field)
    : Prop :=
  ∃ before after entered, List.finRange creator.nFields = before ++ field :: after
    ∧ insertAll host id before table = .ok () entered

/-- The assertion of the loop that enters a row being created in all indexes. -/
structure CTable.EnteringAll (moved : CTable creator) (host : Host) (id : RowId)
    (rest : List creator.Field) (table : CTable creator) : Prop where
  ran : ∃ before, List.finRange creator.nFields = before ++ rest
    ∧ insertAll host id before moved = .ok () table
  done : ∀ field, field ∉ rest → moved.NowLinked field id table ∧ moved.EntersUpTo host id field

/-- One field of that loop. -/
theorem CTable.EnteringAll.step {moved table : CTable creator} {id : RowId} {field : creator.Field}
    {rest : List creator.Field} (entering : moved.EnteringAll host id (field :: rest) table)
    : wp (insertIntoIndex host field id) (fun _ => moved.EnteringAll host id rest)
        (fun stop _ => stop.DoublesInsert →
          moved.Occupied id field ∧ moved.EntersUpTo host id field)
        table := by
  obtain ⟨before, order, ran⟩ := entering.ran
  have distinct : (before ++ field :: rest).Nodup := order ▸ List.nodup_finRange creator.nFields
  have absent : field ∉ before := fun member =>
    (List.nodup_append.mp distinct).2.2 field member field (by simp) rfl
  have same := wp_returns (insertAll_elsewhere absent moved) ran
  have upTo : moved.EntersUpTo host id field := ⟨before, rest, table, order, ran⟩
  have framed := respects_insertIntoIndex host field id table
  refine wp_of_results ?_ ?_
  · intro value after run
    have linked := wp_returns insertIntoIndex_nowLinked run
    have frame := wp_returns framed run
    refine ⟨⟨before ++ [field], by simp [order], ?_⟩, fun other coming => ?_⟩
    · have last : insertAll host id [field] table = .ok () after := by
        change (insertIntoIndex host field id >>= fun _ => pure ()) table = _
        simp only [Bind.bind, EStateM.bind, run]
        rfl
      rw [insertAll_append]
      simp only [Bind.bind, EStateM.bind, ran, last]
    · by_cases here : other = field
      · subst here
        refine ⟨?_, upTo⟩
        unfold CTable.NowLinked at linked ⊢
        rw [linked, same.1, same.2]
      · obtain ⟨old, entered⟩ := entering.done other (by simp [here, coming])
        refine ⟨?_, entered⟩
        unfold CTable.NowLinked at old ⊢
        rw [frame.links other here, old]
  · intro stop after run double
    obtain ⟨chain, linked⟩ := wp_stops insertIntoIndex_nowLinked run double
    exact ⟨⟨same.1 ▸ chain, same.2 ▸ linked⟩, upTo⟩

/-- Entering a row being created in all indexes links it in each, and panics only at an index that
holds it already.
-/
theorem enterIndexes_new {moved : CTable creator} {id : RowId}
    : wp (enterIndexes host .new id)
        (fun _ after => ∀ field, moved.NowLinked field id after ∧ moved.EntersUpTo host id field)
        (fun stop _ => stop.DoublesInsert →
          ∃ field, moved.Occupied id field ∧ moved.EntersUpTo host id field)
        moved := by
  have start : moved.EnteringAll host id (List.finRange creator.nFields) moved :=
    ⟨⟨[], rfl, rfl⟩, fun field absent => absurd (List.mem_finRange field) absent⟩
  rw [enterIndexes, if_pos rfl]
  refine wp_mono (wp_forM_rest (fun field rest table entering => ?_) start)
    (fun _ _ entered field => entered.done field (by simp)) (fun _ _ stop => stop)
  exact wp_mono (CTable.EnteringAll.step entering) (fun _ _ next => next)
    (fun _ _ occupied double => ⟨field, occupied double⟩)

/-- An index that is reached and holds the row is the panic. -/
theorem enterIndexes_occupied {moved : CTable creator} {id : RowId} {field : creator.Field}
    (occupied : moved.Occupied id field) (reached : moved.EntersUpTo host id field)
    : wp (enterIndexes host .new id) (fun _ _ => False) (fun stop _ => stop.DoublesInsert)
        moved := by
  obtain ⟨before, rest, entered, order, ran⟩ := reached
  have distinct : (before ++ field :: rest).Nodup := order ▸ List.nodup_finRange creator.nFields
  have absent : field ∉ before := fun member =>
    (List.nodup_append.mp distinct).2.2 field member field (by simp) rfl
  have same := wp_returns (insertAll_elsewhere absent moved) ran
  have panics : wp (insertIntoIndex host field id) (fun _ _ => False)
      (fun stop _ => stop.DoublesInsert) entered := by
    refine Iff.mpr (insertIntoIndex_linked ?_ ?_) ⟨_, rfl⟩
    · rw [same.1]
      exact occupied.1
    · rw [same.2]
      exact occupied.2
  have start : wp (insertAll host id before) (fun _ after => after = entered) (fun _ _ => False)
      moved := by
    simp [wp, ran]
  rw [enterIndexes, if_pos rfl]
  change wp (insertAll host id (List.finRange creator.nFields)) _ _ _
  rw [order, insertAll_append, wp_bind]
  refine wp_mono start ?_ (fun _ _ impossible => impossible.elim)
  rintro - after rfl
  change wp (insertIntoIndex host field id >>= fun _ => insertAll host id rest) _ _ _
  rw [wp_bind]
  exact wp_mono panics (fun _ _ impossible => impossible.elim) (fun _ _ double => double)

-----------------------------------------------------------------------------------------
-- Setter calls
-----------------------------------------------------------------------------------------

/-- A row being created is linked under another key, which no row has. -/
inductive CTable.Rekeyed (table : CTable creator) (id : RowId) (key : CString)
    (moved : CTable creator) : Prop where
  | intro {row entry} (found : table.rows id = some row) (differs : row.key ≠ some key)
    (free : table.findHashEntry key = .ok none)
    (linked
      : storeHashEntry key id { row with key := none } (table.putRow id { row with key := none }) =
          .ok (entry, true) moved)

/-- A setter call gets as far as inserting its row in the index of a field: it sets or increments
the field and stores a value, or it gives the row another key.
-/
inductive Call.Inserts (host : Host) (call : Call creator) (field : creator.Field) : Prop where
  | set {obj row flagged allocates stored} (write : call.write = .set field obj)
    (notKey : field ≠ creator.keyField) (indexes : (creator.type field).storedUnindexed = false)
    (found : call.table.rows call.id = some row)
    (assigns : cellSet creator host field (row.cells field) obj = .assign flagged allocates stored)
    (granted : ¬ call.table.AllocationFails host allocates)
  | incr {obj row add amount} (write : call.write = .incr field obj)
    (found : call.table.rows call.id = some row)
    (numeric : incrValue host (creator.fields field).type = some add)
    (number : host.getInt obj = some amount)
  | key {obj moved} (write : call.write = .set creator.keyField obj)
    (rekeyed : call.table.Rekeyed call.id obj moved)
    (reached : moved.EntersUpTo host call.id field)

/-- A setter call on a row being created inserts it in an index that exists. -/
structure Call.Enters (host : Host) (call : Call creator) (field : creator.Field) : Prop where
  new : call.ctl = .new
  index : (call.table.skipLists field).isSome = true
  inserts : call.Inserts host field

/-- A call on a cell enters the index of its field only. -/
theorem Call.Enters.written {call : Call creator} {field : creator.Field}
    (enters : call.Enters host field) (cell : ∀ obj, call.write ≠ .set creator.keyField obj)
    : field = call.write.field := by
  cases enters.inserts with
  | set write => rw [write, Write.field]
  | incr write => rw [write, Write.field]
  | key write => exact absurd write (cell _)

/-- After a call on a row being created, the row is linked where it was and where the call entered
it.
-/
def Call.LinksMore (host : Host) (call : Call creator) (after : CTable creator) : Prop :=
  ∀ field, (after.links field call.id).isSome = true ↔
    (call.table.links field call.id).isSome = true ∨ call.Enters host field

/-- The call enters an index that holds its row already. -/
def Call.EntersAgain (host : Host) (call : Call creator) : Prop :=
  ∃ field, call.Enters host field ∧ (call.table.links field call.id).isSome = true

/-- A call on a cell links its row more when it does so in the index of its field. -/
theorem Call.linksMore_cell {call : Call creator} {after : CTable creator}
    (cell : ∀ obj, call.write ≠ .set creator.keyField obj)
    (frame : CTable.CellFrame call.write.field call.id call.table after)
    (own : (after.links call.write.field call.id).isSome = true ↔
      (call.table.links call.write.field call.id).isSome = true
        ∨ call.Enters host call.write.field)
    : call.LinksMore host after := by
  intro field
  by_cases same : field = call.write.field
  · rw [same]
    exact own
  · rw [frame.links field same]
    exact ⟨.inl, fun either => either.resolve_right fun enters => same (enters.written cell)⟩

/-- Marking a row as changed changes no link. -/
theorem markDirty_links {table : CTable creator} {id : RowId} {field : creator.Field}
    : wp (markDirty id field) (fun _ after => after.links = table.links)
        (fun stop _ => ¬ stop.DoublesInsert) table := by
  unfold markDirty setDirty putCell
  split
  · exact rfl
  · rw [wp_bind, wp_inspect]
    exact ⟨fun _ _ => rfl, fun fault stops => (CTable.row_fault stops).stop⟩

/-- Setting a cell of a row being created. -/
theorem setField_cell_linksMore {table : CTable creator} {id : RowId} {field : creator.Field}
    {obj : Obj} (notKey : field ≠ creator.keyField)
    : let call : Call creator := ⟨.new, id, .set field obj, table⟩
      wp (setField host .new id field obj) (fun _ => call.LinksMore host)
        (fun stop _ => stop.DoublesInsert → call.EntersAgain host) table := by
  intro call
  have cell : ∀ other, call.write ≠ .set creator.keyField other := by
    intro other same
    cases same
    exact notKey rfl
  -- the cell decides whether the call inserts
  have inserts : ∀ {row}, table.rows id = some row → (call.Enters host field ↔
      (table.skipLists field).isSome = true ∧ (creator.type field).storedUnindexed = false
        ∧ ∃ flagged allocates stored,
            cellSet creator host field (row.cells field) obj = .assign flagged allocates stored
            ∧ ¬ table.AllocationFails host allocates) := by
    intro row found
    constructor
    · rintro ⟨-, index, inserts⟩
      cases inserts with
      | set write _ indexes there assigns granted =>
          cases write
          cases found.symm.trans there
          exact ⟨index, indexes, _, _, _, assigns, granted⟩
      | incr write => cases write
      | key write => exact absurd write (cell _)
    · rintro ⟨index, indexes, flagged, allocates, stored, assigns, granted⟩
      exact ⟨rfl, index, .set rfl notKey indexes found assigns granted⟩
  have own : wp (setField host .new id field obj)
      (fun _ after => (after.links field id).isSome = true ↔
        (table.links field id).isSome = true ∨ call.Enters host field)
      (fun stop _ => stop.DoublesInsert → call.EntersAgain host) table := by
    rw [setField, wp_bind, wp_inspect]
    refine ⟨?_, fun fault stops double => absurd double (CTable.row_fault stops).stop⟩
    intro row read
    have found := (CTable.row_eq read).1
    rw [if_neg notKey]
    cases outcome : cellSet creator host field (row.cells field) obj with
    | error error => exact fun double => absurd double (Stop.tcl_notDouble _)
    | same => simp [inserts found, outcome]
    | nullPointer =>
        rintro ⟨name, same⟩
        cases same
    | assign flagged allocates stored =>
        dsimp only
        rw [wp_bind, storeCell]
        split
        · next unindexed =>
            refine wp_mono (storeUnindexed_unlinked .new) ?_
              (fun _ _ single double => absurd double single)
            rintro - middle same
            refine wp_mono markDirty_links ?_ (fun _ _ single double => absurd double single)
            rintro - after links
            simp [links, same rfl, inserts found, unindexed]
        · next indexed =>
            refine wp_mono (storeIndexed_new found) ?_ ?_
            · rintro - middle ⟨linked, granted⟩
              refine wp_mono markDirty_links ?_ (fun _ _ single double => absurd double single)
              rintro - after links
              unfold CTable.NowLinked at linked
              rw [links, linked, inserts found]
              have indexes : (creator.type field).storedUnindexed = false := by simpa using indexed
              refine or_congr_right ⟨fun index => ?_, fun enters => enters.1⟩
              exact ⟨index, indexes, flagged, allocates, stored, outcome, granted⟩
            · rintro stop after occupied double
              obtain ⟨⟨index, linked⟩, granted⟩ := occupied double
              refine ⟨field, (inserts found).mpr ⟨index, by simpa using indexed, ?_⟩, linked⟩
              exact ⟨flagged, allocates, stored, outcome, granted⟩
  refine wp_mono (wp_and (respects_setField_cell host .new id obj notKey table) own) ?_
    (fun _ _ both => both.2)
  exact fun _ after both => call.linksMore_cell cell both.1 both.2

/-- Incrementing a field of a row being created. -/
theorem incrField_linksMore {table : CTable creator} {id : RowId} {field : creator.Field}
    {obj : Obj}
    : let call : Call creator := ⟨.new, id, .incr field obj, table⟩
      wp (incrField host .new id field obj) (fun _ => call.LinksMore host)
        (fun stop _ => stop.DoublesInsert → call.EntersAgain host) table := by
  intro call
  have own : wp (incrField host .new id field obj)
      (fun _ after => (after.links field id).isSome = true ↔
        (table.links field id).isSome = true ∨ call.Enters host field)
      (fun stop _ => stop.DoublesInsert → call.EntersAgain host) table := by
    unfold incrField
    dsimp only
    cases numeric : incrValue host (creator.fields field).type with
    | none => exact fun double => absurd double (Stop.tcl_notDouble _)
    | some add =>
        cases number : host.getInt obj with
        | none => exact fun double => absurd double (Stop.tcl_notDouble _)
        | some amount =>
            dsimp only
            rw [wp_bind, wp_inspect]
            refine ⟨?_, fun fault stops double => absurd double (CTable.row_fault stops).stop⟩
            intro row read
            have found := (CTable.row_eq read).1
            have inserts : call.Inserts host field := .incr rfl found numeric number
            refine wp_mono (storeIndexed_new found) ?_ ?_
            · rintro - after ⟨linked, -⟩
              unfold CTable.NowLinked at linked
              rw [linked]
              exact or_congr_right ⟨fun index => ⟨rfl, index, inserts⟩, fun enters => enters.index⟩
            · rintro stop after occupied double
              obtain ⟨⟨index, linked⟩, -⟩ := occupied double
              exact ⟨field, ⟨rfl, index, inserts⟩, linked⟩
  refine wp_mono (wp_and (respects_incrField host .new id field obj table) own) ?_
    (fun _ _ both => both.2)
  exact fun _ after both => call.linksMore_cell (fun _ => nofun) both.1 both.2

/-- Linking a row under another key changes no index and no link. -/
theorem CTable.Rekeyed.sameIndex {table moved : CTable creator} {id : RowId} {key : CString}
    (rekeyed : table.Rekeyed id key moved) (field : creator.Field)
    : CTable.SameIndex field table moved := by
  obtain ⟨found, -, -, linked⟩ := rekeyed
  have stored := wp_returns (storeHashEntry_spec _ _ _ _) linked
  cases stored with
  | created => exact ⟨rfl, rfl⟩

/-- Giving a row being created another key. -/
theorem setField_key_linksMore {table : CTable creator} {id : RowId} {obj : Obj}
    : let call : Call creator := ⟨.new, id, .set creator.keyField obj, table⟩
      wp (setField host .new id creator.keyField obj) (fun _ => call.LinksMore host)
        (fun stop _ => stop.DoublesInsert → call.EntersAgain host) table := by
  intro call
  have inserts : ∀ {field}, call.Inserts host field →
      ∃ moved, table.Rekeyed id obj moved ∧ moved.EntersUpTo host id field := by
    intro field inserts
    cases inserts with
    | set write notKey =>
        cases write
        exact absurd rfl notKey
    | incr write => cases write
    | key write rekeyed reached =>
        cases write
        exact ⟨_, rekeyed, reached⟩
  rw [setField, wp_bind, wp_inspect]
  refine ⟨?_, fun fault stops double => absurd double (CTable.row_fault stops).stop⟩
  intro row read
  have found := (CTable.row_eq read).1
  rw [if_pos rfl]
  split
  · next same =>
      intro field
      refine ⟨.inl, fun either => either.resolve_right fun enters => ?_⟩
      obtain ⟨moved, ⟨there, differs, -⟩, -⟩ := inserts enters.inserts
      cases found.symm.trans there
      exact differs same
  · next differs =>
      rw [wp_bind, reinsertRow, wp_bind, wp_inspect]
      refine ⟨?_, fun fault stops double =>
        absurd double (CTable.findHashEntry_fault stops).stop⟩
      intro entry lookup
      cases entry with
      | some other => exact fun double => absurd double (Stop.tcl_notDouble _)
      | none =>
          rw [wp_bind, unlinkOldKey, if_neg (by simp), wp_pure, wp_bind, wp_inspectRow found,
            wp_bind, wp_modify, wp_bind]
          refine wp_of_results ?_ ?_
          · rintro ⟨entry, isNew⟩ moved linked
            cases isNew with
            | false => exact fun double => absurd double (Stop.tcl_notDouble _)
            | true =>
                have rekeyed : table.Rekeyed id obj moved := .intro found differs lookup linked
                have enters : ∀ {field}, (table.skipLists field).isSome = true →
                    moved.EntersUpTo host id field → call.Enters host field :=
                  fun index reached => ⟨rfl, index, .key rfl rekeyed reached⟩
                refine wp_mono enterIndexes_new ?_ ?_
                · rintro - entered linked
                  rw [setDirty, putCell, wp_bind, wp_inspect]
                  refine ⟨?_, fun fault stops double =>
                    absurd double (CTable.row_fault stops).stop⟩
                  intro _ _ field
                  obtain ⟨now, reached⟩ := linked field
                  have same := rekeyed.sameIndex field
                  unfold CTable.NowLinked at now
                  change (entered.links field id).isSome = true ↔ _
                  rw [now, same.1, same.2]
                  exact or_congr_right
                    ⟨fun index => enters index reached, fun enters => enters.index⟩
                · intro stop after occupied double
                  obtain ⟨field, ⟨index, linked⟩, reached⟩ := occupied double
                  have same := rekeyed.sameIndex field
                  exact ⟨field, enters (same.1 ▸ index) reached, same.2 ▸ linked⟩
          · intro stop after run double
            obtain ⟨⟨fault, rfl, other⟩, -⟩ := wp_stops (storeHashEntry_spec _ _ _ _) run
            exact absurd double other.stop

/-- A setter call on a row being created links it where the call enters an index, and panics only
when it enters one again.
-/
theorem Call.run_new {call : Call creator} (new : call.ctl = .new)
    (writes : ∀ field, call.write ≠ .null field)
    : wp (call.run host) (fun _ => call.LinksMore host)
        (fun stop _ => stop.DoublesInsert → call.EntersAgain host) call.table := by
  obtain ⟨ctl, id, write, table⟩ := call
  dsimp only at new
  subst new
  cases write with
  | set field obj =>
      rcases Decidable.em (field = creator.keyField) with rfl | notKey
      · exact setField_key_linksMore
      · exact setField_cell_linksMore notKey
  | incr field obj => exact incrField_linksMore
  | null field => exact absurd rfl (writes field)

/-- Setting the key of an existing row does not panic. -/
theorem reinsertRow_normal {table : CTable creator} {id : RowId} {key : CString}
    : wp (reinsertRow host .normal id key) (fun _ _ => True) (fun stop _ => ¬ stop.DoublesInsert)
        table := by
  have copies : ∀ table : CTable creator, wp (copySharedKey host) (fun _ _ => True)
      (fun stop _ => ¬ stop.DoublesInsert) table := by
    intro table
    rw [copySharedKey, wp_bind, wp_get]
    split
    · rw [wp_bind, wp_shmalloc]
      split
      · trivial
      · split
        · rintro ⟨name, same⟩
          cases same
        · exact Stop.tcl_notDouble _
    · trivial
  rw [reinsertRow, wp_bind, wp_inspect]
  refine ⟨?_, fun fault stops => (CTable.findHashEntry_fault stops).stop⟩
  intro entry _
  cases entry with
  | some other => exact Stop.tcl_notDouble _
  | none =>
      rw [wp_bind, unlinkOldKey, if_pos rfl, wp_bind]
      refine wp_mono (copies table) ?_ (fun _ _ single => single)
      rintro - copied -
      rw [unlinkHashEntry, wp_bind, wp_inspect]
      refine ⟨?_, fun fault stops => (CTable.deleteHashEntry_fault stops).stop⟩
      intro keyTable _
      rw [wp_modify, wp_bind, wp_inspect]
      refine ⟨?_, fun fault stops => (CTable.row_fault stops).stop⟩
      intro row _
      rw [wp_bind, wp_modify, wp_bind]
      refine wp_mono (storeHashEntry_spec _ _ _ _) ?_ ?_
      · rintro ⟨entry, isNew⟩ moved -
        cases isNew with
        | false => exact Stop.tcl_notDouble _
        | true => trivial
      · rintro stop after ⟨⟨fault, rfl, other⟩, -⟩
        exact other.stop

/-- A setter call on an existing row does not panic. -/
theorem Call.run_normal {call : Call creator} (existing : call.ctl = .normal)
    : wp (call.run host) (fun _ _ => True) (fun stop _ => ¬ stop.DoublesInsert) call.table := by
  obtain ⟨ctl, id, write, table⟩ := call
  dsimp only at existing
  subst existing
  have marks : ∀ (field : creator.Field) (table : CTable creator),
      wp (markDirty id field) (fun _ _ => True) (fun stop _ => ¬ stop.DoublesInsert) table :=
    fun field table => wp_mono markDirty_links (fun _ _ _ => trivial) (fun _ _ single => single)
  cases write with
  | set field obj =>
      change wp (setField host .normal id field obj) _ _ _
      rw [setField, wp_bind, wp_inspect]
      refine ⟨?_, fun fault stops => (CTable.row_fault stops).stop⟩
      intro row _
      split
      · split
        · trivial
        · rw [wp_bind]
          refine wp_mono reinsertRow_normal ?_ (fun _ _ single => single)
          rintro - relinked -
          rw [setDirty, putCell, wp_bind, wp_inspect]
          exact ⟨fun _ _ => trivial, fun fault stops => (CTable.row_fault stops).stop⟩
      · split
        · exact Stop.tcl_notDouble _
        · trivial
        · rintro ⟨name, same⟩
          cases same
        · rw [wp_bind, storeCell]
          split
          · exact wp_mono (storeUnindexed_unlinked .normal) (fun _ after _ => marks field after)
              (fun _ _ single => single)
          · exact wp_mono storeIndexed_normal (fun _ after _ => marks field after)
              (fun _ _ single => single)
  | incr field obj =>
      change wp (incrField host .normal id field obj) _ _ _
      unfold incrField
      dsimp only
      split
      · exact Stop.tcl_notDouble _
      · split
        · exact Stop.tcl_notDouble _
        · rw [wp_bind, wp_inspect]
          exact ⟨fun _ _ => storeIndexed_normal, fun fault stops => (CTable.row_fault stops).stop⟩
  | null field =>
      change wp (setNull host id field) _ _ _
      rw [setNull, wp_bind, wp_inspect]
      refine ⟨?_, fun fault stops => (CTable.row_fault stops).stop⟩
      intro row _
      dsimp only
      split
      · exact Stop.tcl_notDouble _
      · split
        · trivial
        · exact storeIndexed_normal

/-- A call that enters an index again panics. -/
theorem Call.EntersAgain.panics {call : Call creator} (again : call.EntersAgain host)
    : wp (call.run host) (fun _ _ => False) (fun stop _ => stop.DoublesInsert) call.table := by
  obtain ⟨field, ⟨new, index, inserts⟩, linked⟩ := again
  obtain ⟨ctl, id, write, table⟩ := call
  dsimp only at new index linked
  subst new
  have stores : ∀ {row : Row creator} {flagged stored : Cell (creator.type field)}
      {allocates : Bool}, table.rows id = some row → ¬ table.AllocationFails host allocates →
      wp (storeIndexed host .new id field flagged allocates stored) (fun _ _ => False)
        (fun stop _ => stop.DoublesInsert) table := by
    intro row flagged stored allocates found granted
    exact wp_mono (storeIndexed_doubles found index linked) (fun _ _ impossible => impossible)
      (fun _ _ stops => ⟨_, stops.1 granted⟩)
  cases inserts with
  | @set obj row flagged allocates stored write notKey indexes found assigns granted =>
      dsimp only at write found granted
      subst write
      change wp (setField host .new id field obj) _ _ _
      rw [setField, wp_bind, wp_inspectRow found, if_neg notKey, assigns]
      dsimp only
      rw [wp_bind, storeCell, if_neg (by simp [indexes])]
      exact wp_mono (stores found granted) (fun _ _ impossible => impossible.elim)
        (fun _ _ double => double)
  | @incr obj row add amount write found numeric number =>
      dsimp only at write found
      subst write
      change wp (incrField host .new id field obj) _ _ _
      unfold incrField
      simp only [numeric, number]
      rw [wp_bind, wp_inspectRow found]
      exact stores found (by simp [CTable.AllocationFails])
  | @key obj moved write rekeyed reached =>
      dsimp only at write rekeyed
      subst write
      have same := rekeyed.sameIndex field
      obtain ⟨found, differs, free, stored⟩ := rekeyed
      have enters := enterIndexes_occupied ⟨same.1 ▸ index, same.2 ▸ linked⟩ reached
      change wp (setField host .new id creator.keyField obj) _ _ _
      rw [setField, wp_bind, wp_inspectRow found, if_pos rfl, if_neg differs, wp_bind, reinsertRow,
        wp_bind, wp_inspect]
      refine ⟨fun entry lookup => ?_, fun fault stops => by cases free.symm.trans stops⟩
      cases free.symm.trans lookup
      rw [wp_bind, unlinkOldKey, if_neg (by simp), wp_pure, wp_bind, wp_inspectRow found, wp_bind,
        wp_modify, wp_bind]
      refine wp_of_results (fun result after run => ?_) (fun stop after run => ?_)
      · cases run.symm.trans stored
        exact wp_mono enters (fun _ _ impossible => impossible.elim) (fun _ _ double => double)
      · cases run.symm.trans stored

end SpeedTables
