import SpeedTables.Search.AutoKeys
import SpeedTables.Table.IndexCreation

/-! The count of an index, and the rows that are linked in it. -/

namespace SpeedTables

open Lib

variable {creator : CreatorTable} {host : Host} {field : creator.Field}

-----------------------------------------------------------------------------------------
-- Counting
-----------------------------------------------------------------------------------------

/-- The number of rows of the table that are linked in the index of a field. -/
def CTable.linkedRows (table : CTable creator) (field : creator.Field) : Nat :=
  table.llHead.countP (fun id => (table.links field id).isSome)

/-- Every skip list has the size that its linked rows make, and no row to come is linked. -/
structure CTable.Sized (table : CTable creator) : Prop where
  size : ∀ field skip, table.skipLists field = some skip → skip.size = table.linkedRows field
  fresh : ∀ field id, table.nextRow ≤ id → table.links field id = none

/-- A change of the link of one row changes the number of linked rows by that row. -/
theorem countP_links {rows : List RowId} {id : RowId} (nodup : rows.Nodup) (listed : id ∈ rows)
    {before after : RowId → Option NodeId}
    (others : ∀ other, other ≠ id → after other = before other)
    : rows.countP (fun other => (after other).isSome) + (if (before id).isSome then 1 else 0) =
        rows.countP (fun other => (before other).isSome) + (if (after id).isSome then 1 else 0) := by
  have apart := List.perm_cons_erase listed
  have rest : (rows.erase id).countP (fun other => (after other).isSome) =
      (rows.erase id).countP (fun other => (before other).isSome) := by
    refine List.countP_congr fun other member => ?_
    rw [others other ((nodup.mem_erase_iff.mp member).1)]
  rw [apart.countP_eq, apart.countP_eq, List.countP_cons, List.countP_cons, rest]
  omega

/-- The rows, the links and the indexes have not changed. -/
structure CTable.SameLinks (before after : CTable creator) : Prop where
  nextRow : after.nextRow = before.nextRow
  llHead : after.llHead = before.llHead
  skipLists : after.skipLists = before.skipLists
  links : after.links = before.links

instance sameLinks_preorder : IsPreorder (CTable creator) CTable.SameLinks where
  refl := fun _ => ⟨rfl, rfl, rfl, rfl⟩
  trans := fun _ _ _ first second =>
    ⟨second.nextRow.trans first.nextRow, second.llHead.trans first.llHead,
      second.skipLists.trans first.skipLists, second.links.trans first.links⟩

theorem CTable.Sized.same {before after : CTable creator} (sized : before.Sized)
    (same : before.SameLinks after)
    : after.Sized where
  size := by
    intro field skip chain
    rw [CTable.linkedRows, same.llHead, same.links]
    exact sized.size field skip (same.skipLists ▸ chain)
  fresh := by
    rw [same.nextRow, same.links]
    exact sized.fresh

/-- A change of the index of one field, by the link of one row, changes the size by as much. -/
theorem CTable.Sized.relinked {before after : CTable creator} {id : RowId} (sized : before.Sized)
    (leads : before.Leads) (listed : id ∈ before.llHead) (frame : before.IndexFrame field after)
    (others : ∀ other, other ≠ id → after.links field other = before.links field other)
    (size : ∀ next, after.skipLists field = some next → ∃ skip, before.skipLists field = some skip
      ∧ next.size + (if (before.links field id).isSome then 1 else 0) =
          skip.size + (if (after.links field id).isSome then 1 else 0))
    : after.Sized where
  size := by
    intro other next chain
    by_cases same : other = field
    · subst same
      obtain ⟨skip, old, moved⟩ := size next chain
      have before' := sized.size other skip old
      have counted := countP_links leads.nodup listed others
      unfold CTable.linkedRows at before' ⊢
      rw [frame.llHead]
      omega
    · rw [frame.skipLists other same] at chain
      rw [CTable.linkedRows, frame.llHead, frame.links other same]
      exact sized.size other next chain
  fresh := by
    rw [frame.nextRow]
    intro other row late
    by_cases same : other = field
    · subst same
      have apart : row ≠ id := by
        rintro rfl
        exact absurd (leads.bounded listed) (Nat.not_lt.mpr late)
      rw [others row apart]
      exact sized.fresh other row late
    · rw [frame.links other same]
      exact sized.fresh other row late

-----------------------------------------------------------------------------------------
-- Entering and leaving an index
-----------------------------------------------------------------------------------------

/-- An insertion makes its list longer by one. -/
theorem CTable.sinsertLinked_size {table after : CTable creator} {skip : SkipList RowId}
    {id : RowId} {row : Row creator}
    (inserted : table.sinsertLinked host field skip id row = .ok (some after))
    : ∃ next, after.skipLists field = some next ∧ next.size = skip.size + 1 := by
  have grown : ∀ rest, table.insertNode host field skip rest id = .ok (some after) →
      ∃ next, after.skipLists field = some next ∧ next.size = skip.size + 1 := by
    intro rest linked
    unfold CTable.insertNode at linked
    split at linked
    · cases linked
    · cases linked
      exact ⟨_, Function.update_self .., rfl⟩
  unfold CTable.sinsertLinked at inserted
  split at inserted
  · cases inserted
  · exact grown _ inserted
  · split at inserted
    · cases inserted
    · split at inserted
      · cases inserted
      · cases inserted
        exact ⟨_, Function.update_self .., rfl⟩
    · exact grown _ inserted

/-- Every skip list has the size of its linked rows, and a row is in the table. -/
structure CTable.SizedAt (id : RowId) (table : CTable creator) : Prop where
  sized : table.Sized
  leads : table.Leads
  listed : id ∈ table.llHead

theorem insertIntoIndex_sized {table : CTable creator} {id : RowId} (here : table.SizedAt id)
    : wp (insertIntoIndex host field id) (fun _ => CTable.SizedAt id)
        (stopped (CTable.SizedAt id) (fun _ => True)) table := by
  have kept := ((writeSteps_leads host id).insert field).keeps
    (show table.LeadsTo id from ⟨here.leads, here.listed⟩)
  have sizes : wp (insertIntoIndex host field id) (fun _ => CTable.Sized)
      (stopped CTable.Sized (fun _ => True)) table := by
    cases chain : table.skipLists field with
    | none =>
        rw [insertIntoIndex, wp_bind, wp_get, chain]
        exact here.sized
    | some skip =>
        refine wp_mono (insertIntoIndex_links chain) ?_ ?_
        · rintro _ after ⟨free, linked, alive, inserted⟩
          refine here.sized.relinked here.leads here.listed linked.frame linked.others ?_
          obtain ⟨next, there, size⟩ := CTable.sinsertLinked_size inserted
          intro other same
          obtain rfl : next = other := Option.some.inj (there.symm.trans same)
          refine ⟨skip, chain, ?_⟩
          rw [size, free, Option.isSome_iff_ne_none.mpr linked.linked]
          simp
        · intro stop after left
          cases stop with
          | fault fault => trivial
          | tcl error => exact left.1 ▸ here.sized
  refine wp_mono (wp_and sizes kept) (fun _ _ both => ⟨both.1, both.2.1, both.2.2⟩) ?_
  intro stop after both
  cases stop with
  | fault fault => trivial
  | tcl error => exact ⟨both.1, both.2.1, both.2.2⟩

/-- A row is looked up by comparison and a node found that is equal to it. -/
def CTable.FindsEqual (table : CTable creator) (field : creator.Field) (skip : SkipList RowId)
    (row : Row creator) : Prop :=
  ∃ node rest, table.locate field skip row = .ok (node :: rest)
    ∧ table.compareBucket field row node.bucket = .ok .eq

/-- Lookups by comparison depend on the rows. -/
theorem CTable.FindsEqual.congr {left right : CTable creator} {skip : SkipList RowId}
    {row : Row creator} (finds : left.FindsEqual field skip row) (rows : left.rows = right.rows)
    : right.FindsEqual field skip row := by
  have compared : left.compareBucket field row = right.compareBucket field row := by
    funext bucket
    cases bucket <;> simp [CTable.compareBucket, CTable.row_congr rows]
  have before : left.beforeRow field row = right.beforeRow field row := by
    funext bucket
    simp [CTable.beforeRow, compared]
  obtain ⟨node, rest, located, equal⟩ := finds
  refine ⟨node, rest, ?_, compared ▸ equal⟩
  rw [← located]
  simp only [CTable.locate, before]

/-- Taking a row out of an index counts it out: it is alone in the list of its node, and a lookup
finds the node.
-/
def CTable.CountsOut (table : CTable creator) (field : creator.Field) (id : RowId) : Prop :=
  ∀ skip node row, table.skipLists field = some skip → table.links field id = some node →
    table.rows id = some row →
    (bucketOf skip node id).erase id = [] ∧ table.FindsEqual field skip row

/-- A removal that counts its row out makes the list shorter by one. -/
theorem CTable.removeFromIndex_size {table after : CTable creator} {id : RowId}
    (out : table.CountsOut field id) (removed : table.removeFromIndex field id = .ok after)
    : after = table ∧ (table.skipLists field = none ∨ table.links field id = none)
      ∨ ∃ skip next, table.skipLists field = some skip ∧ (table.links field id).isSome
        ∧ after.skipLists field = some next ∧ next.size = skip.size - 1
        ∧ after.links field = Function.update (table.links field) id none := by
  unfold CTable.removeFromIndex at removed
  split at removed
  · next skip node chain link =>
      split at removed
      · cases removed
      · next row read =>
          obtain ⟨alone, first, rest, located, equal⟩ :=
            out skip node row chain link (CTable.row_eq read).1
          dsimp only at removed
          rw [alone] at removed
          simp only [CTable.serase, located, equal] at removed
          cases removed
          exact .inr ⟨skip, _, chain, by simp [link], Function.update_self .., rfl,
            Function.update_self ..⟩
  · next unlinked =>
      cases removed
      refine .inl ⟨rfl, ?_⟩
      cases chain : table.skipLists field with
      | none => exact .inl rfl
      | some skip =>
          cases link : table.links field id with
          | none => exact .inr rfl
          | some node => exact absurd link (unlinked skip node chain)

/-- After a removal that counts its row out the row is linked in no list of the field. -/
theorem removeFromIndex_sized {table : CTable creator} {id : RowId} (here : table.SizedAt id)
    (out : table.CountsOut field id)
    : wp (removeFromIndex field id)
        (fun _ after => after.SizedAt id ∧ table.IndexFrame field after
          ∧ (after.skipLists field = none ∨ after.links field id = none))
        (stopped (fun _ => False) (fun _ => True)) table := by
  rw [removeFromIndex, wp_bind, wp_inspect]
  refine ⟨fun after removed => ?_, fun _ _ => trivial⟩
  have frame := CTable.removeFromIndex_frame removed
  have leads := here.leads.index here.listed frame (CTable.removeFromIndex_pointers removed)
  have listed : id ∈ after.llHead := frame.llHead ▸ here.listed
  rcases CTable.removeFromIndex_size out removed with
    ⟨rfl, unlinked⟩ | ⟨skip, next, chain, link, chain', size, links⟩
  · exact ⟨here, frame, unlinked⟩
  · have cleared : after.links field id = none := by simp [links]
    refine ⟨⟨?_, leads, listed⟩, frame, .inr cleared⟩
    refine here.sized.relinked here.leads here.listed frame (by simp +contextual [links]) ?_
    intro other same
    obtain rfl : next = other := Option.some.inj (chain'.symm.trans same)
    refine ⟨skip, chain, ?_⟩
    have counted : 0 < skip.size := by
      rw [here.sized.size field skip chain]
      exact List.countP_pos_iff.mpr ⟨id, here.listed, link⟩
    rw [size, link, cleared]
    simp
    omega

-----------------------------------------------------------------------------------------
-- Setters
-----------------------------------------------------------------------------------------

theorem CTable.SizedAt.put {table : CTable creator} {id : RowId} (here : table.SizedAt id)
    (row : Row creator)
    : (table.putRow id row).SizedAt id :=
  ⟨here.sized.same ⟨rfl, rfl, rfl, rfl⟩, here.leads.putRow here.listed row, here.listed⟩

/-- An action on a row keeps the sizes, also when it fails. -/
def KeepsSizes {α : Type} (id : RowId) (action : TableM creator α) : Prop :=
  ∀ table : CTable creator, table.SizedAt id →
    wp action (fun _ => CTable.SizedAt id) (stopped (CTable.SizedAt id) (fun _ => True)) table

section Actions

variable {α β : Type} {id : RowId}

theorem KeepsSizes.bind {first : TableM creator α} {second : α → TableM creator β}
    (left : KeepsSizes id first) (right : ∀ value, KeepsSizes id (second value))
    : KeepsSizes id (first >>= second) := by
  intro table here
  rw [wp_bind]
  exact wp_mono (left table here) (fun value middle => right value middle) (fun _ _ stop => stop)

/-- Steps that change no link keep the sizes, if they keep pointers settled. -/
theorem KeepsSizes.of_same {action : TableM creator α} (same : Respects CTable.SameLinks action)
    (leads : Respects (Keeps (CTable.LeadsTo id)) action)
    : KeepsSizes id action := by
  intro table here
  have led := leads.keeps (show table.LeadsTo id from ⟨here.leads, here.listed⟩)
  exact wp_mono (wp_and (same table) led)
    (fun _ _ both => ⟨here.sized.same both.1, both.2.1, both.2.2⟩)
    (fun _ _ both => stopped_left ⟨here.sized.same both.1, both.2.1, both.2.2⟩)

theorem keepsSizes_putCell (field : creator.Field) (cell : Cell (creator.type field))
    : KeepsSizes id (putCell field id cell) := by
  intro table here
  rw [putCell, wp_bind, wp_inspect]
  exact ⟨fun row _ => here.put _, fun _ _ => trivial⟩

theorem keepsSizes_allocateMayFail (field : creator.Field) (allocates : Bool)
    : KeepsSizes id (allocateMayFail host field allocates) :=
  .of_same
    (Respects.get.bind fun _ => Respects.ite
      (Respects.bind (fun _ => ⟨rfl, rfl, rfl, rfl⟩) fun _ =>
        Respects.ite Respects.pure (Respects.ite Respects.throw Respects.throw)) Respects.pure)
    ((writeSteps_leads host id).allocateMayFail field allocates)

theorem keepsSizes_insert (field : creator.Field) : KeepsSizes id (insertIntoIndex host field id) :=
  fun _ here => insertIntoIndex_sized here

theorem keepsSizes_setDirty : KeepsSizes id (setDirty id : TableM creator Unit) :=
  keepsSizes_putCell creator.dirtyField creator.dirtyCell

theorem keepsSizes_markDirty (field : creator.Field)
    : KeepsSizes id (markDirty id field : TableM creator Unit) := by
  unfold markDirty
  split
  · exact fun _ here => here
  · exact keepsSizes_setDirty

/-- Before a row is stored it leaves the index, if it is not a new one. -/
theorem removeFromIndexSource_sized {ctl : IndexCtl} {field : creator.Field}
    {table : CTable creator} (here : table.SizedAt id)
    (out : ctl = .normal → table.CountsOut field id)
    : wp (removeFromIndexSource ctl field id) (fun _ => CTable.SizedAt id)
        (stopped (CTable.SizedAt id) (fun _ => True)) table := by
  unfold removeFromIndexSource
  split
  · next normal =>
      refine wp_mono (removeFromIndex_sized here (out normal)) (fun _ _ left => left.1) ?_
      intro stop after left
      cases stop with
      | fault fault => trivial
      | tcl error => exact left.elim
  · exact here

theorem storeIndexed_sized {ctl : IndexCtl} {field : creator.Field} {table : CTable creator}
    (flagged : Cell (creator.type field)) (allocates : Bool) (stored : Cell (creator.type field))
    (here : table.SizedAt id) (out : ctl = .normal → table.CountsOut field id)
    : wp (storeIndexed host ctl id field flagged allocates stored) (fun _ => CTable.SizedAt id)
        (stopped (CTable.SizedAt id) (fun _ => True)) table := by
  rw [storeIndexed, wp_bind]
  refine wp_mono (removeFromIndexSource_sized here out) ?_ (fun _ _ stop => stop)
  exact fun _ middle here => (keepsSizes_putCell field flagged).bind
    (fun _ => (keepsSizes_allocateMayFail field allocates).bind fun _ =>
      (keepsSizes_putCell field stored).bind fun _ => keepsSizes_insert field) middle here

/-- The table once the old object of a tclobj field has been released. -/
def CTable.released (table : CTable creator) (id : RowId) (row : Row creator)
    (field : creator.Field) (flagged : Cell (creator.type field)) : CTable creator :=
  if creator.type field = .tclobj then table.putRow id (row.setCell field flagged) else table

theorem storeUnindexed_sized {ctl : IndexCtl} {field : creator.Field} {table : CTable creator}
    {row : Row creator} (flagged stored : Cell (creator.type field)) (here : table.SizedAt id)
    (found : table.rows id = some row)
    (out : ctl = .normal → ((row.cells field).isNull != stored.isNull) = true →
      (table.released id row field flagged).CountsOut field id)
    : wp (storeUnindexed ctl id field flagged stored) (fun _ => CTable.SizedAt id)
        (stopped (CTable.SizedAt id) (fun _ => True)) table := by
  have release : wp (releaseObj field id flagged)
      (fun _ after => after = table.released id row field flagged)
      (stopped (fun _ => False) (fun _ => True)) table := by
    unfold releaseObj CTable.released
    split
    · rw [putCell_spec found]
    · exact rfl
  have kept : (table.released id row field flagged).SizedAt id := by
    unfold CTable.released
    split
    · exact here.put _
    · exact here
  rw [storeUnindexed, wp_bind, wp_inspectRow found, wp_bind]
  refine wp_mono release ?_ ?_
  · rintro _ middle rfl
    split
    · next differs =>
        rw [wp_bind]
        refine wp_mono (removeFromIndexSource_sized kept (fun normal => out normal differs)) ?_
          (fun _ _ stop => stop)
        exact fun _ after here => keepsSizes_putCell field stored after here
    · exact keepsSizes_putCell field stored _ kept
  · intro stop after left
    cases stop with
    | fault fault => trivial
    | tcl error => exact left.elim

theorem keepsSizes_enterIndexes (ctl : IndexCtl)
    : KeepsSizes id (enterIndexes host ctl id : TableM creator Unit) := by
  intro table here
  unfold enterIndexes
  split
  · exact wp_forM (fun field _ _ here => keepsSizes_insert field _ here) here
  · exact here

theorem keepsSizes_finishRow (ctl : IndexCtl)
    : KeepsSizes id (finishRow host ctl id : TableM creator Unit) := by
  intro table here
  unfold finishRow
  split
  · refine wp_forM (fun field _ middle here => ?_) here
    rw [wp_bind, wp_get]
    split
    · exact keepsSizes_insert field _ here
    · exact here
  · exact here

theorem keepsSizes_inspect {read : CTable creator → Except Fault α}
    : KeepsSizes id (inspect read) := by
  intro table here
  rw [wp_inspect]
  exact ⟨fun _ _ => here, fun _ _ => trivial⟩

theorem keepsSizes_unlinkOldKey (ctl : IndexCtl)
    : KeepsSizes id (unlinkOldKey host ctl id : TableM creator Unit) := by
  refine .of_same ?_ ?_
  · refine Respects.ite (Respects.bind ?_ fun _ => ?_) Respects.pure
    · exact Respects.get.bind fun _ => Respects.ite
        (Respects.bind (fun _ => ⟨rfl, rfl, rfl, rfl⟩) fun _ =>
          Respects.ite Respects.pure (Respects.ite Respects.throw Respects.throw)) Respects.pure
    · exact (respects_inspect _).bind fun _ _ => ⟨rfl, rfl, rfl, rfl⟩
  · exact Respects.ite ((writeSteps_leads host id).copySharedKey.bind fun _ =>
      (writeSteps_leads host id).unlink) Respects.pure

theorem keepsSizes_storeHashEntry (host : Host) (key : CString) (row : Row creator)
    : KeepsSizes id (storeHashEntry key id row) := by
  have same : Respects CTable.SameLinks (storeHashEntry key id row) := by
    intro table
    refine wp_mono (storeHashEntry_spec table key id row) ?_ ?_
    · intro result after stored
      cases stored <;> exact ⟨rfl, rfl, rfl, rfl⟩
    · rintro stop after ⟨-, rfl | rfl⟩ <;> exact ⟨rfl, rfl, rfl, rfl⟩
  intro table here
  have led : wp (storeHashEntry key id row) (fun _ => CTable.LeadsTo id)
      (fun _ => CTable.LeadsTo id) table := by
    refine wp_mono ((writeSteps_leads host id).link table key row
      (here.leads.alive id here.listed)) ?_ ?_
    · exact fun _ _ keeps => keeps ⟨here.leads, here.listed⟩
    · exact fun _ _ keeps => keeps ⟨here.leads, here.listed⟩
  exact wp_mono (wp_and (same table) led)
    (fun _ _ both => ⟨here.sized.same both.1, both.2.1, both.2.2⟩)
    (fun _ _ both => stopped_left ⟨here.sized.same both.1, both.2.1, both.2.2⟩)

/-- Re-keying a row takes it out of no index. -/
theorem keepsSizes_reinsertRow (ctl : IndexCtl) (value : CString)
    : KeepsSizes id (reinsertRow host ctl id value : TableM creator Unit) := by
  refine keepsSizes_inspect.bind fun entry => ?_
  cases entry with
  | some other => exact fun _ here => here
  | none =>
      refine (keepsSizes_unlinkOldKey ctl).bind fun _ => keepsSizes_inspect.bind fun row => ?_
      refine KeepsSizes.bind (fun _ here => here.put _) fun _ => ?_
      refine (keepsSizes_storeHashEntry host value _).bind fun stored => ?_
      dsimp only
      split
      · exact keepsSizes_enterIndexes ctl
      · exact fun _ here => here

end Actions

/-- The table and the field in which a setter call takes its row out of an index, if it does. A row
being created is in no index yet.
-/
def Call.leaves (host : Host) (call : Call creator) : Option (CTable creator × creator.Field) :=
  match call.table.rows call.id with
  | none => none
  | some row =>
      match call.write with
      | .set field obj =>
          if call.ctl ≠ .normal ∨ field = creator.keyField then none
          else
            match cellSet creator host field (row.cells field) obj with
            | .assign flagged _ stored =>
                if (creator.type field).storedUnindexed then
                  if (row.cells field).isNull != stored.isNull then
                    some (call.table.released call.id row field flagged, field)
                  else none
                else some (call.table, field)
            | _ => none
      | .incr field obj =>
          if call.ctl = .normal ∧ (incrValue host (creator.type field)).isSome
              ∧ (host.getInt obj).isSome then
            some (call.table, field)
          else none
      | .null field =>
          if (creator.fields field).notnull || (row.cells field).isNull then none
          else some (call.table, field)

/-- A setter call counts its row out of the index that the row leaves. -/
def Call.CountsOut (host : Host) (call : Call creator) : Prop :=
  ∀ table field, call.leaves host = some (table, field) → table.CountsOut field call.id

/-- A setter call that counts its row out keeps the sizes. -/
theorem Call.keeps_sizes {call : Call creator} (out : call.CountsOut host)
    (here : call.table.SizedAt call.id)
    : wp (call.run host) (fun _ => CTable.SizedAt call.id)
        (stopped (CTable.SizedAt call.id) (fun _ => True)) call.table := by
  obtain ⟨ctl, id, write, table⟩ := call
  dsimp only at here ⊢
  cases write with
  | set field obj =>
      change wp (setField host ctl id field obj) _ _ _
      rw [setField, wp_bind, wp_inspect]
      refine ⟨fun row read => ?_, fun _ _ => trivial⟩
      have found := (CTable.row_eq read).1
      split
      · split
        · exact here
        · rw [wp_bind]
          exact wp_mono (keepsSizes_reinsertRow ctl obj table here)
            (fun _ after here => keepsSizes_setDirty after here) (fun _ _ stop => stop)
      · next notKey =>
          split
          · exact here
          · exact here
          · trivial
          · next flagged allocates stored assigns =>
              rw [wp_bind]
              have kept : wp (storeCell host ctl id field flagged allocates stored)
                  (fun _ => CTable.SizedAt id) (stopped (CTable.SizedAt id) (fun _ => True))
                  table := by
                unfold storeCell
                split
                · next unindexed =>
                    refine storeUnindexed_sized flagged stored here found ?_
                    rintro rfl differs
                    exact out _ field (by simp [Call.leaves, found, notKey, assigns, unindexed, differs])
                · next indexed =>
                    refine storeIndexed_sized flagged allocates stored here ?_
                    rintro rfl
                    exact out _ field (by simp [Call.leaves, found, notKey, assigns, indexed])
              exact wp_mono kept (fun _ after here => keepsSizes_markDirty field after here)
                (fun _ _ stop => stop)
  | incr field obj =>
      change wp (incrField host ctl id field obj) _ _ _
      unfold incrField
      dsimp only
      split
      · exact here
      · next add adds =>
          split
          · exact here
          · next amount parsed =>
              rw [wp_bind, wp_inspect]
              refine ⟨fun row read => storeIndexed_sized _ _ _ here ?_, fun _ _ => trivial⟩
              rintro rfl
              have number : (incrValue host (creator.type field)).isSome = true := by
                simp [CreatorTable.type, adds]
              exact out _ field
                (by simp [Call.leaves, (CTable.row_eq read).1, number, parsed])
  | null field =>
      change wp (setNull host id field) _ _ _
      rw [setNull, wp_bind, wp_inspect]
      refine ⟨fun row read => ?_, fun _ _ => trivial⟩
      dsimp only
      split
      · exact here
      · next nullable =>
          split
          · exact here
          · next value =>
              refine storeIndexed_sized _ _ _ here fun _ => out _ field ?_
              simp [Call.leaves, (CTable.row_eq read).1, nullable, value]

-----------------------------------------------------------------------------------------
-- Creating and deleting rows
-----------------------------------------------------------------------------------------

/-- A new row is linked nowhere. -/
theorem CTable.FoundOrCreated.sized {table after : CTable creator} {key : CString}
    {row : RowId × IndexCtl} (outcome : table.FoundOrCreated key row after) (sized : table.Sized)
    : after.Sized := by
  cases outcome with
  | found lookup => exact sized.same ⟨rfl, rfl, rfl, rfl⟩
  | created lookup linked =>
      constructor
      · intro field skip chain
        have new : table.links field table.nextRow = none :=
          sized.fresh field table.nextRow (Nat.le_refl _)
        rw [sized.size field skip chain, CTable.linkedRows, CTable.linkedRows]
        change _ = (table.nextRow :: table.llHead).countP (fun id => (table.links field id).isSome)
        simp [new]
      · exact fun field id late => sized.fresh field id (Nat.le_of_succ_le late)

/-- A row that is linked in no index may be taken off the list. -/
theorem CTable.Sized.discarded {table : CTable creator} (sized : table.Sized) {id : RowId}
    (listed : id ∈ table.llHead)
    (unlinked : ∀ field, table.skipLists field = none ∨ table.links field id = none)
    (keyTable : HashTable)
    : (table.discarded id keyTable).Sized where
  size := by
    intro field skip chain
    have free := (unlinked field).resolve_left (fun none => nomatch none.symm.trans chain)
    rw [sized.size field skip chain]
    change table.llHead.countP _ = (table.llHead.erase id).countP _
    rw [(List.perm_cons_erase listed).countP_eq, List.countP_cons]
    simp [CTable.discarded, CTable.freeRow, free]
  fresh := sized.fresh

/-- Leaving all indexes counts a row out of each, by the loop over the fields. -/
theorem leaveIndexes_sized {table : CTable creator} {id : RowId} (here : table.SizedAt id)
    (out : ∀ field, table.CountsOut field id)
    : wp (leaveIndexes id)
        (fun _ after => after.SizedAt id
          ∧ ∀ field, after.skipLists field = none ∨ after.links field id = none)
        (stopped (fun _ => False) (fun _ => True)) table := by
  have start : table.SizedAt id ∧ (∀ field, table.CountsOut field id)
      ∧ ∀ field, field ∈ List.finRange creator.nFields ∨ table.skipLists field = none
        ∨ table.links field id = none :=
    ⟨here, out, fun field => .inl (List.mem_finRange field)⟩
  refine wp_mono (@wp_forM_rest Stop (CTable creator) _ (fun field => removeFromIndex field id) _
    (fun rest table => table.SizedAt id ∧ (∀ field, table.CountsOut field id)
      ∧ ∀ field, field ∈ rest ∨ table.skipLists field = none ∨ table.links field id = none)
    ?_ _ _ start) ?_ (fun _ _ stop => stop)
  · rintro first rest middle ⟨here, out, left⟩
    refine wp_mono (removeFromIndex_sized here (out first)) ?_ (fun _ _ stop => stop)
    rintro _ after ⟨there, frame, gone⟩
    refine ⟨there, fun field => ?_, fun field => ?_⟩
    · by_cases same : field = first
      · subst same
        intro skip node row chain link
        rcases gone with none | none
        · exact nomatch none.symm.trans chain
        · exact nomatch none.symm.trans link
      · intro skip node row chain link found
        rw [frame.skipLists field same] at chain
        rw [frame.links field same] at link
        rw [frame.rows] at found
        obtain ⟨alone, equal⟩ := out field skip node row chain link found
        exact ⟨alone, equal.congr frame.rows.symm⟩
    · by_cases same : field = first
      · exact .inr (same ▸ gone)
      · rw [frame.skipLists field same, frame.links field same]
        exact (left field).imp_left fun inside => (List.mem_cons.mp inside).resolve_left same
  · rintro _ after ⟨there, -, left⟩
    exact ⟨there, fun field => (left field).resolve_left (by simp)⟩

/-- Deleting a row that is counted out of every index keeps the sizes. -/
theorem discardRow_sized {table : CTable creator} {id : RowId} (here : table.SizedAt id)
    (out : ∀ field, table.CountsOut field id)
    : wp (discardRow id) (fun _ after => after.Sized ∧ after.Leads)
        (stopped (fun after => after.Sized ∧ after.Leads) (fun _ => True)) table := by
  refine discardRow_spec (fun _ _ => trivial) (wp_mono (leaveIndexes_sized here out) ?_
    (fun _ _ stop => stop))
  rintro _ left ⟨there, unlinked⟩ keyTable deleted - -
  exact ⟨there.sized.discarded there.listed unlinked keyTable,
    there.leads.discarded there.listed deleted⟩

-----------------------------------------------------------------------------------------
-- Creating and dropping indexes
-----------------------------------------------------------------------------------------

/-- The loop of a creation: the rows that are done are linked and counted. -/
structure CTable.Linking (before : CTable creator) (field : creator.Field) (rest : List RowId)
    (table : CTable creator) : Prop where
  frame : before.IndexFrame field table
  coming : ∀ id ∈ rest, id < before.nextRow
  size : ∃ skip, table.skipLists field = some skip
    ∧ skip.size + rest.length = before.llHead.length
  linked : ∀ id ∈ before.llHead, id ∈ rest ∨ (table.links field id).isSome
  fresh : ∀ id, before.nextRow ≤ id → table.links field id = none

theorem CTable.Linking.step {before table : CTable creator} {id : RowId} {rest : List RowId}
    (linking : before.Linking field (id :: rest) table)
    : wp (insertIntoIndex host field id) (fun _ => before.Linking field rest)
        (stopped (before.Linking field (id :: rest)) (fun _ => True)) table := by
  obtain ⟨skip, chain, size⟩ := linking.size
  refine wp_mono (insertIntoIndex_links chain) ?_ ?_
  · rintro _ after ⟨-, linked, -, inserted⟩
    obtain ⟨next, there, longer⟩ := CTable.sinsertLinked_size inserted
    refine ⟨linking.frame.trans linked.frame, fun other inside => ?_, ⟨next, there, ?_⟩, ?_, ?_⟩
    · exact linking.coming other (List.mem_cons_of_mem _ inside)
    · rw [List.length_cons] at size
      omega
    · intro other listed
      by_cases same : other = id
      · subst same
        exact .inr (Option.isSome_iff_ne_none.mpr linked.linked)
      · rw [linked.others other same]
        exact (linking.linked other listed).imp_left
          fun inside => (List.mem_cons.mp inside).resolve_left same
    · intro other late
      have apart : other ≠ id := by
        rintro rfl
        exact absurd (linking.coming other List.mem_cons_self) (Nat.not_lt.mpr late)
      rw [linked.others other apart]
      exact linking.fresh other late
  · intro stop after left
    cases stop with
    | fault fault => trivial
    | tcl error => exact left.1 ▸ linking

/-- A creation ends with every row linked and counted, or with no index. -/
theorem createIndex_sized {table : CTable creator} (depth : Int) (sized : table.Sized)
    (leads : table.Leads)
    : wp (createIndex host field depth) (fun _ => CTable.Sized)
        (stopped CTable.Sized (fun _ => True)) table := by
  refine createIndex_loop sized (fun _ => sized) (fun _ _ => trivial) ?_
  intro skip made absent
  have empty : skip.size = 0 := by
    unfold CTable.snew at made
    split at made
    · cases made
    · split at made <;> cases made
      rfl
  generalize same : ({ table.setSkipList field (some skip) with
    nextNode := table.nextNode + 1
    allocations := table.allocations + 1 } : CTable creator) = opened
  have nextRow : opened.nextRow = table.nextRow := by rw [← same]; rfl
  have llHead : opened.llHead = table.llHead := by rw [← same]; rfl
  have links : opened.links = table.links := by rw [← same]; rfl
  have others : ∀ other, other ≠ field → opened.skipLists other = table.skipLists other := by
    intro other different
    simp [← same, CTable.setSkipList, different]
  have start : opened.Linking field table.llHead opened := by
    refine ⟨.refl field opened, fun id listed => nextRow ▸ leads.bounded listed,
      ⟨skip, by simp [← same, CTable.setSkipList], by rw [empty, llHead, Nat.zero_add]⟩,
      fun id listed => .inl (llHead ▸ listed), fun id late => ?_⟩
    rw [links]
    exact sized.fresh field id (nextRow ▸ late)
  -- Of the other fields nothing has changed.
  have kept : ∀ {rest after}, opened.Linking field rest after →
      (∀ other skip, other ≠ field → after.skipLists other = some skip →
        skip.size = after.linkedRows other)
      ∧ ∀ other id, after.nextRow ≤ id → after.links other id = none := by
    intro rest after linking
    have frame := linking.frame
    refine ⟨fun other skip different chain => ?_, fun other id late => ?_⟩
    · rw [frame.skipLists other different, others other different] at chain
      rw [CTable.linkedRows, frame.llHead, frame.links other different, llHead, links]
      exact sized.size other skip chain
    · rw [frame.nextRow] at late
      by_cases here : other = field
      · exact here ▸ linking.fresh id late
      · rw [frame.links other here, links]
        exact sized.fresh other id (nextRow ▸ late)
  refine wp_mono (@wp_forM_rest Stop (CTable creator) _ (fun id => insertIntoIndex host field id)
    (stopped (fun after => ∃ rest, opened.Linking field rest after) (fun _ => True))
    (fun rest => opened.Linking field rest) ?_ _ _ start) ?_ ?_
  · intro id rest middle linking
    refine wp_mono linking.step (fun _ _ after => after) ?_
    intro stop after left
    cases stop with
    | fault fault => trivial
    | tcl error => exact ⟨_, left⟩
  · intro _ after linking
    obtain ⟨unchanged, fresh⟩ := kept linking
    refine ⟨fun other skip chain => ?_, fresh⟩
    by_cases here : other = field
    · subst here
      obtain ⟨final, there, size⟩ := linking.size
      obtain rfl : final = skip := Option.some.inj (there.symm.trans chain)
      have all : after.linkedRows other = after.llHead.length := by
        refine List.countP_eq_length.mpr fun id listed => ?_
        rw [linking.frame.llHead] at listed
        exact (linking.linked id listed).resolve_left (by simp)
      rw [all, linking.frame.llHead]
      simpa using size
    · exact unchanged other skip here chain
  · intro stop after left
    cases stop with
    | fault fault => trivial
    | tcl error =>
        obtain ⟨rest, linking⟩ := left
        intro cause
        obtain ⟨unchanged, fresh⟩ := kept linking
        refine ⟨fun other skip chain => ?_, fresh⟩
        by_cases here : other = field
        · simp [CTable.setSkipList, here] at chain
        · exact unchanged other skip here (by simpa [CTable.setSkipList, here] using chain)

theorem CTable.Sized.dropIndex {table : CTable creator} (sized : table.Sized)
    (field : creator.Field)
    : (table.dropIndex field).Sized := by
  unfold CTable.dropIndex
  split
  · exact sized
  · refine ⟨fun other next chain => ?_, fun other id late => ?_⟩
    · by_cases same : other = field
      · simp [CTable.setSkipList, same] at chain
      · simpa [CTable.linkedRows, same, CTable.setSkipList] using
          sized.size other next (by simpa [CTable.setSkipList, same] using chain)
    · by_cases same : other = field
      · subst same
        simp [sized.fresh other id late]
      · simpa [same] using sized.fresh other id late

theorem CTable.Emptied.sized {before after : CTable creator} (emptied : before.Emptied after)
    (sized : before.Sized)
    : after.Sized where
  size := fun field skip chain => nomatch (emptied.skipLists field).symm.trans chain
  fresh := by
    intro field id late
    rw [emptied.links]
    exact sized.fresh field id (emptied.nextRow ▸ late)

/-- Moving the position of an index changes no size. -/
theorem CTable.Sized.setCurl {table : CTable creator} (sized : table.Sized) (field : creator.Field)
    (curl : Option NodeId)
    : (table.setCurl field curl).Sized := by
  unfold CTable.setCurl
  split
  · next skip chain =>
      refine ⟨fun other next there => ?_, sized.fresh⟩
      by_cases same : other = field
      · subst same
        obtain rfl : { skip with curl := curl } = next := by
          simpa [CTable.setSkipList] using there
        exact sized.size other skip chain
      · exact sized.size other next (by simpa [CTable.setSkipList, same] using there)
  · exact sized

-----------------------------------------------------------------------------------------
-- Histories
-----------------------------------------------------------------------------------------

/-- Every skip list has the size of its linked rows, and pointers are settled. -/
def CTable.SizedRows (table : CTable creator) : Prop :=
  table.Sized ∧ table.Leads

/-- What the commands keep where rows are counted out of the indexes that they leave. -/
theorem sizeInvariant (host : Host)
    : @CommandInvariant creator host CTable.SizedRows (fun _ => CTable.SizedAt) CTable.SizedRows
        (fun call => call.CountsOut host) (fun _ => True) where
  stops := fun _ here => here
  breaks := fun _ _ _ here => ⟨here.sized, here.leads⟩
  others := fun _ _ => trivial
  counter := fun table number here =>
    ⟨here.1.same ⟨rfl, rfl, rfl, rfl⟩, (leadsInvariant host).counter table number here.2⟩
  find := fun table key id here lookup => ⟨here.1, here.2, here.2.findHashEntry_listed lookup⟩
  create := by
    intro table key here
    refine wp_mono (findOrCreate_spec host key table) ?_ ?_
    · intro row after outcome
      obtain ⟨leads, listed⟩ := outcome.leads here.2
      exact ⟨outcome.sized here.1, leads, listed⟩
    · intro stop after stops
      cases stop with
      | fault fault => trivial
      | tcl error =>
          obtain ⟨allocations, rfl⟩ := stops
          exact ⟨here.1.same ⟨rfl, rfl, rfl, rfl⟩, here.2.allocated allocations⟩
  write := by
    intro call out here
    refine wp_mono (Call.keeps_sizes out here) (fun _ _ after => after) ?_
    intro stop after kept
    cases stop with
    | fault fault => trivial
    | tcl error => exact ⟨kept.sized, kept.leads⟩
  dirty := by
    intro ctl id table here
    refine wp_mono (keepsSizes_setDirty table here) (fun _ _ after => after) ?_
    intro stop after kept
    cases stop with
    | fault fault => trivial
    | tcl error => exact ⟨kept.sized, kept.leads⟩
  finish := by
    intro ctl id table here
    refine wp_mono (keepsSizes_finishRow ctl table here)
      (fun _ _ after => ⟨after.sized, after.leads⟩) ?_
    intro stop after kept
    cases stop with
    | fault fault => trivial
    | tcl error => exact ⟨kept.sized, kept.leads⟩
  leads := fun _ here => here.2
  move := fun _ field _ _ here _ _ => ⟨here.1.setCurl field _, here.2.setCurl field _⟩
  aside := fun table searches cursors memoryTests here =>
    ⟨here.1.same ⟨rfl, rfl, rfl, rfl⟩,
      (leadsInvariant host).aside table searches cursors memoryTests here.2⟩
  reset := fun table after here emptied =>
    ⟨(emptied.sized here.1).same ⟨rfl, rfl, rfl, rfl⟩,
      (leadsInvariant host).reset table after here.2 emptied⟩
  drop := fun table field here => ⟨here.1.dropIndex field, here.2.dropIndex field⟩
  build := by
    intro table field depth here _
    have both := wp_and (@createIndex_sized creator host field table depth here.1 here.2)
      (createIndex_leads host field depth here.2)
    refine wp_mono both (fun _ _ after => after) ?_
    intro stop after kept
    cases stop with
    | fault fault => trivial
    | tcl error => exact kept

/-- A command gets past the checks before it. -/
def Command.Allowed (host : Host) (table : CTable creator) : Command creator → Prop
  | .set _ | .store _ | .incr _ =>
      table.cursors = [] ∧ ¬ (table.sharedMaster && host.freeMemoryLow table.memoryTests) = true
  | .null _ | .readTabsep _ _ => table.cursors = []
  | .delete _ => table.cursors = [] ∧ table.searches = []
  | _ => True

/-- A command that is allowed counts every row out of the indexes it takes it out of. -/
def Command.CountsOut (host : Host) (table : CTable creator) (command : Command creator) : Prop :=
  command.Allowed host table →
    command.Safe host (fun call => call.CountsOut host) (fun _ => True) table
    ∧ ∀ key id, command = .delete [key] → table.findHashEntry key = .ok (some id) →
        ∀ field, table.CountsOut field id

/-- A command that is not allowed changes nothing but the count of memory tests. -/
theorem Command.run_refused {command : Command creator} {table : CTable creator}
    (refused : ¬ command.Allowed host table)
    : wp (command.run host) (fun _ _ => False)
        (stopped (fun after => after = table ∨ after = table.memoryTested) (fun _ => True))
        table := by
  have busy : ∀ {name : String} {action : TableM creator Unit}, table.cursors ≠ [] →
      wp (refuseCursors name action) (fun _ _ => False)
        (stopped (fun after => after = table ∨ after = table.memoryTested) (fun _ => True))
        table := by
    intro name action cursors
    rw [refuseCursors, wp_bind, wp_get, if_pos cursors]
    exact .inl rfl
  have low : ∀ {name : String} {error : TclError} {action : TableM creator Unit},
      ¬ (table.cursors = []
        ∧ ¬ (table.sharedMaster && host.freeMemoryLow table.memoryTests) = true) →
      wp (refuseCursors name (checkMemory host error action)) (fun _ _ => False)
        (stopped (fun after => after = table ∨ after = table.memoryTested) (fun _ => True))
        table := by
    intro name error action refused
    by_cases cursors : table.cursors = []
    · obtain ⟨shared, low⟩ : table.sharedMaster = true ∧ host.freeMemoryLow table.memoryTests = true := by
        simpa [cursors] using refused
      rw [refuseCursors, wp_bind, wp_get, if_neg (by simp [cursors]), checkMemory, wp_bind, wp_get,
        if_pos shared, wp_bind, wp_set, if_pos low]
      exact .inr (by simp [CTable.memoryTested, shared])
    · exact busy cursors
  cases command with
  | set arguments => exact low refused
  | store arguments => exact low refused
  | incr arguments => exact low refused
  | null arguments => exact busy refused
  | readTabsep options line => exact busy refused
  | delete arguments =>
      by_cases cursors : table.cursors = []
      · have searches : table.searches ≠ [] := fun none => refused ⟨cursors, none⟩
        change wp (refuseCursors "delete" _) _ _ _
        rw [refuseCursors, wp_bind, wp_get, if_neg (by simp [cursors]), discard, wp_bind]
        unfold deleteCommand
        rw [wp_bind, wp_get, if_neg (by simp [cursors]), if_pos searches]
        exact .inl rfl
      · exact busy cursors
  | _ => exact absurd trivial refused

theorem Command.run_sized {command : Command creator} {table : CTable creator}
    (here : table.SizedRows) (out : command.CountsOut host table)
    : wp (command.run host) (fun _ after => after.SizedRows ∨ after.Gone)
        (stopped CTable.SizedRows (fun _ => True)) table := by
  by_cases allowed : command.Allowed host table
  · obtain ⟨safely, deletes⟩ := out allowed
    refine (sizeInvariant host).run_leaves trivial here safely ?_
    intro key id same lookup
    exact discardRow_sized ⟨here.1, here.2, here.2.findHashEntry_listed lookup⟩
      (deletes key id same lookup)
  · refine wp_mono (Command.run_refused allowed) (fun _ _ never => never.elim) ?_
    intro stop after left
    cases stop with
    | fault fault => trivial
    | tcl error =>
        rcases left with rfl | rfl
        · exact here
        · exact (sizeInvariant host).toSearchInvariant.memoryTested here

/-- The sizes are kept along a history. -/
theorem CTable.SizedRows.run {commands : List (Command creator)} {table after : CTable creator}
    (here : table.SizedRows)
    (along : table.AlongCommands host (fun table command => command.CountsOut host table) commands)
    (ran : table.afterCommands host commands = some after)
    : after.SizedRows := by
  refine CTable.afterCommands_kept (fun middle command next here out stepped => ?_) here along ran
  rcases CTable.afterCommand_ends (Command.run_sized here out) stepped with
    ⟨kept | gone, living⟩ | kept
  · exact kept
  · exact nomatch living.symm.trans gone.1
  · exact kept

end SpeedTables
