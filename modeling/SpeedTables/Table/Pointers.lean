import SpeedTables.Table.Rows
import SpeedTables.Table.WriteSteps

/-! Pointers to rows never lead to a row that is allocated but not in the table. -/

namespace SpeedTables

open Lib

variable {creator : CreatorTable}

-----------------------------------------------------------------------------------------
-- The invariant
-----------------------------------------------------------------------------------------

/-- A pointer is settled when the row it leads to is in the table or has been freed. -/
def CTable.Settled (table : CTable creator) (id : RowId) : Prop :=
  (table.rows id).isSome = true → id ∈ table.llHead

/-- The chains of the listed entries lead to settled rows. -/
structure HashTable.Leads (table : HashTable) (settled listed : RowId → Prop) : Prop where
  buckets : ∀ index id, table.buckets index = some id → settled id
  next : ∀ id, listed id → ∀ other, table.next id = some other → settled other

/-- The rows of the table are allocated, and all pointers from them, from the buckets and
from the indexes are settled.
-/
structure CTable.Leads (table : CTable creator) : Prop where
  nodup : table.llHead.Nodup
  alive : ∀ id ∈ table.llHead, (table.rows id).isSome = true
  unused : ∀ id, table.nextRow ≤ id → table.rows id = none
  hash : table.keyTable.Leads table.Settled (· ∈ table.llHead)
  nodes : ∀ field skip, table.skipLists field = some skip →
    ∀ id ∈ entries skip.nodes, table.Settled id
  lastNext : ∀ field, ∀ id ∈ table.llHead, ∀ other,
    table.lastNext field id = some other → table.Settled other
  fresh : ∀ field id, table.nextRow ≤ id → table.lastNext field id = none

theorem CTable.Leads.bounded {table : CTable creator} (leads : table.Leads) {id : RowId}
    (listed : id ∈ table.llHead)
    : id < table.nextRow := by
  by_contra late
  have there := leads.alive id listed
  rw [leads.unused id (Nat.not_lt.mp late)] at there
  simp at there

/-- A settled row that can be read is in the table. -/
theorem CTable.Settled.listed {table : CTable creator} {id : RowId} {row : Row creator}
    (settled : table.Settled id) (found : table.row id = .ok row)
    : id ∈ table.llHead :=
  settled (by simp [(CTable.row_eq found).1])

-----------------------------------------------------------------------------------------
-- Lookups
-----------------------------------------------------------------------------------------

/-- A chain from a settled row only comes to rows of the table, by induction on its steps. -/
theorem CTable.Leads.searchChain_listed {table : CTable creator} (leads : table.Leads)
    {key : CString} {hash : UInt32} {found : RowId}
    : ∀ {fuel : Nat} {start : Option RowId},
        (∀ id, start = some id → table.Settled id)
        → table.searchChain key hash fuel start = .ok (some found)
        → found ∈ table.llHead := by
  intro fuel
  induction fuel with
  | zero =>
      intro start _ result
      cases start <;> simp [CTable.searchChain] at result
  | succ fuel ih =>
      intro start settled result
      cases start with
      | none => simp [CTable.searchChain] at result
      | some entry =>
          rw [CTable.searchChain] at result
          split at result
          · cases result
          · next row read =>
              have listed := (settled entry rfl).listed read
              have onward := leads.hash.next entry listed
              split at result
              · split at result
                · cases result
                · split at result
                  · cases result
                    exact listed
                  · exact ih onward result
              · exact ih onward result

/-- A row that is looked up is in the table. -/
theorem CTable.Leads.findHashEntry_listed {table : CTable creator} (leads : table.Leads)
    {key : CString} {found : RowId} (lookup : table.findHashEntry key = .ok (some found))
    : found ∈ table.llHead :=
  leads.searchChain_listed (fun id start => leads.hash.buckets _ id start) lookup

-----------------------------------------------------------------------------------------
-- Linking and unlinking hash entries
-----------------------------------------------------------------------------------------

section Hash

variable {settled listed : RowId → Prop} {keyTable : HashTable} {entry : RowId}

/-- Linking a settled entry keeps the chains settled, now also from that entry. -/
theorem HashTable.Leads.push (leads : keyTable.Leads settled listed) (here : settled entry)
    : (keyTable.push entry).Leads settled (fun id => listed id ∨ id = entry) := by
  constructor
  · intro index id first
    by_cases same : index = keyTable.randomIndex (keyTable.hash entry)
    · obtain rfl : entry = id := by simpa [HashTable.push, same] using first
      exact here
    · exact leads.buckets index id (by simpa [HashTable.push, same] using first)
  · intro id known other behind
    by_cases same : id = entry
    · exact leads.buckets _ other (by simpa [HashTable.push, same] using behind)
    · exact leads.next id (known.resolve_right same) other
        (by simpa [HashTable.push, same] using behind)

theorem HashTable.Leads.mono {fewer : RowId → Prop} (leads : keyTable.Leads settled listed)
    (sub : ∀ id, fewer id → listed id)
    : keyTable.Leads settled fewer where
  buckets := leads.buckets
  next := fun id known => leads.next id (sub id known)

/-- Moving the entries of an old chain keeps the chains settled, by induction on its steps. -/
theorem CTable.rehashChain_leads {table : CTable creator}
    (reads : ∀ id row, settled id → table.row id = .ok row → listed id)
    : ∀ {fuel : Nat} {start : Option RowId} {moved after : HashTable},
        (∀ id, start = some id → settled id)
        → moved.Leads settled listed
        → table.rehashChain fuel start moved = .ok after
        → after.Leads settled listed := by
  intro fuel
  induction fuel with
  | zero =>
      intro start moved after _ leads result
      cases start with
      | none =>
          cases result
          exact leads
      | some entry => simp [CTable.rehashChain] at result
  | succ fuel ih =>
      intro start moved after first leads result
      cases start with
      | none =>
          cases result
          exact leads
      | some entry =>
          rw [CTable.rehashChain] at result
          split at result
          · cases result
          · next row read =>
              have known := reads entry row (first entry rfl) read
              refine ih (fun id behind => leads.next entry known id behind) ?_ result
              exact (leads.push (first entry rfl)).mono (fun id inside => .inl inside)

theorem CTable.rehashBuckets_leads {table : CTable creator} {old : Nat → Option RowId}
    (reads : ∀ id row, settled id → table.row id = .ok row → listed id)
    (starts : ∀ index id, old index = some id → settled id)
    : ∀ {indexes : List Nat} {moved after : HashTable},
        moved.Leads settled listed
        → table.rehashBuckets old indexes moved = .ok after
        → after.Leads settled listed := by
  intro indexes
  induction indexes with
  | nil =>
      intro moved after leads result
      cases result
      exact leads
  | cons index rest ih =>
      intro moved after leads result
      rw [CTable.rehashBuckets] at result
      split at result
      · cases result
      · next middle moving =>
          exact ih (CTable.rehashChain_leads reads (starts index) leads moving) result

/-- Linking an entry under a key keeps the chains settled. -/
theorem CTable.linkHashEntry_leads {table : CTable creator} {key : CString} {after : HashTable}
    (reads : ∀ id row, settled id → table.row id = .ok row → listed id ∨ id = entry)
    (leads : table.keyTable.Leads settled listed) (here : settled entry)
    (result : table.linkHashEntry key entry = .ok after)
    : after.Leads settled (fun id => listed id ∨ id = entry) := by
  unfold CTable.linkHashEntry at result
  dsimp only at result
  generalize hHashed : HashTable.mk table.keyTable.buckets _ _ _ _ _ _ _ = hashed at result
  have hashedLeads : hashed.Leads settled listed := by
    rw [← hHashed]
    exact ⟨leads.buckets, leads.next⟩
  have pushed := hashedLeads.push here
  split at result
  · unfold CTable.rebuildTable at result
    split at result
    · cases result
    · refine CTable.rehashBuckets_leads reads ?_ ?_ result
      · exact pushed.buckets
      · exact ⟨fun _ _ first => (nomatch first), pushed.next⟩
  · cases result
    exact ⟨pushed.buckets, pushed.next⟩

/-- Unlinking a listed entry keeps the chains settled. -/
theorem CTable.deleteHashEntry_leads {table : CTable creator} {after : HashTable}
    (leads : table.keyTable.Leads settled listed) (here : listed entry)
    (result : table.deleteHashEntry entry = .ok after)
    : after.Leads settled listed := by
  have behind := leads.next entry here
  unfold CTable.deleteHashEntry at result
  dsimp only at result
  split at result
  · cases result
    refine ⟨?_, leads.next⟩
    intro index id first
    by_cases same : index = table.keyTable.randomIndex (table.keyTable.hash entry)
    · exact behind id (by simpa [same] using first)
    · exact leads.buckets index id (by simpa [same] using first)
  · split at result
    · cases result
    · next previous found =>
        cases result
        refine ⟨leads.buckets, ?_⟩
        intro id known other next
        by_cases same : id = previous
        · exact behind other (by simpa [same] using next)
        · exact leads.next id known other (by simpa [same] using next)

end Hash

-----------------------------------------------------------------------------------------
-- Index operations
-----------------------------------------------------------------------------------------

/-- An operation on a row in the index of a field adds no pointers but to that row and to
rows that were in the index.
-/
structure CTable.IndexPointers (field : creator.Field) (id : RowId) (before after : CTable creator)
    : Prop where
  nodes : ∀ skip', after.skipLists field = some skip' → ∃ skip, before.skipLists field = some skip
    ∧ ∀ e ∈ entries skip'.nodes, e ∈ entries skip.nodes ∨ e = id
  lastNext : ∀ row other, after.lastNext field row = some other →
    before.lastNext field row = some other
      ∨ (row = id ∧ (other = id ∨ ∃ skip, before.skipLists field = some skip
          ∧ other ∈ entries skip.nodes))
  fresh : ∀ row, row ≠ id → after.lastNext field row = before.lastNext field row

theorem CTable.IndexPointers.refl (table : CTable creator) (field : creator.Field) (id : RowId)
    : table.IndexPointers field id table where
  nodes := fun skip chain => ⟨skip, chain, fun _ inside => .inl inside⟩
  lastNext := fun _ _ next => .inl next
  fresh := fun _ _ => rfl

theorem mem_bucketOf {skip : SkipList RowId} {node : Nat} {id other : RowId}
    (inside : other ∈ bucketOf skip node id)
    : other ∈ entries skip.nodes ∨ other = id := by
  unfold bucketOf at inside
  split at inside
  · next found shape =>
      exact .inl (mem_entries.mpr ⟨found, List.mem_of_find?_eq_some shape, inside⟩)
  · exact .inr (by simpa using inside)

theorem nextInList_mem {rows : List RowId} {id other : RowId}
    (next : nextInList rows id = some other)
    : other ∈ rows := by
  unfold nextInList at next
  exact (List.dropWhile_sublist _).subset (List.mem_of_mem_tail (List.mem_of_mem_head? next))

/-- Erasing a node leaves rows that were there. -/
theorem CTable.serase_entries {table : CTable creator} {field : creator.Field}
    {skip erased : SkipList RowId} {row : Row creator}
    (result : table.serase field skip row = .ok erased)
    : entries erased.nodes ⊆ entries skip.nodes := by
  unfold CTable.serase at result
  split at result
  · cases result
  · cases result
    exact fun _ member => member
  · next node rest located =>
      have inside : ∀ n ∈ node :: rest, n ∈ skip.nodes := by
        unfold CTable.locate at located
        split at located
        · cases located
        · exact fun n member => Lib.locate_subset located member
      split at result
      · cases result
      · cases result
        intro e member
        obtain ⟨n, known, here⟩ := mem_entries.mp member
        rcases List.mem_append.mp known with early | late
        · exact mem_entries.mpr ⟨n, List.mem_of_mem_take early, here⟩
        · exact mem_entries.mpr ⟨n, inside n (by simp [late]), here⟩
      · cases result
        exact fun _ member => member

theorem CTable.removeFromIndex_pointers {table after : CTable creator} {field : creator.Field}
    {id : RowId} (removed : table.removeFromIndex field id = .ok after)
    : table.IndexPointers field id after := by
  unfold CTable.removeFromIndex at removed
  split at removed
  · next skip node chain link =>
      split at removed
      · cases removed
      · next row found =>
          dsimp only at removed
          have moved : ∀ (erased : SkipList RowId) (bucket : List RowId), entries erased.nodes ⊆ entries skip.nodes
              → bucket ⊆ bucketOf skip node id
              → table.IndexPointers field id
                  ((table.unlinkRow field id (bucketOf skip node id)).setSkipList field
                    (some { erased with nodes := setBucket erased.nodes node bucket })) := by
            intro erased bucket fewer part
            refine ⟨?_, ?_, ?_⟩
            · intro skip' shape
              obtain rfl : _ = skip' := by simpa [CTable.setSkipList] using shape
              refine ⟨skip, chain, ?_⟩
              intro e member
              rcases Lib.mem_entries_setBucket member with old | inBucket
              · exact .inl (fewer old)
              · exact mem_bucketOf (part inBucket)
            · intro other next pointed
              by_cases same : other = id
              · subst same
                have nextIn : nextInList (bucketOf skip node other) other = some next := by
                  simpa [CTable.setSkipList, CTable.unlinkRow] using pointed
                refine .inr ⟨rfl, ?_⟩
                rcases mem_bucketOf (nextInList_mem nextIn) with inside | self
                · exact .inr ⟨skip, chain, inside⟩
                · exact .inl self
              · exact .inl (by
                  simpa [CTable.setSkipList, CTable.unlinkRow, CTable.setLink, same] using pointed)
            · intro other different
              simp [CTable.setSkipList, CTable.unlinkRow, CTable.setLink, different]
          split at removed
          · split at removed
            · cases removed
            · next erased result =>
                cases removed
                exact moved erased [] (CTable.serase_entries result) (by simp)
          · next first others shape =>
              cases removed
              refine moved skip (first :: others) (fun _ member => member) ?_
              rw [← shape]
              exact List.erase_subset
  · cases removed
    exact .refl table field id

theorem CTable.sinsertLinked_pointers {table after : CTable creator} {host : Host}
    {field : creator.Field} {skip : SkipList RowId} {id : RowId} {row : Row creator}
    (chain : table.skipLists field = some skip)
    (inserted : table.sinsertLinked host field skip id row = .ok (some after))
    : table.IndexPointers field id after := by
  have located : ∀ rest, table.locate field skip row = .ok rest → rest ⊆ skip.nodes := by
    intro rest found
    unfold CTable.locate at found
    split at found
    · cases found
    · exact Lib.locate_subset found
  have grown : ∀ rest, rest ⊆ skip.nodes
      → table.insertNode host field skip rest id = .ok (some after)
      → table.IndexPointers field id after := by
    intro rest part linked
    unfold CTable.insertNode at linked
    split at linked
    · cases linked
    · cases linked
      refine ⟨?_, ?_, ?_⟩
      · intro skip' shape
        obtain rfl : _ = skip' := by
          simpa [CTable.linkNode, CTable.setSkipList, CTable.setLink] using shape
        refine ⟨skip, chain, ?_⟩
        intro e member
        unfold CTable.growChain at member
        dsimp only at member
        split at member
        · exact .inl member
        · obtain ⟨n, known, here⟩ := mem_entries.mp member
          rcases List.mem_append.mp known with early | late
          · exact .inl (mem_entries.mpr ⟨n, List.mem_of_mem_take early, here⟩)
          · rcases List.mem_cons.mp late with rfl | old
            · exact .inr (by simpa using here)
            · exact .inl (mem_entries.mpr ⟨n, part old, here⟩)
      · exact fun other next pointed => .inl pointed
      · exact fun other different => rfl
  unfold CTable.sinsertLinked at inserted
  split at inserted
  · cases inserted
  · exact grown _ (by simp) inserted
  · next node rest found =>
      split at inserted
      · cases inserted
      · split at inserted
        · cases inserted
        · cases inserted
          refine ⟨?_, fun other next pointed => .inl pointed, fun other different => rfl⟩
          intro skip' shape
          obtain rfl : _ = skip' := by simpa [CTable.setSkipList, CTable.setLink] using shape
          refine ⟨skip, chain, ?_⟩
          intro e member
          rcases Lib.mem_entries_setBucket member with old | inBucket
          · exact .inl old
          · rcases List.mem_cons.mp inBucket with rfl | here
            · exact .inr rfl
            · exact .inl (mem_entries.mpr ⟨node, located _ found (by simp), here⟩)
      · exact grown _ (located _ found) inserted

-----------------------------------------------------------------------------------------
-- Setters
-----------------------------------------------------------------------------------------

/-- Changes that add no pointers keep them settled. -/
theorem CTable.Leads.transport {before after : CTable creator} (leads : before.Leads)
    (alive : ∀ id, (after.rows id).isSome = (before.rows id).isSome)
    (nextRow : after.nextRow = before.nextRow) (llHead : after.llHead = before.llHead)
    (hash : after.keyTable.Leads before.Settled (· ∈ before.llHead))
    (nodes : ∀ field skip', after.skipLists field = some skip' →
      ∀ e ∈ entries skip'.nodes, before.Settled e)
    (lastNext : ∀ field, ∀ id ∈ before.llHead, ∀ other,
      after.lastNext field id = some other → before.Settled other)
    (fresh : ∀ field id, before.nextRow ≤ id → after.lastNext field id = none)
    : after.Leads := by
  have settled : after.Settled = before.Settled := by
    funext id
    simp [CTable.Settled, alive, llHead]
  refine {
    nodup := llHead ▸ leads.nodup
    alive := by simpa [llHead, alive] using leads.alive
    unused := ?_
    hash := by rw [settled, llHead]; exact hash
    nodes := by rw [settled]; exact nodes
    lastNext := by rw [settled, llHead]; exact lastNext
    fresh := by rw [nextRow]; exact fresh }
  intro id late
  have dead := alive id
  rw [leads.unused id (nextRow ▸ late)] at dead
  simpa using dead

theorem CTable.Leads.index {before after : CTable creator} (leads : before.Leads)
    {field : creator.Field} {id : RowId} (listed : id ∈ before.llHead)
    (frame : before.IndexFrame field after) (pointers : before.IndexPointers field id after)
    : after.Leads := by
  have here : before.Settled id := fun _ => listed
  refine leads.transport (by simp [frame.rows]) frame.nextRow frame.llHead
    (by rw [frame.keyTable]; exact leads.hash) ?_ ?_ ?_
  · intro other skip' chain e inside
    by_cases same : other = field
    · subst same
      obtain ⟨skip, old, within⟩ := pointers.nodes skip' chain
      rcases within e inside with known | rfl
      · exact leads.nodes other skip old e known
      · exact here
    · rw [frame.skipLists other same] at chain
      exact leads.nodes other skip' chain e inside
  · intro other row inTable next pointed
    by_cases same : other = field
    · subst same
      rcases pointers.lastNext row next pointed with old | ⟨rfl, rfl | ⟨skip, chain, inside⟩⟩
      · exact leads.lastNext other row inTable next old
      · exact here
      · exact leads.nodes other skip chain next inside
    · rw [frame.lastNext other same] at pointed
      exact leads.lastNext other row inTable next pointed
  · intro other row late
    by_cases same : other = field
    · subst same
      have different : row ≠ id := by
        rintro rfl
        exact absurd (leads.bounded listed) (Nat.not_lt.mpr late)
      rw [pointers.fresh row different]
      exact leads.fresh other row late
    · rw [frame.lastNext other same]
      exact leads.fresh other row late

/-- The pointers are settled, and a row is in the table. -/
def CTable.LeadsTo (id : RowId) (table : CTable creator) : Prop :=
  table.Leads ∧ id ∈ table.llHead

theorem CTable.Leads.putRow {table : CTable creator} (leads : table.Leads) {id : RowId}
    (listed : id ∈ table.llHead) (row : Row creator)
    : (table.putRow id row).Leads := by
  refine leads.transport ?_ rfl rfl leads.hash leads.nodes leads.lastNext leads.fresh
  intro other
  by_cases same : other = id
  · subst same
    simp [CTable.putRow, leads.alive other listed]
  · simp [CTable.putRow, same]

theorem CTable.Leads.rehashed {table : CTable creator} (leads : table.Leads)
    {keyTable : HashTable} (hash : keyTable.Leads table.Settled (· ∈ table.llHead))
    : CTable.Leads { table with keyTable := keyTable } :=
  leads.transport (fun _ => rfl) rfl rfl hash leads.nodes leads.lastNext leads.fresh

theorem removeFromIndex_leads (field : creator.Field) (id : RowId)
    : Respects (Keeps (CTable.LeadsTo id)) (removeFromIndex field id) := by
  refine Respects.of_invariant ?_
  rintro table ⟨leads, listed⟩
  rw [removeFromIndex, wp_bind, wp_inspect]
  refine ⟨?_, fun _ _ => ⟨leads, listed⟩⟩
  intro after removed
  have frame := CTable.removeFromIndex_frame removed
  exact ⟨leads.index listed frame (CTable.removeFromIndex_pointers removed), frame.llHead ▸ listed⟩

/-- The steps of a setter keep pointers settled. -/
theorem writeSteps_leads (host : Host) (id : RowId)
    : WriteSteps host id (Keeps (@CTable.LeadsTo creator id)) where
  put := fun table row _ start => ⟨start.1.putRow start.2 row, start.2⟩
  counted := fun table allocations start =>
    ⟨start.1.transport (fun _ => rfl) rfl rfl start.1.hash start.1.nodes start.1.lastNext
      start.1.fresh, start.2⟩
  remove := fun field => removeFromIndex_leads field id
  insert := by
    intro field
    refine Respects.of_invariant ?_
    rintro table ⟨leads, listed⟩
    rw [insertIntoIndex, wp_bind, wp_get]
    split
    · exact ⟨leads, listed⟩
    · next skip chain =>
        split
        · exact ⟨leads, listed⟩
        · rw [wp_bind, wp_inspect]
          refine ⟨?_, fun _ _ => ⟨leads, listed⟩⟩
          intro row _
          rw [wp_bind, wp_inspect]
          refine ⟨?_, fun _ _ => ⟨leads, listed⟩⟩
          intro inserted result
          cases inserted with
          | some after =>
              have frame := CTable.sinsertLinked_frame chain result
              exact ⟨leads.index listed frame (CTable.sinsertLinked_pointers chain result),
                frame.llHead ▸ listed⟩
          | none => exact ⟨leads, listed⟩
  unlink := by
    refine Respects.of_invariant ?_
    rintro table ⟨leads, listed⟩
    rw [unlinkHashEntry, wp_bind, wp_inspect]
    refine ⟨?_, fun _ _ => ⟨leads, listed⟩⟩
    intro keyTable deleted
    exact ⟨leads.rehashed (CTable.deleteHashEntry_leads leads.hash listed deleted), listed⟩
  link := by
    intro table key row there
    refine wp_mono (storeHashEntry_spec table key id row) ?_ ?_
    · rintro result after stored ⟨leads, listed⟩
      cases stored with
      | found lookup => exact ⟨leads, listed⟩
      | created lookup linked =>
          refine ⟨(leads.putRow listed { row with key := some key }).rehashed ?_, listed⟩
          have put := leads.putRow listed { row with key := some key }
          refine (CTable.linkHashEntry_leads ?_ put.hash (fun _ => listed) linked).mono
            (fun _ inside => .inl inside)
          exact fun other found settled read => .inl (settled.listed read)
    · rintro stop after ⟨-, rfl | rfl⟩ ⟨leads, listed⟩
      · exact ⟨leads, listed⟩
      · exact ⟨leads.putRow listed _, listed⟩

-----------------------------------------------------------------------------------------
-- Creating and deleting rows
-----------------------------------------------------------------------------------------

/-- Counting allocations changes no pointer. -/
theorem CTable.Leads.allocated {table : CTable creator} (leads : table.Leads) (allocations : Nat)
    : CTable.Leads { table with allocations := allocations } :=
  leads.transport (fun _ => rfl) rfl rfl leads.hash leads.nodes leads.lastNext leads.fresh

/-- A new row that is linked and listed is settled, and settles no other. -/
theorem CTable.Leads.withRow {table : CTable creator} (leads : table.Leads) {key : CString}
    {keyTable : HashTable} {allocations : Nat}
    (linked
      : ({ table with allocations := allocations }.putRow table.nextRow
          { creator.init with key := some key }).linkHashEntry key table.nextRow = .ok keyTable)
    : (table.withRow key keyTable allocations).Leads := by
  generalize hAfter : table.withRow key keyTable allocations = after
  have rows : after.rows =
      Function.update table.rows table.nextRow (some { creator.init with key := some key }) := by
    rw [← hAfter]
    rfl
  have llHead : after.llHead = table.nextRow :: table.llHead := by
    rw [← hAfter]
    rfl
  have nextRow : after.nextRow = table.nextRow + 1 := by
    rw [← hAfter]
    rfl
  have settled : ∀ id, table.Settled id → after.Settled id := by
    intro id old there
    rw [llHead]
    by_cases same : id = table.nextRow
    · simp [same]
    · rw [rows, Function.update_of_ne same] at there
      simp [old there]
  have new : after.Settled table.nextRow := by
    intro _
    simp [llHead]
  have notListed : table.nextRow ∉ table.llHead := by
    intro inside
    exact absurd (leads.bounded inside) (Nat.lt_irrefl _)
  refine {
    nodup := by rw [llHead]; exact List.nodup_cons.mpr ⟨notListed, leads.nodup⟩
    alive := ?_, unused := ?_, hash := ?_, nodes := ?_, lastNext := ?_, fresh := ?_ }
  · rw [llHead, rows]
    intro id listed
    by_cases same : id = table.nextRow
    · simp [same]
    · rw [Function.update_of_ne same]
      exact leads.alive id ((List.mem_cons.mp listed).resolve_left same)
  · rw [nextRow, rows]
    intro id late
    rw [Function.update_of_ne (Nat.ne_of_gt late)]
    exact leads.unused id (Nat.le_of_lt late)
  · have chains : keyTable.Leads after.Settled (fun id => id ∈ table.llHead ∨ id = table.nextRow) := by
      refine CTable.linkHashEntry_leads ?_ ?_ new linked
      · intro id row here read
        have there : (after.rows id).isSome = true := by
          rw [rows]
          simpa [CTable.putRow] using congrArg Option.isSome (CTable.row_eq read).1
        have listed := here there
        rw [llHead] at listed
        exact (List.mem_cons.mp listed).symm
      · exact ⟨fun index id first => settled id (leads.hash.buckets index id first),
          fun id known other next => settled other (leads.hash.next id known other next)⟩
    have sameTable : after.keyTable = keyTable := by
      rw [← hAfter]
      rfl
    rw [sameTable, llHead]
    exact chains.mono (fun id listed => (List.mem_cons.mp listed).symm)
  · intro field skip chain id inside
    rw [← hAfter] at chain
    exact settled id (leads.nodes field skip chain id inside)
  · intro field id listed other next
    rw [← hAfter] at next
    change table.lastNext field id = some other at next
    rw [llHead] at listed
    rcases List.mem_cons.mp listed with rfl | old
    · rw [leads.fresh field _ (Nat.le_refl _)] at next
      cases next
    · exact settled other (leads.lastNext field id old other next)
  · rw [nextRow, ← hAfter]
    intro field id late
    exact leads.fresh field id (Nat.le_of_lt late)

/-- Finding or creating a row keeps pointers settled and gives a row of the table. -/
theorem CTable.FoundOrCreated.leads {table after : CTable creator} {key : CString}
    {row : RowId × IndexCtl} (outcome : table.FoundOrCreated key row after) (leads : table.Leads)
    : CTable.LeadsTo row.1 after := by
  cases outcome with
  | found lookup => exact ⟨leads.allocated _, leads.findHashEntry_listed lookup⟩
  | created lookup linked => exact ⟨leads.withRow linked, List.mem_cons_self⟩

/-- Leaving the indexes keeps pointers settled. -/
theorem respects_leaveIndexes (id : RowId)
    : Respects (Keeps (@CTable.LeadsTo creator id)) (leaveIndexes id) :=
  Respects.forM fun field _ => removeFromIndex_leads field id

/-- Deleting a row keeps pointers settled: those to it now lead to a freed row. -/
theorem CTable.Leads.discarded {table : CTable creator} (leads : table.Leads) {id : RowId}
    (listed : id ∈ table.llHead) {keyTable : HashTable}
    (deleted : table.deleteHashEntry id = .ok keyTable)
    : (table.discarded id keyTable).Leads := by
  have others : ∀ other, other ∈ table.llHead.erase id ↔ other ∈ table.llHead ∧ other ≠ id := by
    intro other
    rw [leads.nodup.mem_erase_iff]
    exact and_comm
  have settled : ∀ other, table.Settled other → (table.discarded id keyTable).Settled other := by
    intro other old there
    have different : other ≠ id := by
      rintro rfl
      simp [CTable.discarded, CTable.freeRow] at there
    refine (others other).mpr ⟨old ?_, different⟩
    simpa [CTable.discarded, CTable.freeRow, different] using there
  have hash := CTable.deleteHashEntry_leads leads.hash listed deleted
  refine {
    nodup := leads.nodup.erase id
    alive := ?_, unused := ?_
    hash := ⟨fun index other first => settled other (hash.buckets index other first),
      fun other known next behind =>
        settled next (hash.next other ((others other).mp known).1 next behind)⟩
    nodes := fun field skip chain other inside => settled other (leads.nodes field skip chain other inside)
    lastNext := fun field other known next behind =>
      settled next (leads.lastNext field other ((others other).mp known).1 next behind)
    fresh := leads.fresh }
  · intro other known
    obtain ⟨inTable, different⟩ := (others other).mp known
    simpa [CTable.discarded, CTable.freeRow, different] using leads.alive other inTable
  · intro other late
    have old := leads.unused other late
    by_cases same : other = id
    · simp [CTable.discarded, CTable.freeRow, same]
    · simpa [CTable.discarded, CTable.freeRow, same] using old

-----------------------------------------------------------------------------------------
-- Reset and index commands
-----------------------------------------------------------------------------------------

/-- A table that has been emptied has no pointers from rows. -/
theorem CTable.Emptied.leads {before after : CTable creator} (emptied : before.Emptied after)
    (leads : before.Leads) (buckets : ∀ index, after.keyTable.buckets index = none)
    : after.Leads := by
  refine {
    nodup := by simp [emptied.llHead]
    alive := by simp [emptied.llHead]
    unused := ?_, hash := ?_
    nodes := by simp [emptied.skipLists]
    lastNext := by simp [emptied.llHead]
    fresh := ?_ }
  · rw [emptied.nextRow]
    intro id late
    rcases emptied.rows id with same | freed
    · rw [same]
      exact leads.unused id late
    · exact freed
  · refine ⟨?_, by simp [emptied.llHead]⟩
    intro index id first
    rw [buckets index] at first
    cases first
  · rw [emptied.nextRow]
    intro field id late
    rcases emptied.lastNext field id with same | cleared
    · rw [same]
      exact leads.fresh field id late
    · exact cleared

/-- Dropping an index removes pointers only. -/
theorem CTable.Leads.dropIndex {table : CTable creator} (leads : table.Leads)
    (field : creator.Field)
    : (table.dropIndex field).Leads := by
  have dropped := table.dropIndex_dropped field
  refine leads.transport (by simp [dropped.rows]) dropped.nextRow dropped.llHead
    (by rw [dropped.keyTable]; exact leads.hash) ?_ ?_ ?_
  · intro other skip chain e inside
    exact leads.nodes other skip (dropped.skipLists other skip chain) e inside
  · intro other id listed next pointed
    rcases dropped.lastNext other id with same | cleared
    · rw [same] at pointed
      exact leads.lastNext other id listed next pointed
    · rw [cleared] at pointed
      cases pointed
  · intro other id late
    rcases dropped.lastNext other id with same | cleared
    · rw [same]
      exact leads.fresh other id late
    · exact cleared

/-- A new skip list points nowhere. -/
theorem CTable.Leads.setEmpty {table : CTable creator} (leads : table.Leads)
    (field : creator.Field) {skip : Option (SkipList RowId)}
    (empty : ∀ list, skip = some list → list.nodes = []) (nextNode : NodeId) (allocations : Nat)
    : CTable.Leads { table.setSkipList field skip with
        nextNode := nextNode, allocations := allocations } := by
  refine leads.transport (fun _ => rfl) rfl rfl leads.hash ?_ leads.lastNext leads.fresh
  intro other list chain e inside
  by_cases same : other = field
  · subst same
    have shape : skip = some list := by simpa [CTable.setSkipList] using chain
    rw [empty list shape] at inside
    simp [entries] at inside
  · exact leads.nodes other list (by simpa [CTable.setSkipList, same] using chain) e inside

/-- Creating an index inserts rows of the table. -/
theorem createIndex_leads {table : CTable creator} (host : Host) (field : creator.Field)
    (depth : Int) (leads : table.Leads)
    : wp (createIndex host field depth) (fun _ => CTable.Leads) (fun _ => CTable.Leads) table := by
  rw [createIndex, wp_bind, wp_get]
  split
  · exact leads
  · split
    · exact leads
    · rw [wp_bind, wp_inspect]
      refine ⟨?_, fun _ _ => leads⟩
      intro skip created
      have empty : skip.nodes = [] := by
        unfold CTable.snew at created
        split at created
        · cases created
        · split at created <;> cases created
          rfl
      rw [wp_bind, wp_modify, wp_onTclError]
      have start : CTable.Leads { table.setSkipList field (some skip) with
          nextNode := table.nextNode + 1, allocations := table.allocations + 1 } :=
        leads.setEmpty field (fun list same => by cases same; exact empty) _ _
      have inserts : wp (table.llHead.forM (fun id => insertIntoIndex host field id))
          (fun _ after => after.Leads ∧ after.llHead = table.llHead)
          (fun _ after => after.Leads)
          { table.setSkipList field (some skip) with
            nextNode := table.nextNode + 1, allocations := table.allocations + 1 } := by
        refine wp_forM ?_ ⟨start, rfl⟩
        rintro id listed middle ⟨leads, sameList⟩
        have kept := ((writeSteps_leads host id).insert field).keeps
          (show middle.LeadsTo id from ⟨leads, sameList ▸ listed⟩)
        refine wp_mono (wp_and kept (respects_insertIntoIndex host field id middle)) ?_ ?_
        · exact fun _ after both => ⟨both.1.1, both.2.llHead.trans sameList⟩
        · exact fun _ after both => both.1.1
      refine wp_mono inserts (fun _ _ done => done.1) ?_
      intro stop after leads
      cases stop with
      | fault fault => exact leads
      | tcl error =>
          exact leads.setEmpty field (by simp) after.nextNode after.allocations

/-- The pointers of an empty table. -/
theorem CTable.Leads.empty (creator : CreatorTable) (sharedMaster sharePanic : Bool)
    : (CTable.empty creator sharedMaster sharePanic).Leads where
  nodup := List.nodup_nil
  alive := by simp [CTable.empty]
  unused := fun _ _ => rfl
  hash := ⟨fun _ _ first => (nomatch first), by simp [CTable.empty]⟩
  nodes := fun _ _ chain => nomatch chain
  lastNext := by simp [CTable.empty]
  fresh := fun _ _ _ => rfl

end SpeedTables
