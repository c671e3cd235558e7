import SpeedTables.Lib.Buckets
import SpeedTables.Table.Index

/-! The invariant of one field's index, and its preservation by removal and insertion. -/

namespace SpeedTables

open Lib (Node SkipList Ordered Holds entries liesBefore lowerHeight randomLevel chainBefore
  setBucket)

variable {creator : CreatorTable}

-----------------------------------------------------------------------------------------
-- The invariant
-----------------------------------------------------------------------------------------

/-- The contents of a row, with the initial ones for a freed row. -/
def CTable.rowAt (table : CTable creator) (id : RowId) : Row creator :=
  (table.rows id).getD creator.init

/-- The skip list of a field is in order: its nodes ascend strictly under the compare
function, the rows of a node are equal, a unique list has one row to a node, and its rows
are those rows of the table that are linked to it.
-/
structure CTable.IndexWf (table : CTable creator) (field : creator.Field)
    (skip : SkipList RowId) : Prop where
  depth : skip.maxh ≠ 1
  headless : skip.maxh = 0 → skip.nodes = []
  ordered : Ordered (creator.compareFunction field) table.rowAt skip.nodes
  unique : (creator.fields field).unique = true → ∀ n ∈ skip.nodes, n.bucket.length = 1
  members : ∀ id ∈ entries skip.nodes, id ∈ table.llHead
  links : ∀ id ∈ table.llHead, ∀ node, table.links field id = some node ↔ Holds skip.nodes node id
  fresh : ∀ n ∈ skip.nodes, n.id < table.nextNode
  curl : ∀ id ∈ skip.curl, ∃ n ∈ skip.nodes, n.id = id

/-- The index state of a field: no row is linked without a skip list, and a skip list is in
order and belongs to a field that may be indexed.
-/
structure CTable.FieldIndex (table : CTable creator) (field : creator.Field) : Prop where
  wf : ∀ skip, table.skipLists field = some skip →
    (creator.fields field).indexed = true ∧ table.IndexWf field skip
  unlinked : table.skipLists field = none → ∀ id ∈ table.llHead, table.links field id = none
  unused : ∀ id, table.nextRow ≤ id → table.links field id = none

/-- Every row of the table outside of a set is linked in the index of a field, if there is
one.
-/
def CTable.Complete (table : CTable creator) (field : creator.Field) (except : RowId → Prop)
    : Prop :=
  ∀ id ∈ table.llHead, ¬ except id → (table.skipLists field).isSome → (table.links field id).isSome

-----------------------------------------------------------------------------------------
-- Comparisons with the rows of an index
-----------------------------------------------------------------------------------------

theorem CTable.row_eq {table : CTable creator} {id : RowId} {row : Row creator}
    (found : table.row id = .ok row)
    : table.rows id = some row ∧ table.rowAt id = row := by
  unfold CTable.row at found
  split at found
  · next shape =>
      cases found
      exact ⟨shape, by simp [CTable.rowAt, shape]⟩
  · cases found

theorem compareRows_eq {field : creator.Field} {left right : Row creator} {ordering : Ordering}
    (compared : compareRows creator field left right = .ok ordering)
    : ordering = creator.compareFunction field left right := by
  unfold compareRows at compared
  split at compared
  · cases compared
  · cases compared
    rfl

/-- A comparison with a bucket that ends compares with the first row. -/
theorem CTable.compareBucket_eq {table : CTable creator} {field : creator.Field}
    {row : Row creator} {bucket : List RowId} {ordering : Ordering}
    (compared : table.compareBucket field row bucket = .ok ordering)
    : ∃ first rest, bucket = first :: rest
        ∧ ordering = creator.compareFunction field row (table.rowAt first) := by
  unfold CTable.compareBucket at compared
  split at compared
  · cases compared
  · next first rest =>
      split at compared
      · cases compared
      · next other found =>
          refine ⟨first, rest, rfl, ?_⟩
          rw [(CTable.row_eq found).2]
          exact compareRows_eq compared

/-- The comparison of a lookup agrees with the order of the chain. -/
theorem CTable.beforeRow_agrees (table : CTable creator) (field : creator.Field)
    (row : Row creator) (nodes : List (Node RowId))
    : Lib.Agrees (table.beforeRow field row)
        (liesBefore (creator.compareFunction field) table.rowAt row) nodes := by
  intro n member value compared
  unfold CTable.beforeRow at compared
  split at compared
  · cases compared
  · next ordering shape =>
      obtain ⟨first, rest, bucket, same⟩ := CTable.compareBucket_eq shape
      cases compared
      simp [liesBefore, bucket, same]

/-- A lookup that ends finds the position of the row in the chain. -/
theorem CTable.locate_eq {table : CTable creator} {field : creator.Field} {skip : SkipList RowId}
    {row : Row creator} {rest : List (Node RowId)}
    (ordered : Ordered (creator.compareFunction field) table.rowAt skip.nodes)
    (located : table.locate field skip row = .ok rest)
    : skip.maxh ≠ 0
      ∧ rest = skip.nodes.dropWhile
          (fun n => liesBefore (creator.compareFunction field) table.rowAt row n.bucket) := by
  unfold CTable.locate at located
  split at located
  · cases located
  · next tall =>
      exact ⟨tall, Lib.locate_eq_dropWhile (table.beforeRow_agrees field row skip.nodes)
        (ordered.lowerPrefix row) ordered.linked located⟩

/-- A lookup that ends splits the chain at the position of the row. -/
theorem CTable.locate_split {table : CTable creator} {field : creator.Field} {skip : SkipList RowId}
    {row : Row creator} {rest : List (Node RowId)}
    (ordered : Ordered (creator.compareFunction field) table.rowAt skip.nodes)
    (located : table.locate field skip row = .ok rest)
    : ∃ lows, skip.nodes = lows ++ rest
        ∧ (∀ n ∈ lows, ∀ a ∈ n.bucket, creator.compareFunction field row (table.rowAt a) = .gt)
        ∧ (∀ n ∈ rest.head?, ∀ a ∈ n.bucket,
            creator.compareFunction field row (table.rowAt a) ≠ .gt)
        ∧ (∀ n ∈ rest.tail, ∀ a ∈ n.bucket,
            creator.compareFunction field row (table.rowAt a) = .lt) := by
  obtain ⟨lows, highs, shape, position, before, first, behind⟩ := ordered.split row
  obtain ⟨-, same⟩ := CTable.locate_eq ordered located
  rw [← position] at same
  subst same
  exact ⟨lows, shape, before, first, behind⟩

-----------------------------------------------------------------------------------------
-- What index operations leave alone
-----------------------------------------------------------------------------------------

/-- Nothing but the index of one field has changed, and it exists as before. -/
structure CTable.IndexFrame (field : creator.Field) (before after : CTable creator) : Prop where
  rows : after.rows = before.rows
  nextRow : after.nextRow = before.nextRow
  llHead : after.llHead = before.llHead
  keyTable : after.keyTable = before.keyTable
  skipLists : ∀ other, other ≠ field → after.skipLists other = before.skipLists other
  exists' : (after.skipLists field).isSome = (before.skipLists field).isSome
  links : ∀ other, other ≠ field → after.links other = before.links other
  lastNext : ∀ other, other ≠ field → after.lastNext other = before.lastNext other
  nextNode : before.nextNode ≤ after.nextNode
  count : after.count = before.count
  autoRowNumber : after.autoRowNumber = before.autoRowNumber
  sharedMaster : after.sharedMaster = before.sharedMaster
  sharePanic : after.sharePanic = before.sharePanic
  searches : after.searches = before.searches
  cursors : after.cursors = before.cursors
  destroyed : after.destroyed = before.destroyed

/-- Doing nothing changes nothing. -/
theorem CTable.IndexFrame.refl (field : creator.Field) (table : CTable creator)
    : table.IndexFrame field table := by
  constructor <;> simp

/-- The invariant of a field's index after its chain and one link have changed. -/
theorem CTable.FieldIndex.relink {table : CTable creator} {field : creator.Field}
    {skip next : SkipList RowId} {id : RowId} {link : Option NodeId} {after : CTable creator}
    (index : table.FieldIndex field) (current : table.skipLists field = some skip)
    (listed : id ∈ table.llHead) (old : id < table.nextRow)
    (frame : table.IndexFrame field after)
    (chain : after.skipLists field = some next)
    (linked : ∀ other, after.links field other =
      if other = id then link else table.links field other)
    (depth : next.maxh = skip.maxh)
    (headless : next.maxh = 0 → next.nodes = [])
    (ordered : Ordered (creator.compareFunction field) table.rowAt next.nodes)
    (unique : (creator.fields field).unique = true → ∀ n ∈ next.nodes, n.bucket.length = 1)
    (here : ∀ node, link = some node ↔ Holds next.nodes node id)
    (others : ∀ other, other ≠ id → ∀ node, Holds next.nodes node other ↔ Holds skip.nodes node other)
    (fresh : ∀ n ∈ next.nodes, n.id < after.nextNode)
    (curl : ∀ id ∈ next.curl, ∃ n ∈ next.nodes, n.id = id)
    : after.FieldIndex field := by
  obtain ⟨indexed, wf⟩ := index.wf skip current
  have rowAt : after.rowAt = table.rowAt := by
    funext other
    simp [CTable.rowAt, frame.rows]
  constructor
  · intro found shape
    rw [chain] at shape
    cases shape
    refine ⟨indexed, {
      depth := depth ▸ wf.depth
      headless := headless
      ordered := rowAt ▸ ordered
      unique := unique
      members := ?_
      links := ?_
      fresh := fresh
      curl := curl }⟩
    · intro other inside
      rw [frame.llHead]
      by_cases same : other = id
      · rw [same]
        exact listed
      · obtain ⟨n, member, inBucket⟩ := Lib.mem_entries.mp inside
        have held : Holds skip.nodes n.id other :=
          (others other same n.id).mp ⟨n, member, rfl, inBucket⟩
        obtain ⟨m, memberM, -, inBucketM⟩ := held
        exact wf.members other (Lib.mem_entries.mpr ⟨m, memberM, inBucketM⟩)
    · intro other inside node
      rw [linked other]
      split
      · next same =>
          subst same
          exact here node
      · next different =>
          rw [others other different node]
          exact wf.links other (frame.llHead ▸ inside) node
  · intro absent
    simp [chain] at absent
  · intro other late
    rw [frame.nextRow] at late
    have different : other ≠ id := by
      rintro rfl
      exact absurd old (Nat.not_lt.mpr late)
    rw [linked other, if_neg different]
    exact index.unused other late

-----------------------------------------------------------------------------------------
-- Removal
-----------------------------------------------------------------------------------------

/-- The bucket list of a linked row is that of its node. -/
theorem CTable.IndexWf.bucketOf_eq {table : CTable creator} {field : creator.Field}
    {skip : SkipList RowId} (wf : table.IndexWf field skip) {n : Node RowId} (member : n ∈ skip.nodes)
    (id : RowId)
    : bucketOf skip n.id id = n.bucket := by
  have found : ∃ m, skip.nodes.find? (fun other => other.id = n.id) = some m := by
    rw [← Option.isSome_iff_exists, List.find?_isSome]
    exact ⟨n, member, by simp⟩
  obtain ⟨m, found⟩ := found
  have same : m = n := wf.ordered.id_injective (List.mem_of_find?_eq_some found) member
    (by simpa using List.find?_some found)
  simp [bucketOf, found, same]

/-- Erasing the node of a row by comparison takes that node out of the chain. -/
theorem CTable.IndexWf.serase_eq {table : CTable creator} {field : creator.Field}
    {skip erased : SkipList RowId} {row : Row creator} {lows highs : List (Node RowId)}
    {node : Node RowId} {id : RowId}
    (wf : table.IndexWf field skip) (shape : skip.nodes = lows ++ node :: highs)
    (inside : id ∈ node.bucket) (contents : table.rowAt id = row)
    (result : table.serase field skip row = .ok erased)
    : erased = sreset
        { skip with
          nodes := lows ++ highs
          size := skip.size - 1
          curh := lowerHeight (lows ++ highs) skip.curh } := by
  have self : creator.compareFunction field row (table.rowAt id) = .eq := by
    rw [contents]
    exact Std.ReflCmp.compare_self
  unfold CTable.serase at result
  split at result
  · cases result
  · next located =>
      obtain ⟨before, split, less, -, -⟩ := CTable.locate_split wf.ordered located
      have member : node ∈ before := by
        have : node ∈ skip.nodes := by simp [shape]
        simpa [split] using this
      simp [less node member id inside] at self
  · next first rest located =>
      obtain ⟨before, split, less, notLess, greater⟩ := CTable.locate_split wf.ordered located
      have here : node = first := by
        have member : node ∈ before ++ first :: rest := by simp [← split, shape]
        rcases List.mem_append.mp member with low | high
        · simp [less node low id inside] at self
        · rcases List.mem_cons.mp high with same | later
          · exact same
          · simp [greater node later id inside] at self
      have cut : before = lows ∧ rest = highs := by
        have same : before ++ node :: rest = lows ++ node :: highs := by
          rw [← shape, split, here]
        have notBefore : node ∉ before := by
          intro low
          simp [less node low id inside] at self
        have notBehind : node ∉ rest := by
          intro high
          simp [greater node high id inside] at self
        obtain ⟨left, -, right⟩ := (List.append_cons_inj_of_notMem notBefore notBehind).mp same
        exact ⟨left, right⟩
      split at result
      · cases result
      · cases result
        rw [split, Lib.chainBefore_append, cut.1, cut.2]
      · next ordering notEqual compared =>
          obtain ⟨a, others, bucket, same⟩ := CTable.compareBucket_eq compared
          have alike : a ∈ node.bucket := by simp [here, bucket]
          have equal := wf.ordered.equal node (by simp [shape]) id inside a alike
          rw [contents] at equal
          exact absurd (same.trans equal) notEqual

/-- What taking a row out of a chain leaves: the row stands nowhere, the others as before. -/
structure CTable.TakenOut (field : creator.Field) (id : RowId) (before after : CTable creator)
    : Prop where
  index : after.FieldIndex field
  frame : before.IndexFrame field after
  unlinked : after.links field id = none
  others : ∀ other, other ≠ id → after.links field other = before.links field other

/-- A row is taken out by a chain that holds the other rows only. -/
theorem CTable.TakenOut.of_chain {table : CTable creator} {field : creator.Field}
    {skip next : SkipList RowId} {id : RowId} (bucket : List RowId)
    (index : table.FieldIndex field) (chain : table.skipLists field = some skip)
    (listed : id ∈ table.llHead) (old : id < table.nextRow)
    (depth : next.maxh = skip.maxh)
    (ordered : Ordered (creator.compareFunction field) table.rowAt next.nodes)
    (unique : (creator.fields field).unique = true → ∀ n ∈ next.nodes, n.bucket.length = 1)
    (held : ∀ node other, Holds next.nodes node other ↔ Holds skip.nodes node other ∧ other ≠ id)
    (part : ∀ n ∈ next.nodes, ∃ m ∈ skip.nodes, m.id = n.id)
    (curl : ∀ id ∈ next.curl, ∃ n ∈ next.nodes, n.id = id)
    : table.TakenOut field id ((table.unlinkRow field id bucket).setSkipList field (some next)) := by
  obtain ⟨-, wf⟩ := index.wf skip chain
  have linked : ∀ other, (table.setLink field id none).links field other =
      if other = id then none else table.links field other := by
    intro other
    simp [CTable.setLink, Function.update_apply]
  have frame : table.IndexFrame field
      ((table.unlinkRow field id bucket).setSkipList field (some next)) := by
    constructor <;>
      simp +contextual [CTable.unlinkRow, CTable.setSkipList, CTable.setLink, chain]
  refine ⟨index.relink chain listed old frame (by simp [CTable.setSkipList]) linked depth ?_
    ordered unique ?_ ?_ ?_ curl, frame, ?_, ?_⟩
  · intro flat
    rw [depth] at flat
    refine List.eq_nil_iff_forall_not_mem.mpr ?_
    intro n member
    obtain ⟨m, memberM, -⟩ := part n member
    simp [wf.headless flat] at memberM
  · intro node
    simp [held node id]
  · intro other different node
    simp [held node other, different]
  · intro n member
    obtain ⟨m, memberM, same⟩ := part n member
    rw [← same]
    exact Nat.lt_of_lt_of_le (wf.fresh m memberM) frame.nextNode
  · exact (linked id).trans (if_pos rfl)
  · intro other different
    exact (linked other).trans (if_neg different)

/-- Removing a row from a field's index keeps the index in order, by cases on whether the
row is the last one of its bucket list.
-/
theorem CTable.removeFromIndex_spec {table after : CTable creator} {field : creator.Field}
    {id : RowId} (index : table.FieldIndex field) (listed : id ∈ table.llHead)
    (old : id < table.nextRow) (removed : table.removeFromIndex field id = .ok after)
    : table.TakenOut field id after := by
  unfold CTable.removeFromIndex at removed
  split at removed
  case h_2 absent =>
    cases removed
    refine ⟨index, .refl field table, ?_, fun _ _ => rfl⟩
    cases chain : table.skipLists field with
    | none => exact index.unlinked chain id listed
    | some skip =>
        cases link : table.links field id with
        | none => rfl
        | some node => exact absurd link (absent skip node chain)
  case h_1 skip number chain link =>
    obtain ⟨-, wf⟩ := index.wf skip chain
    obtain ⟨node, member, rfl, inside⟩ := (wf.links id listed number).mp link
    obtain ⟨lows, highs, shape⟩ := List.append_of_mem member
    have ordered := wf.ordered
    rw [shape] at ordered
    have inNodes : ∀ n, n ∈ lows ++ highs → n ∈ lows ++ node :: highs := by
      intro n elsewhere
      simp only [List.mem_append, List.mem_cons] at elsewhere ⊢
      tauto
    have apart : ∀ n ∈ lows ++ highs, n ≠ node := by
      intro n elsewhere same
      have distinct : (lows ++ node :: highs).Nodup := ordered.ids.of_map Node.id
      exact (List.nodup_middle.mp distinct).notMem (same ▸ elsewhere)
    have elsewhere : ∀ n ∈ lows ++ highs, id ∉ n.bucket := by
      intro n other again
      exact apart n other (ordered.node_of_entry (inNodes n other) (by simp) again inside)
    split at removed
    · cases removed
    · next row found =>
        rw [wf.bucketOf_eq member id] at removed
        cases left : node.bucket.erase id with
        | nil =>
            -- the last row: its node is erased by comparison
            simp only [left] at removed
            split at removed
            · cases removed
            · next erased erasing =>
                have alone : node.bucket = [id] := by
                  have perm := List.perm_cons_erase inside
                  rw [left] at perm
                  exact List.perm_singleton.mp perm
                have gone : setBucket (lows ++ highs) node.id [] = lows ++ highs := by
                  refine Lib.setBucket_of_ne ?_
                  intro n other same
                  exact apart n other
                    (ordered.id_injective (inNodes n other) (by simp) same)
                have result := wf.serase_eq shape inside (CTable.row_eq found).2 erasing
                subst result
                simp only [sreset, gone, Except.ok.injEq] at removed
                subst removed
                have part : (lows ++ highs).Sublist (lows ++ node :: highs) :=
                  (List.Sublist.refl lows).append (List.sublist_cons_self node highs)
                refine CTable.TakenOut.of_chain node.bucket index chain listed old rfl
                  (ordered.sublist part) ?_ ?_ ?_ ?_
                · intro one n other
                  exact wf.unique one n (shape ▸ inNodes n other)
                · intro number other
                  constructor
                  · rintro ⟨n, member, same, again⟩
                    refine ⟨⟨n, shape ▸ inNodes n member, same, again⟩, ?_⟩
                    rintro rfl
                    exact elsewhere n member again
                  · rintro ⟨⟨n, member, same, again⟩, different⟩
                    rw [shape] at member
                    refine ⟨n, ?_, same, again⟩
                    simp only [List.mem_append, List.mem_cons] at member ⊢
                    rcases member with low | rfl | high
                    · exact .inl low
                    · simp [alone, different] at again
                    · exact .inr high
                · intro n other
                  exact ⟨n, shape ▸ inNodes n other, rfl⟩
                · intro number start
                  obtain ⟨n, first, same⟩ := Option.map_eq_some_iff.mp (Option.mem_def.mp start)
                  exact ⟨n, List.mem_of_head? first, same⟩
        | cons first others =>
            -- other rows stay in the bucket list
            simp only [left, Except.ok.injEq] at removed
            subst removed
            rw [shape, Lib.setBucket_split ordered, ← left]
            have kept : node.bucket.erase id ≠ [] := by simp [left]
            have part : (node.bucket.erase id).Sublist node.bucket := List.erase_sublist
            refine CTable.TakenOut.of_chain node.bucket index chain listed old rfl
              (ordered.shrink part kept) ?_ ?_ ?_ ?_
            · intro one n member
              have single := wf.unique one node (by simp [shape])
              have length := List.length_erase_of_mem inside
              have positive := List.length_pos_iff.mpr kept
              omega
            · intro number other
              constructor
              · rintro ⟨n, member, same, again⟩
                simp only [List.mem_append, List.mem_cons] at member
                rcases member with low | rfl | high
                · refine ⟨⟨n, by simp [shape, low], same, again⟩, ?_⟩
                  rintro rfl
                  exact elsewhere n (by simp [low]) again
                · have distinct := ordered.distinct node (by simp)
                  obtain ⟨different, again⟩ := (List.Nodup.mem_erase_iff distinct).mp again
                  exact ⟨⟨node, by simp [shape], same, again⟩, different⟩
                · refine ⟨⟨n, by simp [shape, high], same, again⟩, ?_⟩
                  rintro rfl
                  exact elsewhere n (by simp [high]) again
              · rintro ⟨⟨n, member, same, again⟩, different⟩
                rw [shape] at member
                simp only [List.mem_append, List.mem_cons] at member
                rcases member with low | rfl | high
                · exact ⟨n, by simp [low], same, again⟩
                · exact ⟨_, List.mem_append_right lows (List.mem_cons_self ..), same,
                    (List.mem_erase_of_ne different).mpr again⟩
                · exact ⟨n, by simp [high], same, again⟩
            · intro n member
              simp only [List.mem_append, List.mem_cons] at member
              rcases member with low | rfl | high
              · exact ⟨n, by simp [shape, low], rfl⟩
              · exact ⟨node, by simp [shape], rfl⟩
              · exact ⟨n, by simp [shape, high], rfl⟩
            · intro number start
              obtain ⟨n, member, same⟩ := wf.curl number start
              rw [shape] at member
              simp only [List.mem_append, List.mem_cons] at member
              rcases member with low | rfl | high
              · exact ⟨n, by simp [low], same⟩
              · exact ⟨_, List.mem_append_right lows (List.mem_cons_self ..), same⟩
              · exact ⟨n, by simp [high], same⟩

-----------------------------------------------------------------------------------------
-- Insertion
-----------------------------------------------------------------------------------------

/-- What putting a row in a chain leaves: the row is linked, and the others are as before. -/
structure CTable.PutIn (field : creator.Field) (id : RowId) (before after : CTable creator)
    : Prop where
  index : after.FieldIndex field
  frame : before.IndexFrame field after
  linked : (after.links field id).isSome = true
  others : ∀ other, other ≠ id → after.links field other = before.links field other

/-- A row is put in by a chain that holds it in addition. -/
theorem CTable.PutIn.of_chain {table after : CTable creator} {field : creator.Field}
    {skip : SkipList RowId} {id : RowId} (next : SkipList RowId) (number : NodeId)
    (index : table.FieldIndex field) (chain : table.skipLists field = some skip)
    (listed : id ∈ table.llHead) (old : id < table.nextRow)
    (unlinked : table.links field id = none)
    (frame : table.IndexFrame field after) (result : after.skipLists field = some next)
    (links : ∀ other, after.links field other =
      if other = id then some number else table.links field other)
    (depth : next.maxh = skip.maxh) (tall : skip.maxh ≠ 0)
    (ordered : Ordered (creator.compareFunction field) table.rowAt next.nodes)
    (unique : (creator.fields field).unique = true → ∀ n ∈ next.nodes, n.bucket.length = 1)
    (held : ∀ node other,
      Holds next.nodes node other ↔ Holds skip.nodes node other ∨ (node = number ∧ other = id))
    (fresh : ∀ n ∈ next.nodes, n.id < after.nextNode)
    (curl : ∀ id ∈ next.curl, ∃ n ∈ next.nodes, n.id = id)
    : table.PutIn field id after := by
  obtain ⟨-, wf⟩ := index.wf skip chain
  refine ⟨index.relink chain listed old frame result links depth ?_ ordered unique ?_ ?_ fresh
    curl, frame, ?_, ?_⟩
  · intro flat
    exact absurd (depth ▸ flat) tall
  · intro node
    have absent : ¬ Holds skip.nodes node id := by
      intro inside
      simp [unlinked, ← wf.links id listed node] at inside
    simp [held node id, absent, eq_comm]
  · intro other different node
    simp [held node other, different]
  · simp [links id]
  · intro other different
    rw [links other, if_neg different]

/-- A new node lies between the lesser and the greater ones. -/
theorem CTable.linkNode_spec {table : CTable creator} {host : Host} {field : creator.Field}
    {skip : SkipList RowId} {id : RowId} {lows rest : List (Node RowId)}
    (index : table.FieldIndex field) (chain : table.skipLists field = some skip)
    (listed : id ∈ table.llHead) (old : id < table.nextRow)
    (unlinked : table.links field id = none) (tall : skip.maxh ≠ 0)
    (shape : skip.nodes = lows ++ rest)
    (above : ∀ n ∈ lows, ∀ a ∈ n.bucket,
      creator.compareFunction field (table.rowAt id) (table.rowAt a) = .gt)
    (below : ∀ n ∈ rest, ∀ a ∈ n.bucket,
      creator.compareFunction field (table.rowAt id) (table.rowAt a) = .lt)
    : table.PutIn field id (table.linkNode host field skip rest id) := by
  obtain ⟨-, wf⟩ := index.wf skip chain
  have fresh : ∀ n ∈ lows ++ rest, n.id < table.nextNode := by
    intro n member
    exact wf.fresh n (shape ▸ member)
  have drawn : randomLevel skip.maxh (host.zeroBits table.draws) ≠ 0 := by
    have depth := wf.depth
    unfold randomLevel
    split <;> omega
  have frame : table.IndexFrame field (table.linkNode host field skip rest id) := by
    constructor <;>
      simp +contextual [CTable.linkNode, CTable.setSkipList, CTable.setLink, chain]
  refine CTable.PutIn.of_chain (table.growChain host skip rest id) table.nextNode index chain
    listed old unlinked frame (by simp [CTable.linkNode, CTable.setSkipList, CTable.setLink]) ?_
    rfl tall ?_ ?_ ?_ ?_ ?_
  · intro other
    simp [CTable.linkNode, CTable.setSkipList, CTable.setLink, Function.update_apply]
  all_goals
    simp only [CTable.growChain, if_neg drawn]
    rw [shape, Lib.chainBefore_append]
  · refine Ordered.insertNode (shape ▸ wf.ordered) ?_ ?_ above below
    · intro n member same
      have := fresh n member
      omega
    · split <;> omega
  · intro one n member
    simp only [List.mem_append, List.mem_cons] at member
    rcases member with low | rfl | high
    · exact wf.unique one n (by simp [shape, low])
    · rfl
    · exact wf.unique one n (by simp [shape, high])
  · intro node other
    constructor
    · rintro ⟨n, member, same, inside⟩
      simp only [List.mem_append, List.mem_cons] at member
      rcases member with low | rfl | high
      · exact .inl ⟨n, by simp [low], same, inside⟩
      · exact .inr ⟨same.symm, by simpa using inside⟩
      · exact .inl ⟨n, by simp [high], same, inside⟩
    · rintro (⟨n, member, same, inside⟩ | ⟨rfl, rfl⟩)
      · refine ⟨n, ?_, same, inside⟩
        simp only [List.mem_append, List.mem_cons] at member ⊢
        tauto
      · exact ⟨_, List.mem_append_right lows (List.mem_cons_self ..), rfl, by simp⟩
  · intro n member
    simp only [List.mem_append, List.mem_cons] at member
    rcases member with low | rfl | high
    · exact Nat.lt_of_lt_of_le (fresh n (by simp [low])) frame.nextNode
    · simp [CTable.linkNode]
    · exact Nat.lt_of_lt_of_le (fresh n (by simp [high])) frame.nextNode
  · intro number start
    obtain ⟨n, member, same⟩ := wf.curl number start
    refine ⟨n, ?_, same⟩
    rw [shape] at member
    simp only [List.mem_append, List.mem_cons] at member ⊢
    tauto

/-- A row equal to those of a node goes to the front of its bucket list. -/
theorem CTable.PutIn.bucket {table : CTable creator} {field : creator.Field}
    {skip : SkipList RowId} {id : RowId} {lows highs : List (Node RowId)} {node : Node RowId}
    (index : table.FieldIndex field) (chain : table.skipLists field = some skip)
    (listed : id ∈ table.llHead) (old : id < table.nextRow)
    (unlinked : table.links field id = none) (tall : skip.maxh ≠ 0)
    (shape : skip.nodes = lows ++ node :: highs)
    (several : (creator.fields field).unique = false)
    (equal : ∀ a ∈ node.bucket,
      creator.compareFunction field (table.rowAt id) (table.rowAt a) = .eq)
    : table.PutIn field id
        ((table.setSkipList field (some
          { skip with
            nodes := setBucket skip.nodes node.id (id :: node.bucket)
            size := skip.size + 1 })).setLink field id (some node.id)) := by
  obtain ⟨-, wf⟩ := index.wf skip chain
  have ordered := wf.ordered
  rw [shape] at ordered
  have absent : id ∉ node.bucket := by
    intro inside
    have held : Holds skip.nodes node.id id := ⟨node, by simp [shape], rfl, inside⟩
    simp [← wf.links id listed, unlinked] at held
  refine CTable.PutIn.of_chain
    { skip with
      nodes := setBucket skip.nodes node.id (id :: node.bucket)
      size := skip.size + 1 }
    node.id index chain listed old unlinked ?_
    (by simp [CTable.setSkipList, CTable.setLink]) ?_ rfl tall ?_ ?_ ?_ ?_ ?_
  · constructor <;> simp +contextual [CTable.setSkipList, CTable.setLink, chain]
  · intro other
    simp [CTable.setSkipList, CTable.setLink, Function.update_apply]
  all_goals
    simp only
    rw [shape, Lib.setBucket_split ordered]
  · exact ordered.addToBucket absent equal
  · intro one
    simp [several] at one
  · intro number other
    constructor
    · rintro ⟨n, member, same, inside⟩
      simp only [List.mem_append, List.mem_cons] at member
      rcases member with low | rfl | high
      · exact .inl ⟨n, by simp [low], same, inside⟩
      · rcases List.mem_cons.mp inside with here | inside
        · exact .inr ⟨same.symm, here⟩
        · exact .inl ⟨node, by simp, same, inside⟩
      · exact .inl ⟨n, by simp [high], same, inside⟩
    · rintro (⟨n, member, same, inside⟩ | ⟨rfl, rfl⟩)
      · simp only [List.mem_append, List.mem_cons] at member
        rcases member with low | rfl | high
        · exact ⟨n, by simp [low], same, inside⟩
        · exact ⟨_, List.mem_append_right lows (List.mem_cons_self ..), same,
            List.mem_cons_of_mem _ inside⟩
        · exact ⟨n, by simp [high], same, inside⟩
      · exact ⟨_, List.mem_append_right lows (List.mem_cons_self ..), rfl, by simp⟩
  · intro n member
    have current : ∀ m ∈ lows ++ node :: highs, m.id < table.nextNode :=
      fun m inside => wf.fresh m (shape ▸ inside)
    simp only [List.mem_append, List.mem_cons] at member
    rcases member with low | rfl | high
    · exact current n (by simp [low])
    · exact current node (by simp)
    · exact current n (by simp [high])
  · intro number start
    obtain ⟨n, member, same⟩ := wf.curl number start
    rw [shape] at member
    simp only [List.mem_append, List.mem_cons] at member
    rcases member with low | rfl | high
    · exact ⟨n, by simp [low], same⟩
    · exact ⟨_, List.mem_append_right lows (List.mem_cons_self ..), same⟩
    · exact ⟨n, by simp [high], same⟩

/-- Inserting a row in a field's index either puts it in, with no equal row there when the
index is unique, or refuses it because a unique index has an equal row.
-/
theorem CTable.sinsertLinked_spec {table : CTable creator} {host : Host} {field : creator.Field}
    {skip : SkipList RowId} {id : RowId} {inserted : Option (CTable creator)}
    (index : table.FieldIndex field) (chain : table.skipLists field = some skip)
    (listed : id ∈ table.llHead) (old : id < table.nextRow)
    (unlinked : table.links field id = none)
    (result : table.sinsertLinked host field skip id (table.rowAt id) = .ok inserted)
    : match inserted with
      | some after =>
          table.PutIn field id after
          ∧ ((creator.fields field).unique = true → ∀ other ∈ entries skip.nodes,
              creator.compareFunction field (table.rowAt id) (table.rowAt other) ≠ .eq)
      | none =>
          (creator.fields field).unique = true
          ∧ ∃ other ∈ entries skip.nodes,
              creator.compareFunction field (table.rowAt id) (table.rowAt other) = .eq := by
  obtain ⟨-, wf⟩ := index.wf skip chain
  have newNode : ∀ {lows rest : List (Node RowId)} {inserted : Option (CTable creator)},
      skip.maxh ≠ 0 → skip.nodes = lows ++ rest
      → (∀ n ∈ lows, ∀ a ∈ n.bucket,
          creator.compareFunction field (table.rowAt id) (table.rowAt a) = .gt)
      → (∀ n ∈ rest, ∀ a ∈ n.bucket,
          creator.compareFunction field (table.rowAt id) (table.rowAt a) = .lt)
      → table.insertNode host field skip rest id = .ok inserted
      → ∃ after, inserted = some after ∧ table.PutIn field id after
          ∧ ∀ other ∈ entries skip.nodes,
              creator.compareFunction field (table.rowAt id) (table.rowAt other) ≠ .eq := by
    intro lows rest inserted tall shape above below linked
    unfold CTable.insertNode at linked
    split at linked
    · cases linked
    · cases linked
      refine ⟨_, rfl, CTable.linkNode_spec index chain listed old unlinked tall shape above below,
        ?_⟩
      intro other inside
      obtain ⟨n, member, inBucket⟩ := Lib.mem_entries.mp inside
      rw [shape] at member
      rcases List.mem_append.mp member with low | high
      · simp [above n low other inBucket]
      · simp [below n high other inBucket]
  unfold CTable.sinsertLinked at result
  split at result
  · cases result
  · next located =>
      obtain ⟨lows, shape, less, -, -⟩ := CTable.locate_split wf.ordered located
      obtain ⟨after, rfl, putIn, unequal⟩ := newNode (CTable.locate_eq wf.ordered located).1 shape
        less (by simp) result
      exact ⟨putIn, fun _ => unequal⟩
  · next node rest located =>
      have tall := (CTable.locate_eq wf.ordered located).1
      obtain ⟨lows, shape, less, notLess, greater⟩ := CTable.locate_split wf.ordered located
      have inNodes : node ∈ skip.nodes := by simp [shape]
      split at result
      · cases result
      · next compared =>
          obtain ⟨first, others, bucket, same⟩ := CTable.compareBucket_eq compared
          have inside : first ∈ node.bucket := by simp [bucket]
          have equal : ∀ a ∈ node.bucket,
              creator.compareFunction field (table.rowAt id) (table.rowAt a) = .eq := by
            intro a alike
            rw [wf.ordered.compare_bucket inNodes alike inside]
            exact same.symm
          split at result
          · next one =>
              cases result
              exact ⟨one, first, Lib.mem_entries.mpr ⟨node, inNodes, inside⟩, equal first inside⟩
          · next several =>
              cases result
              refine ⟨CTable.PutIn.bucket index chain listed old unlinked tall shape
                (by simpa using several) equal, ?_⟩
              intro one
              exact absurd one several
      · next ordering notEqual compared =>
          obtain ⟨first, others, bucket, same⟩ := CTable.compareBucket_eq compared
          have inside : first ∈ node.bucket := by simp [bucket]
          have below : ∀ n ∈ node :: rest, ∀ a ∈ n.bucket,
              creator.compareFunction field (table.rowAt id) (table.rowAt a) = .lt := by
            intro n member a alike
            rcases List.mem_cons.mp member with rfl | later
            · have unequal : creator.compareFunction field (table.rowAt id) (table.rowAt a) ≠ .eq := by
                rw [wf.ordered.compare_bucket inNodes alike inside, ← same]
                exact notEqual
              have notGreater := notLess n rfl a alike
              cases value : creator.compareFunction field (table.rowAt id) (table.rowAt a) with
              | lt => rfl
              | eq => exact absurd value unequal
              | gt => exact absurd value notGreater
            · exact greater n later a alike
          obtain ⟨after, rfl, putIn, unequal⟩ := newNode tall shape less below result
          exact ⟨putIn, fun _ => unequal⟩

end SpeedTables
