import SpeedTables.Table.IndexCommands
import SpeedTables.Table.Sample

/-! Creating an index: what it leaves when it fails on duplicates, and which rows the new index
finds.
-/

namespace SpeedTables

open Lib (Node SkipList Ordered entries mem_entries randomLevel chainBefore setBucket)
open Lib Std

variable {creator : CreatorTable} {host : Host} {field : creator.Field}

-----------------------------------------------------------------------------------------
-- One insertion
-----------------------------------------------------------------------------------------

theorem CTable.IndexFrame.trans {before middle after : CTable creator}
    (first : before.IndexFrame field middle) (second : middle.IndexFrame field after)
    : before.IndexFrame field after where
  rows := second.rows.trans first.rows
  nextRow := second.nextRow.trans first.nextRow
  llHead := second.llHead.trans first.llHead
  keyTable := second.keyTable.trans first.keyTable
  skipLists := fun other different =>
    (second.skipLists other different).trans (first.skipLists other different)
  exists' := second.exists'.trans first.exists'
  links := fun other different =>
    (second.links other different).trans (first.links other different)
  lastNext := fun other different =>
    (second.lastNext other different).trans (first.lastNext other different)
  nextNode := Nat.le_trans first.nextNode second.nextNode
  count := second.count.trans first.count
  autoRowNumber := second.autoRowNumber.trans first.autoRowNumber
  sharedMaster := second.sharedMaster.trans first.sharedMaster
  sharePanic := second.sharePanic.trans first.sharePanic
  searches := second.searches.trans first.searches
  cursors := second.cursors.trans first.cursors
  destroyed := second.destroyed.trans first.destroyed

/-- What an insertion does to the links of rows. -/
structure CTable.Linked (field : creator.Field) (id : RowId) (before after : CTable creator)
    : Prop where
  frame : before.IndexFrame field after
  pointers : before.IndexPointers field id after
  linked : after.links field id ≠ none
  others : ∀ other, other ≠ id → after.links field other = before.links field other

/-- An insertion links its row and no other. -/
theorem CTable.sinsertLinked_links {table after : CTable creator} {skip : SkipList RowId}
    {id : RowId} {row : Row creator}
    (inserted : table.sinsertLinked host field skip id row = .ok (some after))
    : after.links field id ≠ none
      ∧ ∀ other, other ≠ id → after.links field other = table.links field other := by
  have grown : ∀ rest, table.insertNode host field skip rest id = .ok (some after) →
      after.links field id ≠ none
        ∧ ∀ other, other ≠ id → after.links field other = table.links field other := by
    intro rest linked
    unfold CTable.insertNode at linked
    split at linked
    · cases linked
    · cases linked
      refine ⟨by simp [CTable.linkNode, CTable.setLink], fun other different => ?_⟩
      simp [CTable.linkNode, CTable.setLink, CTable.setSkipList, different]
  unfold CTable.sinsertLinked at inserted
  split at inserted
  · cases inserted
  · exact grown _ inserted
  · split at inserted
    · cases inserted
    · split at inserted
      · cases inserted
      · cases inserted
        refine ⟨by simp [CTable.setLink], fun other different => ?_⟩
        simp [CTable.setLink, CTable.setSkipList, different]
    · exact grown _ inserted

/-- Only a list that holds a row refuses another. -/
theorem CTable.sinsertLinked_refused {table : CTable creator} {skip : SkipList RowId}
    {id : RowId} {row : Row creator}
    (refused : table.sinsertLinked host field skip id row = .ok none)
    : ∃ other, other ∈ entries skip.nodes := by
  have grown : ∀ rest, table.insertNode host field skip rest id ≠ .ok none := by
    intro rest linked
    unfold CTable.insertNode at linked
    split at linked <;> cases linked
  unfold CTable.sinsertLinked at refused
  split at refused
  · cases refused
  · exact absurd refused (grown _)
  · next node rest located =>
      have inside : node ∈ skip.nodes := by
        unfold CTable.locate at located
        split at located
        · cases located
        · exact Lib.locate_subset located (by simp)
      split at refused
      · cases refused
      · next compared =>
          obtain ⟨first, others, bucket, -⟩ := CTable.compareBucket_eq compared
          exact ⟨first, mem_entries.mpr ⟨node, inside, by simp [bucket]⟩⟩
      · exact absurd refused (grown _)

/-- An insertion into an index finds its row unlinked and links it, or leaves the table as it is
because the index holds another row.
-/
theorem insertIntoIndex_links {table : CTable creator} {skip : SkipList RowId} {id : RowId}
    (chain : table.skipLists field = some skip)
    : wp (insertIntoIndex host field id)
        (fun _ after => table.links field id = none ∧ table.Linked field id after
          ∧ (table.rows id).isSome
          ∧ table.sinsertLinked host field skip id (table.rowAt id) = .ok (some after))
        (stopped (fun after => after = table ∧ ∃ other, other ∈ entries skip.nodes)
          (fun _ => True)) table := by
  have framed := respects_insertIntoIndex host field id table
  have linked : wp (insertIntoIndex host field id)
      (fun _ after => table.links field id = none ∧ (table.rows id).isSome
        ∧ table.sinsertLinked host field skip id (table.rowAt id) = .ok (some after))
      (stopped (fun after => after = table ∧ ∃ other, other ∈ entries skip.nodes)
        (fun _ => True)) table := by
    rw [insertIntoIndex, wp_bind, wp_get]
    simp only [chain]
    split
    · trivial
    · next free =>
        rw [wp_bind, wp_inspect]
        refine ⟨fun row found => ?_, fun _ _ => trivial⟩
        obtain ⟨here, same⟩ := CTable.row_eq found
        rw [wp_bind, wp_inspect]
        refine ⟨fun result inserted => ?_, fun _ _ => trivial⟩
        cases result with
        | none => exact ⟨rfl, CTable.sinsertLinked_refused inserted⟩
        | some after => exact ⟨by simpa using free, by simp [here], same ▸ inserted⟩
  refine wp_mono (wp_and framed linked) ?_ (fun _ _ both => both.2)
  rintro _ after ⟨frame, free, alive, inserted⟩
  have links := CTable.sinsertLinked_links inserted
  have pointers := CTable.sinsertLinked_pointers chain inserted
  exact ⟨free, ⟨frame, pointers, links.1, links.2⟩, alive, inserted⟩

-----------------------------------------------------------------------------------------
-- Failed creations
-----------------------------------------------------------------------------------------

/-- The assertion of the loop of a creation: the rows in the new list are rows of the table that
had no link before.
-/
structure CTable.Collecting (before : CTable creator) (field : creator.Field)
    (table : CTable creator) : Prop where
  frame : before.IndexFrame field table
  skip : ∃ skip, table.skipLists field = some skip ∧ ∀ id ∈ entries skip.nodes,
    id ∈ before.llHead ∧ before.links field id = none ∧ table.links field id ≠ none
  untouched : ∀ id, table.links field id = none → before.links field id = none

/-- A creation leaves a row behind that it has linked: the index is gone, but not the link. -/
def CTable.LinkLeft (before : CTable creator) (field : creator.Field) (after : CTable creator)
    : Prop :=
  ∃ id ∈ before.llHead, before.links field id = none ∧ after.links field id ≠ none

theorem CTable.Collecting.insert {before table : CTable creator} {id : RowId}
    (collecting : before.Collecting field table) (listed : id ∈ before.llHead)
    : wp (insertIntoIndex host field id) (fun _ => before.Collecting field)
        (stopped (fun after => before.IndexFrame field after ∧ before.LinkLeft field after)
          (fun _ => True)) table := by
  obtain ⟨skip, chain, collected⟩ := collecting.skip
  refine wp_mono (insertIntoIndex_links chain) ?_ ?_
  · rintro _ after ⟨free, linked, -⟩
    have wasFree := collecting.untouched id free
    refine ⟨collecting.frame.trans linked.frame, ?_, ?_⟩
    · have present := linked.frame.exists'
      rw [chain, Option.isSome_some, Option.isSome_iff_exists] at present
      obtain ⟨next, here⟩ := present
      refine ⟨next, here, fun other inside => ?_⟩
      obtain ⟨old, same, part⟩ := linked.pointers.nodes next here
      obtain rfl : skip = old := Option.some.inj (chain.symm.trans same)
      by_cases isRow : other = id
      · subst isRow
        exact ⟨listed, wasFree, linked.linked⟩
      · obtain ⟨known, unlinked, stays⟩ := collected other ((part other inside).resolve_right isRow)
        exact ⟨known, unlinked, (linked.others other isRow).symm ▸ stays⟩
    · intro other unlinked
      by_cases isRow : other = id
      · exact isRow ▸ wasFree
      · exact collecting.untouched other ((linked.others other isRow) ▸ unlinked)
  · intro stop after stops
    cases stop with
    | fault fault => trivial
    | tcl error =>
        obtain ⟨rfl, other, inside⟩ := stops
        exact ⟨collecting.frame, other, collected other inside⟩

theorem CTable.snew_nodes {table : CTable creator} {depth : Int} {skip : SkipList RowId}
    (created : table.snew host depth = .ok skip)
    : skip.nodes = [] ∧ skip.maxh = (depth + 1).toNat ∧ -1 ≤ depth := by
  unfold CTable.snew at created
  split at created
  · cases created
  · next low =>
      split at created
      · cases created
      · cases created
        exact ⟨rfl, rfl, by omega⟩

/-- Why a creation returns or fails: it fills a new list, or has nothing to do. -/
theorem createIndex_loop {table : CTable creator} {depth : Int}
    {ok : Unit → CTable creator → Prop} {err : Stop → CTable creator → Prop}
    (refused : err (.tcl (.notIndexable (creator.fields field).name)) table)
    (present : (table.skipLists field).isSome → ok () table)
    (faults : ∀ fault after, err (.fault fault) after)
    (fill : ∀ skip, table.snew host depth = .ok skip → table.skipLists field = none →
      wp (table.llHead.forM (fun id => insertIntoIndex host field id)) ok
        (stopped (fun after => ∀ error, err (.tcl (.whileCreatingIndex error))
          (after.setSkipList field none)) (fun _ => True))
        { table.setSkipList field (some skip) with
          nextNode := table.nextNode + 1
          allocations := table.allocations + 1 })
    : wp (createIndex host field depth) ok err table := by
  rw [createIndex, wp_bind, wp_get]
  split
  · exact refused
  · split
    · next here => exact present here
    · next absent =>
        rw [wp_bind, wp_inspect]
        refine ⟨fun skip created => ?_, fun fault _ => faults fault table⟩
        rw [wp_bind, wp_modify, wp_onTclError]
        refine wp_mono (fill skip created (by simpa using absent)) (fun _ _ done => done) ?_
        intro stop after stops
        cases stop with
        | fault fault => exact faults fault after
        | tcl error => exact stops error

/-- An insertion of rows one of which is linked already never ends. -/
theorem insertAll_stuck {id : RowId}
    : ∀ {rows : List RowId} {table : CTable creator}, id ∈ rows →
        (table.skipLists field).isSome → table.links field id ≠ none →
        wp (rows.forM (fun id => insertIntoIndex host field id)) (fun _ _ => False)
          (fun _ _ => True) table := by
  intro rows
  induction rows with
  | nil => simp
  | cons row rest ih =>
      intro table inside present linked
      obtain ⟨skip, chain⟩ := Option.isSome_iff_exists.mp present
      change wp (insertIntoIndex host field row >>= _) _ _ _
      rw [wp_bind]
      refine wp_mono (insertIntoIndex_links chain) ?_ (fun _ _ _ => trivial)
      rintro _ next ⟨free, outcome, -⟩
      have different : id ≠ row := by
        rintro rfl
        exact linked free
      have left := (List.mem_cons.mp inside).resolve_left different
      exact ih left (outcome.frame.exists'.trans present) ((outcome.others id different) ▸ linked)

/-- An index cannot be created while a row of the table is linked. -/
theorem createIndex_stuck {table after : CTable creator} {depth : Int} {id : RowId}
    (listed : id ∈ table.llHead) (absent : table.skipLists field = none)
    (linked : table.links field id ≠ none)
    : createIndex host field depth table ≠ .ok () after := by
  intro run
  have holds : wp (createIndex host field depth) (fun _ _ => False) (fun _ _ => True) table := by
    refine createIndex_loop trivial ?_ (fun _ _ => trivial) ?_
    · simp [absent]
    · intro skip _ _
      refine wp_mono (insertAll_stuck listed ?_ linked) (fun _ _ never => never) ?_
      · simp [CTable.setSkipList]
      · intro stop after _
        cases stop <;> simp [stopped]
  exact wp_returns holds run

/-- What is to be found after a creation that failed: no index on the field, the links and the
other indexes as before.
-/
structure CTable.CreationUndone (before : CTable creator) (field : creator.Field)
    (after : CTable creator) : Prop where
  absent : after.skipLists field = none
  links : ∀ id ∈ after.llHead, after.links field id = before.links field id
  otherIndexes : ∀ other, other ≠ field →
    after.skipLists other = before.skipLists other ∧ after.links other = before.links other
  rows : after.rows = before.rows ∧ after.llHead = before.llHead ∧ after.keyTable = before.keyTable

/-- A creation that fails on duplicate values leaves everything as it was, save the links of the
rows that it had inserted. One of these is linked, and as long as that row is listed no creation
of the index succeeds.
-/
theorem createIndex_not_undone {table after : CTable creator} {depth : Int} {error : TclError}
    (failed : createIndex host field depth table
      = .error (.tcl (.whileCreatingIndex error)) after)
    : ¬ table.CreationUndone field after
      ∧ ∃ id ∈ after.llHead, table.links field id = none ∧ after.links field id ≠ none
        ∧ ∀ host depth (later final : CTable creator), later.skipLists field = none →
          id ∈ later.llHead → later.links field id = after.links field id →
          createIndex host field depth later ≠ .ok () final := by
  have holds : wp (createIndex host field depth) (fun _ _ => True)
      (fun stop after => stop = .tcl (.whileCreatingIndex error) →
        after.llHead = table.llHead ∧ table.LinkLeft field after) table := by
    refine createIndex_loop (fun same => by cases same) (fun _ => trivial)
      (fun fault _ same => by cases same) ?_
    intro skip created absent
    -- the table in which the loop starts, its new list still empty
    let opened : CTable creator :=
      { table.setSkipList field (some skip) with
        nextNode := table.nextNode + 1
        allocations := table.allocations + 1 }
    have chain : opened.skipLists field = some skip := by simp [opened, CTable.setSkipList]
    have start : opened.Collecting field opened := by
      refine ⟨.refl field opened, ⟨skip, chain, fun id inside => ?_⟩, fun _ => id⟩
      simp [(CTable.snew_nodes created).1, entries] at inside
    refine wp_mono (@wp_forM _ _ _ _ _ (opened.Collecting field) table.llHead opened
      (fun id listed _ collecting => collecting.insert listed) start) (fun _ _ _ => trivial) ?_
    intro stop after stops
    cases stop with
    | fault fault => trivial
    | tcl error =>
        obtain ⟨frame, left⟩ := stops
        exact fun _ _ => ⟨frame.llHead, left⟩
  obtain ⟨listed, id, inside, free, linked⟩ := wp_stops holds failed rfl
  refine ⟨fun undone => linked ?_, id, listed ▸ inside, free, linked, ?_⟩
  · rw [undone.links id (listed ▸ inside), free]
  · intro _ _ later final absent here same
    exact createIndex_stuck here absent (same ▸ linked)

/-- Two rows with the same value of a unique field. -/
def duplicateRows : CTable sampleCreator :=
  sampleTable [setCommand sampleHost [[97], [110], [49]], setCommand sampleHost [[99], [110], [49]]]

/-- A failed creation after which the row `a` is linked, and one more that fails when the duplicate
is deleted.
-/
def leavesLink : EStateM.Result Stop (CTable sampleCreator) Unit → Bool
  | .error (.tcl (.whileCreatingIndex _)) after =>
      decide (1 ∈ after.llHead) && (after.links (1 : Fin 6) 1).isSome
        && match deleteCommand [[97]] after with
          | .ok true later =>
              match createIndex sampleHost (1 : Fin 6) 8 later with
              | .error (.fault (.doubleInsert [110])) _ => true
              | _ => false
          | _ => false
  | _ => false

theorem createIndex_not_undone_duplicates
    : ∃ error after, createIndex sampleHost (1 : Fin 6) 8 duplicateRows
        = .error (.tcl (.whileCreatingIndex error)) after
      ∧ ¬ duplicateRows.CreationUndone (1 : Fin 6) after := by
  have outcome : leavesLink (createIndex sampleHost (1 : Fin 6) 8 duplicateRows) = true := by
    decide +kernel
  unfold leavesLink at outcome
  split at outcome
  · next error after failed => exact ⟨error, after, failed, (createIndex_not_undone failed).1⟩
  · cases outcome

/-- The creation fails and leaves a link; when the duplicate is deleted, the next one panics. -/
theorem createIndex_leaves_link
    : ∃ error after later final, createIndex sampleHost (1 : Fin 6) 8 duplicateRows
        = .error (.tcl (.whileCreatingIndex error)) after
      ∧ ¬ duplicateRows.CreationUndone (1 : Fin 6) after
      ∧ deleteCommand [[97]] after = .ok true later
      ∧ createIndex sampleHost (1 : Fin 6) 8 later = .error (.fault (.doubleInsert [110])) final := by
  have outcome : leavesLink (createIndex sampleHost (1 : Fin 6) 8 duplicateRows) = true := by
    decide +kernel
  have free : duplicateRows.links (1 : Fin 6) 1 = none := by decide +kernel
  unfold leavesLink at outcome
  split at outcome
  · next error after failed =>
      rw [Bool.and_eq_true, Bool.and_eq_true, decide_eq_true_iff] at outcome
      obtain ⟨⟨listed, linked⟩, retried⟩ := outcome
      split at retried
      · next later deleted =>
          split at retried
          · next final panics =>
              refine ⟨error, after, later, final, failed, fun undone => ?_, deleted, panics⟩
              have same := undone.links 1 listed
              rw [same, free] at linked
              cases linked
          · cases retried
      · cases retried
  · cases outcome

-----------------------------------------------------------------------------------------
-- Which rows a new index finds
-----------------------------------------------------------------------------------------

/-- A chain of rows of the table that insertions have made. -/
structure CTable.Chained (table : CTable creator) (field : creator.Field)
    (skip : SkipList RowId) : Prop where
  headless : skip.maxh ≤ 1 → skip.nodes = []
  ordered : Ordered (creator.compareFunction field) table.rowAt skip.nodes
  fresh : ∀ n ∈ skip.nodes, n.id < table.nextNode
  linked : ∀ id ∈ entries skip.nodes, table.links field id ≠ none

theorem CTable.rowAt_congr {before after : CTable creator} (rows : after.rows = before.rows)
    : after.rowAt = before.rowAt := by
  funext id
  simp [CTable.rowAt, rows]

/-- A chain that has grown by the row just inserted. -/
theorem CTable.Chained.grow {table after : CTable creator} {skip next : SkipList RowId}
    {id : RowId} (chained : table.Chained field skip) (linked : table.Linked field id after)
    (depth : next.maxh = skip.maxh) (tall : ¬ skip.maxh ≤ 1)
    (ordered : Ordered (creator.compareFunction field) table.rowAt next.nodes)
    (fresh : ∀ n ∈ next.nodes, n.id < after.nextNode)
    (members : ∀ other ∈ entries next.nodes, other = id ∨ other ∈ entries skip.nodes)
    : after.Chained field next where
  headless := fun low => absurd (depth ▸ low) tall
  ordered := CTable.rowAt_congr linked.frame.rows ▸ ordered
  fresh := fresh
  linked := by
    intro other inside
    by_cases isRow : other = id
    · exact isRow ▸ linked.linked
    · rw [linked.others other isRow]
      exact chained.linked other ((members other inside).resolve_left isRow)

/-- The new list of an index after an insertion of a row that was not in it: the chain holds the
row too, unless it is a list of depth 0, whose nodes are linked nowhere.
-/
structure CTable.Grown (table : CTable creator) (field : creator.Field) (skip : SkipList RowId)
    (id : RowId) (after : CTable creator) (next : SkipList RowId) : Prop where
  chain : after.skipLists field = some next
  depth : next.maxh = skip.maxh
  chained : after.Chained field next
  entered : ∀ other, other ∈ entries next.nodes ↔
    (skip.maxh ≠ 1 ∧ other = id) ∨ other ∈ entries skip.nodes

theorem CTable.linkNode_grown {table : CTable creator} {skip : SkipList RowId} {id : RowId}
    {lows rest : List (Node RowId)} (chained : table.Chained field skip)
    (linked : table.Linked field id (table.linkNode host field skip rest id))
    (tall : skip.maxh ≠ 0) (shape : skip.nodes = lows ++ rest)
    (above : ∀ n ∈ lows, ∀ a ∈ n.bucket,
      creator.compareFunction field (table.rowAt id) (table.rowAt a) = .gt)
    (below : ∀ n ∈ rest, ∀ a ∈ n.bucket,
      creator.compareFunction field (table.rowAt id) (table.rowAt a) = .lt)
    : table.Grown field skip id (table.linkNode host field skip rest id)
        (table.growChain host skip rest id) := by
  have chain : (table.linkNode host field skip rest id).skipLists field
      = some (table.growChain host skip rest id) := by
    simp [CTable.linkNode, CTable.setSkipList, CTable.setLink]
  by_cases flat : skip.maxh = 1
  · have drawn : randomLevel skip.maxh (host.zeroBits table.draws) = 0 := by
      simp [randomLevel, flat]
    have empty : skip.nodes = [] := chained.headless (by omega)
    have same : (table.growChain host skip rest id).nodes = [] := by
      simp [CTable.growChain, drawn, empty]
    refine ⟨chain, rfl, ⟨fun _ => same, by rw [same]; exact .nil, by simp [same], ?_⟩, ?_⟩
    · simp [same, entries]
    · simp [same, empty, flat, entries]
  · have drawn : randomLevel skip.maxh (host.zeroBits table.draws) ≠ 0 := by
      unfold randomLevel
      split <;> omega
    have old : ∀ n ∈ lows ++ rest, n.id < table.nextNode :=
      fun n member => chained.fresh n (shape ▸ member)
    have nodes : ∃ height, 0 < height ∧ (table.growChain host skip rest id).nodes
        = lows ++ { id := table.nextNode, height := height, bucket := [id] } :: rest := by
      let level := randomLevel skip.maxh (host.zeroBits table.draws)
      refine ⟨min level (if skip.curh < level then skip.curh + 1 else skip.curh), ?_, ?_⟩
      · dsimp only [level]
        split <;> omega
      · simp only [CTable.growChain, if_neg drawn]
        rw [shape, Lib.chainBefore_append]
    obtain ⟨height, high, nodes⟩ := nodes
    have entered : ∀ other, other ∈ entries (table.growChain host skip rest id).nodes ↔
        (skip.maxh ≠ 1 ∧ other = id) ∨ other ∈ entries skip.nodes := by
      intro other
      simp only [nodes, shape, entries, List.flatMap_append, List.flatMap_cons, List.mem_append,
        List.mem_singleton]
      tauto
    refine ⟨chain, rfl, chained.grow linked rfl (by omega) ?_ ?_ ?_, entered⟩
    · rw [nodes]
      refine Ordered.insertNode (shape ▸ chained.ordered) ?_ high above below
      exact fun n member => Nat.ne_of_lt (old n member)
    · intro n member
      rw [nodes, List.mem_append, List.mem_cons] at member
      rcases member with low | rfl | high
      · exact Nat.lt_succ_of_lt (old n (by simp [low]))
      · exact Nat.lt_succ_self _
      · exact Nat.lt_succ_of_lt (old n (by simp [high]))
    · exact fun other inside => ((entered other).mp inside).imp_left And.right

theorem CTable.addToBucket_grown {table : CTable creator} {skip : SkipList RowId} {id : RowId}
    {lows highs : List (Node RowId)} {node : Node RowId} (chained : table.Chained field skip)
    (linked : table.Linked field id ((table.setSkipList field (some
      { skip with
        nodes := setBucket skip.nodes node.id (id :: node.bucket)
        size := skip.size + 1 })).setLink field id (some node.id)))
    (deep : ¬ skip.maxh ≤ 1) (shape : skip.nodes = lows ++ node :: highs)
    (outside : id ∉ node.bucket)
    (equal : ∀ a ∈ node.bucket,
      creator.compareFunction field (table.rowAt id) (table.rowAt a) = .eq)
    : table.Grown field skip id ((table.setSkipList field (some
        { skip with
          nodes := setBucket skip.nodes node.id (id :: node.bucket)
          size := skip.size + 1 })).setLink field id (some node.id))
        { skip with
          nodes := setBucket skip.nodes node.id (id :: node.bucket)
          size := skip.size + 1 } := by
  have ordered : Ordered (creator.compareFunction field) table.rowAt (lows ++ node :: highs) :=
    shape ▸ chained.ordered
  have nodes : setBucket skip.nodes node.id (id :: node.bucket)
      = lows ++ { node with bucket := id :: node.bucket } :: highs := by
    rw [shape, Lib.setBucket_split ordered]
  have entered : ∀ other,
      other ∈ entries (setBucket skip.nodes node.id (id :: node.bucket)) ↔
        (skip.maxh ≠ 1 ∧ other = id) ∨ other ∈ entries skip.nodes := by
    intro other
    rw [nodes, shape]
    simp only [entries, List.flatMap_append, List.flatMap_cons, List.mem_append, List.mem_cons]
    have notOne : skip.maxh ≠ 1 := by omega
    tauto
  refine ⟨by simp [CTable.setSkipList, CTable.setLink], rfl,
    chained.grow linked rfl deep ?_ ?_ ?_, entered⟩
  · dsimp only
    rw [nodes]
    exact ordered.addToBucket outside equal
  · dsimp only
    intro n member
    rw [nodes, List.mem_append, List.mem_cons] at member
    rcases member with low | rfl | high
    · exact chained.fresh n (by simp [shape, low])
    · exact chained.fresh node (by simp [shape])
    · exact chained.fresh n (by simp [shape, high])
  · exact fun other inside => ((entered other).mp inside).imp_left And.right

theorem CTable.sinsertLinked_grown {table after : CTable creator} {skip : SkipList RowId}
    {id : RowId} (chained : table.Chained field skip) (free : table.links field id = none)
    (linked : table.Linked field id after)
    (inserted : table.sinsertLinked host field skip id (table.rowAt id) = .ok (some after))
    : ∃ next, table.Grown field skip id after next := by
  have grown : ∀ lows rest, skip.maxh ≠ 0 → skip.nodes = lows ++ rest →
      (∀ n ∈ lows, ∀ a ∈ n.bucket,
        creator.compareFunction field (table.rowAt id) (table.rowAt a) = .gt) →
      (∀ n ∈ rest, ∀ a ∈ n.bucket,
        creator.compareFunction field (table.rowAt id) (table.rowAt a) = .lt) →
      table.insertNode host field skip rest id = .ok (some after) →
      ∃ next, table.Grown field skip id after next := by
    intro lows rest tall shape above below made
    unfold CTable.insertNode at made
    split at made
    · cases made
    · cases made
      exact ⟨_, CTable.linkNode_grown chained linked tall shape above below⟩
  unfold CTable.sinsertLinked at inserted
  split at inserted
  · cases inserted
  · next located =>
      obtain ⟨tall, -⟩ := CTable.locate_eq chained.ordered located
      obtain ⟨lows, shape, above, -, -⟩ := CTable.locate_split chained.ordered located
      exact grown lows [] tall shape above (by simp) inserted
  · next node rest located =>
      obtain ⟨tall, -⟩ := CTable.locate_eq chained.ordered located
      obtain ⟨lows, shape, above, first, behind⟩ := CTable.locate_split chained.ordered located
      have here : node ∈ skip.nodes := by simp [shape]
      split at inserted
      · cases inserted
      · next compared =>
          obtain ⟨one, others, bucket, same⟩ := CTable.compareBucket_eq compared
          have equal : ∀ a ∈ node.bucket,
              creator.compareFunction field (table.rowAt id) (table.rowAt a) = .eq := by
            intro a alike
            rw [chained.ordered.compare_bucket here alike (by simp [bucket] : one ∈ node.bucket)]
            exact same.symm
          split at inserted
          · cases inserted
          · cases inserted
            have outside : id ∉ node.bucket :=
              fun inside => chained.linked id (mem_entries.mpr ⟨node, here, inside⟩) free
            have deep : ¬ skip.maxh ≤ 1 := fun low => by simp [chained.headless low] at shape
            exact ⟨_, CTable.addToBucket_grown chained linked deep shape outside equal⟩
      · next ordering different compared =>
          obtain ⟨one, others, bucket, same⟩ := CTable.compareBucket_eq compared
          have inside : one ∈ node.bucket := by simp [bucket]
          have less : ∀ a ∈ node.bucket,
              creator.compareFunction field (table.rowAt id) (table.rowAt a) = .lt := by
            intro a alike
            have notGreater := first node (by simp) one inside
            rw [chained.ordered.compare_bucket here alike inside, ← same]
            rw [← same] at notGreater
            cases ordering with
            | lt => rfl
            | eq => exact absurd rfl different
            | gt => exact absurd rfl notGreater
          refine grown lows (node :: rest) tall shape above ?_ inserted
          intro n member
          rcases List.mem_cons.mp member with rfl | later
          · exact less
          · exact behind n later

/-- The assertion of the loop of a creation: the rows behind are rows of the chain, if its depth
lets it have nodes at all.
-/
structure CTable.Enrolling (before : CTable creator) (field : creator.Field) (maxh : Nat)
    (rest : List RowId) (table : CTable creator) (skip : SkipList RowId) : Prop where
  frame : before.IndexFrame field table
  chain : table.skipLists field = some skip
  depth : skip.maxh = maxh
  chained : table.Chained field skip
  alive : ∀ id ∈ entries skip.nodes, (before.rows id).isSome
  listed : ∀ id ∈ entries skip.nodes, id ∈ before.llHead
  coming : ∀ id ∈ rest, id ∈ before.llHead
  done : maxh ≠ 1 → ∀ id ∈ before.llHead, id ∉ rest → id ∈ entries skip.nodes

theorem CTable.Enrolling.step {before table : CTable creator} {maxh : Nat} {id : RowId}
    {rest : List RowId} {skip : SkipList RowId}
    (enrolling : before.Enrolling field maxh (id :: rest) table skip)
    : wp (insertIntoIndex host field id)
        (fun _ after => ∃ next, before.Enrolling field maxh rest after next)
        (fun _ _ => True) table := by
  refine wp_mono (insertIntoIndex_links enrolling.chain) ?_ (fun _ _ _ => trivial)
  rintro _ after ⟨free, linked, alive, inserted⟩
  obtain ⟨next, grown⟩ := CTable.sinsertLinked_grown enrolling.chained free linked inserted
  refine ⟨next, {
    frame := enrolling.frame.trans linked.frame
    chain := grown.chain
    depth := grown.depth.trans enrolling.depth
    chained := grown.chained
    alive := ?_, listed := ?_
    coming := fun other behind => enrolling.coming other (List.mem_cons_of_mem id behind)
    done := ?_ }⟩
  · intro other inside
    rcases (grown.entered other).mp inside with ⟨-, rfl⟩ | old
    · exact enrolling.frame.rows ▸ alive
    · exact enrolling.alive other old
  · intro other inside
    rcases (grown.entered other).mp inside with ⟨-, rfl⟩ | old
    · exact enrolling.coming other (by simp)
    · exact enrolling.listed other old
  · intro deep other listed behind
    refine (grown.entered other).mpr ?_
    by_cases isRow : other = id
    · exact .inl ⟨enrolling.depth ▸ deep, isRow⟩
    · exact .inr (enrolling.done deep other listed (by simp [isRow, behind]))

/-- Every row of the table is on the ascending walk of a list, and the search for its value finds
it: it stops at a node whose rows compare equal, and the row is one of these.
-/
structure CTable.ReachesAll (table : CTable creator) (field : creator.Field)
    (skip : SkipList RowId) : Prop where
  ascending : skip.nodes.Pairwise (fun left right => ∀ a ∈ left.bucket, ∀ b ∈ right.bucket,
    creator.compareFunction field (table.rowAt a) (table.rowAt b) = .lt)
  walked : ∀ id ∈ table.llHead, id ∈ entries skip.nodes
  found : ∀ id ∈ table.llHead, ∃ node rest,
    table.locate field skip (table.rowAt id) = .ok (node :: rest)
    ∧ table.compareBucket field (table.rowAt id) node.bucket = .ok .eq ∧ id ∈ node.bucket

/-- The index of a field finds every row. -/
def CTable.IndexHolds (table : CTable creator) (field : creator.Field) : Prop :=
  ∃ skip, table.skipLists field = some skip ∧ table.ReachesAll field skip

/-- No row of the table makes the compare function of a field read a NULL object. -/
def CTable.NoNullObjs (table : CTable creator) (field : creator.Field) : Prop :=
  ∀ id ∈ table.llHead, readsNullObj creator field (table.rowAt id) (table.rowAt id) = false

/-- Rows that can be compared with themselves can be compared with each other. -/
theorem readsNullObj_pair {left right : Row creator}
    (leftFine : readsNullObj creator field left left = false)
    (rightFine : readsNullObj creator field right right = false)
    : readsNullObj creator field left right = false := by
  unfold readsNullObj at *
  revert leftFine rightFine
  generalize left.cells field = leftCell
  generalize right.cells field = rightCell
  revert leftCell rightCell
  cases creator.type field with
  | tclobj =>
      intro leftCell rightCell
      dsimp only
      cases (creator.fields field).notnull <;> cases leftCell.isNull <;>
        cases rightCell.isNull <;> simp +contextual
  | _ => simp

/-- A row that is equal to one it can be compared with can be compared with itself. -/
theorem readsNullObj_self {left right : Row creator}
    (fine : readsNullObj creator field left right = false)
    (equal : creator.compareFunction field left right = .eq)
    : readsNullObj creator field left left = false := by
  by_cases isKey : field = creator.keyField
  · have type : creator.type field = .key := (creator.keyField_iff field).mpr isKey
    unfold readsNullObj
    generalize left.cells field = leftCell
    revert leftCell
    rw [type]
    exact fun _ => rfl
  · rw [CreatorTable.compareFunction, if_neg isKey] at equal
    unfold readsNullObj at *
    unfold compareCell at equal
    revert fine equal
    generalize left.cells field = leftCell
    generalize right.cells field = rightCell
    unfold CreatorTable.type at *
    revert leftCell rightCell
    generalize (creator.fields field) = info
    obtain ⟨name, type, notnull, indexed, unique, length, default⟩ := info
    cases type with
    | tclobj =>
        intro leftCell rightCell
        cases notnull <;> cases leftNull : leftCell.isNull <;>
          cases rightNull : rightCell.isNull <;>
          simp +contextual [compareNullsHigh, Cell.sortsAsNull, leftNull, rightNull]
    | _ => simp

/-- A search in a list of a table's rows finds each of them, if it can compare them. -/
theorem CTable.Enrolling.found {before table : CTable creator} {maxh : Nat} {skip : SkipList RowId}
    (enrolling : before.Enrolling field maxh [] table skip) (tall : maxh ≠ 0)
    (fine : before.NoNullObjs field) {id : RowId} (inside : id ∈ entries skip.nodes)
    : ∃ node rest, table.locate field skip (table.rowAt id) = .ok (node :: rest)
        ∧ table.compareBucket field (table.rowAt id) node.bucket = .ok .eq ∧ id ∈ node.bucket := by
  have ordered := enrolling.chained.ordered
  have rows := CTable.rowAt_congr enrolling.frame.rows
  -- no comparison with a row of the list reads a NULL object
  have compares : ∀ n ∈ skip.nodes, ∃ first rest, n.bucket = first :: rest
      ∧ table.compareBucket field (table.rowAt id) n.bucket
          = .ok (creator.compareFunction field (table.rowAt id) (table.rowAt first)) := by
    intro n member
    obtain ⟨first, rest, bucket⟩ := List.exists_cons_of_ne_nil (ordered.nonempty n member)
    have here : first ∈ entries skip.nodes := mem_entries.mpr ⟨n, member, by simp [bucket]⟩
    obtain ⟨row, alive⟩ := Option.isSome_iff_exists.mp (enrolling.alive first here)
    have same : table.rowAt first = row := by
      rw [rows]
      simp [CTable.rowAt, alive]
    have reads := readsNullObj_pair (fine id (enrolling.listed id inside))
      (fine first (enrolling.listed first here))
    rw [← rows] at reads
    refine ⟨first, rest, bucket, ?_⟩
    rw [bucket, CTable.compareBucket, CTable.row, enrolling.frame.rows, alive]
    simp only
    rw [← same, compareRows, reads]
    rfl
  obtain ⟨node, member, here⟩ := mem_entries.mp inside
  have self : creator.compareFunction field (table.rowAt id) (table.rowAt id) = .eq :=
    ReflCmp.compare_self
  cases located : table.locate field skip (table.rowAt id) with
  | error stop =>
      unfold CTable.locate at located
      rw [if_neg (enrolling.depth ▸ tall)] at located
      obtain ⟨n, inNodes, stops⟩ := Lib.locate_stops located
      obtain ⟨first, rest, -, compared⟩ := compares n inNodes
      simp [CTable.beforeRow, compared] at stops
  | ok rest =>
      obtain ⟨lows, shape, above, first, behind⟩ := CTable.locate_split ordered located
      rw [shape, List.mem_append] at member
      rcases member with low | high
      · simp [above node low id here] at self
      · cases rest with
        | nil => simp at high
        | cons head rest =>
            rcases List.mem_cons.mp high with rfl | later
            · obtain ⟨one, others, bucket, compared⟩ := compares node (by simp [shape])
              refine ⟨node, rest, rfl, ?_, here⟩
              rw [compared, ← self]
              exact congrArg Except.ok (ordered.compare_bucket (by simp [shape])
                (by simp [bucket]) here)
            · simp [behind node later id here] at self

/-- What the loop of a creation leaves finds every row if and only if the depth allows it to hold
them and no row stops a comparison.
-/
theorem CTable.Enrolling.sound_iff {before table : CTable creator} {skip : SkipList RowId}
    {maxh : Nat} {depth : Int} (enrolled : before.Enrolling field maxh [] table skip)
    (depths : maxh = (depth + 1).toNat ∧ -1 ≤ depth)
    : table.IndexHolds field ↔
        (depth ≠ 0 ∨ before.llHead = []) ∧ before.NoNullObjs field := by
  have rows := CTable.rowAt_congr enrolled.frame.rows
  have listed := enrolled.frame.llHead
  constructor
  · rintro ⟨next, chain, reaches⟩
    obtain rfl : skip = next := Option.some.inj (enrolled.chain.symm.trans chain)
    refine ⟨?_, fun id inside => ?_⟩
    · by_contra! ⟨flat, rest⟩
      obtain ⟨id, inside⟩ := List.exists_mem_of_ne_nil _ rest
      have low : skip.maxh ≤ 1 := by
        rw [enrolled.depth]
        omega
      have walked := reaches.walked id (listed ▸ inside)
      simp [enrolled.chained.headless low, entries] at walked
    · obtain ⟨node, rest, -, compared, here⟩ := reaches.found id (listed ▸ inside)
      unfold CTable.compareBucket at compared
      split at compared
      · cases compared
      · split at compared
        · cases compared
        · next other found =>
            rw [rows] at compared
            unfold compareRows at compared
            split at compared
            · cases compared
            · next reads =>
                exact readsNullObj_self (Bool.eq_false_iff.mpr reads) (Except.ok.inj compared)
  · rintro ⟨deep, fine⟩
    have inside : ∀ id ∈ table.llHead, id ∈ entries skip.nodes ∧ maxh ≠ 0 := by
      intro id here
      rw [listed] at here
      have notFlat : maxh ≠ 1 := by
        rcases deep with deep | empty
        · omega
        · simp [empty] at here
      have entered := enrolled.done notFlat id here (by simp)
      refine ⟨entered, fun zero => ?_⟩
      have low : skip.maxh ≤ 1 := by
        rw [enrolled.depth]
        omega
      simp [enrolled.chained.headless low, entries] at entered
    exact ⟨skip, enrolled.chain, enrolled.chained.ordered.ascending, fun id here => (inside id here).1,
      fun id here => enrolled.found (inside id here).2 fine (inside id here).1⟩

/-- When the index of a field finds every row after it is created: it existed and did so before, or
its depth is not 0, unless the table is empty, and it has no NULL object to compare.
-/
def CTable.SoundCreation (table : CTable creator) (field : creator.Field) (depth : Int) : Prop :=
  if (table.skipLists field).isSome then table.IndexHolds field
  else (depth ≠ 0 ∨ table.llHead = []) ∧ table.NoNullObjs field

/-- An index that is created finds every row of the table if and only if the creation is sound. -/
theorem createIndex_holds_iff {table after : CTable creator} {depth : Int}
    (created : createIndex host field depth table = .ok () after)
    : after.IndexHolds field ↔ table.SoundCreation field depth := by
  have holds : wp (createIndex host field depth)
      (fun _ after => after.IndexHolds field ↔ table.SoundCreation field depth)
      (fun _ _ => True) table := by
    refine createIndex_loop trivial ?_ (fun _ _ => trivial) ?_
    · intro present
      simp [CTable.SoundCreation, present]
    · intro skip made absent
      obtain ⟨empty, depths⟩ := CTable.snew_nodes made
      let opened : CTable creator :=
        { table.setSkipList field (some skip) with
          nextNode := table.nextNode + 1
          allocations := table.allocations + 1 }
      have start : opened.Enrolling field skip.maxh table.llHead opened skip := {
        frame := .refl field opened
        chain := by simp [opened, CTable.setSkipList]
        depth := rfl
        chained :=
          ⟨fun _ => empty, by rw [empty]; exact .nil, by simp [empty], by simp [empty, entries]⟩
        alive := by simp [empty, entries]
        listed := by simp [empty, entries]
        coming := fun _ listed => listed
        done := fun _ id listed behind => absurd listed behind }
      refine wp_mono (@wp_forM_rest Stop (CTable creator) _ _ (fun _ _ => True)
        (fun rest table => ∃ next, opened.Enrolling field skip.maxh rest table next) ?_ _ _
        ⟨skip, start⟩) ?_ ?_
      · rintro id rest middle ⟨next, enrolling⟩
        exact enrolling.step
      · rintro _ after ⟨next, enrolled⟩
        simp only [CTable.SoundCreation, absent, Option.isSome_none, Bool.false_eq_true, if_false]
        exact enrolled.sound_iff depths
      · intro stop after _
        cases stop <;> simp [stopped]
  have result := wp_returns holds created
  exact result

/-- A table of one row. -/
def oneRow : CTable sampleCreator :=
  sampleTable [setCommand sampleHost [[97], [110], [49]]]

/-- A creation that returns an index without nodes to a table with a row. -/
def isFlat : EStateM.Result Stop (CTable sampleCreator) Unit → Bool
  | .ok () after =>
      decide (0 ∈ after.llHead)
        && (after.skipLists (1 : Fin 6)).all (fun skip => skip.nodes.isEmpty)
  | .error _ _ => false

theorem createIndex_holds_iff_flat
    : ∃ after, createIndex sampleHost (1 : Fin 6) 0 oneRow = .ok () after
      ∧ (after.IndexHolds (1 : Fin 6) ↔ oneRow.SoundCreation (1 : Fin 6) 0) := by
  have outcome : isFlat (createIndex sampleHost (1 : Fin 6) 0 oneRow) = true := by decide +kernel
  unfold isFlat at outcome
  split at outcome
  · next after created => exact ⟨after, created, createIndex_holds_iff created⟩
  · cases outcome

/-- An index of depth 0 finds no row. -/
theorem createIndex_flat
    : ∃ after, createIndex sampleHost (1 : Fin 6) 0 oneRow = .ok () after
      ∧ ¬ after.IndexHolds (1 : Fin 6) := by
  have outcome : isFlat (createIndex sampleHost (1 : Fin 6) 0 oneRow) = true := by decide +kernel
  unfold isFlat at outcome
  split at outcome
  · next after created =>
      rw [Bool.and_eq_true, decide_eq_true_iff] at outcome
      refine ⟨after, created, ?_⟩
      rintro ⟨skip, chain, reaches⟩
      have walked := reaches.walked 0 outcome.1
      have empty : skip.nodes = [] := by simpa [chain] using outcome.2
      simp [empty, entries] at walked
  · cases outcome

end SpeedTables
