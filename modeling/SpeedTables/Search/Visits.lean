import SpeedTables.Search.Session
import SpeedTables.Table.Pointers

/-! The rows a walk visits, and what it leaves alone: it moves the positions of skip lists only. -/

namespace SpeedTables

open Lib Std

variable {creator : CreatorTable} {host : Host}

-----------------------------------------------------------------------------------------
-- Positions
-----------------------------------------------------------------------------------------

/-- A property of tables that walks keep: pointers are settled, and the position of a skip list may
move to any of its nodes.
-/
structure WalkInvariant (holds : CTable creator → Prop) : Prop where
  leads : ∀ table, holds table → table.Leads
  move : ∀ table field skip (part : List (Node RowId)), holds table →
    table.skipLists field = some skip → part ⊆ skip.nodes →
      holds (table.setCurl field (part.head?.map Node.id))

/-- The property holds, and the rows of the table are the given ones. -/
def CTable.Over (holds : CTable creator → Prop) (rows : List RowId) (table : CTable creator)
    : Prop :=
  holds table ∧ table.llHead = rows

/-- The only stops are faults. -/
def onlyFaults : Stop → CTable creator → Prop :=
  stopped (fun _ => False) (fun _ => True)

theorem CTable.setCurl_llHead (table : CTable creator) (field : creator.Field)
    (curl : Option NodeId)
    : (table.setCurl field curl).llHead = table.llHead := by
  unfold CTable.setCurl
  split <;> rfl

theorem CTable.locate_within {table : CTable creator} {field : creator.Field}
    {skip : SkipList RowId} {row : Row creator} {rest : List (Node RowId)}
    (located : table.locate field skip row = .ok rest)
    : rest ⊆ skip.nodes := by
  unfold CTable.locate at located
  split at located
  · cases located
  · exact Lib.locate_subset located

/-- Dropping nodes leaves nodes of the list, by induction on it. -/
theorem CTable.dropNodes_within {table : CTable creator} {field : creator.Field}
    {row : Row creator} {passes : Ordering → Bool} {nodes rest : List (Node RowId)}
    (dropped : table.dropNodes field row passes nodes = .ok rest)
    : rest ⊆ nodes := by
  induction nodes with
  | nil =>
      cases dropped
      exact fun _ inside => inside
  | cons node nodes ih =>
      rw [CTable.dropNodes] at dropped
      split at dropped
      · cases dropped
      · split at dropped
        · exact fun n inside => List.mem_cons_of_mem _ (ih dropped inside)
        · cases dropped
          exact fun _ inside => inside

theorem CTable.walkedList_chain {table : CTable creator} {field : creator.Field} {head : NodeId}
    {skip : SkipList RowId} (walked : table.walkedList field head = .ok skip)
    : table.skipLists field = some skip := by
  unfold CTable.walkedList at walked
  split at walked
  · next found chain =>
      split at walked <;> cases walked
      exact chain
  · cases walked

section Walks

variable {holds : CTable creator → Prop} {rows : List RowId} {table : CTable creator}
  {field : creator.Field} {skip : SkipList RowId}

/-- Moving to the head of a part of the list. -/
theorem WalkInvariant.moveTo (invariant : WalkInvariant holds) {part : List (Node RowId)}
    (here : table.Over holds rows) (chain : table.skipLists field = some skip)
    (within : part ⊆ skip.nodes)
    : (table.setCurl field (part.head?.map Node.id)).Over holds rows :=
  ⟨invariant.move table field skip part here.1 chain within,
    (table.setCurl_llHead field _).trans here.2⟩

/-- Every search of a position ends at a node of the list. -/
theorem sfind_kept (invariant : WalkInvariant holds) (here : table.Over holds rows) (chain : table.skipLists field = some skip)
    (row : Row creator)
    : wp (sfind field skip row) (fun _ => CTable.Over holds rows) onlyFaults table := by
  rw [sfind, wp_bind, wp_inspect]
  refine ⟨fun rest located => ?_, fun _ _ => trivial⟩
  have moved := invariant.moveTo here chain (CTable.locate_within located)
  rw [wp_bind, wp_modify]
  cases rest with
  | nil => exact moved
  | cons node rest =>
      rw [wp_bind, wp_inspect]
      exact ⟨fun _ _ => moved, fun _ _ => trivial⟩

theorem sfindEqualOrGreater_kept (invariant : WalkInvariant holds) (here : table.Over holds rows)
    (chain : table.skipLists field = some skip) (row : Row creator)
    : wp (sfindEqualOrGreater field skip row) (fun _ => CTable.Over holds rows) onlyFaults
        table := by
  rw [sfindEqualOrGreater, wp_bind, wp_inspect]
  refine ⟨fun rest located => ?_, fun _ _ => trivial⟩
  rw [wp_bind, wp_inspect]
  refine ⟨fun part dropped => ?_, fun _ _ => trivial⟩
  exact invariant.moveTo here chain
    (List.Subset.trans (CTable.dropNodes_within dropped) (CTable.locate_within located))

theorem sfindGreater_kept (invariant : WalkInvariant holds) (here : table.Over holds rows)
    (chain : table.skipLists field = some skip) (row : Row creator)
    : wp (sfindGreater field skip row) (fun _ => CTable.Over holds rows) onlyFaults
        table := by
  rw [sfindGreater, wp_bind, wp_inspect]
  refine ⟨fun rest located => ?_, fun _ _ => trivial⟩
  rw [wp_bind, wp_inspect]
  refine ⟨fun part dropped => ?_, fun _ _ => trivial⟩
  exact invariant.moveTo here chain
    (List.Subset.trans (CTable.dropNodes_within dropped) (CTable.locate_within located))

theorem resetCurl_kept (invariant : WalkInvariant holds) (here : table.Over holds rows)
    (chain : table.skipLists field = some skip)
    : wp (resetCurl field skip) (fun _ => CTable.Over holds rows) onlyFaults table := by
  unfold resetCurl
  split
  · trivial
  · exact invariant.moveTo here chain (fun _ inside => inside)

theorem snext_kept (invariant : WalkInvariant holds) (here : table.Over holds rows) (chain : table.skipLists field = some skip)
    : wp (snext field skip) (fun _ => CTable.Over holds rows) onlyFaults table := by
  unfold snext
  split
  · trivial
  · next id _ =>
      split
      · trivial
      · next node rest shape =>
          refine invariant.moveTo here chain fun n inside => ?_
          have behind : n ∈ chainFrom skip id := by simp [shape, inside]
          exact (List.dropWhile_sublist _).subset behind

-----------------------------------------------------------------------------------------
-- Walk steps
-----------------------------------------------------------------------------------------

/-- A position of a walk after one of the given rows. -/
def WalkPos.Within (rows : List RowId) : WalkPos → Prop
  | .listRow row => row ∈ rows
  | .bucketRow row _ _ => row ∈ rows
  | _ => True

/-- A visit comes to a row of the table, or to one that cannot be read any more. -/
def WalkResult.Settled (table : CTable creator) : WalkResult → Prop
  | .visit row pos => table.Settled row ∧ (row ∈ table.llHead → pos.Within table.llHead)
  | _ => True

theorem startSkip_kept (invariant : WalkInvariant holds) (plan : Plan creator) (here : table.Over holds rows)
    (chain : table.skipLists field = some skip)
    : wp (startSkip plan field skip) (fun _ => CTable.Over holds rows) onlyFaults
        table := by
  have needed : ∀ (row : Option (Row creator)) (ok : Row creator → CTable creator → Prop),
      (∀ found, ok found table) → wp (needRow row) ok onlyFaults table := by
    intro row ok holds
    cases row with
    | none => trivial
    | some found => exact holds found
  unfold startSkip
  split
  · rw [wp_bind]
    refine needed _ _ fun row => ?_
    rw [wp_bind]
    exact wp_mono (sfind_kept invariant here chain row) (fun _ _ moved => moved) (fun _ _ stop => stop)
  · rw [wp_bind]
    exact needed _ _ fun row => sfindEqualOrGreater_kept invariant here chain row
  · rw [wp_bind]
    exact needed _ _ fun row => sfindGreater_kept invariant here chain row
  · exact resetCurl_kept invariant here chain
  · trivial

/-- The `in` values are looked up one after the other, by induction on them. -/
theorem probeRows_kept (invariant : WalkInvariant holds) (head : NodeId) (values : List (Row creator)) (used : Nat)
    (here : table.Over holds rows)
    : wp (probeRows field head values used) (fun _ => CTable.Over holds rows) onlyFaults
        table := by
  induction values generalizing table used with
  | nil => exact here
  | cons row rest ih =>
      rw [probeRows, wp_bind, wp_inspect]
      refine ⟨fun skip walked => ?_, fun _ _ => trivial⟩
      rw [wp_bind]
      refine wp_mono (sfind_kept invariant here (CTable.walkedList_chain walked) row) ?_
        (fun _ _ stop => stop)
      intro found moved here'
      split
      · exact here'
      · exact ih (used + 1) here'

theorem pastEnd_unchanged (plan : Plan creator) (field : creator.Field) (row : Row creator)
    {ok : Bool → CTable creator → Prop} (holds : ∀ past, ok past table)
    : wp (pastEnd plan field row) ok onlyFaults table := by
  unfold pastEnd needRow
  split
  · exact holds false
  all_goals
    split
    · rw [wp_bind, wp_pure, wp_bind, wp_inspect]
      exact ⟨fun _ _ => holds _, fun _ _ => trivial⟩
    · trivial

/-- The first row of the next bucket list is one of the index. -/
theorem nextBucket_settled (invariant : WalkInvariant holds) (plan : Plan creator) (head : NodeId) (myCount inIndex : Nat)
    (here : table.Over holds rows)
    : wp (nextBucket plan field head myCount inIndex)
        (fun result after => after.Over holds rows ∧ result.Settled after) onlyFaults
        table := by
  rw [nextBucket, wp_bind, wp_get]
  split
  · exact ⟨here, trivial⟩
  · have probed : wp (nextInValue plan field head inIndex) (fun _ => CTable.Over holds rows)
        onlyFaults table := by
      unfold nextInValue
      split
      · exact probeRows_kept invariant head _ _ here
      · exact here
    rw [wp_bind]
    refine wp_mono probed ?_ (fun _ _ stop => stop)
    intro value middle here
    cases value with
    | none => exact ⟨here, trivial⟩
    | some inIndex =>
        rw [wp_bind, wp_inspect]
        refine ⟨fun skip walked => ?_, fun _ _ => trivial⟩
        rw [wp_bind, wp_inspect]
        refine ⟨fun first read => ?_, fun _ _ => trivial⟩
        cases first with
        | none => exact ⟨here, trivial⟩
        | some first =>
            have settled : middle.Settled first := by
              refine (invariant.leads _ here.1).nodes field skip (CTable.walkedList_chain walked) first ?_
              unfold srow at read
              split at read
              · cases read
              · next id _ =>
                  split at read
                  · cases read
                  · next node rest shape =>
                      have inside : node ∈ chainFrom skip id := by simp [shape]
                      refine mem_entries.mpr ⟨node, (List.dropWhile_sublist _).subset inside, ?_⟩
                      exact List.mem_of_mem_head? (by simpa using read)
            rw [wp_bind, wp_inspect]
            refine ⟨fun row _ => ?_, fun _ _ => trivial⟩
            rw [wp_bind]
            refine pastEnd_unchanged plan field row fun past => ?_
            split
            · exact ⟨here, trivial⟩
            · exact ⟨here, settled, fun listed => listed⟩

/-- The row after a listed one in its bucket list is settled. -/
theorem CTable.Leads.bucketNext_settled {row next : RowId} (leads : table.Leads)
    (listed : row ∈ table.llHead) (behind : table.bucketNext field row = .ok (some next))
    : table.Settled next := by
  unfold CTable.bucketNext at behind
  split at behind
  · cases behind
  · split at behind
    · next node skip _ chain =>
        have found : nextInList (bucketOf skip node row) row = some next := by simpa using behind
        rcases mem_bucketOf (nextInList_mem found) with inside | rfl
        · exact leads.nodes field skip chain next inside
        · exact fun _ => listed
    · exact leads.lastNext field row listed next (by simpa using behind)

/-- A step of a skip-list walk. -/
theorem skipStep_settled (invariant : WalkInvariant holds) (plan : Plan creator) (head : NodeId) (pos : WalkPos)
    (here : table.Over holds rows) (within : pos.Within rows)
    : wp (skipStep plan field head pos)
        (fun result after => after.Over holds rows ∧ result.Settled after) onlyFaults
        table := by
  have starts : wp (do
        let skip ← inspect (CTable.walkedList · field head)
        startSkip plan field skip
        nextBucket plan field head 0 0)
      (fun result after => after.Over holds rows ∧ result.Settled after) onlyFaults
      table := by
    rw [wp_bind, wp_inspect]
    refine ⟨fun skip walked => ?_, fun _ _ => trivial⟩
    rw [wp_bind]
    refine wp_mono (startSkip_kept invariant plan here (CTable.walkedList_chain walked)) ?_
      (fun _ _ stop => stop)
    exact fun _ middle here => nextBucket_settled invariant plan head 0 0 here
  cases pos with
  | start => exact starts
  | listRow row => exact starts
  | probes used => exact starts
  | bucketRow row myCount inIndex =>
      rw [skipStep, wp_bind, wp_inspect]
      refine ⟨fun next behind => ?_, fun _ _ => trivial⟩
      cases next with
      | some next =>
          exact ⟨here, (invariant.leads _ here.1).bucketNext_settled (here.2 ▸ within) behind, fun listed => listed⟩
      | none =>
          have left : wp (leaveBucket plan field head) (fun _ => CTable.Over holds rows)
              onlyFaults table := by
            unfold leaveBucket
            split
            · rw [wp_bind, wp_inspect]
              refine ⟨fun skip walked => ?_, fun _ _ => trivial⟩
              exact snext_kept invariant here (CTable.walkedList_chain walked)
            · exact here
          rw [wp_bind]
          refine wp_mono left ?_ (fun _ _ stop => stop)
          exact fun _ middle here => nextBucket_settled invariant plan head _ _ here

/-- A step of the walk of all rows. -/
theorem listStep_settled (pos : WalkPos) (here : table.Over holds rows)
    : wp (listStep pos) (fun result after => after.Over holds rows ∧ result.Settled after)
        onlyFaults table := by
  have listed : ∀ row ∈ table.llHead,
      WalkResult.Settled table (.visit row (.listRow row)) :=
    fun row inTable => ⟨fun _ => inTable, fun there => there⟩
  have starts : wp (listStep .start)
      (fun result after => after.Over holds rows ∧ result.Settled after) onlyFaults
      table := by
    unfold listStep
    rw [wp_bind, wp_get]
    split
    · next first _ shape => exact ⟨here, listed first (by simp [shape])⟩
    · exact ⟨here, trivial⟩
  cases pos with
  | start => exact starts
  | probes used => exact starts
  | bucketRow row myCount inIndex => exact starts
  | listRow row =>
      rw [listStep, wp_bind, wp_inspect]
      refine ⟨fun _ _ => ?_, fun _ _ => trivial⟩
      rw [wp_bind, wp_get]
      split
      · next next behind => exact ⟨here, listed next (nextInList_mem behind)⟩
      · exact ⟨here, trivial⟩

/-- A hash walk visits rows that are found by a key, by induction on the keys. -/
theorem probeKeys_settled (invariant : WalkInvariant holds) (keys : List CString) (used : Nat) (here : table.Over holds rows)
    : wp (probeKeys keys used) (fun result after => after.Over holds rows ∧ result.Settled after)
        onlyFaults table := by
  induction keys generalizing used with
  | nil => exact ⟨here, trivial⟩
  | cons key rest ih =>
      rw [probeKeys, wp_bind, wp_inspect]
      refine ⟨fun entry lookup => ?_, fun _ _ => trivial⟩
      cases entry with
      | none => exact ih (used + 1)
      | some row =>
          exact ⟨here, fun _ => (invariant.leads _ here.1).findHashEntry_listed lookup, fun _ => trivial⟩

/-- A step of any walk keeps the indexes and the rows, and visits a row of the table. -/
theorem walkStep_settled (invariant : WalkInvariant holds) (plan : Plan creator) (pos : WalkPos) (here : table.Over holds rows)
    (within : pos.Within rows)
    : wp (walkStep plan pos) (fun result after => after.Over holds rows ∧ result.Settled after)
        onlyFaults table := by
  have hashed : wp (hashStep plan pos)
      (fun result after => after.Over holds rows ∧ result.Settled after) onlyFaults
      table := by
    unfold hashStep
    split
    · exact probeKeys_settled invariant _ _ here
    · exact probeKeys_settled invariant _ _ here
  unfold walkStep
  split
  · exact listStep_settled pos here
  · exact hashed
  · exact hashed
  · exact skipStep_settled invariant plan _ pos here within
  · trivial

end Walks

end SpeedTables
