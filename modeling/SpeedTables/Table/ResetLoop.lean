import SpeedTables.Lib.Chains
import SpeedTables.Table.BlockRuns
import SpeedTables.Table.Rows
import SpeedTables.Table.Sample

/-! Resetting a table: the loop over the row list, which frees the row it is on. -/

namespace SpeedTables

open Lib Std

variable {creator : CreatorTable}

-----------------------------------------------------------------------------------------
-- The loop
-----------------------------------------------------------------------------------------

/-- `CTABLE_LIST_FOREACH_SAFE`, with the rows that the body has seen. The end test reads the next
pointer of the row, and the body frees it. The steps are bounded by the length of the list.
-/
def foreachSafe (next : RowId → Option RowId) (body : RowId → TableM creator Unit)
    : Nat → Option RowId → TableM creator (List RowId)
  | steps + 1, some var => do
      let _ ← inspect (CTable.row · var)
      match next var with
      | none => pure []
      | some tvar => do
          body var
          let visited ← foreachSafe next body steps (some tvar)
          pure (var :: visited)
  | _, _ => pure []

/-- The body of the loop. A row that has been freed cannot be freed again. -/
def deleteVisited (id : RowId) : TableM creator Unit := do
  let _ ← inspect (CTable.row · id)
  modify (CTable.freeRow · id)

/-- `delete_all_rows` along the pointers of the row list, with the rows that its loop visits. -/
def deleteAllRowsLoop : TableM creator (List RowId) := do
  let table ← get
  let visited ← foreachSafe (nextInList table.llHead) deleteVisited table.llHead.length
    table.llHead.head?
  modify (fun table =>
    { { table with llHead := [] }.dropAllIndexes with count := 0, autoRowNumber := 0 })
  pure visited

/-- `OPT_RESET` with that loop. -/
def resetLoop : TableM creator (List RowId) := do
  let visited ← deleteAllRowsLoop
  modify (fun table => { table with keyTable := table.keyTable.init })
  pure visited

theorem nextInList_append {before rest : List RowId} {id : RowId} (fresh : id ∉ before)
    : nextInList (before ++ id :: rest) id = rest.head? := by
  have skipped : (before ++ id :: rest).dropWhile (· ≠ id) = id :: rest := by
    rw [List.dropWhile_append_of_pos]
    · simp
    · intro other inside
      have different : other ≠ id := fun same => fresh (same ▸ inside)
      simpa using different
  rw [nextInList, skipped]
  rfl

/-- The pointers of a list lead along it, by induction on what remains of it. -/
theorem nextInList_chain {before rest : List RowId} (distinct : (before ++ rest).Nodup)
    : IsChain (nextInList (before ++ rest)) rest.head? rest := by
  induction rest generalizing before with
  | nil => rfl
  | cons id rest ih =>
      have fresh : id ∉ before := fun inside =>
        List.disjoint_of_nodup_append distinct inside (List.mem_cons_self ..)
      refine ⟨rfl, ?_⟩
      rw [nextInList_append fresh]
      have behind := @ih (before ++ [id]) (by simpa using distinct)
      simpa using behind

/-- The loop visits all rows of a list but the last one, and frees them. By induction on the list:
each round reads a row that is still allocated.
-/
theorem foreachSafe_visits {next : RowId → Option RowId} {rows : List RowId}
    {err : Stop → CTable creator → Prop} (distinct : rows.Nodup)
    : ∀ {table : CTable creator} {steps : Nat} {first : Option RowId}
        {ok : List RowId → CTable creator → Prop}, IsChain next first rows →
        rows.length ≤ steps → (∀ id ∈ rows, (table.rows id).isSome) →
        ok rows.dropLast (rows.dropLast.foldl CTable.freeRow table) →
        wp (foreachSafe next deleteVisited steps first) ok err table := by
  induction rows with
  | nil =>
      intro table steps first ok chain _ _ holds
      obtain rfl : first = none := chain
      cases steps <;> exact holds
  | cons row rest ih =>
      intro table steps first ok chain enough alive holds
      obtain ⟨fresh, distinct⟩ := List.nodup_cons.mp distinct
      obtain ⟨rfl, behind⟩ := chain
      obtain ⟨steps, rfl⟩ := Nat.exists_eq_succ_of_ne_zero
        (Nat.ne_of_gt (Nat.lt_of_lt_of_le (Nat.succ_pos rest.length) enough))
      obtain ⟨contents, here⟩ := Option.isSome_iff_exists.mp (alive row (by simp))
      have reads : table.row row = .ok contents := by simp [CTable.row, here]
      rw [foreachSafe, wp_bind, wp_inspect]
      refine ⟨fun _ _ => ?_, fun fault stops => by simp [reads] at stops⟩
      cases rest with
      | nil =>
          rw [show next row = none from behind]
          exact holds
      | cons second later =>
          obtain ⟨isNext, -⟩ := id behind
          rw [isNext]
          simp only
          rw [wp_bind, deleteVisited, wp_bind, wp_inspect]
          refine ⟨fun _ _ => ?_, fun fault stops => by simp [reads] at stops⟩
          rw [wp_modify, wp_bind]
          refine ih distinct (isNext ▸ behind) (Nat.le_of_succ_le_succ enough) ?_ holds
          intro other inside
          have different : other ≠ row := fun same => fresh (same ▸ inside)
          simpa [CTable.freeRow, different] using alive other (List.mem_cons_of_mem row inside)

-----------------------------------------------------------------------------------------
-- The reset
-----------------------------------------------------------------------------------------

/-- What a reset is to leave of the rows of a table, its hash entries and its indexes, and what its
loop is to visit.
-/
structure CTable.ResetComplete (before : CTable creator) (visited : List RowId)
    (after : CTable creator) : Prop where
  visits : ∀ id ∈ before.llHead, visited.count id = 1
  freed : ∀ id ∈ before.llHead, after.rows id = none
  unlisted : after.llHead = []
  unhashed : ∀ key, after.findHashEntry key = .ok none
  dropped : ∀ field, after.skipLists field = none

namespace Allocation

/-- What a reset is to leave of the blocks of a table: its rows are released, with their keys and
strings, each block once and to where it came from, and no list of the table has a row.
-/
structure Process.BlocksFreed {type : RowType} (before : Process type) (t : Nat)
    (after : Process type) : Prop where
  rows : ∀ row ∈ before.llHead t, after.history.Released row
  keys : ∀ row ∈ before.llHead t, ∀ key, (before.rows row).key = some key →
    after.history.Released key
  strings : ∀ row ∈ before.llHead t, ∀ field block,
    0 < ((before.rows row).strings field).allocatedLength →
    ((before.rows row).strings field).pointer = some block → after.history.Released block
  once : after.history.Disciplined
  unlisted : after.llHead t = [] ∧ after.keyTable t = []

/-- A reset frees the blocks of a table if and only if it has no row. -/
theorem Consistent.reset_freed_iff {type : RowType} {process : Process type} {owner : Owners}
    {t : Nat} {table : CTable type} (consistent : Consistent process owner)
    (found : process.tables t = some table) (notReader : table.isReader = false)
    : process.BlocksFreed t (process.reset t table) ↔ process.llHead t = [] := by
  constructor
  · intro freed
    by_contra nonempty
    have split := (List.dropLast_append_getLast nonempty).symm
    have kept := consistent.reset_last found notReader split
    exact kept.self (freed.rows _ (List.getLast_mem nonempty))
  · intro empty
    obtain ⟨owner', done⟩ := consistent.reset found
    refine ⟨by simp [empty], by simp [empty], by simp [empty], done.disciplined.history, ?_⟩
    rw [Process.reset, if_neg (by simp [notReader])]
    simp [Process.setLists]

end Allocation

/-- What a reset does to the rows of a table of the process: the loop stops before the last row. -/
theorem resetLoop_complete_iff {table : CTable creator} (distinct : table.llHead.Nodup)
    (alive : ∀ id ∈ table.llHead, (table.rows id).isSome)
    : ∃ visited after, resetLoop table = .ok visited after ∧ resetCommand table = .ok () after
        ∧ (table.ResetComplete visited after ↔ table.llHead = []) := by
  let freed : CTable creator := table.llHead.dropLast.foldl CTable.freeRow table
  let emptied : CTable creator :=
    { { freed with llHead := [] }.dropAllIndexes with count := 0, autoRowNumber := 0 }
  let after : CTable creator := { emptied with keyTable := emptied.keyTable.init }
  have loop : wp resetLoop (fun visited last => visited = table.llHead.dropLast ∧ last = after)
      (fun _ _ => False) table := by
    rw [resetLoop, wp_bind, deleteAllRowsLoop, wp_bind, wp_get, wp_bind]
    refine foreachSafe_visits distinct (@nextInList_chain [] _ distinct)
      (Nat.le_refl _) alive ?_
    exact ⟨rfl, rfl⟩
  refine ⟨table.llHead.dropLast, after, ?_, rfl, fun complete => ?_, fun empty => ?_⟩
  · cases run : resetLoop table with
    | ok visited last =>
        obtain ⟨rfl, rfl⟩ := wp_returns loop run
        rfl
    | error stop last => exact (wp_stops loop run).elim
  · by_contra nonempty
    -- the last row is listed, and is not among those before it
    have split := List.dropLast_append_getLast nonempty
    rw [← split] at distinct
    have missed : table.llHead.getLast nonempty ∉ table.llHead.dropLast := fun inside =>
      List.disjoint_of_nodup_append distinct inside (by simp)
    have visits := complete.visits _ (List.getLast_mem nonempty)
    rw [List.count_eq_zero.mpr missed] at visits
    cases visits
  · obtain ⟨dropped, gone⟩ := CTable.dropAllIndexes_dropped ({ freed with llHead := [] })
    refine ⟨by simp [empty], by simp [empty], dropped.llHead, fun key => ?_, gone⟩
    rw [CTable.findHashEntry]
    change after.searchChain key _ _ none = .ok none
    cases after.chainFuel <;> rfl

/-- Resetting a table visits and frees every row of it, with its key, its strings, its hash entry
and its index entries, if and only if there is none: the loop stops before the last row, which
stays allocated. The process has the blocks of the table's rows.
-/
theorem reset_complete_iff {table : CTable creator} {type : Allocation.RowType}
    {process : Allocation.Process type} {owner : Allocation.Owners} {t : Nat}
    {entry : Allocation.CTable type} (distinct : table.llHead.Nodup)
    (alive : ∀ id ∈ table.llHead, (table.rows id).isSome)
    (consistent : Allocation.Consistent process owner) (found : process.tables t = some entry)
    (notReader : entry.isReader = false) (rows : process.llHead t = table.llHead)
    : ∃ visited after, resetLoop table = .ok visited after ∧ resetCommand table = .ok () after
        ∧ (table.ResetComplete visited after ∧ process.BlocksFreed t (process.reset t entry)
          ↔ table.llHead = []) := by
  obtain ⟨visited, after, loop, command, complete⟩ := resetLoop_complete_iff distinct alive
  refine ⟨visited, after, loop, command, ?_⟩
  rw [complete, consistent.reset_freed_iff found notReader, rows, and_self]

/-- A table of one row. -/
def keptRow : CTable sampleCreator :=
  sampleTable [setCommand sampleHost [[97], [110], [49]]]

/-- The blocks of a private table of one row. -/
def keptBlocks : Option (Allocation.Process Allocation.keyType) :=
  (Allocation.Process.new Allocation.keyType).run [.createPrivate 0, .findOrCreate 0 [97] true true]

theorem reset_complete_iff_kept
    : ∃ process entry, keptBlocks = some process ∧ process.tables 0 = some entry
      ∧ ∃ visited after, resetLoop keptRow = .ok visited after ∧ resetCommand keptRow = .ok () after
        ∧ (keptRow.ResetComplete visited after ∧ process.BlocksFreed 0 (process.reset 0 entry)
          ↔ keptRow.llHead = []) := by
  have proper : (Allocation.Process.new Allocation.keyType).ProperRun
      [.createPrivate 0, .findOrCreate 0 [97] true true] := by
    refine ⟨fun _ _ => trivial, fun _ step => ?_⟩
    cases step
    refine ⟨fun _ _ _ _ _ saved => ?_, fun _ _ => trivial⟩
    cases saved
  obtain ⟨owner, consistent⟩ := (Allocation.Consistent.new Allocation.keyType).run proper rfl
  refine ⟨_, _, rfl, rfl, ?_⟩
  exact reset_complete_iff (by decide +kernel) (by decide +kernel) consistent rfl rfl
    (by decide +kernel)

/-- A reset that leaves the only row allocated and visits none. -/
def leavesRow : EStateM.Result Stop (CTable sampleCreator) (List RowId) → Bool
  | .ok visited after => visited.isEmpty && (after.rows 0).isSome
  | .error _ _ => false

/-- The reset of a table of one row visits no row. -/
theorem reset_keeps_row
    : ∃ visited after, resetLoop keptRow = .ok visited after
      ∧ ¬ keptRow.ResetComplete visited after := by
  have outcome : leavesRow (resetLoop keptRow) = true := by decide +kernel
  have listed : 0 ∈ keptRow.llHead := by decide +kernel
  cases run : resetLoop keptRow with
  | error stop after => simp [run, leavesRow] at outcome
  | ok visited after =>
      rw [run, leavesRow, Bool.and_eq_true] at outcome
      refine ⟨visited, after, rfl, fun complete => ?_⟩
      rw [complete.freed 0 listed] at outcome
      simp at outcome

end SpeedTables
