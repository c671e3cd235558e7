import SpeedTables.Table.HashTable
import SpeedTables.Table.Index

/-! The faults of the primitive operations: none of them is the panic of a double insert. -/

namespace SpeedTables

open Lib

variable {creator : CreatorTable}

/-- A fault other than the panic of an insertion of a row that is linked already. -/
def Fault.NotDouble (fault : Fault) : Prop :=
  ∀ name, fault ≠ .doubleInsert name

-----------------------------------------------------------------------------------------
-- Index operations
-----------------------------------------------------------------------------------------

theorem CTable.row_fault {table : CTable creator} {id : RowId} {fault : Fault}
    (stops : table.row id = .error fault)
    : fault.NotDouble := by
  unfold CTable.row at stops
  split at stops <;> cases stops
  exact fun _ same => nomatch same

theorem CTable.compareBucket_fault {table : CTable creator} {field : creator.Field}
    {row : Row creator} {bucket : List RowId} {fault : Fault}
    (stops : table.compareBucket field row bucket = .error fault)
    : fault.NotDouble := by
  unfold CTable.compareBucket compareRows at stops
  split at stops
  · cases stops
    exact fun _ same => nomatch same
  · split at stops
    · next found =>
        cases stops
        exact CTable.row_fault found
    · split at stops <;> cases stops
      exact fun _ same => nomatch same

theorem CTable.locate_fault {table : CTable creator} {field : creator.Field}
    {skip : SkipList RowId} {row : Row creator} {fault : Fault}
    (stops : table.locate field skip row = .error fault)
    : fault.NotDouble := by
  unfold CTable.locate at stops
  split at stops
  · cases stops
    exact fun _ same => nomatch same
  · obtain ⟨n, -, compared⟩ := Lib.locate_stops stops
    unfold CTable.beforeRow at compared
    split at compared
    · next inner =>
        cases compared
        exact CTable.compareBucket_fault inner
    · cases compared

theorem CTable.removeFromIndex_fault {table : CTable creator} {field : creator.Field}
    {id : RowId} {fault : Fault} (stops : table.removeFromIndex field id = .error fault)
    : fault.NotDouble := by
  unfold CTable.removeFromIndex CTable.serase at stops
  split at stops
  · split at stops
    · next found =>
        cases stops
        exact CTable.row_fault found
    · dsimp only at stops
      split at stops
      · split at stops
        · next erasing =>
            cases stops
            split at erasing
            · next located =>
                cases erasing
                exact CTable.locate_fault located
            · cases erasing
            · split at erasing
              · next compared =>
                  cases erasing
                  exact CTable.compareBucket_fault compared
              · cases erasing
              · cases erasing
        · cases stops
      · cases stops
  · cases stops

theorem CTable.sinsertLinked_fault {table : CTable creator} {host : Host} {field : creator.Field}
    {skip : SkipList RowId} {id : RowId} {row : Row creator} {fault : Fault}
    (stops : table.sinsertLinked host field skip id row = .error fault)
    : fault.NotDouble := by
  have grown : ∀ rest, table.insertNode host field skip rest id = .error fault
      → fault.NotDouble := by
    intro rest linked
    unfold CTable.insertNode at linked
    split at linked <;> cases linked
    exact fun _ same => nomatch same
  unfold CTable.sinsertLinked at stops
  split at stops
  · next located =>
      cases stops
      exact CTable.locate_fault located
  · exact grown _ stops
  · split at stops
    · next compared =>
        cases stops
        exact CTable.compareBucket_fault compared
    · split at stops <;> cases stops
    · exact grown _ stops

-----------------------------------------------------------------------------------------
-- Hash table operations
-----------------------------------------------------------------------------------------

theorem CTable.searchChain_fault {table : CTable creator} {key : CString} {hash : UInt32}
    : ∀ {fuel : Nat} {start : Option RowId} {fault : Fault},
        table.searchChain key hash fuel start = .error fault → fault.NotDouble := by
  intro fuel
  induction fuel with
  | zero =>
      intro start fault stops
      cases start with
      | none => simp [CTable.searchChain] at stops
      | some entry =>
          cases stops
          exact fun _ same => nomatch same
  | succ fuel ih =>
      intro start fault stops
      cases start with
      | none => simp [CTable.searchChain] at stops
      | some entry =>
          rw [CTable.searchChain] at stops
          split at stops
          · next missing =>
              cases stops
              exact CTable.row_fault missing
          · split at stops
            · split at stops
              · next unread =>
                  cases stops
                  unfold CTable.entryKey at unread
                  split at unread
                  · cases unread
                  · split at unread <;> cases unread
                    exact fun _ same => nomatch same
              · split at stops
                · cases stops
                · exact ih stops
            · exact ih stops

/-- A lookup does not panic. -/
theorem CTable.findHashEntry_fault {table : CTable creator} {key : CString} {fault : Fault}
    (stops : table.findHashEntry key = .error fault)
    : fault.NotDouble :=
  CTable.searchChain_fault stops

theorem CTable.rehashChain_fault {table : CTable creator}
    : ∀ {fuel : Nat} {start : Option RowId} {moved : HashTable} {fault : Fault},
        table.rehashChain fuel start moved = .error fault → fault.NotDouble := by
  intro fuel
  induction fuel with
  | zero =>
      intro start moved fault stops
      cases start with
      | none => simp [CTable.rehashChain] at stops
      | some entry =>
          cases stops
          exact fun _ same => nomatch same
  | succ fuel ih =>
      intro start moved fault stops
      cases start with
      | none => simp [CTable.rehashChain] at stops
      | some entry =>
          rw [CTable.rehashChain] at stops
          split at stops
          · next missing =>
              cases stops
              exact CTable.row_fault missing
          · exact ih stops

theorem CTable.rehashBuckets_fault {table : CTable creator} {old : Nat → Option RowId}
    : ∀ {indexes : List Nat} {moved : HashTable} {fault : Fault},
        table.rehashBuckets old indexes moved = .error fault → fault.NotDouble := by
  intro indexes
  induction indexes with
  | nil =>
      intro moved fault stops
      cases stops
  | cons index rest ih =>
      intro moved fault stops
      rw [CTable.rehashBuckets] at stops
      split at stops
      · next chainStops =>
          cases stops
          exact CTable.rehashChain_fault chainStops
      · exact ih stops

/-- Linking an entry does not panic, also when the buckets are rebuilt. -/
theorem CTable.linkHashEntry_fault {table : CTable creator} {key : CString} {entry : RowId}
    {fault : Fault} (stops : table.linkHashEntry key entry = .error fault)
    : fault.NotDouble := by
  unfold CTable.linkHashEntry at stops
  dsimp only at stops
  split at stops
  · unfold CTable.rebuildTable at stops
    split at stops
    · cases stops
      exact fun _ same => nomatch same
    · exact CTable.rehashBuckets_fault stops
  · cases stops

theorem CTable.searchPrevious_fault {table : CTable creator} {entry : RowId}
    : ∀ {fuel : Nat} {start : Option RowId} {fault : Fault},
        table.searchPrevious entry fuel start = .error fault → fault.NotDouble := by
  intro fuel
  induction fuel with
  | zero =>
      intro start fault stops
      cases start <;> cases stops <;> exact fun _ same => nomatch same
  | succ fuel ih =>
      intro start fault stops
      cases start with
      | none =>
          cases stops
          exact fun _ same => nomatch same
      | some previous =>
          rw [CTable.searchPrevious] at stops
          split at stops
          · next missing =>
              cases stops
              exact CTable.row_fault missing
          · split at stops
            · cases stops
            · exact ih stops

theorem CTable.deleteHashEntry_fault {table : CTable creator} {entry : RowId} {fault : Fault}
    (stops : table.deleteHashEntry entry = .error fault)
    : fault.NotDouble := by
  unfold CTable.deleteHashEntry at stops
  dsimp only at stops
  split at stops
  · cases stops
  · split at stops
    · next searching =>
        cases stops
        exact CTable.searchPrevious_fault searching
    · cases stops

end SpeedTables
