import SpeedTables.Table.Allocation

/-! The rows that a process prepares and keeps between creations: which tables they end up in. -/

namespace SpeedTables.Allocation

open Lib (BlockHistory)

variable {type : RowType} {process process' : Process type} {table : CTable type} {t row : Nat}

-----------------------------------------------------------------------------------------
-- Destroyed tables
-----------------------------------------------------------------------------------------

namespace Process

/-- A round of `${table}_delete_all_rows` for a table that is destroyed: the keys of a master are
left to its share.
-/
def clearRowFinal (process : Process type) (table : CTable type) (row : Nat) : Process type :=
  let freed := if table.isMaster then process else process.free (process.rows row).key table.place
  (freed.setKey row none).freeRow table row .fastDelete

/-- `${table}_destroy_ctable` -/
def destroy (process : Process type) (t : Nat) (table : CTable type) : Process type :=
  let cleared :=
    if table.isReader then process
    else (process.llHead t).dropLast.foldl (fun process row => process.clearRowFinal table row)
      process
  { cleared.setLists t [] [] with tables := Function.update cleared.tables t none }

end Process

/-- An action of the process, or the end of a table. -/
inductive Event (type : RowType) where
  | act (action : Action type)
  | destroy (t : Nat)

namespace Process

def stepEvent (process : Process type) : Event type → Option (Process type)
  | .act action => process.step action
  | .destroy t => (process.tables t).map (process.destroy t)

def runEvents (process : Process type) (events : List (Event type)) : Option (Process type) :=
  events.foldlM stepEvent process

-----------------------------------------------------------------------------------------
-- The property
-----------------------------------------------------------------------------------------

/-- The row is from the memory of the table, and where it points at a default string, at one of the
table.
-/
def Belongs (process : Process type) (table : CTable type) (row : Nat) : Prop :=
  process.history.region row = table.place
    ∧ ∀ field block, ((process.rows row).strings field).allocatedLength = 0 →
      ((process.rows row).strings field).pointer = some block → block = table.defaultStrings field

/-- The row belongs to every private table. -/
def BelongsPrivate (process : Process type) (row : Nat) : Prop :=
  ∀ table : CTable type, table.shareType = .none →
    table.defaultStrings = (fun field => field.val) → process.Belongs table row

/-- Every row in the list of a table belongs to it. -/
def RowsBelong (process : Process type) : Prop :=
  ∀ t table, process.tables t = some table → ∀ row ∈ process.llHead t, process.Belongs table row

/-- What keeps a creation from giving a table the row that was prepared for another: the prepared
row that a new key of a master gets belongs to the master. A master looks the key up after it has
copied it to the share.
-/
def OwnRow (process : Process type) : Event type → Prop
  | .act (.findOrCreate t key _ roomForKey) =>
      ∀ table, process.tables t = some table → table.isMaster = true → roomForKey = true →
        (process.allocateText table.place key).findHashEntry t key = none →
        ∀ row, process.savedSharedRow = some row → process.Belongs table row
  | _ => True

/-- Every event of a run gives a table rows of its own only. -/
def OwnRows : Process type → List (Event type) → Prop
  | _, [] => True
  | process, event :: rest =>
      process.OwnRow event
        ∧ ∀ process', process.stepEvent event = some process' → process'.OwnRows rest

-----------------------------------------------------------------------------------------
-- The invariant
-----------------------------------------------------------------------------------------

/-- The lists hold rows that belong to their tables, and the row prepared for private tables
belongs to any of them.
-/
structure Placed (process : Process type) : Prop where
  listed : ∀ t, ∀ row ∈ process.llHead t, row < process.history.next
    ∧ ∃ table, process.tables t = some table ∧ process.Belongs table row
  saved : ∀ row, process.savedRow = some row → row < process.history.next
    ∧ process.BelongsPrivate row
  savedShared : ∀ row, process.savedSharedRow = some row → row < process.history.next
  privates : ∀ t table, process.tables t = some table → table.shareType = .none →
    table.defaultStrings = fun field => field.val

/-- A change that leaves the lists alone: blocks are new, and strings stay or get space. -/
structure Quiet (process process' : Process type) : Prop where
  next : process.history.next ≤ process'.history.next
  region : ∀ block < process.history.next,
    process'.history.region block = process.history.region block
  strings : ∀ row < process.history.next, ∀ field,
    0 < ((process'.rows row).strings field).allocatedLength
      ∨ (process'.rows row).strings field = (process.rows row).strings field
      ∨ ((process'.rows row).strings field).pointer = ((process.rows row).strings field).pointer
        ∧ ((process'.rows row).strings field).allocatedLength
          = ((process.rows row).strings field).allocatedLength
  tables : process'.tables = process.tables
  llHead : process'.llHead = process.llHead
  saved : process'.savedRow = process.savedRow
  savedShared : process'.savedSharedRow = process.savedSharedRow

theorem Quiet.refl (process : Process type) : process.Quiet process :=
  ⟨Nat.le_refl _, fun _ _ => rfl, fun _ _ _ => .inr (.inl rfl), rfl, rfl, rfl, rfl⟩

theorem Quiet.trans {process'' : Process type} (first : process.Quiet process')
    (second : process'.Quiet process'')
    : process.Quiet process'' where
  next := Nat.le_trans first.next second.next
  region := fun block old =>
    (second.region block (Nat.lt_of_lt_of_le old first.next)).trans (first.region block old)
  strings := by
    intro row old field
    rcases second.strings row (Nat.lt_of_lt_of_le old first.next) field with more | same | same
    · exact .inl more
    · rw [same]
      exact first.strings row old field
    · rcases first.strings row old field with more | before | before
      · exact .inl (same.2 ▸ more)
      · exact .inr (.inr (before ▸ same))
      · exact .inr (.inr ⟨same.1.trans before.1, same.2.trans before.2⟩)
  tables := second.tables.trans first.tables
  llHead := second.llHead.trans first.llHead
  saved := second.saved.trans first.saved
  savedShared := second.savedShared.trans first.savedShared

/-- A row that was there still belongs to its table. -/
theorem Belongs.quiet (belongs : process.Belongs table row) (quiet : process.Quiet process')
    (old : row < process.history.next)
    : process'.Belongs table row := by
  refine ⟨(quiet.region row old).trans belongs.1, fun field block none points => ?_⟩
  rcases quiet.strings row old field with more | same | same
  · omega
  · rw [same] at none points
    exact belongs.2 field block none points
  · rw [same.2] at none
    rw [same.1] at points
    exact belongs.2 field block none points

theorem Placed.quiet (placed : process.Placed) (quiet : process.Quiet process')
    : process'.Placed where
  listed := by
    intro t row listed
    rw [quiet.llHead] at listed
    obtain ⟨old, table, found, belongs⟩ := placed.listed t row listed
    exact ⟨Nat.lt_of_lt_of_le old quiet.next, table, quiet.tables ▸ found,
      belongs.quiet quiet old⟩
  saved := by
    intro row isSaved
    obtain ⟨old, belongs⟩ := placed.saved row (quiet.saved ▸ isSaved)
    exact ⟨Nat.lt_of_lt_of_le old quiet.next,
      fun table kind strings => (belongs table kind strings).quiet quiet old⟩
  savedShared := fun row isSaved =>
    Nat.lt_of_lt_of_le (placed.savedShared row (quiet.savedShared ▸ isSaved)) quiet.next
  privates := by
    rw [quiet.tables]
    exact placed.privates

-----------------------------------------------------------------------------------------
-- Quiet operations
-----------------------------------------------------------------------------------------

section Quiet

variable (process : Process type) (table : CTable type) (t row : Nat)

theorem quiet_allocate (place : Region) : process.Quiet (process.allocate place) where
  next := Nat.le_succ _
  region := fun block old => Function.update_of_ne (Nat.ne_of_lt old) ..
  strings := fun _ _ _ => .inr (.inl rfl)
  tables := rfl
  llHead := rfl
  saved := rfl
  savedShared := rfl

theorem quiet_allocateText (place : Region) (text : CString)
    : process.Quiet (process.allocateText place text) where
  next := Nat.le_succ _
  region := fun block old => Function.update_of_ne (Nat.ne_of_lt old) ..
  strings := fun _ _ _ => .inr (.inl rfl)
  tables := rfl
  llHead := rfl
  saved := rfl
  savedShared := rfl

theorem quiet_free (pointer : Option Nat) (place : Region)
    : process.Quiet (process.free pointer place) := by
  cases pointer with
  | none => exact .refl process
  | some block =>
      exact ⟨Nat.le_refl _, fun _ _ => rfl, fun _ _ _ => .inr (.inl rfl), rfl, rfl, rfl, rfl⟩

theorem quiet_setKey (key : Option Nat) : process.Quiet (process.setKey row key) where
  next := Nat.le_refl _
  region := fun _ _ => rfl
  strings := by
    intro other _ field
    refine .inr (.inl ?_)
    by_cases same : other = row
    · subst same
      simp [setKey, setRow]
    · simp [setKey, setRow, same]
  tables := rfl
  llHead := rfl
  saved := rfl
  savedShared := rfl

/-- A string that is set has space, or the pointer it had. -/
theorem quiet_setString (field : Fin type.strings) (value : StringField)
    (fits : 0 < value.allocatedLength
      ∨ value.pointer = ((process.rows row).strings field).pointer
        ∧ value.allocatedLength = ((process.rows row).strings field).allocatedLength)
    : process.Quiet (process.setString row field value) where
  next := Nat.le_refl _
  region := fun _ _ => rfl
  strings := by
    intro other _ place
    by_cases same : other = row
    · subst same
      by_cases here : place = field
      · subst here
        have stored : ((process.setString other place value).rows other).strings place = value := by
          simp [setString, setRow]
        rw [stored]
        exact fits.imp_right .inr
      · exact .inr (.inl (by simp [setString, setRow, here]))
    · exact .inr (.inl (by simp [setString, setRow, same]))
  tables := rfl
  llHead := rfl
  saved := rfl
  savedShared := rfl

theorem quiet_setLists (keyTable : List Nat)
    : process.Quiet (process.setLists t (process.llHead t) keyTable) where
  next := Nat.le_refl _
  region := fun _ _ => rfl
  strings := fun _ _ _ => .inr (.inl rfl)
  tables := rfl
  llHead := setLists_llHead
  saved := rfl
  savedShared := rfl

theorem quiet_storeHashEntry (key : CString) (static : Option Nat) (entry : Nat)
    : process.Quiet (process.storeHashEntry t key static entry).2 := by
  unfold storeHashEntry
  split
  · exact .refl process
  · cases static with
    | some mem => exact (process.quiet_setKey entry _).trans (quiet_setLists _ t _)
    | none =>
        exact ((process.quiet_allocateText .heap key).trans (quiet_setKey _ entry _)).trans
          (quiet_setLists _ t _)

theorem quiet_unlinkHashEntry {process process' : Process type}
    (unlinks : process.unlinkHashEntry t table row = some process')
    : process.Quiet process' := by
  unfold unlinkHashEntry at unlinks
  split at unlinks
  · have unlinked := process.quiet_setLists t ((process.keyTable t).erase row)
    dsimp only at unlinks
    split at unlinks
    · cases unlinks
      exact unlinked
    · cases unlinks
      exact unlinked.trans (quiet_free _ _ _)
  · cases unlinks

theorem quiet_deleteHashEntry {process process' : Process type}
    (deletes : process.deleteHashEntry t table row = some process')
    : process.Quiet process' := by
  unfold deleteHashEntry at deletes
  split at deletes
  · split at deletes
    · exact quiet_unlinkHashEntry table t row deletes
    · exact ((process.quiet_free _ _).trans (quiet_setKey _ row _)).trans
        (quiet_unlinkHashEntry table t row deletes)
  · exact quiet_unlinkHashEntry table t row deletes

theorem quiet_deleteKey (freeShared : Bool)
    : process.Quiet (process.deleteKey table row freeShared) := by
  unfold deleteKey
  split
  · exact .refl process
  · refine Quiet.trans ?_ (quiet_setKey _ row _)
    split
    · split
      · exact process.quiet_free _ _
      · exact .refl process
    · exact process.quiet_free _ _

theorem quiet_freeRow (indexCtl : IndexCtl)
    : process.Quiet (process.freeRow table row indexCtl) := by
  have strings : ∀ (place : Region) (fields : List (Fin type.strings)) (process : Process type),
      process.Quiet (fields.foldl (fun process field => process.freeString row place field)
        process) := by
    intro place fields
    induction fields with
    | nil => exact .refl
    | cons field rest ih =>
        intro process
        rw [List.foldl_cons]
        refine Quiet.trans ?_ (ih _)
        unfold freeString
        split
        · exact process.quiet_free _ _
        · exact .refl process
  unfold freeRow
  split
  · exact .refl process
  · exact (strings _ _ process).trans (quiet_free _ _ _)

theorem quiet_reinsertRow {process process' : Process type} {value : CString}
    {indexCtl : IndexCtl} {room failed : Bool}
    (reinserts : process.reinsertRow t table value row indexCtl room = some (failed, process'))
    : process.Quiet process' := by
  unfold reinsertRow at reinserts
  split at reinserts
  · cases reinserts
    exact .refl process
  · split at reinserts
    · split at reinserts
      · split at reinserts
        · dsimp only at reinserts
          split at reinserts
          · cases reinserts
          · next deleted deletes =>
              have removed := (process.quiet_allocateText _ value).trans
                (quiet_deleteHashEntry table t row deletes)
              have stored := removed.trans
                (deleted.quiet_storeHashEntry t value (some process.history.next) row)
              split at reinserts
              · cases reinserts
                exact stored
              · cases reinserts
                exact stored.trans (quiet_free _ _ _)
        · split at reinserts <;> cases reinserts
          exact .refl process
      · split at reinserts
        · cases reinserts
        · next deleted deletes =>
            cases reinserts
            exact (quiet_deleteHashEntry table t row deletes).trans
              (deleted.quiet_storeHashEntry t value none row)
    · cases reinserts
      exact ((process.quiet_free _ _).trans (quiet_setKey _ row _)).trans
        (quiet_storeHashEntry _ t value none row)

theorem quiet_setKeyField {process process' : Process type} {value : CString}
    {indexCtl : IndexCtl} {room failed : Bool}
    (sets : process.setKeyField t table row value indexCtl room = some (failed, process'))
    : process.Quiet process' := by
  unfold setKeyField at sets
  split at sets
  · cases sets
  · cases sets
    exact .refl process
  · split at sets
    · cases sets
      refine Quiet.trans ?_ ((quiet_allocateText _ _ _).trans (quiet_setKey _ row _))
      split
      · exact .refl process
      · exact process.quiet_free _ _
    · exact quiet_reinsertRow table t row sets
    · exact quiet_reinsertRow table t row sets
    · cases sets
      exact .refl process

theorem quiet_replaceString {process process' : Process type} {field : Fin type.strings}
    {value : CString} {isNull room failed : Bool} {place : Region}
    (replaces : process.replaceString table row field value isNull place room
      = some (failed, process'))
    : process.Quiet process' := by
  unfold replaceString at replaces
  dsimp only at replaces
  split at replaces
  · split at replaces <;> cases replaces
    exact quiet_setString process row field _ (.inr ⟨rfl, rfl⟩)
  · cases replaces
    refine Quiet.trans ?_ (quiet_setString _ row field _ (.inl (Nat.succ_pos _)))
    refine (process.quiet_allocateText place value).trans ?_
    split
    · exact quiet_free _ _ _
    · exact .refl _

theorem quiet_setStringField {process process' : Process type} {field : Fin type.strings}
    {value : CString} {indexCtl : IndexCtl} {room failed : Bool}
    (sets : process.setStringField table row field value indexCtl room = some (failed, process'))
    : process.Quiet process' := by
  unfold setStringField at sets
  split at sets
  · cases sets
  · cases sets
    exact .refl process
  · next isNull _ =>
      dsimp only at sets
      split at sets
      · split at sets
        · cases sets
          have kept := quiet_setString process row field
            { (process.rows row).strings field with length := value.length, isNull := isNull }
            (.inr ⟨rfl, rfl⟩)
          exact ⟨kept.next, kept.region, kept.strings, kept.tables, kept.llHead, kept.saved,
            kept.savedShared⟩
        · exact quiet_replaceString table row sets
      · exact quiet_replaceString table row sets

end Quiet

-----------------------------------------------------------------------------------------
-- Creations
-----------------------------------------------------------------------------------------

theorem quiet_prepare (process : Process type) (table : CTable type) (place : Region)
    : process.Quiet ((process.allocate place).init table process.history.next) where
  next := Nat.le_succ _
  region := fun block old => Function.update_of_ne (Nat.ne_of_lt old) ..
  strings := by
    intro row old field
    refine .inr (.inl ?_)
    simp [init, setRow, allocate, Nat.ne_of_lt old]
  tables := rfl
  llHead := rfl
  saved := rfl
  savedShared := rfl

/-- A new row belongs to the table that it is made for. -/
theorem belongs_prepare (process : Process type) (table : CTable type)
    : ((process.allocate table.place).init table process.history.next).Belongs table
        process.history.next := by
  refine ⟨Function.update_self .., fun field block _ points => ?_⟩
  simp only [init, setRow, Function.update_self] at points
  split at points
  · exact (Option.some.inj points).symm
  · cases points

/-- The prepared row is the one kept, or a new one. -/
theorem nextRow_cases {process process' : Process type} {table : CTable type} {next : Nat}
    {room : Bool} (prepares : process.nextRow table room = some (next, process'))
    : (process' = process
        ∧ (if table.isMaster then process.savedSharedRow else process.savedRow) = some next)
      ∨ (next = process.history.next
        ∧ process' = (process.allocate table.place).init table process.history.next) := by
  unfold nextRow at prepares
  split at prepares
  · next row isSaved =>
      cases prepares
      exact .inl ⟨rfl, isSaved⟩
  · split at prepares
    · cases prepares
    · cases prepares
      exact .inr ⟨rfl, rfl⟩

theorem Placed.saveRow {process : Process type} {table : CTable type} {row : Option Nat}
    (placed : process.Placed)
    (fits : ∀ next, row = some next → next < process.history.next
      ∧ (table.isMaster = false → process.BelongsPrivate next))
    : (process.saveRow table row).Placed := by
  unfold Process.saveRow
  split
  · exact ⟨placed.listed, placed.saved, fun next same => (fits next same).1, placed.privates⟩
  · next notMaster =>
      refine ⟨placed.listed, fun next same => ⟨(fits next same).1, ?_⟩, placed.savedShared,
        placed.privates⟩
      exact (fits next same).2 (Bool.eq_false_iff.mpr notMaster)

/-- A row that belongs to a table is put in its list. -/
theorem Placed.list {process : Process type} {table : CTable type} {t next : Nat}
    {keyTable : List Nat} (placed : process.Placed) (isTable : process.tables t = some table)
    (old : next < process.history.next) (belongs : process.Belongs table next)
    : (process.setLists t (next :: process.llHead t) keyTable).Placed where
  listed := by
    intro t' row listed
    change row ∈ Function.update process.llHead t (next :: process.llHead t) t' at listed
    by_cases here : t' = t
    · subst here
      rw [Function.update_self] at listed
      rcases List.mem_cons.mp listed with rfl | listed
      · exact ⟨old, table, isTable, belongs⟩
      · exact placed.listed t' row listed
    · rw [Function.update_of_ne here] at listed
      exact placed.listed t' row listed
  saved := placed.saved
  savedShared := placed.savedShared
  privates := placed.privates

/-- Putting the prepared row in a table, or keeping it. -/
theorem Placed.storeRow {process : Process type} {table : CTable type} {t next : Nat}
    {key : CString} {static : Option Nat} (placed : process.Placed)
    (isTable : process.tables t = some table) (old : next < process.history.next)
    (belongs : process.findHashEntry t key = none → process.Belongs table next)
    (shared : table.isMaster = false → process.BelongsPrivate next)
    : (process.storeRow t table key static next).2.Placed := by
  have stored := process.quiet_storeHashEntry t key static next
  unfold Process.storeRow
  cases looked : process.findHashEntry t key with
  | some found =>
      have same : process.storeHashEntry t key static next = ((found, false), process) := by
        simp [storeHashEntry, looked]
      rw [same]
      have freed := process.quiet_free static table.place
      refine (placed.quiet freed).saveRow fun row isNext => ?_
      obtain rfl : next = row := Option.some.inj isNext
      refine ⟨Nat.lt_of_lt_of_le old freed.next, fun notMaster other kind strings => ?_⟩
      exact (shared notMaster other kind strings).quiet freed old
  | none =>
      have isNew : (process.storeHashEntry t key static next).1 = (next, true) := by
        simp only [storeHashEntry, looked]
      generalize process.storeHashEntry t key static next = result at stored isNew
      obtain ⟨result, after⟩ := result
      obtain rfl : result = (next, true) := isNew
      have listed := @Placed.list _ after table t next (after.keyTable t) (placed.quiet stored)
        (stored.tables ▸ isTable) (Nat.lt_of_lt_of_le old stored.next)
        ((belongs looked).quiet stored old)
      exact listed.saveRow nofun

theorem Placed.findOrCreate {process process' : Process type} {table : CTable type} {t : Nat}
    {key : CString} {roomForRow roomForKey : Bool} {found : Option (Nat × Bool)}
    (placed : process.Placed) (isTable : process.tables t = some table)
    (writer : table.isReader = false)
    (own : process.OwnRow (.act (.findOrCreate t key roomForRow roomForKey)))
    (creates : process.findOrCreate t table key roomForRow roomForKey = some (found, process'))
    : process'.Placed := by
  unfold Process.findOrCreate at creates
  split at creates
  · unfold outOfMemory at creates
    split at creates <;> cases creates
    exact placed
  · next next prepared prepares =>
      -- the prepared row is there, and belongs to the table unless it was kept for a master
      have cases := nextRow_cases prepares
      have quiet : process.Quiet prepared := by
        rcases cases with ⟨rfl, -⟩ | ⟨-, rfl⟩
        · exact .refl _
        · exact quiet_prepare process table table.place
      have isTable' : prepared.tables t = some table := quiet.tables ▸ isTable
      split at creates
      · next share shape =>
          have master : table.isMaster = true := by simp [CTable.isMaster, shape]
          have place : table.place = .share share := by simp [CTable.place, shape]
          have old : next < prepared.history.next := by
            rcases cases with ⟨rfl, isSaved⟩ | ⟨rfl, rfl⟩
            · rw [if_pos master] at isSaved
              exact placed.savedShared next isSaved
            · exact Nat.lt_succ_self _
          split at creates
          · next room =>
              have same : ((prepared.allocateText (.share share) key).storeRow t table key
                  (some prepared.history.next) next).2 = process' :=
                (Prod.mk.inj (Option.some.inj creates)).2
              rw [← same]
              have copied := prepared.quiet_allocateText (.share share) key
              refine ((placed.quiet quiet).quiet copied).storeRow isTable'
                (Nat.lt_of_lt_of_le old copied.next) (fun isNew => ?_) (by simp [master])
              refine Belongs.quiet ?_ copied old
              rcases cases with ⟨rfl, isSaved⟩ | ⟨rfl, rfl⟩
              · rw [if_pos master] at isSaved
                exact own table isTable master room (place ▸ isNew) next isSaved
              · exact belongs_prepare process table
          · unfold outOfMemory at creates
            split at creates <;> cases creates
            exact placed.quiet quiet
      · next notMaster =>
          have same : (prepared.storeRow t table key none next).2 = process' :=
            (Prod.mk.inj (Option.some.inj creates)).2
          rw [← same]
          have kind : table.shareType = .none := by
            cases shape : table.shareType with
            | none => rfl
            | master share => exact absurd shape (notMaster share)
            | reader share => simp [CTable.isReader, shape] at writer
          have notMaster : table.isMaster = false := by simp [CTable.isMaster, kind]
          have any : next < prepared.history.next ∧ prepared.BelongsPrivate next := by
            rcases cases with ⟨rfl, isSaved⟩ | ⟨rfl, rfl⟩
            · rw [if_neg (by simp [notMaster])] at isSaved
              exact placed.saved next isSaved
            · refine ⟨Nat.lt_succ_self _, fun other otherKind strings => ?_⟩
              obtain ⟨place, defaults⟩ := belongs_prepare process table
              refine ⟨?_, ?_⟩
              · rw [place, CTable.place, CTable.place, kind, otherKind]
              · rw [strings, ← placed.privates t table isTable kind]
                exact defaults
          exact (placed.quiet quiet).storeRow isTable' any.1
            (fun _ => any.2 table kind (placed.privates t table isTable kind)) (fun _ => any.2)

-----------------------------------------------------------------------------------------
-- Runs
-----------------------------------------------------------------------------------------

/-- Rows that leave the lists do no harm. -/
theorem Placed.unlist {process : Process type} {t : Nat} {llHead keyTable : List Nat}
    (placed : process.Placed) (part : llHead ⊆ process.llHead t)
    : (process.setLists t llHead keyTable).Placed where
  listed := by
    intro t' row listed
    change row ∈ Function.update process.llHead t llHead t' at listed
    by_cases here : t' = t
    · subst here
      rw [Function.update_self] at listed
      exact placed.listed t' row (part listed)
    · rw [Function.update_of_ne here] at listed
      exact placed.listed t' row listed
  saved := placed.saved
  savedShared := placed.savedShared
  privates := placed.privates

theorem Placed.deleteRow {process process' : Process type} {table : CTable type} {t row : Nat}
    {indexCtl : IndexCtl} (placed : process.Placed)
    (deletes : process.deleteRow t table row indexCtl = some process')
    : process'.Placed := by
  cases indexCtl with
  | normal =>
      simp only [Process.deleteRow] at deletes
      split at deletes
      · cases deletes
      · next unlinked unlinks =>
          cases deletes
          have removed := @Placed.unlist _ process t ((process.llHead t).erase row)
            (process.keyTable t) placed List.erase_subset
          exact removed.quiet (((quiet_deleteKey _ table row true).trans
            (quiet_unlinkHashEntry table t row unlinks)).trans (quiet_freeRow _ table row _))
  | fastDelete =>
      cases deletes
      exact placed.quiet (quiet_freeRow process table row _)
  | destroyShared | privateRow | new =>
      cases deletes
      exact placed.quiet ((quiet_deleteKey process table row _).trans (quiet_freeRow _ table row _))

/-- A change that rounds over some rows make. -/
theorem quiet_foldl {process : Process type} {round : Process type → Nat → Process type}
    (quiet : ∀ (process : Process type) (row : Nat), process.Quiet (round process row))
    (rows : List Nat)
    : process.Quiet (rows.foldl round process) := by
  induction rows generalizing process with
  | nil => exact .refl process
  | cons row rest ih => exact (quiet process row).trans ih

theorem quiet_allocateDefaults (process : Process type) (share : Nat)
    : process.Quiet (process.allocateDefaults share) := by
  have texts : ∀ (fields : List (Fin type.strings)) (process : Process type),
      process.Quiet (fields.foldl (fun process field =>
        process.allocateText (.share share) ((type.default field).getD [])) process) := by
    intro fields
    induction fields with
    | nil => exact .refl
    | cons field rest ih =>
        exact fun process => (process.quiet_allocateText _ _).trans (ih _)
  exact (process.quiet_allocateText _ []).trans (texts _ _)

theorem Placed.reset {process : Process type} {table : CTable type} {t : Nat}
    (placed : process.Placed)
    : (process.reset t table).Placed := by
  unfold Process.reset
  split
  · exact placed
  · refine (placed.quiet (quiet_foldl (fun process row => ?_) _)).unlist (List.nil_subset _)
    exact ((process.quiet_free _ _).trans (quiet_setKey _ row none)).trans
      (quiet_freeRow _ table row _)

theorem Placed.destroy {process : Process type} {table : CTable type} {t : Nat}
    (placed : process.Placed)
    : (process.destroy t table).Placed := by
  have quiet : process.Quiet (if table.isReader then process
      else (process.llHead t).dropLast.foldl (fun process row => process.clearRowFinal table row)
        process) := by
    split
    · exact .refl process
    · refine quiet_foldl (fun process row => ?_) _
      refine Quiet.trans ?_ ((quiet_setKey _ row none).trans (quiet_freeRow _ table row _))
      split
      · exact .refl process
      · exact process.quiet_free _ _
  unfold Process.destroy
  generalize (if table.isReader then process else _) = cleared at quiet ⊢
  have emptied := @Placed.unlist _ cleared t [] [] (placed.quiet quiet) (List.nil_subset _)
  refine ⟨fun t' row listed => ?_, emptied.saved, emptied.savedShared,
    fun t' other found => ?_⟩
  · have apart : t' ≠ t := by
      rintro rfl
      simp [setLists] at listed
    obtain ⟨old, other, found, belongs⟩ := emptied.listed t' row listed
    exact ⟨old, other, (Function.update_of_ne apart ..).trans found, belongs⟩
  · have apart : t' ≠ t := by
      rintro rfl
      simp at found
    exact emptied.privates t' other ((Function.update_of_ne apart ..).symm.trans found)

theorem Placed.addTable {process : Process type} {table : CTable type} {t : Nat}
    (placed : process.Placed) (absent : process.tables t = none)
    (privates : table.shareType = .none → table.defaultStrings = fun field => field.val)
    : (process.addTable t table).Placed := by
  have emptied := @Placed.unlist _ process t [] [] placed (List.nil_subset _)
  have others {t' : Nat} (apart : t' ≠ t)
      : (process.addTable t table).tables t' = process.tables t' := Function.update_of_ne apart ..
  refine ⟨fun t' row listed => ?_, emptied.saved, emptied.savedShared, fun t' other found => ?_⟩
  · have apart : t' ≠ t := by
      rintro rfl
      simp [Process.addTable, setLists] at listed
    obtain ⟨old, other, found, belongs⟩ := emptied.listed t' row listed
    exact ⟨old, other, (others apart).trans found, belongs⟩
  · by_cases here : t' = t
    · subst here
      obtain rfl : table = other := by simpa [Process.addTable] using found
      exact privates
    · exact placed.privates t' other ((others here).symm.trans found)

theorem Placed.act {process process' : Process type} {table : CTable type} {t : Nat}
    {action : Action type} (placed : process.Placed) (isTable : process.tables t = some table)
    (same : action.table = t) (own : process.OwnRow (.act action))
    (acts : process.act t table action = some process')
    : process'.Placed := by
  cases action with
  | findOrCreate t' key roomForRow roomForKey =>
      obtain rfl : t' = t := same
      simp only [Process.act] at acts
      split at acts
      · cases acts
      · next writer =>
          obtain ⟨⟨found, after⟩, creates, rfl⟩ := Option.map_eq_some_iff.mp acts
          exact placed.findOrCreate isTable (Bool.eq_false_iff.mpr writer) own creates
  | setKey t' row value indexCtl room =>
      simp only [Process.act] at acts
      split at acts
      · obtain ⟨⟨failed, after⟩, sets, rfl⟩ := Option.map_eq_some_iff.mp acts
        exact placed.quiet (quiet_setKeyField table t row sets)
      · cases acts
  | setString t' row field value indexCtl room =>
      simp only [Process.act] at acts
      split at acts
      · obtain ⟨⟨failed, after⟩, sets, rfl⟩ := Option.map_eq_some_iff.mp acts
        exact placed.quiet (quiet_setStringField table row sets)
      · cases acts
  | delete t' key =>
      simp only [Process.act] at acts
      split at acts
      · cases acts
      · split at acts
        · cases acts
          exact placed
        · exact placed.deleteRow acts
  | searchDelete t' row =>
      simp only [Process.act] at acts
      split at acts
      · cases acts
      · exact placed.deleteRow acts
  | reset t' =>
      cases acts
      exact placed.reset
  | makeComparison t' =>
      cases acts
      have made := placed.quiet (quiet_prepare process table .heap)
      exact ⟨made.listed, made.saved, made.savedShared, made.privates⟩
  | deleteComparison t' row =>
      simp only [Process.act] at acts
      split at acts
      · obtain ⟨after, deletes, rfl⟩ := Option.map_eq_some_iff.mp acts
        have deleted := placed.deleteRow deletes
        exact ⟨deleted.listed, deleted.saved, deleted.savedShared, deleted.privates⟩
      · cases acts
  | createPrivate | createMaster | createReader => cases acts

theorem Placed.stepEvent {process process' : Process type} {event : Event type}
    (placed : process.Placed) (own : process.OwnRow event)
    (steps : process.stepEvent event = some process')
    : process'.Placed := by
  have onTable {action : Action type} (uses : Process.makesTable action = false)
      (own : process.OwnRow (.act action)) (steps : process.step action = some process')
      : process'.Placed := by
    obtain ⟨table, isTable, steps⟩ := Process.step_onTable uses steps
    exact placed.act isTable rfl own steps
  cases event with
  | destroy t =>
      obtain ⟨table, found, rfl⟩ := Option.map_eq_some_iff.mp steps
      exact placed.destroy
  | act action =>
      change process.step action = some process' at steps
      cases action with
      | createPrivate t =>
          simp only [Process.step] at steps
          split at steps
          · cases steps
          · next absent =>
              cases steps
              exact placed.addTable (by simpa using absent) (fun _ => rfl)
      | createMaster t share sharePanic =>
          simp only [Process.step] at steps
          split at steps
          · cases steps
          · next absent =>
              cases steps
              have made := process.quiet_allocateDefaults share
              exact (placed.quiet made).addTable (by simpa [made.tables] using absent)
                (fun same => by cases same)
      | createReader t share master =>
          simp only [Process.step] at steps
          split at steps
          · cases steps
          · next absent =>
              have free : process.tables t = none := by simpa using absent
              cases master with
              | none =>
                  cases steps
                  have made := process.quiet_allocateDefaults share
                  exact (placed.quiet made).addTable (made.tables ▸ free)
                    (fun same => by cases same)
              | some m =>
                  simp only [Process.createReader] at steps
                  split at steps
                  · cases steps
                  · split at steps
                    · cases steps
                      exact placed.addTable free (fun same => by cases same)
                    · cases steps
      | findOrCreate | setKey | setString | delete | searchDelete | reset | makeComparison
      | deleteComparison => exact onTable rfl own steps

theorem Placed.new (type : RowType) : (Process.new type).Placed where
  listed := fun _ _ listed => nomatch listed
  saved := nofun
  savedShared := nofun
  privates := nofun

theorem Placed.runEvents {events : List (Event type)} {process process' : Process type}
    (placed : process.Placed) (own : process.OwnRows events)
    (result : process.runEvents events = some process')
    : process'.Placed := by
  induction events generalizing process with
  | nil =>
      cases result
      exact placed
  | cons event rest ih =>
      obtain ⟨state, first, last⟩ := Option.bind_eq_some_iff.mp result
      exact ih (placed.stepEvent own.1 first) (own.2 state first) last

theorem Placed.rowsBelong {process : Process type} (placed : process.Placed)
    : process.RowsBelong := by
  intro t table found row listed
  obtain ⟨-, other, isTable, belongs⟩ := placed.listed t row listed
  obtain rfl : table = other := Option.some.inj (found.symm.trans isTable)
  exact belongs

end Process

/-- In every run in which the prepared row that a new key of a master gets belongs to the master,
every row of a table is from the memory that the table is attached to and points at its default
strings.
-/
theorem run_rowsBelong (type : RowType) (events : List (Event type)) (process : Process type)
    (own : (Process.new type).OwnRows events)
    (result : (Process.new type).runEvents events = some process)
    : process.RowsBelong :=
  ((Process.Placed.new type).runEvents own result).rowsBelong

/-- A type with a string field that is not null. -/
def stringType : RowType where
  strings := 1
  notnull := fun _ => true
  default := fun _ => none
  nullValue := []

/-- A master looks up a key that exists, and its next new key gets the row kept. -/
def keptRowEvents : List (Event stringType) :=
  [.act (.createMaster 0 7 false), .act (.findOrCreate 0 [97] true true),
    .act (.findOrCreate 0 [97] true true), .act (.findOrCreate 0 [98] true true)]

theorem run_rowsBelong_kept
    : ∃ process, (Process.new stringType).runEvents keptRowEvents = some process
        ∧ process.RowsBelong := by
  obtain ⟨process, run⟩ := Option.isSome_iff_exists.mp
    (by decide +kernel : ((Process.new stringType).runEvents keptRowEvents).isSome = true)
  refine ⟨process, run, run_rowsBelong stringType keptRowEvents process ?_ run⟩
  refine ⟨trivial, fun _ step => ?_⟩
  cases step
  refine ⟨fun _ _ _ _ _ _ saved => ?_, fun _ step => ?_⟩
  · cases saved
  cases step
  refine ⟨fun _ _ _ _ _ _ saved => ?_, fun _ step => ?_⟩
  · cases saved
  cases step
  refine ⟨fun _ found _ _ _ _ saved => ?_, fun _ _ => trivial⟩
  cases found
  cases saved
  exact ⟨rfl, fun field block _ points => (Option.some.inj points).symm⟩

/-- A master on one share keeps a row, and a master on another share puts it in its list. -/
theorem run_foreignRow
    : ∃ process, (Process.new stringType).runEvents
        [.act (.createMaster 0 7 false), .act (.createMaster 1 8 false),
          .act (.findOrCreate 0 [97] true true), .act (.findOrCreate 0 [97] true true),
          .act (.findOrCreate 1 [98] true true)] = some process
      ∧ ¬ process.RowsBelong := by
  have outcome : ((Process.new stringType).runEvents
      [.act (.createMaster 0 7 false), .act (.createMaster 1 8 false),
        .act (.findOrCreate 0 [97] true true), .act (.findOrCreate 0 [97] true true),
        .act (.findOrCreate 1 [98] true true)]).any (fun process =>
          decide (7 ∈ process.llHead 1) && decide (process.history.region 7 = .share 7)
            && (process.tables 1).any (fun table => decide (table.place = .share 8))) = true := by
    decide +kernel
  cases run : (Process.new stringType).runEvents
      [.act (.createMaster 0 7 false), .act (.createMaster 1 8 false),
        .act (.findOrCreate 0 [97] true true), .act (.findOrCreate 0 [97] true true),
        .act (.findOrCreate 1 [98] true true)] with
  | none => simp [run] at outcome
  | some process =>
      simp only [run, Option.any_some, Bool.and_eq_true, decide_eq_true_iff] at outcome
      obtain ⟨⟨listed, origin⟩, attached⟩ := outcome
      refine ⟨process, rfl, fun belong => ?_⟩
      cases found : process.tables 1 with
      | none => simp [found] at attached
      | some table =>
          have place := (belong 1 table found 7 listed).1
          simp only [found, Option.any_some, decide_eq_true_iff] at attached
          rw [origin, attached] at place
          cases place

end SpeedTables.Allocation
