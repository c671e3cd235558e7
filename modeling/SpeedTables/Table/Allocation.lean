import SpeedTables.Lib.Ownership
import SpeedTables.Table.Values

/-! The blocks of rows, keys and strings, for all tables of one type in a process. Private memory
and every share have an allocator of their own.
-/

namespace SpeedTables.Allocation

open Lib (BlockHistory)

-----------------------------------------------------------------------------------------
-- Memory
-----------------------------------------------------------------------------------------

/-- Where a block comes from: `ckalloc`, `shmalloc` of a share, or the data of the program. -/
inductive Region where
  | heap
  | share (id : Nat)
  | program
  deriving DecidableEq

/-- What the generated code fixes for a type: its string fields, and the text of nulls. -/
structure RowType where
  strings : Nat
  notnull : Fin strings → Bool
  default : Fin strings → Option CString
  nullValue : CString

/-- A string field of a row: the pointer, `_Length`, `_AllocatedLength` and `_IsNull`. -/
structure StringField where
  pointer : Option Nat
  length : Nat
  allocatedLength : Nat
  isNull : Bool

/-- The pointers of a row. -/
structure Row (type : RowType) where
  key : Option Nat
  strings : Fin type.strings → StringField

/-- `share_type`, with the share. -/
inductive ShareType where
  | none
  | master (share : Nat)
  | reader (share : Nat)
  deriving DecidableEq

/-- The parts of `struct CTable` that stay as its creation sets them. -/
structure CTable (type : RowType) where
  shareType : ShareType
  sharePanic : Bool
  nullKeyValue : Option Nat
  defaultStrings : Fin type.strings → Nat

/-- The index mode of an operation on a row. -/
inductive IndexCtl where
  | destroyShared
  | fastDelete
  | privateRow
  | normal
  | new
  deriving DecidableEq

/-- A process with its tables of one type. `baseCopy` is the key in the template of new rows once
there is one, and `comparisons` lists the rows that searches have made and not cleaned up. The hash
table is the list of the rows that are linked in it. `ckalloc` and `shmalloc` hand out every address
once.
-/
structure Process (type : RowType) where
  history : BlockHistory Region
  contents : Nat → CString
  rows : Nat → Row type
  tables : Nat → Option (CTable type)
  llHead : Nat → List Nat
  keyTable : Nat → List Nat
  comparisons : List (Nat × Nat)
  savedRow : Option Nat
  savedSharedRow : Option Nat
  baseCopy : Option (Option Nat)

variable {type : RowType}

namespace CTable

def isMaster (table : CTable type) : Bool :=
  match table.shareType with
  | .master _ => true
  | _ => false

def isReader (table : CTable type) : Bool :=
  match table.shareType with
  | .reader _ => true
  | _ => false

/-- Where `gen_allocate` and `gen_deallocate` turn for the rows of the table. -/
def place (table : CTable type) : Region :=
  match table.shareType with
  | .master share => .share share
  | _ => .heap

/-- Where they turn with the condition `indexCtl == CTABLE_INDEX_PRIVATE`. -/
def placeOf (table : CTable type) (indexCtl : IndexCtl) : Region :=
  if indexCtl = .privateRow then .heap else table.place

/-- Where `${table}_delete` turns. It leaves a row in the share to a reader's master, and in a
share that is given up.
-/
def deletePlace (table : CTable type) (indexCtl : IndexCtl) : Option Region :=
  match table.shareType with
  | .none => some .heap
  | .master share =>
      if indexCtl = .privateRow then some .heap
      else if indexCtl = .destroyShared then none
      else some (.share share)
  | .reader _ => if indexCtl = .privateRow then some .heap else none

end CTable

namespace Process

def allocate (process : Process type) (place : Region) : Process type :=
  { process with history := process.history.allocate place }

/-- Allocate a block for a string and copy it there. -/
def allocateText (process : Process type) (place : Region) (text : CString) : Process type :=
  { process with
    history := process.history.allocate place
    contents := Function.update process.contents process.history.next text }

/-- `ckfree` or `shmfree`. Freeing NULL does nothing. -/
def free (process : Process type) (pointer : Option Nat) (place : Region) : Process type :=
  match pointer with
  | none => process
  | some block => { process with history := process.history.release block place }

def setRow (process : Process type) (row : Nat) (value : Row type) : Process type :=
  { process with rows := Function.update process.rows row value }

def setKey (process : Process type) (row : Nat) (key : Option Nat) : Process type :=
  process.setRow row { process.rows row with key := key }

def setString (process : Process type) (row : Nat) (field : Fin type.strings)
    (value : StringField) : Process type :=
  process.setRow row
    { process.rows row with strings := Function.update (process.rows row).strings field value }

/-- The two row lists of a table. -/
def setLists (process : Process type) (t : Nat) (llHead keyTable : List Nat) : Process type :=
  { process with
    llHead := Function.update process.llHead t llHead
    keyTable := Function.update process.keyTable t keyTable }

section Fields

variable {process : Process type} {pointer key : Option Nat} {place : Region} {text : CString}
variable {row t : Nat} {llHead keyTable : List Nat}

@[simp]
theorem free_rows : (process.free pointer place).rows = process.rows := by
  cases pointer <;> rfl

@[simp]
theorem free_keyTable : (process.free pointer place).keyTable = process.keyTable := by
  cases pointer <;> rfl

@[simp]
theorem free_contents : (process.free pointer place).contents = process.contents := by
  cases pointer <;> rfl

@[simp]
theorem allocateText_rows : (process.allocateText place text).rows = process.rows := rfl

@[simp]
theorem allocateText_keyTable : (process.allocateText place text).keyTable = process.keyTable := rfl

@[simp]
theorem setKey_key : ((process.setKey row key).rows row).key = key := by
  simp [setKey, setRow]

@[simp]
theorem setKey_keyTable : (process.setKey row key).keyTable = process.keyTable := rfl

@[simp]
theorem setLists_rows : (process.setLists t llHead keyTable).rows = process.rows := rfl

@[simp]
theorem setLists_keyTable : (process.setLists t llHead keyTable).keyTable t = keyTable :=
  Function.update_self ..

@[simp]
theorem setLists_llHead
    : (process.setLists t (process.llHead t) keyTable).llHead = process.llHead :=
  Function.update_eq_self ..

end Fields

-----------------------------------------------------------------------------------------
-- The hash table
-----------------------------------------------------------------------------------------

/-- `ctable_FindHashEntry` -/
def findHashEntry (process : Process type) (t : Nat) (key : CString) : Option Nat :=
  (process.keyTable t).find? fun row =>
    (process.rows row).key.any fun block => process.contents block == key

/-- `ctable_StoreHashEntry`: the entry with the key, and whether it is the given one. A key that is
not static is copied.
-/
def storeHashEntry (process : Process type) (t : Nat) (key : CString) (static : Option Nat)
    (entry : Nat) : (Nat × Bool) × Process type :=
  match process.findHashEntry t key with
  | some found => ((found, false), process)
  | none =>
      let stored :=
        match static with
        | some mem => process.setKey entry (some mem)
        | none => (process.allocateText .heap key).setKey entry (some process.history.next)
      ((entry, true), stored.setLists t (stored.llHead t) (entry :: stored.keyTable t))

/-- `ctable_DeleteHashEntry`. It panics when the entry is not in its chain. -/
def unlinkHashEntry (process : Process type) (t : Nat) (table : CTable type) (row : Nat)
    : Option (Process type) :=
  if row ∈ process.keyTable t then
    let unlinked := process.setLists t (process.llHead t) ((process.keyTable t).erase row)
    if (process.rows row).key = table.nullKeyValue then some unlinked
    else some (unlinked.free (process.rows row).key .heap)
  else
    none

/-- `${table}_deleteHashEntry` -/
def deleteHashEntry (process : Process type) (t : Nat) (table : CTable type) (row : Nat)
    : Option (Process type) :=
  match table.shareType with
  | .master share =>
      if (process.rows row).key = table.nullKeyValue then process.unlinkHashEntry t table row
      else
        ((process.free (process.rows row).key (.share share)).setKey row
          table.nullKeyValue).unlinkHashEntry t table row
  | _ => process.unlinkHashEntry t table row

/-- `${table}_deleteKey` -/
def deleteKey (process : Process type) (table : CTable type) (row : Nat) (freeShared : Bool)
    : Process type :=
  if (process.rows row).key = table.nullKeyValue then process
  else
    let freed :=
      match table.shareType with
      | .master share =>
          if freeShared then process.free (process.rows row).key (.share share) else process
      | _ => process.free (process.rows row).key .heap
    freed.setKey row table.nullKeyValue

-----------------------------------------------------------------------------------------
-- New rows
-----------------------------------------------------------------------------------------

/-- `${table}_init`. Only the first call takes the null key value of its table. -/
def init (process : Process type) (table : CTable type) (row : Nat) : Process type :=
  let key := process.baseCopy.getD table.nullKeyValue
  { process.setRow row
      { key := key
        strings := fun field =>
          { pointer :=
              if (type.default field).isSome || type.notnull field then
                some (table.defaultStrings field)
              else
                none
            length := ((type.default field).getD []).length
            allocatedLength := 0
            isNull := !type.notnull field && (type.default field).isNone } } with
    baseCopy := some key }

/-- `${table}_make_empty_row` -/
def makeEmptyRow (process : Process type) (table : CTable type) : Nat × Process type :=
  (process.history.next, (process.allocate .heap).init table process.history.next)

/-- The row that is prepared for the next new key, unless the share has no room for one. -/
def nextRow (process : Process type) (table : CTable type) (room : Bool)
    : Option (Nat × Process type) :=
  match if table.isMaster then process.savedSharedRow else process.savedRow with
  | some row => some (row, process)
  | none =>
      if table.isMaster && !room then none
      else
        some (process.history.next,
          (process.allocate table.place).init table process.history.next)

/-- The prepared row is remembered, in the variable for shared or for private tables. -/
def saveRow (process : Process type) (table : CTable type) (row : Option Nat) : Process type :=
  if table.isMaster then { process with savedSharedRow := row }
  else { process with savedRow := row }

/-- Look the key up and put the prepared row there if it is new. -/
def storeRow (process : Process type) (t : Nat) (table : CTable type) (key : CString)
    (static : Option Nat) (nextRow : Nat) : (Nat × Bool) × Process type :=
  let (result, stored) := process.storeHashEntry t key static nextRow
  if result.2 then
    (result,
      (stored.setLists t (result.1 :: stored.llHead t) (stored.keyTable t)).saveRow table none)
  else
    (result, (stored.free static table.place).saveRow table (some nextRow))

/-- No room in the share: an error, or a panic if the table was created so. -/
def outOfMemory {α : Type} (process : Process type) (table : CTable type)
    : Option (Option α × Process type) :=
  if table.sharePanic then none else some (none, process)

/-- `${table}_find_or_create`: the row and whether it is new. Without a result the process ends. -/
def findOrCreate (process : Process type) (t : Nat) (table : CTable type) (key : CString)
    (roomForRow roomForKey : Bool) : Option (Option (Nat × Bool) × Process type) :=
  match process.nextRow table roomForRow with
  | none => process.outOfMemory table
  | some (nextRow, prepared) =>
      match table.shareType with
      | .master share =>
          if roomForKey then
            let (result, stored) := (prepared.allocateText (.share share) key).storeRow t table key
              (some prepared.history.next) nextRow
            some (some result, stored)
          else
            prepared.outOfMemory table
      | _ =>
          let (result, stored) := prepared.storeRow t table key none nextRow
          some (some result, stored)

-----------------------------------------------------------------------------------------
-- Setting fields
-----------------------------------------------------------------------------------------

/-- `${table}_reinsert_row`. The result says whether there was an error. -/
def reinsertRow (process : Process type) (t : Nat) (table : CTable type) (value : CString)
    (row : Nat) (indexCtl : IndexCtl) (room : Bool) : Option (Bool × Process type) :=
  match process.findHashEntry t value with
  | some _ => some (true, process)
  | none =>
      if indexCtl = .normal then
        match table.shareType with
        | .master share =>
            if room then
              let mem := process.history.next
              match (process.allocateText (.share share) value).deleteHashEntry t table row with
              | none => none
              | some deleted =>
                  let (result, stored) := deleted.storeHashEntry t value (some mem) row
                  if result.2 then some (false, stored)
                  else some (true, stored.free (some mem) (.share share))
            else if table.sharePanic then none
            else some (true, process)
        | _ =>
            match process.deleteHashEntry t table row with
            | none => none
            | some deleted =>
                let (result, stored) := deleted.storeHashEntry t value none row
                some (!result.2, stored)
      else
        let freed := (process.free (process.rows row).key .heap).setKey row table.nullKeyValue
        let (result, stored) := freed.storeHashEntry t value none row
        some (!result.2, stored)

/-- The comparison with the present key. It reads through the key pointer, which may be NULL. -/
def sameKey (process : Process type) (table : CTable type) (row : Nat) (value : CString)
    : Option Bool :=
  if (process.rows row).key = table.nullKeyValue then some false
  else (process.rows row).key.map fun block => process.contents block == value

/-- `keySetSource` -/
def setKeyField (process : Process type) (t : Nat) (table : CTable type) (row : Nat)
    (value : CString) (indexCtl : IndexCtl) (room : Bool) : Option (Bool × Process type) :=
  match process.sameKey table row value with
  | none => none
  | some true => some (false, process)
  | some false =>
      match indexCtl with
      | .privateRow =>
          let freed :=
            if (process.rows row).key = table.nullKeyValue then process
            else process.free (process.rows row).key .heap
          some (false, (freed.allocateText .heap value).setKey row (some freed.history.next))
      | .normal | .new => process.reinsertRow t table value row indexCtl room
      | _ => some (false, process)

/-- What `varstringSetSource` does before it stores: nothing is left to do, or the null flag it
has set. Without a result it has read through a NULL pointer.
-/
def stringChange (process : Process type) (row : Nat) (field : Fin type.strings)
    (value : CString) : Option (Option Bool) :=
  let old := (process.rows row).strings field
  let isNull := !type.notnull field && value == type.nullValue
  if isNull then
    some (if old.isNull then none else some true)
  else if !type.notnull field && old.isNull then
    some (some false)
  else if value.length = old.length then
    old.pointer.map fun block => if process.contents block = value then none else some old.isNull
  else
    some (some old.isNull)

/-- Get space for a longer string, and free the old string if it was allocated. -/
def replaceString (process : Process type) (table : CTable type) (row : Nat)
    (field : Fin type.strings) (value : CString) (isNull : Bool) (place : Region) (room : Bool)
    : Option (Bool × Process type) :=
  let old := (process.rows row).strings field
  if place ≠ .heap ∧ room = false then
    if table.sharePanic then none
    else some (true, process.setString row field { old with isNull := isNull })
  else
    let allocated := process.allocateText place value
    let freed := if 0 < old.allocatedLength then allocated.free old.pointer place else allocated
    some (false, freed.setString row field
      { pointer := some process.history.next, length := value.length,
        allocatedLength := value.length + 1, isNull := isNull })

/-- `varstringSetSource` -/
def setStringField (process : Process type) (table : CTable type) (row : Nat)
    (field : Fin type.strings) (value : CString) (indexCtl : IndexCtl) (room : Bool)
    : Option (Bool × Process type) :=
  match process.stringChange row field value with
  | none => none
  | some none => some (false, process)
  | some (some isNull) =>
      let old := (process.rows row).strings field
      match old.pointer with
      | some block =>
          if value.length < old.allocatedLength then
            let kept := process.setString row field
              { old with length := value.length, isNull := isNull }
            some (false, { kept with contents := Function.update process.contents block value })
          else
            process.replaceString table row field value isNull (table.placeOf indexCtl) room
      | none => process.replaceString table row field value isNull (table.placeOf indexCtl) room

-----------------------------------------------------------------------------------------
-- Deleting rows
-----------------------------------------------------------------------------------------

/-- Free the string of a field, if it was allocated. -/
def freeString (process : Process type) (row : Nat) (place : Region) (field : Fin type.strings)
    : Process type :=
  if 0 < ((process.rows row).strings field).allocatedLength then
    process.free ((process.rows row).strings field).pointer place
  else
    process

/-- The end of `${table}_delete`: its strings, then the row. -/
def freeRow (process : Process type) (table : CTable type) (row : Nat) (indexCtl : IndexCtl)
    : Process type :=
  match table.deletePlace indexCtl with
  | none => process
  | some place =>
      ((List.finRange type.strings).foldl (fun process field => process.freeString row place field)
        process).free (some row) place

/-- `${table}_delete`. `ctable_RemoveFromAllIndexes` takes the row out of the list of all rows. -/
def deleteRow (process : Process type) (t : Nat) (table : CTable type) (row : Nat)
    (indexCtl : IndexCtl) : Option (Process type) :=
  match indexCtl with
  | .normal =>
      let removed := process.setLists t ((process.llHead t).erase row) (process.keyTable t)
      match (removed.deleteKey table row true).unlinkHashEntry t table row with
      | none => none
      | some unlinked => some (unlinked.freeRow table row indexCtl)
  | .fastDelete => some (process.freeRow table row indexCtl)
  | .destroyShared | .privateRow =>
      some ((process.deleteKey table row false).freeRow table row indexCtl)
  | .new => some ((process.deleteKey table row true).freeRow table row indexCtl)

/-- A round of `${table}_delete_all_rows`, which frees the key itself. -/
def clearRow (process : Process type) (table : CTable type) (row : Nat) : Process type :=
  ((process.free (process.rows row).key table.place).setKey row none).freeRow table row .fastDelete

/-- `reset`: `${table}_delete_all_rows`, refused on a reader, and a new hash table. The loop over the
rows stops before the last one.
-/
def reset (process : Process type) (t : Nat) (table : CTable type) : Process type :=
  if table.isReader then process
  else
    ((process.llHead t).dropLast.foldl (fun process row => process.clearRow table row)
      process).setLists t [] []

-----------------------------------------------------------------------------------------
-- Tables
-----------------------------------------------------------------------------------------

/-- Add a table without rows. -/
def addTable (process : Process type) (t : Nat) (table : CTable type) : Process type :=
  { process.setLists t [] [] with tables := Function.update process.tables t (some table) }

/-- Allocate the null key value and the default strings of a master. The default strings lie in one
block in the source; here each is a block of its own.
-/
def allocateDefaults (process : Process type) (share : Nat) : Process type :=
  (List.finRange type.strings).foldl
    (fun process field => process.allocateText (.share share) ((type.default field).getD []))
    (process.allocateText (.share share) [])

/-- The table that has its null key value and its default strings from a block on. -/
def sharedTable (type : RowType) (shareType : ShareType) (sharePanic : Bool) (first : Nat)
    : CTable type where
  shareType := shareType
  sharePanic := sharePanic
  nullKeyValue := some first
  defaultStrings := fun field => first + 1 + field

def createPrivate (process : Process type) (t : Nat) : Process type :=
  process.addTable t
    { shareType := .none, sharePanic := false, nullKeyValue := none,
      defaultStrings := fun field => field }

def createMaster (process : Process type) (t share : Nat) (sharePanic : Bool) : Process type :=
  (process.allocateDefaults share).addTable t
    (sharedTable type (.master share) sharePanic process.history.next)

/-- A reader uses the null key value and the default strings of its master, a table of the process
or of another process.
-/
def createReader (process : Process type) (t share : Nat) (master : Option Nat)
    : Option (Process type) :=
  match master with
  | none =>
      some ((process.allocateDefaults share).addTable t
        (sharedTable type (.reader share) false process.history.next))
  | some m =>
      match process.tables m with
      | none => none
      | some table =>
          if table.shareType = .master share then
            some (process.addTable t { table with shareType := .reader share })
          else
            none

end Process

-----------------------------------------------------------------------------------------
-- Runs
-----------------------------------------------------------------------------------------

/-- What a process does with its tables. `room` tells whether the share has memory left. A reader's
master is a table of the process or lives in another process. `find_or_create` and the settings in
the modes NORMAL and NEW are the parts of `set`, `store`, `incr` and the imports; a search sets in
mode NORMAL for `-update`, deletes rows for `-delete`, and makes, sets and deletes comparison rows.
-/
inductive Action (type : RowType) where
  | createPrivate (t : Nat)
  | createMaster (t share : Nat) (sharePanic : Bool)
  | createReader (t share : Nat) (master : Option Nat)
  | findOrCreate (t : Nat) (key : CString) (roomForRow roomForKey : Bool)
  | setKey (t row : Nat) (value : CString) (indexCtl : IndexCtl) (room : Bool)
  | setString (t row : Nat) (field : Fin type.strings) (value : CString) (indexCtl : IndexCtl)
      (room : Bool)
  | delete (t : Nat) (key : CString)
  | searchDelete (t row : Nat)
  | reset (t : Nat)
  | makeComparison (t : Nat)
  | deleteComparison (t row : Nat)

/-- The table an action is on. -/
def Action.table : Action type → Nat
  | .createPrivate t | .createMaster t _ _ | .createReader t _ _ | .findOrCreate t _ _ _
  | .setKey t _ _ _ _ | .setString t _ _ _ _ _ | .delete t _ | .searchDelete t _ | .reset t
  | .makeComparison t | .deleteComparison t _ => t

namespace Process

/-- At the start only the default strings of the program exist. -/
def new (type : RowType) : Process type where
  history := { next := type.strings, region := fun _ => .program, released := [] }
  contents := fun block =>
    if inside : block < type.strings then (type.default ⟨block, inside⟩).getD [] else []
  rows := fun _ => { key := none, strings := fun _ => ⟨none, 0, 0, true⟩ }
  tables := fun _ => none
  llHead := fun _ => []
  keyTable := fun _ => []
  comparisons := []
  savedRow := none
  savedSharedRow := none
  baseCopy := none

/-- The modes that fields of a row are set in: comparison rows in mode PRIVATE, the rows of a table
that is not a reader's in the modes NORMAL and NEW.
-/
def settable (process : Process type) (t : Nat) (table : CTable type) (row : Nat)
    : IndexCtl → Bool
  | .privateRow => (t, row) ∈ process.comparisons
  | .normal | .new => !table.isReader
  | _ => false

/-- An action on a table. -/
def act (process : Process type) (t : Nat) (table : CTable type)
    : Action type → Option (Process type)
  | .findOrCreate _ key roomForRow roomForKey =>
      if table.isReader then none
      else (process.findOrCreate t table key roomForRow roomForKey).map Prod.snd
  | .setKey _ row value indexCtl room =>
      if process.settable t table row indexCtl then
        (process.setKeyField t table row value indexCtl room).map Prod.snd
      else none
  | .setString _ row field value indexCtl room =>
      if process.settable t table row indexCtl then
        (process.setStringField table row field value indexCtl room).map Prod.snd
      else none
  | .delete _ key =>
      if table.isReader then none
      else
        match process.findHashEntry t key with
        | none => some process
        | some row => process.deleteRow t table row .normal
  | .searchDelete _ row =>
      if table.isReader then none else process.deleteRow t table row .normal
  | .reset _ => some (process.reset t table)
  | .makeComparison _ =>
      let (row, made) := process.makeEmptyRow table
      some { made with comparisons := (t, row) :: made.comparisons }
  | .deleteComparison _ row =>
      if (t, row) ∈ process.comparisons then
        (process.deleteRow t table row .privateRow).map fun deleted =>
          { deleted with comparisons := deleted.comparisons.erase (t, row) }
      else none
  | _ => none

/-- Take an action. There is no next state when the action is not possible or the process ends. -/
def step (process : Process type) : Action type → Option (Process type)
  | .createPrivate t =>
      if (process.tables t).isSome then none else some (process.createPrivate t)
  | .createMaster t share sharePanic =>
      if (process.tables t).isSome then none else some (process.createMaster t share sharePanic)
  | .createReader t share master =>
      if (process.tables t).isSome then none else process.createReader t share master
  | action =>
      match process.tables action.table with
      | none => none
      | some table => process.act action.table table action

/-- Whether an action makes a table. -/
def makesTable : Action type → Bool
  | .createPrivate _ | .createMaster _ _ _ | .createReader _ _ _ => true
  | _ => false

/-- Any other action is taken on a table that is there. -/
theorem step_onTable {process process' : Process type} {action : Action type}
    (uses : makesTable action = false) (steps : process.step action = some process')
    : ∃ table, process.tables action.table = some table
      ∧ process.act action.table table action = some process' := by
  unfold step at steps
  split at steps
  · cases uses
  · cases uses
  · cases uses
  · split at steps
    · cases steps
    · next table found => exact ⟨table, found, steps⟩

/-- Take actions one after another. -/
def run (process : Process type) (actions : List (Action type)) : Option (Process type) :=
  actions.foldlM step process

end Process

end SpeedTables.Allocation
