import SpeedTables.Lib.SkipList
import SpeedTables.Table.Values

/-! The state of a table, the ways a command stops, and the host library behind it. -/

namespace SpeedTables

open Lib (Node SkipList)

-----------------------------------------------------------------------------------------
-- Errors and faults
-----------------------------------------------------------------------------------------

/-- A `TCL_ERROR` result, by the place that leaves it. -/
inductive TclError where
  -- errors of the Tcl library
  | wrongNumArgs (usage : String)
  | badOption (kind : String) (option : CString)
  | badField (name : CString)
  | badList (list : Obj)
  | badValue (type : CtableType) (obj : Obj)
  | codeBody
  -- errors of the table code
  | unknownOption (option : CString)
  | oddKeyValueList
  | whileProcessingKeyValueList (cause : TclError)
  | noSuchKey
  | whileConverting (cause : TclError) (field : CString)
  | whileConvertingIncrement (cause : TclError) (field : CString)
  | expectedAddress (obj : Obj) (field : CString)
  | expectedMac (obj : Obj) (field : CString)
  | duplicateKey (key : CString)
  | duplicateKeyAfter (key : CString)
  | uniqueCheckFailed (field value : CString)
  | outOfMemory (field : CString)
  | outOfSharedMemoryKey
  | outOfSharedMemory (key : CString)
  | incrNonNumeric (field : CString)
  | nullNonNull (field : CString)
  | notIndexable (field : CString)
  | whileCreatingIndex (cause : TclError)
  | noIndex
  | notIndexed
  | cursorExists (command : String)
  | cursorsActive
  | insideSearch
  | freeMemoryLow
  | freeMemoryLowForIndex
  | onlyTwoTerms
  | termArguments (term : CString) (arguments : String)
  | notAStringField (field term : CString)
  | parsingUpdate (cause : TclError)
  | oddUpdateList
  | updateIncomplete (cause : TclError)
  | noDeleteInNestedSearch
  | infiniteSearchLoop

/-- The interpreter result of an error, as the source composes it around the texts of the
Tcl library. `text` renders the bytes of a string.
-/
def TclError.message (library : TclError → String) (text : CString → String)
    : TclError → String
  | .unknownOption option => "Unknown option " ++ text option
  | .oddKeyValueList => "key-value list must contain an even number of elements"
  | .whileProcessingKeyValueList cause =>
      cause.message library text ++ " while processing key-value list"
  | .noSuchKey => "no such key"
  | .whileConverting cause field =>
      cause.message library text ++ " while converting " ++ text field
  | .whileConvertingIncrement cause field =>
      cause.message library text ++ " while converting " ++ text field ++ " increment amount"
  | .expectedAddress obj field =>
      "expected IP address but got \"" ++ text obj ++ "\" parsing field \"" ++ text field ++ "\""
  | .expectedMac obj field =>
      "expected MAC address but got \"" ++ text obj ++ "\" parsing field \"" ++ text field ++ "\""
  | .duplicateKey key => "Duplicate key '" ++ text key ++ "' when setting key field"
  | .duplicateKeyAfter key => "Duplicate key '" ++ text key ++ "' after setting key field!"
  | .uniqueCheckFailed field value =>
      "unique check failed for field \"" ++ text field ++ "\", value \"" ++ text value ++ "\""
  | .outOfMemory field => " out of memory allocating space for " ++ text field
  | .outOfSharedMemoryKey => "out of shared memory when setting key field"
  | .outOfSharedMemory key => "out of shared memory for " ++ text key
  | .incrNonNumeric field => "can't incr non-numeric field '" ++ text field ++ "'"
  | .nullNonNull field => "can't set non-null field \"" ++ text field ++ "\" to be null"
  | .notIndexable field =>
      "can't create an index on field '" ++ text field
        ++ "' that hasn't been defined as having an index"
  | .whileCreatingIndex cause => cause.message library text ++ " while creating index"
  | .noIndex => "that field does not have an index"
  | .notIndexed => "that field isn't indexed"
  | .cursorExists command =>
      "Command '" ++ command ++ "' is not possible while a cursor exists on the table."
  | .cursorsActive => "Can not delete while cursors are active."
  | .insideSearch => "Can not delete from inside search."
  | .freeMemoryLow => "Free shared memory low"
  | .freeMemoryLowForIndex => "Free shared memory low."
  | .onlyTwoTerms =>
      "false, true, null and notnull search expressions must have only two fields"
  | .termArguments term arguments =>
      "term \"" ++ text term ++ "\" require " ++ arguments
  | .notAStringField field term =>
      "term \"" ++ text field ++ "\" must be a string type for \"" ++ text term ++ "\" operation"
  | .parsingUpdate cause => cause.message library text ++ " parsing argument to -update"
  | .oddUpdateList => "-update list must contain an even number of elements"
  | .updateIncomplete cause => cause.message library text ++ " (update may be incomplete)"
  | .noDeleteInNestedSearch => "Can not delete in nested search."
  | .infiniteSearchLoop => "infinite search loop"
  | error => library error

/-- A `Tcl_Panic`, undefined behaviour, or a loop that never ends: the process is lost. -/
inductive Fault where
  | doubleInsert (field : CString)
  | insertingTwice
  | removingUnlisted
  | nullPointer
  | useAfterFree
  | outOfBounds
  | malformedChain
  | endlessLoop
  | integerOverflow
  | outOfSharedMemory
  | unimplementedComparison
  deriving DecidableEq

/-- How a command stops before its end. -/
inductive Stop where
  | tcl (error : TclError)
  | fault (fault : Fault)

-----------------------------------------------------------------------------------------
-- The host library
-----------------------------------------------------------------------------------------

/-- The parts of the Tcl and C libraries the table calls: conversions from and to strings,
list parsing, floating-point arithmetic, glob matching, and the outcomes of the random bit
stream, of shared-memory allocation and of the free-memory test, in the order asked for.
-/
structure Host where
  getBoolean : Obj → Option Bool
  getInt : Obj → Option Int
  getLong : Obj → Option Int
  getWide : Obj → Option Int
  getDouble : Obj → Option CDouble
  toFloat : CDouble → CDouble
  addDouble : CDouble → Int → CDouble
  addFloat : CDouble → Int → CDouble
  inetAton : CString → Option (List UInt8)
  etherAton : CString → Option (List UInt8)
  listElements : Obj → Option (List Obj)
  format : (type : CtableType) → Storage type → CString
  stringCaseMatch : (string pattern : CString) → (nocase : Bool) → Bool
  uninitialized : (type : CtableType) → Storage type
  zeroBits : Nat → Nat
  shmalloc : Nat → Bool
  freeMemoryLow : Nat → Bool

-----------------------------------------------------------------------------------------
-- Table state
-----------------------------------------------------------------------------------------

/-- A row's address. Freed addresses are not handed out again. -/
abbrev RowId := Nat

/-- The address of a skip-list node. -/
abbrev NodeId := Nat

/-- `ctable_HashTable`, with the `nextPtr` and `hash` of the entries embedded in rows. -/
structure HashTable where
  buckets : Nat → Option RowId
  next : RowId → Option RowId
  hash : RowId → UInt32
  numBuckets : Nat
  numEntries : Int
  rebuildSize : Nat
  downShift : Nat
  mask : Nat

/-- A cursor: its command name and the rows it still holds. -/
structure Cursor where
  name : CString
  tranTable : List RowId

/-- `struct CTable` with its rows. `links field row` is the node whose bucket list holds
the row when the row's `_ll_nodes[index].prev` is not NULL, and `lastNext field row` the
`next` pointer left in a row that is in no bucket list. `searches` lists the `searchField`
of each active search, innermost first.
-/
structure CTable (creator : CreatorTable) where
  rows : RowId → Option (Row creator)
  nextRow : RowId
  llHead : List RowId
  keyTable : HashTable
  skipLists : creator.Field → Option (SkipList RowId)
  links : creator.Field → RowId → Option NodeId
  lastNext : creator.Field → RowId → Option RowId
  nextNode : NodeId
  count : Int
  autoRowNumber : Nat
  sharedMaster : Bool
  sharePanic : Bool
  searches : List (Option creator.Field)
  cursors : List Cursor
  destroyed : Bool
  draws : Nat
  allocations : Nat
  memoryTests : Nat

/-- A computation of the table code. A stop keeps the state it happened in. -/
abbrev TableM (creator : CreatorTable) (α : Type) := EStateM Stop (CTable creator) α

/-- The index mode of a write to a row of the table: `CTABLE_INDEX_NORMAL` for an existing
row and `CTABLE_INDEX_NEW` for one being created.
-/
inductive IndexCtl where
  | normal
  | new
  deriving DecidableEq, Repr

-----------------------------------------------------------------------------------------
-- Access to the state
-----------------------------------------------------------------------------------------

variable {creator : CreatorTable}

/-- Stop with a Tcl error. -/
def fail {α : Type} (error : TclError) : TableM creator α :=
  throw (.tcl error)

/-- Stop with a fault. -/
def crash {α : Type} (fault : Fault) : TableM creator α :=
  throw (.fault fault)

/-- Run a computation, and a handler in the state it left if it ends with a Tcl error. -/
def onTclError {α : Type} (action : TableM creator α) (handler : TclError → TableM creator α)
    : TableM creator α := fun table =>
  match action table with
  | .ok value table => .ok value table
  | .error (.tcl error) table => handler error table
  | .error (.fault fault) table => .error (.fault fault) table

/-- Run a state-reading computation that may fault. -/
def inspect {α : Type} (read : CTable creator → Except Fault α) : TableM creator α := do
  match read (← get) with
  | .ok value => pure value
  | .error fault => crash fault

/-- Dereference a row pointer. -/
def CTable.row (table : CTable creator) (id : RowId) : Except Fault (Row creator) :=
  match table.rows id with
  | some row => .ok row
  | none => .error .useAfterFree

/-- Replace the contents of a row. -/
def CTable.putRow (table : CTable creator) (id : RowId) (row : Row creator) : CTable creator :=
  { table with rows := Function.update table.rows id (some row) }

/-- `shmalloc`: the next allocation's outcome. -/
def shmalloc (host : Host) : TableM creator Bool := do
  let table ← get
  set { table with allocations := table.allocations + 1 }
  pure (host.shmalloc table.allocations)

/-- `get_string`: the string representation of a field. -/
def getString (host : Host) (row : Row creator) (field : creator.Field) : CString :=
  if field = creator.keyField then
    row.keyString
  else if !(creator.fields field).notnull && (row.cells field).isNull then
    creator.nullValue
  else
    host.format (creator.type field) (row.cells field).value

end SpeedTables
