import SpeedTables.Table.Quote
import SpeedTables.Table.Setters

/-! The table commands that create, change and free rows and indexes. -/

namespace SpeedTables

variable {creator : CreatorTable}

-----------------------------------------------------------------------------------------
-- Rows
-----------------------------------------------------------------------------------------

/-- The digits of an unsigned number, as `sprintf` prints them for `%u`. -/
def decimal (value : Nat) : CString :=
  (Nat.toDigits 10 value).map (fun digit => digit.toNat.toUInt8)

/-- The digits of the same 32 bits as `sprintf` prints them for `%d`. -/
def decimalSigned (value : Nat) : CString :=
  if value < 2 ^ 31 then decimal value else 45 :: decimal (2 ^ 32 - value)

/-- The allocations of `find_or_create`. In a shared table one outcome stands for those of
the prepared row and of the key.
-/
def allocateRow (host : Host) (key : CString) : TableM creator Unit := do
  let table ← get
  if table.sharedMaster then
    if ← shmalloc host then
      pure ()
    else if table.sharePanic then
      crash .outOfSharedMemory
    else
      fail (.outOfSharedMemory key)
  else
    pure ()

/-- `find_or_create`: the row of a key, and the index mode for the writes that follow. The
row prepared for the next creation has the next address.
-/
def findOrCreate (host : Host) (key : CString) : TableM creator (RowId × IndexCtl) := do
  allocateRow host key
  let fresh := (← get).nextRow
  let (id, isNew) ← storeHashEntry key fresh creator.init
  if isNew then
    modify (fun table =>
      { table with
        llHead := id :: table.llHead
        count := table.count + 1
        nextRow := table.nextRow + 1 })
    pure (id, .new)
  else
    pure (id, .normal)

/-- Free the memory of a row. -/
def CTable.freeRow (table : CTable creator) (id : RowId) : CTable creator :=
  { table with rows := Function.update table.rows id none }

/-- `delete` of a row that is in the table. -/
def deleteRow (id : RowId) : TableM creator Unit := do
  removeFromAllIndexes id
  unlinkHashEntry id
  modify (CTable.freeRow · id)

/-- `delete_all_rows`. The safe list loop stops before the last row, which stays allocated. -/
def deleteAllRows : TableM creator Unit := do
  let table ← get
  let freed := table.llHead.dropLast.foldl CTable.freeRow table
  set { { freed with llHead := [] }.dropAllIndexes with count := 0, autoRowNumber := 0 }

/-- `set_fieldobj` -/
def setFieldobj (host : Host) (ctl : IndexCtl) (id : RowId) (nocomplain : Bool)
    (fieldObj obj : Obj) : TableM creator Unit :=
  match creator.fieldNumber fieldObj with
  | some field => setField host ctl id field obj
  | none => if nocomplain then pure () else fail (.badField fieldObj)

/-- The loop over the elements of a key-value list. -/
def setPairs (host : Host) (ctl : IndexCtl) (id : RowId) (nocomplain : Bool)
    : List Obj → TableM creator Unit
  | fieldObj :: obj :: rest => do
      onTclError (setFieldobj host ctl id nocomplain fieldObj obj)
        (fun error => fail (.whileProcessingKeyValueList error))
      setPairs host ctl id nocomplain rest
  | _ => pure ()

/-- Insert a row that was just created in the indexes it is not in yet. -/
def finishRow (host : Host) (ctl : IndexCtl) (id : RowId) : TableM creator Unit :=
  if ctl = .new then indexDefaults host id else pure ()

-----------------------------------------------------------------------------------------
-- Set, store and incr
-----------------------------------------------------------------------------------------

/-- The characters of `-nocomplain`. -/
def nocomplainOption : CString :=
  [45, 110, 111, 99, 111, 109, 112, 108, 97, 105, 110]

/-- The option loop of `set` and `store`: options start with a dash. -/
def takeOptions : Bool → List Obj → Except TclError (Bool × List Obj)
  | nocomplain, [] => .ok (nocomplain, [])
  | nocomplain, option :: rest =>
      if option.head? ≠ some 45 then .ok (nocomplain, option :: rest)
      else if option = nocomplainOption then takeOptions true rest
      else .error (.unknownOption option)

/-- The elements of a key-value list, given as one list argument or as arguments. -/
def keyValueList (host : Host) : List Obj → Except TclError (List Obj)
  | [list] =>
      match host.listElements list with
      | some elements => .ok elements
      | none => .error (.whileProcessingKeyValueList (.badList list))
  | arguments => .ok arguments

/-- Stop with the error of a computation on arguments. -/
def orFail {α : Type} : Except TclError α → TableM creator α
  | .ok value => pure value
  | .error error => fail error

/-- The checked key-value list of `set`, `store` and `incr`. -/
def evenKeyValueList (host : Host) (arguments : List Obj) : Except TclError (List Obj) :=
  match keyValueList host arguments with
  | .error error => .error error
  | .ok elements =>
      if elements.length % 2 = 0 then .ok elements else .error .oddKeyValueList

/-- `find_or_create` as the commands call it. -/
def findOrCreateRow (host : Host) (key : CString) : TableM creator (RowId × IndexCtl) :=
  onTclError (findOrCreate host key) (fun error => fail (.whileProcessingKeyValueList error))

/-- `OPT_SET`. The key-value list is taken apart after the row has been created. -/
def setCommand (host : Host) : List Obj → TableM creator Unit
  | [] => fail (.wrongNumArgs "key ?-nocomplain? pairList or key field value ?field value...?")
  | key :: arguments => do
      let (nocomplain, arguments) ← orFail (takeOptions false arguments)
      let (id, ctl) ← findOrCreateRow host key
      let elements ← orFail (evenKeyValueList host arguments)
      setPairs host ctl id nocomplain elements
      finishRow host ctl id

/-- `key_from_keylist` -/
def keyFromKeylist (creator : CreatorTable) : List Obj → Option Obj
  | fieldObj :: obj :: rest =>
      if fieldObj = (creator.fields creator.keyField).name then some obj
      else keyFromKeylist creator rest
  | _ => none

/-- The next automatic key. The counter is an `int` that wraps around. -/
def nextAutoKey (print : Nat → CString) : TableM creator CString := do
  let table ← get
  set { table with autoRowNumber := (table.autoRowNumber + 1) % 2 ^ 32 }
  pure (print table.autoRowNumber)

/-- The checked arguments of `store`. -/
def storeArguments (host : Host) (arguments : List Obj) : Except TclError (Bool × List Obj) :=
  match takeOptions false arguments with
  | .error error => .error error
  | .ok (_, []) =>
      .error (.wrongNumArgs
        "?-nocomplain? pairList or ?-nocomplain? field value ?field value...?")
  | .ok (nocomplain, arguments) =>
      match evenKeyValueList host arguments with
      | .error error => .error error
      | .ok elements => .ok (nocomplain, elements)

/-- The key of a stored row. -/
def storeKey (elements : List Obj) : TableM creator CString :=
  match keyFromKeylist creator elements with
  | some key => pure key
  | none => nextAutoKey decimal

/-- `OPT_STORE` -/
def storeCommand (host : Host) (arguments : List Obj) : TableM creator CString := do
  let (nocomplain, elements) ← orFail (storeArguments host arguments)
  let key ← storeKey elements
  let (id, ctl) ← findOrCreateRow host key
  setPairs host ctl id nocomplain elements
  finishRow host ctl id
  pure key

/-- The loop of `incr` over its pairs, with the values it appends to the result. -/
def incrPairs (host : Host) (ctl : IndexCtl) (id : RowId) : List Obj → TableM creator (List CString)
  | fieldObj :: obj :: rest =>
      match creator.fieldNumber fieldObj with
      | none => fail (.badField fieldObj)
      | some field => do
          onTclError (incrField host ctl id field obj)
            (fun error => fail (.whileProcessingKeyValueList error))
          let row ← inspect (CTable.row · id)
          let values ← incrPairs host ctl id rest
          pure (getString host row field :: values)
  | _ => pure []

/-- The key of an `incr` and the arguments after it, when their number can be right. -/
def incrArguments : List Obj → Except TclError (Obj × List Obj)
  | [] => .error (.wrongNumArgs "key pairList or key field value ?field value...?")
  | key :: arguments =>
      if arguments.length = 1 ∨ arguments.length % 2 = 0 then .ok (key, arguments)
      else .error (.wrongNumArgs "key pairList or key field value ?field value...?")

/-- `OPT_INCR` -/
def incrCommand (host : Host) (arguments : List Obj) : TableM creator (List CString) := do
  let (key, arguments) ← orFail (incrArguments arguments)
  let (id, ctl) ← findOrCreateRow host key
  let elements ← orFail (evenKeyValueList host arguments)
  let values ← incrPairs host ctl id elements
  finishRow host ctl id
  pure values

-----------------------------------------------------------------------------------------
-- Tab-separated lines
-----------------------------------------------------------------------------------------

/-- The options of `read_tabsep` that reading one line uses. -/
structure TabsepOptions (creator : CreatorTable) where
  fieldIds : List (Option creator.Field)
  keyColumn : Option Nat
  separator : CString
  nullString : Option CString
  quoteType : QuoteType
  dirty : Bool

/-- Whether the generator quotes fields of a type. -/
def needsQuoting : CtableType → Bool
  | .fixedstring | .varstring | .char | .tclobj | .key => true
  | _ => false

/-- Move to the column of the given number. -/
def skipColumns (separator : CString) : Nat → CString → Option CString
  | 0, text => some text
  | columns + 1, text =>
      match strstr separator text with
      | some (_, found) => skipColumns separator columns (found.drop separator.length)
      | none => none

/-- The key of a line. -/
def tabsepKey (options : TabsepOptions creator) (column : Nat) (line : CString)
    : Except Fault CString :=
  match skipColumns options.separator column line with
  | none => .ok []
  | some text =>
      let length :=
        match strstr options.separator text with
        | some (before, _) => before.length
        | none => text.length
      match copyDequoted options.quoteType length text with
      | some key => .ok key
      | none => .error .outOfBounds

/-- The text from the next column on, the length of the column, and the columns after it. A
missing column reads as the null string.
-/
def nextColumn (options : TabsepOptions creator) (line : Option CString)
    : CString × Nat × Option CString :=
  match line with
  | none =>
      let text := options.nullString.getD []
      (text, text.length, none)
  | some text =>
      match strstr options.separator text with
      | some (before, found) =>
          (text, before.length, some (found.drop options.separator.length))
      | none => (text, text.length, none)

/-- Whether a column is left unset: it is missing, or the rest of the line starts with the
first character of the null string or equals it.
-/
def columnIsNull (options : TabsepOptions creator) (field : creator.Field)
    (missing : Bool) (text : CString) : Bool :=
  match options.nullString with
  | none => false
  | some nullString =>
      !(creator.fields field).notnull
        && (missing || text.headD 0 == nullString.headD 0 || text == nullString)

/-- The object set from a column. The length of a malformed strict URI is negative. -/
def columnObj (options : TabsepOptions creator) (field : creator.Field) (text : CString)
    (length : Nat) : Except Fault Obj :=
  let value := text.take length
  if needsQuoting (creator.type field) && options.quoteType != .none then
    match copyDequoted options.quoteType value.length value with
    | some obj => .ok obj
    | none => .error .outOfBounds
  else
    .ok value

/-- Set a field from a column, unless the column is null. -/
def setColumn (host : Host) (options : TabsepOptions creator) (ctl : IndexCtl) (id : RowId)
    (missing : Bool) (text : CString) (length : Nat)
    : Option creator.Field → TableM creator Unit
  | none => pure ()
  | some field =>
      if columnIsNull options field missing text then pure ()
      else do
        let obj ← inspect (fun _ => columnObj options field text length)
        setField host ctl id field obj

/-- The column loop of `set_from_tabsep`. The key column has no entry in the field list. -/
def setColumns (host : Host) (options : TabsepOptions creator) (ctl : IndexCtl) (id : RowId)
    : List (Option creator.Field) → Nat → Option CString → TableM creator Unit
  | [], _, _ => pure ()
  | field :: fields, column, line => do
      let isKey := options.keyColumn = some column
      let line := if isKey then (nextColumn options line).2.2 else line
      let column := if isKey then column + 2 else column + 1
      let (text, length, rest) := nextColumn options line
      setColumn host options ctl id line.isNone text length field
      setColumns host options ctl id fields column rest

/-- The key of a line, or the next automatic one. -/
def lineKey (options : TabsepOptions creator) (line : CString) : TableM creator CString :=
  match options.keyColumn with
  | none => nextAutoKey decimalSigned
  | some column => inspect (fun _ => tabsepKey options column line)

/-- The `-dirty` option of `read_tabsep`. -/
def markRead (options : TabsepOptions creator) (id : RowId) : TableM creator Unit :=
  if options.dirty then setDirty id else pure ()

/-- `set_from_tabsep` -/
def setFromTabsep (host : Host) (options : TabsepOptions creator) (line : CString)
    : TableM creator Unit := do
  let key ← lineKey options line
  let (id, ctl) ← findOrCreate host key
  setColumns host options ctl id options.fieldIds 0 (some line)
  markRead options id
  finishRow host ctl id

-----------------------------------------------------------------------------------------
-- Delete, null, reset and index
-----------------------------------------------------------------------------------------

/-- Delete a row and count it out. -/
def discardRow (id : RowId) : TableM creator Unit := do
  deleteRow id
  modify (fun table => { table with count := table.count - 1 })

/-- `OPT_DELETE` -/
def deleteCommand (arguments : List Obj) : TableM creator Bool := do
  let table ← get
  if table.cursors ≠ [] then
    fail .cursorsActive
  else if table.searches ≠ [] then
    fail .insideSearch
  else
    match arguments with
    | [key] =>
        match ← inspect (CTable.findHashEntry · key) with
        | none => pure false
        | some id => do
            discardRow id
            pure true
    | _ => fail (.wrongNumArgs "field")

/-- The field loop of `null`. -/
def nullFields (host : Host) (id : RowId) : List Obj → TableM creator Unit
  | [] => pure ()
  | fieldObj :: rest =>
      match creator.fieldNumber fieldObj with
      | none => fail (.badField fieldObj)
      | some field => do
          setNull host id field
          nullFields host id rest

/-- `OPT_NULL` with fields -/
def nullCommand (host : Host) : List Obj → TableM creator Unit
  | [] => fail (.wrongNumArgs "key ?field...?")
  | key :: fieldObjs => do
      match ← inspect (CTable.findHashEntry · key) with
      | none => fail .noSuchKey
      | some id => nullFields host id fieldObjs

/-- `OPT_RESET` -/
def resetCommand : TableM creator Unit := do
  deleteAllRows
  modify (fun table => { table with keyTable := table.keyTable.init })

/-- `destroy_ctable`: the rows are freed and the table command is gone. -/
def destroyCtable : TableM creator Unit := do
  deleteAllRows
  modify (fun table => { table with destroyed := true })

/-- `SUBOPT_CREATE` -/
def indexCreateCommand (host : Host) (arguments : List Obj) : TableM creator Unit :=
  match arguments with
  | [] => fail (.wrongNumArgs "fieldName ?depth?")
  | _ :: _ :: _ :: _ => fail (.wrongNumArgs "fieldName ?depth?")
  | fieldObj :: depthObj =>
      match creator.fieldNumber fieldObj with
      | none => fail (.badField fieldObj)
      | some field =>
          match depthObj with
          | [] => createIndex host field 20
          | obj :: _ =>
              match host.getInt obj with
              | none => fail (.badValue .int obj)
              | some depth => createIndex host field depth

/-- `SUBOPT_DROP` -/
def indexDropCommand (arguments : List Obj) : TableM creator Unit :=
  match arguments with
  | [fieldObj] =>
      match creator.fieldNumber fieldObj with
      | none => fail (.badField fieldObj)
      | some field => modify (fun table => table.dropIndex field)
  | _ => fail (.wrongNumArgs "fieldName")

end SpeedTables
