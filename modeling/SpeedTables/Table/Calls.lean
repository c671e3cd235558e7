import SpeedTables.Table.Commands

/-! The setter calls that a command makes, each with the state it starts in. -/

namespace SpeedTables

variable {creator : CreatorTable}

/-- A call of one of the generated setters. -/
inductive Write (creator : CreatorTable) where
  | set (field : creator.Field) (obj : Obj)
  | incr (field : creator.Field) (obj : Obj)
  | null (field : creator.Field)

/-- The field a setter writes. -/
def Write.field : Write creator → creator.Field
  | .set field _ => field
  | .incr field _ => field
  | .null field => field

/-- The setters: the generated `set`, `incr` and `set_null`. -/
def Write.run (host : Host) (ctl : IndexCtl) (id : RowId) : Write creator → TableM creator Unit
  | .set field obj => setField host ctl id field obj
  | .incr field obj => incrField host ctl id field obj
  | .null field => setNull host id field

/-- A setter call with its index mode, its row, and the table it starts in. -/
structure Call (creator : CreatorTable) where
  ctl : IndexCtl
  id : RowId
  write : Write creator
  table : CTable creator

/-- Run the setter of a call. -/
def Call.run (host : Host) (call : Call creator) : TableM creator Unit :=
  call.write.run host call.ctl call.id

/-- The calls that follow when a computation ends with a value. -/
def callsAfter {α : Type} (result : EStateM.Result Stop (CTable creator) α)
    (next : α → CTable creator → List (Call creator)) : List (Call creator) :=
  match result with
  | .ok value table => next value table
  | .error _ _ => []

/-- One call, and the calls that follow when it ends without a stop. -/
def callThen (host : Host) (ctl : IndexCtl) (id : RowId) (write : Write creator)
    (next : CTable creator → List (Call creator)) (table : CTable creator)
    : List (Call creator) :=
  { ctl := ctl, id := id, write := write, table := table }
    :: callsAfter (write.run host ctl id table) (fun _ => next)

-----------------------------------------------------------------------------------------
-- The loops over fields
-----------------------------------------------------------------------------------------

/-- The calls of the loop of `set` and `store`. -/
def setPairsCalls (host : Host) (ctl : IndexCtl) (id : RowId) (nocomplain : Bool)
    : List Obj → CTable creator → List (Call creator)
  | fieldObj :: obj :: rest, table =>
      match creator.fieldNumber fieldObj with
      | some field =>
          callThen host ctl id (.set field obj) (setPairsCalls host ctl id nocomplain rest) table
      | none => if nocomplain then setPairsCalls host ctl id nocomplain rest table else []
  | _, _ => []

/-- The calls of the loop of `incr`, which reads the row after each. -/
def incrPairsCalls (host : Host) (ctl : IndexCtl) (id : RowId)
    : List Obj → CTable creator → List (Call creator)
  | fieldObj :: obj :: rest, table =>
      match creator.fieldNumber fieldObj with
      | some field =>
          callThen host ctl id (.incr field obj)
            (fun table =>
              callsAfter (inspect (CTable.row · id) table) (fun _ => incrPairsCalls host ctl id rest))
            table
      | none => []
  | _, _ => []

/-- The calls of the loop of `null`. -/
def nullFieldsCalls (host : Host) (id : RowId) : List Obj → CTable creator → List (Call creator)
  | fieldObj :: rest, table =>
      match creator.fieldNumber fieldObj with
      | some field => callThen host .normal id (.null field) (nullFieldsCalls host id rest) table
      | none => []
  | [], _ => []

/-- The call for one column of a tab-separated line. -/
def setColumnCalls (options : TabsepOptions creator) (ctl : IndexCtl) (id : RowId)
    (missing : Bool) (text : CString) (length : Nat)
    : Option creator.Field → CTable creator → List (Call creator)
  | none, _ => []
  | some field, table =>
      if columnIsNull options field missing text then []
      else
        match columnObj options field text length with
        | .ok obj => [{ ctl := ctl, id := id, write := .set field obj, table := table }]
        | .error _ => []

/-- The calls of the column loop of a tab-separated line. -/
def setColumnsCalls (host : Host) (options : TabsepOptions creator) (ctl : IndexCtl) (id : RowId)
    : List (Option creator.Field) → Nat → Option CString → CTable creator → List (Call creator)
  | [], _, _, _ => []
  | field :: fields, column, line, table =>
      let isKey := options.keyColumn = some column
      let line := if isKey then (nextColumn options line).2.2 else line
      let column := if isKey then column + 2 else column + 1
      let (text, length, rest) := nextColumn options line
      setColumnCalls options ctl id line.isNone text length field table
        ++ callsAfter (setColumn host options ctl id line.isNone text length field table)
            (fun _ => setColumnsCalls host options ctl id fields column rest)

-----------------------------------------------------------------------------------------
-- The commands
-----------------------------------------------------------------------------------------

/-- The calls of a command on the row of a key, which is created first if there is none. -/
def rowCalls (result : EStateM.Result Stop (CTable creator) (RowId × IndexCtl))
    (next : IndexCtl → RowId → CTable creator → List (Call creator)) : List (Call creator) :=
  callsAfter result (fun row => next row.2 row.1)

/-- The calls of `set`. -/
def setCommandCalls (host : Host) (table : CTable creator) : List Obj → List (Call creator)
  | [] => []
  | key :: arguments =>
      match takeOptions false arguments with
      | .error _ => []
      | .ok (nocomplain, arguments) =>
          rowCalls (findOrCreateRow host key table) (fun ctl id created =>
            match evenKeyValueList host arguments with
            | .error _ => []
            | .ok elements => setPairsCalls host ctl id nocomplain elements created)

/-- The calls of `store`. -/
def storeCommandCalls (host : Host) (table : CTable creator) (arguments : List Obj)
    : List (Call creator) :=
  match storeArguments host arguments with
  | .error _ => []
  | .ok (nocomplain, elements) =>
      callsAfter (storeKey elements table) (fun key table =>
        rowCalls (findOrCreateRow host key table) (fun ctl id =>
          setPairsCalls host ctl id nocomplain elements))

/-- The calls of `incr`. -/
def incrCommandCalls (host : Host) (table : CTable creator) (arguments : List Obj)
    : List (Call creator) :=
  match incrArguments arguments with
  | .error _ => []
  | .ok (key, arguments) =>
      rowCalls (findOrCreateRow host key table) (fun ctl id created =>
        match evenKeyValueList host arguments with
        | .error _ => []
        | .ok elements => incrPairsCalls host ctl id elements created)

/-- The calls of a line of `read_tabsep`. -/
def setFromTabsepCalls (host : Host) (options : TabsepOptions creator) (line : CString)
    (table : CTable creator) : List (Call creator) :=
  callsAfter (lineKey options line table) (fun key table =>
    rowCalls (findOrCreate host key table) (fun ctl id =>
      setColumnsCalls host options ctl id options.fieldIds 0 (some line)))

/-- The calls of `null`. -/
def nullCommandCalls (host : Host) (table : CTable creator) : List Obj → List (Call creator)
  | [] => []
  | key :: fieldObjs =>
      match table.findHashEntry key with
      | .ok (some id) => nullFieldsCalls host id fieldObjs table
      | _ => []

end SpeedTables
