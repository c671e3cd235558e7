import SpeedTables.Search.Frame

/-! Scripts on one table: commands, and the searches and loops whose code bodies run them. -/

namespace SpeedTables

variable {creator : CreatorTable}

-----------------------------------------------------------------------------------------
-- Commands on indexes and cursors
-----------------------------------------------------------------------------------------

/-- The field of the index commands that take just one. -/
def indexField (creator : CreatorTable) : List Obj → Except TclError creator.Field
  | [fieldObj] =>
      match creator.fieldNumber fieldObj with
      | some field => .ok field
      | none => .error (.badField fieldObj)
  | _ => .error (.wrongNumArgs "fieldName")

/-- `ctable_ListIndex`: walk the nodes to the end, which is where the position stays. -/
def listIndex (host : Host) (field : creator.Field) : TableM creator (List CString) := do
  let table ← get
  match table.skipLists field with
  | none => pure []
  | some skip => do
      resetCurl field skip
      let values ← skip.nodes.mapM (fun node =>
        match node.bucket with
        | [] => crash .nullPointer
        | first :: _ => do
            let row ← inspect (CTable.row · first)
            pure (getString host row field))
      modify (CTable.setCurl · field none)
      pure values

/-- `ctable_LappendIndexLowAndHi`: the strings of the first and the last node, where the
position stays.
-/
def lappendIndexLowAndHi (host : Host) (field : creator.Field) : TableM creator (List CString) := do
  let table ← get
  match table.skipLists field with
  | none => fail .notIndexed
  | some skip => do
      resetCurl field skip
      match skip.nodes.head?, skip.nodes.getLast? with
      | some first, some last =>
          match first.bucket, last.bucket with
          | low :: _, high :: _ => do
              let lowRow ← inspect (CTable.row · low)
              modify (CTable.setCurl · field (some last.id))
              let highRow ← inspect (CTable.row · high)
              pure [getString host lowRow field, getString host highRow field]
          | _, _ => crash .nullPointer
      | _, _ => pure []

/-- `ctable_DestroyCursor` -/
def CTable.destroyCursor (table : CTable creator) (name : CString) : CTable creator :=
  { table with cursors := table.cursors.filter (fun cursor => cursor.name ≠ name) }

-----------------------------------------------------------------------------------------
-- Commands
-----------------------------------------------------------------------------------------

/-- The table commands that change or move something, apart from searches and loops, with
their arguments. `readTabsep` is one line of a file, and `commandDeleted` the deletion
or renaming of the table command.
-/
inductive Command (creator : CreatorTable) where
  | set (arguments : List Obj)
  | store (arguments : List Obj)
  | incr (arguments : List Obj)
  | null (arguments : List Obj)
  | readTabsep (options : TabsepOptions creator) (line : CString)
  | delete (arguments : List Obj)
  | reset
  | destroy
  | indexCreate (arguments : List Obj)
  | indexDrop (arguments : List Obj)
  | indexList (arguments : List Obj)
  | indexSpan (arguments : List Obj)
  | cursorDestroy (name : CString)
  | cursorsDestroy
  | commandDeleted

/-- Refuse a command that is not safe with cursors. -/
def refuseCursors (command : String) (action : TableM creator Unit) : TableM creator Unit := do
  let table ← get
  if table.cursors ≠ [] then fail (.cursorExists command) else action

/-- Refuse a command that may allocate while a shared table is low on memory. -/
def checkMemory {α : Type} (host : Host) (error : TclError) (action : TableM creator α)
    : TableM creator α := do
  let table ← get
  if table.sharedMaster then
    set { table with memoryTests := table.memoryTests + 1 }
    if host.freeMemoryLow table.memoryTests then fail error else action
  else
    action

/-- Run a command for its effect. -/
def discard {α : Type} (action : TableM creator α) : TableM creator Unit := do
  let _ ← action
  pure ()

/-- `ObjCmd`, with its checks before the command. The deletion of the table command runs
`cmdDeleteProc`, and a cursor is destroyed through its own command.
-/
def Command.run (host : Host) : Command creator → TableM creator Unit
  | .set arguments =>
      refuseCursors "set" (checkMemory host .freeMemoryLow (setCommand host arguments))
  | .store arguments =>
      refuseCursors "store"
        (checkMemory host .freeMemoryLow (discard (storeCommand host arguments)))
  | .incr arguments =>
      refuseCursors "incr"
        (checkMemory host .freeMemoryLow (discard (incrCommand host arguments)))
  | .null arguments => refuseCursors "null" (nullCommand host arguments)
  | .readTabsep options line => refuseCursors "read_tabsep" (setFromTabsep host options line)
  | .delete arguments => refuseCursors "delete" (discard (deleteCommand arguments))
  | .reset => refuseCursors "reset" resetCommand
  | .destroy => refuseCursors "destroy" destroyCtable
  | .indexCreate arguments =>
      refuseCursors "index"
        (checkMemory host .freeMemoryLowForIndex (indexCreateCommand host arguments))
  | .indexDrop arguments => refuseCursors "index" (indexDropCommand arguments)
  | .indexList arguments =>
      refuseCursors "index" (do
        let field ← orFail (indexField creator arguments)
        discard (listIndex host field))
  | .indexSpan arguments =>
      refuseCursors "index" (do
        let field ← orFail (indexField creator arguments)
        discard (lappendIndexLowAndHi host field))
  | .cursorDestroy name => modify (CTable.destroyCursor · name)
  | .cursorsDestroy => modify (fun table => { table with cursors := [] })
  | .commandDeleted => destroyCtable

-----------------------------------------------------------------------------------------
-- The foreach loop
-----------------------------------------------------------------------------------------

/-- A `foreach` loop in progress: its pattern and its `ctable_HashSearch`. -/
structure ForeachFrame where
  pattern : Option CString
  nextIndex : Nat
  nextEntry : Option RowId

/-- The next entry of `ctable_NextHashEntry`, with the number of buckets it has read. -/
def HashTable.nextHashEntry (table : HashTable) (frame : ForeachFrame) : Option (RowId × Nat) :=
  match frame.nextEntry with
  | some entry => some (entry, frame.nextIndex)
  | none =>
      ((List.range table.numBuckets).drop frame.nextIndex).findSome? (fun index =>
        (table.buckets index).map (fun entry => (entry, index + 1)))

/-- A step of a `foreach` loop: it goes on, waits for its code body, or ends. -/
inductive ForeachStep where
  | next (frame : ForeachFrame)
  | body (frame : ForeachFrame)
  | finished (error : Option TclError)

/-- One round of a `foreach` loop. -/
def ForeachFrame.advance (frame : ForeachFrame) (host : Host) : TableM creator ForeachStep := do
  let table ← get
  match table.keyTable.nextHashEntry frame with
  | none => pure (.finished none)
  | some (entry, index) => do
      let row ← inspect (CTable.row · entry)
      let next := { frame with nextIndex := index, nextEntry := table.keyTable.next entry }
      match frame.pattern with
      | none => pure (.body next)
      | some pattern =>
          if host.stringCaseMatch row.keyString pattern true then pure (.body next)
          else pure (.next next)

/-- The code body of a `foreach` loop ends with a completion code. -/
def ForeachFrame.resume (frame : ForeachFrame) : Status → ForeachStep
  | .ok => .next frame
  | .continue => .next frame
  | .break => .finished none
  | .return => .finished none
  | .error error => .finished (some error)

-----------------------------------------------------------------------------------------
-- Sessions
-----------------------------------------------------------------------------------------

/-- A search or a `foreach` loop in progress. -/
inductive Task (creator : CreatorTable) where
  | search (frame : SearchFrame creator)
  | foreach (frame : ForeachFrame)

/-- A task, and whether its code body is running. -/
structure Activity (creator : CreatorTable) where
  task : Task creator
  waiting : Bool

/-- A table with the tasks in progress on it, innermost first. -/
structure Session (creator : CreatorTable) where
  table : CTable creator
  stack : List (Activity creator)

/-- What happens next in a script: a command, a new task, a step of the innermost task, or
the end of its code body.
-/
inductive Event (creator : CreatorTable) where
  | command (command : Command creator)
  | search (request : SearchRequest creator)
  | foreach (pattern : Option CString)
  | advance
  | bodyReturn (status : Status)

/-- The outcome of an event: a new session with the error reported, if any, the loss of the
process, or nothing because the event cannot happen then.
-/
inductive Outcome (creator : CreatorTable) where
  | moved (session : Session creator) (error : Option TclError)
  | lost (fault : Fault)
  | unavailable

/-- Whether the script is at a place where commands run: outside of all tasks, or in the
code body of the innermost one.
-/
def Session.scripted (session : Session creator) : Bool :=
  match session.stack with
  | [] => true
  | activity :: _ => activity.waiting

/-- The end of the innermost search takes it off the chain of active searches. -/
def CTable.popSearch (table : CTable creator) : CTable creator :=
  { table with searches := table.searches.tail }

/-- The error of a search's result. -/
def SearchResult.reported (result : SearchResult) : Option TclError :=
  match result with
  | .done _ _ => none
  | .error cause => some cause

/-- The outcome of a command. -/
def Session.afterCommand (stack : List (Activity creator))
    : EStateM.Result Stop (CTable creator) Unit → Outcome creator
  | .ok _ table => .moved { table := table, stack := stack } none
  | .error (.tcl error) table => .moved { table := table, stack := stack } (some error)
  | .error (.fault fault) _ => .lost fault

/-- The outcome of a step of the innermost search, above the tasks around it. -/
def Session.afterSearch (stack : List (Activity creator))
    : EStateM.Result Stop (CTable creator) (FrameStep creator) → Outcome creator
  | .ok (.next frame) table =>
      .moved { table := table, stack := { task := .search frame, waiting := false } :: stack } none
  | .ok (.body frame) table =>
      .moved { table := table, stack := { task := .search frame, waiting := true } :: stack } none
  | .ok (.finished result _) table =>
      .moved { table := table.popSearch, stack := stack } result.reported
  | .error (.tcl error) table =>
      .moved { table := table.popSearch, stack := stack } (some error)
  | .error (.fault fault) _ => .lost fault

/-- The outcome of the start of a search. One that ends at once was never active. -/
def Session.afterStart (stack : List (Activity creator))
    : EStateM.Result Stop (CTable creator) (FrameStep creator) → Outcome creator
  | .ok (.finished result _) table => .moved { table := table, stack := stack } result.reported
  | .error (.tcl error) table => .moved { table := table, stack := stack } (some error)
  | result => afterSearch stack result

/-- The outcome of a step of a `foreach` loop. -/
def Session.afterForeach (stack : List (Activity creator)) (table : CTable creator)
    : ForeachStep → Outcome creator
  | .next frame =>
      .moved { table := table, stack := { task := .foreach frame, waiting := false } :: stack } none
  | .body frame =>
      .moved { table := table, stack := { task := .foreach frame, waiting := true } :: stack } none
  | .finished error => .moved { table := table, stack := stack } error

/-- The outcome of a round of a `foreach` loop. -/
def Session.afterRound (stack : List (Activity creator))
    : EStateM.Result Stop (CTable creator) ForeachStep → Outcome creator
  | .ok step table => afterForeach stack table step
  | .error (.tcl error) table => .moved { table := table, stack := stack } (some error)
  | .error (.fault fault) _ => .lost fault

/-- One event of a script. The commands and tasks of a destroyed table are gone. -/
def Session.step (host : Host) (session : Session creator) : Event creator → Outcome creator
  | .command command =>
      if session.scripted && !session.table.destroyed then
        afterCommand session.stack (command.run host session.table)
      else .unavailable
  | .search request =>
      if session.scripted && !session.table.destroyed then
        afterStart session.stack
          (checkMemory host .freeMemoryLow (startSearch host request) session.table)
      else .unavailable
  | .foreach pattern =>
      if session.scripted && !session.table.destroyed then
        afterForeach session.stack session.table
          (.next { pattern := pattern, nextIndex := 0, nextEntry := none })
      else .unavailable
  | .advance =>
      match session.stack with
      | { task := .search frame, waiting := false } :: rest =>
          afterSearch rest (frame.advance host session.table)
      | { task := .foreach frame, waiting := false } :: rest =>
          afterRound rest (frame.advance host session.table)
      | _ => .unavailable
  | .bodyReturn status =>
      match session.stack with
      | { task := .search frame, waiting := true } :: rest =>
          afterSearch rest (frame.resume status session.table)
      | { task := .foreach frame, waiting := true } :: rest =>
          afterForeach rest session.table (frame.resume status)
      | _ => .unavailable

end SpeedTables
