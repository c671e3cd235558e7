import SpeedTables.Search.Walk
import SpeedTables.Table.Commands

/-! One search in progress: row tests, buffering, actions and the final transaction. -/

namespace SpeedTables

variable {creator : CreatorTable}

-----------------------------------------------------------------------------------------
-- Sorting
-----------------------------------------------------------------------------------------

/-- The comparison of the generated `sort_compare` for one field, in ascending order. The
null flag of a varstring is not looked at, and its NULL pointer sorts low.
-/
def sortCompareStorage (width : Nat)
    : (type : CtableType) → Cell type → Cell type → Ordering
  | .varstring, left, right =>
      compareOn VarString.text left.value right.value
  | .fixedstring, left, right => strncmp width left.value right.value
  | type, left, right => compareStorage width type left.value right.value

/-- The comparison of two rows on one sort field, in ascending order. -/
def sortCompareField (field : creator.Field) (left right : Row creator) : Ordering :=
  let info := creator.fields field
  if field = creator.keyField then
    compareString left.keyString right.keyString
  else if info.notnull ∨ info.type = .varstring ∨ info.type = .tclobj then
    sortCompareStorage info.length info.type (left.cells field) (right.cells field)
  else
    compareNullsHigh Cell.isNull (sortCompareStorage info.length info.type)
      (left.cells field) (right.cells field)

/-- The generated `sort_compare` -/
def sortCompare : List (creator.Field × Bool) → Row creator → Row creator → Ordering
  | [], _, _ => .eq
  | (field, descending) :: rest, left, right =>
      let ordering := sortCompareField field left right
      match if descending then ordering.swap else ordering with
      | .eq => sortCompare rest left right
      | ordering => ordering

/-- `ctable_qsort_r` on the collected rows. Rows that compare equal may leave the C sort in
another order.
-/
def CTable.sortRows (table : CTable creator) (sort : List (creator.Field × Bool))
    (rows : List RowId) : List RowId :=
  rows.mergeSort (fun left right =>
    match table.rows left, table.rows right with
    | some leftRow, some rightRow => sortCompare sort leftRow rightRow != .gt
    | _, _ => true)

-----------------------------------------------------------------------------------------
-- The state of a search
-----------------------------------------------------------------------------------------

/-- What a search does next: take a step of its walk, take the deferred action on the row of
the given index, or run its transaction. While a code body runs the search waits in the
same phase.
-/
inductive Phase where
  | walking (pos : WalkPos)
  | acting (index : Nat)
  | transacting (returned : Bool)
  deriving DecidableEq

/-- What a search has done: the rows its walk came to, the matching ones in the order of the
actions, the rows the action was taken on, the rows of its transaction or cursor, and
whether the limit cut its walk short.
-/
structure SearchRecord where
  visited : List RowId
  matched : List RowId
  acted : List RowId
  transacted : List RowId
  cut : Bool
  deriving DecidableEq

/-- The record of a search that has done nothing yet. -/
def SearchRecord.empty : SearchRecord where
  visited := []
  matched := []
  acted := []
  transacted := []
  cut := false

/-- A `CTableSearch` in progress. `capacity` is the number of entries allocated for the
buffered rows.
-/
structure SearchFrame (creator : CreatorTable) where
  request : SearchRequest creator
  plan : Plan creator
  sort : List (creator.Field × Bool)
  buffering : Buffering
  capacity : Int
  phase : Phase
  matchCount : Nat
  offsetLimit : Nat
  tranTable : List RowId
  record : SearchRecord

/-- How a search ends: with a completion code and its final count, or with an error. -/
inductive SearchResult where
  | done (returned : Bool) (matchCount : Nat)
  | error (error : TclError)

/-- A step of a search: it goes on, waits for its code body, or ends. -/
inductive FrameStep (creator : CreatorTable) where
  | next (frame : SearchFrame creator)
  | body (frame : SearchFrame creator)
  | finished (result : SearchResult) (record : SearchRecord)

-----------------------------------------------------------------------------------------
-- Row tests
-----------------------------------------------------------------------------------------

/-- The filters of a search, up to the first that does not pass the row. -/
def runFilters (row : Row creator) : List (Row creator → Status) → Status
  | [] => .ok
  | filter :: rest =>
      match filter row with
      | .ok => runFilters row rest
      | status => status

/-- The tests of `ctable_SearchCompareRow`: the key pattern, the filters, and the components. -/
def SearchRequest.testRow (request : SearchRequest creator) (host : Host)
    (alreadySearched : Option Nat) (row : Row creator) : Except Stop Status :=
  let globbed :=
    match request.glob with
    | none => true
    | some pattern => host.stringCaseMatch row.keyString pattern true
  if globbed then
    match runFilters row request.filters with
    | .ok =>
        match searchCompare host alreadySearched row 0 request.components with
        | .error stop => .error stop
        | .ok true => .ok .ok
        | .ok false => .ok .continue
    | status => .ok status
  else
    .ok .continue

-----------------------------------------------------------------------------------------
-- The end of a search
-----------------------------------------------------------------------------------------

/-- Delete the rows of a transaction, one after the other. -/
def deleteRows : List RowId → TableM creator Unit
  | [] => pure ()
  | id :: rest => do
      discardRow id
      deleteRows rest

/-- The field numbers of an `-update` list. -/
def updateFields (creator : CreatorTable) : List Obj → Except TclError (List (creator.Field × Obj))
  | fieldObj :: obj :: rest =>
      match creator.fieldNumber fieldObj with
      | none => .error (.parsingUpdate (.badField fieldObj))
      | some field =>
          match updateFields creator rest with
          | .error error => .error error
          | .ok updates => .ok ((field, obj) :: updates)
  | _ => .ok []

/-- The field loop of an update. -/
def updateRow (host : Host) (id : RowId) : List (creator.Field × Obj) → TableM creator Unit
  | [] => pure ()
  | (field, obj) :: rest => do
      onTclError (setField host .normal id field obj)
        (fun error => fail (.updateIncomplete error))
      updateRow host id rest

/-- The row loop of an update. -/
def updateRows (host : Host) (updates : List (creator.Field × Obj))
    : List RowId → TableM creator Unit
  | [] => pure ()
  | id :: rest => do
      updateRow host id updates
      updateRows host updates rest

/-- The checked list of `-update`. -/
def parseUpdate (creator : CreatorTable) (host : Host) (list : Obj)
    : Except TclError (List (creator.Field × Obj)) :=
  match host.listElements list with
  | none => .error (.parsingUpdate (.badList list))
  | some elements =>
      if elements.length % 2 = 0 then updateFields creator elements else .error .oddUpdateList

/-- `ctable_PerformTransaction` on the selected rows. -/
def performTransaction (host : Host) (transaction : Transaction) (rows : List RowId)
    : TableM creator Unit :=
  match transaction with
  | .none => pure ()
  | .cursor => pure ()
  | .delete => deleteRows rows
  | .update list => do
      let updates ← orFail (parseUpdate creator host list)
      updateRows host updates rows

/-- The buffered rows that the offset and limit select. -/
def SearchFrame.selected (frame : SearchFrame creator) : List RowId :=
  (frame.tranTable.take frame.offsetLimit).drop frame.request.offset

/-- The search leaves its index. -/
def leaveIndex : TableM creator Unit :=
  modify (fun table => { table with searches := none :: table.searches.tail })

/-- The end of `ctable_PostSearchCommonActions`: the transaction and the final count. -/
def SearchFrame.transact (frame : SearchFrame creator) (host : Host) (returned : Bool)
    : TableM creator (FrameStep creator) := do
  performTransaction host frame.request.transaction frame.selected
  pure (.finished (.done returned (frame.offsetLimit - frame.request.offset))
    { frame.record with transacted := frame.selected })

/-- The actions are over, and the transaction comes next. -/
def SearchFrame.finish (frame : SearchFrame creator) (returned : Bool)
    : TableM creator (FrameStep creator) :=
  pure (.next { frame with phase := .transacting returned })

/-- `ctable_PostSearchCommonActions` up to the deferred actions. A walk that ended by the
code body's return has `returned` set.
-/
def SearchFrame.completeWalk (frame : SearchFrame creator) (returned : Bool)
    : TableM creator (FrameStep creator) := do
  leaveIndex
  if frame.matchCount = 0 ∨ frame.matchCount < frame.request.offset then
    pure (.finished (.done returned 0) frame.record)
  else if frame.buffering = .none then
    pure (.finished (.done returned (frame.matchCount - frame.request.offset)) frame.record)
  else
    let offsetLimit :=
      if frame.offsetLimit = 0 ∨ frame.matchCount < frame.offsetLimit then frame.matchCount
      else frame.offsetLimit
    let table ← get
    let sorted := if frame.sort = [] then frame.tranTable else table.sortRows frame.sort frame.tranTable
    let frame :=
      { frame with
        offsetLimit := offsetLimit
        tranTable := sorted
        record := { frame.record with matched := sorted } }
    match frame.request.action, frame.request.transaction with
    | .cursor name, .cursor => do
        set { table with
          cursors := { name := name, tranTable := frame.selected } :: table.cursors }
        pure (.finished (.done returned (offsetLimit - frame.request.offset))
          { frame.record with transacted := frame.selected })
    | _, _ =>
        if frame.buffering = .deferred then
          pure (.next { frame with phase := .acting frame.request.offset })
        else
          frame.finish returned

-----------------------------------------------------------------------------------------
-- Steps of a search
-----------------------------------------------------------------------------------------

/-- The end of a match in `ctable_SearchCompareRow`: stop at the limit, or walk on. -/
def SearchFrame.afterMatch (frame : SearchFrame creator)
    : TableM creator (FrameStep creator) :=
  if frame.request.limit ≠ 0 ∧ frame.offsetLimit ≤ frame.matchCount then
    SearchFrame.completeWalk { frame with record := { frame.record with cut := true } } false
  else
    pure (.next frame)

/-- Go on after a completion code of the row test or of the code body. -/
def SearchFrame.afterStatus (frame : SearchFrame creator)
    : Status → TableM creator (FrameStep creator)
  | .ok => pure (.next frame)
  | .continue => pure (.next frame)
  | .break => frame.completeWalk false
  | .return => frame.completeWalk true
  | .error error => pure (.finished (.error error) frame.record)

/-- The part of `ctable_SearchCompareRow` that follows a match. -/
def SearchFrame.matchRow (frame : SearchFrame creator) (id : RowId)
    : TableM creator (FrameStep creator) :=
  let counted :=
    { frame with
      matchCount := frame.matchCount + 1
      tranTable := if frame.buffering = .none then frame.tranTable else frame.tranTable ++ [id]
      record := { frame.record with matched := frame.record.matched ++ [id] } }
  let acted :=
    { counted with record := { counted.record with acted := counted.record.acted ++ [id] } }
  if frame.buffering ≠ .none ∧ frame.capacity ≤ frame.matchCount then
    crash .outOfBounds
  else if frame.buffering = .deferred ∨ counted.matchCount ≤ frame.request.offset then
    pure (.next counted)
  else if frame.request.action = .code then
    pure (.body acted)
  else
    acted.afterMatch

/-- One visit of the walk: step, test the row, and act on a match. -/
def SearchFrame.walk (frame : SearchFrame creator) (host : Host) (pos : WalkPos)
    : TableM creator (FrameStep creator) := do
  match ← walkStep frame.plan pos with
  | .complete => frame.completeWalk false
  | .endless => pure (.finished (.error .infiniteSearchLoop) frame.record)
  | .visit id pos => do
      let row ← inspect (CTable.row · id)
      let frame :=
        { frame with
          phase := .walking pos
          record := { frame.record with visited := frame.record.visited ++ [id] } }
      match frame.request.testRow host frame.plan.alreadySearched row with
      | .error stop => throw stop
      | .ok .ok => frame.matchRow id
      | .ok status => frame.afterStatus status

/-- One deferred action. -/
def SearchFrame.act (frame : SearchFrame creator) (index : Nat)
    : TableM creator (FrameStep creator) :=
  match (frame.tranTable.take frame.offsetLimit)[index]? with
  | none => frame.finish false
  | some id => do
      let _ ← inspect (CTable.row · id)
      let frame :=
        { frame with
          phase := .acting (index + 1)
          record := { frame.record with acted := frame.record.acted ++ [id] } }
      if frame.request.action = .code then pure (.body frame) else pure (.next frame)

/-- A step of a search that is not waiting for its code body. -/
def SearchFrame.advance (frame : SearchFrame creator) (host : Host)
    : TableM creator (FrameStep creator) :=
  match frame.phase with
  | .walking pos => frame.walk host pos
  | .acting index => frame.act index
  | .transacting returned => frame.transact host returned

/-- The code body of a search ends with a completion code. -/
def SearchFrame.resume (frame : SearchFrame creator) (status : Status)
    : TableM creator (FrameStep creator) :=
  match frame.phase, status with
  | .walking _, .ok => frame.afterMatch
  | .walking _, .continue => frame.afterMatch
  | .walking _, status => frame.afterStatus status
  | .acting _, .ok => pure (.next frame)
  | .acting _, .continue => pure (.next frame)
  | .acting index, .break => { frame with offsetLimit := index }.finish false
  | .acting index, .return => { frame with offsetLimit := index }.finish true
  | .acting _, .error error => pure (.finished (.error error) frame.record)
  | .transacting returned, _ => frame.finish returned

-----------------------------------------------------------------------------------------
-- The start of a search
-----------------------------------------------------------------------------------------

/-- The checks of `ctable_SetupSearch` on a deleting search. -/
def checkDelete (request : SearchRequest creator) : TableM creator Unit := do
  let table ← get
  if request.transaction = .delete ∧ table.cursors ≠ [] then
    fail .cursorsActive
  else if request.transaction = .delete ∧ table.searches ≠ [] then
    fail .noDeleteInNestedSearch
  else
    pure ()

/-- Whether nothing but the row count is asked for. -/
def SearchRequest.countsOnly (request : SearchRequest creator) : Bool :=
  request.action = .none && request.components.isEmpty && request.filters.isEmpty
    && request.glob.isNone

/-- The count that stands for a search of everything. -/
def SearchRequest.quickCount (request : SearchRequest creator) (count : Int) : Nat :=
  let rest := count.toNat - request.offset
  if request.limit = 0 then rest else min rest request.limit

/-- `ctable_SetupAndPerformSearch` up to the walk: the checks, the plan and the buffering. A
search that is optimized away, or that finds the table empty, ends at once.
-/
def startSearch (host : Host) (request : SearchRequest creator)
    : TableM creator (FrameStep creator) := do
  checkDelete request
  let table ← get
  if request.countsOnly then
    pure (.finished (.done false (request.quickCount table.count)) .empty)
  else if 2 ^ 31 ≤ request.offset + request.limit then
    crash .integerOverflow
  else if table.count = 0 then
    match request.action with
    | .cursor name => do
        set { table with cursors := { name := name, tranTable := [] } :: table.cursors }
        pure (.finished (.done false 0) .empty)
    | _ => pure (.finished (.done false 0) .empty)
  else
    match request.plan host table table.searches with
    | .error stop => throw stop
    | .ok plan => do
        let sort := request.remainingSort plan
        set { table with searches := plan.searchField :: table.searches }
        pure (.next
          { request := request
            plan := plan
            sort := sort
            buffering := request.buffering sort
            capacity := table.count
            phase := .walking .start
            matchCount := 0
            offsetLimit := request.offset + request.limit
            tranTable := []
            record := .empty })

end SpeedTables
