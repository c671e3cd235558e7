import SpeedTables.Search.Components

/-! The search request, and the choice of the walk that drives it. -/

namespace SpeedTables

variable {creator : CreatorTable}

-----------------------------------------------------------------------------------------
-- Requests
-----------------------------------------------------------------------------------------

/-- A Tcl completion code of a row test, a filter or a code body. -/
inductive Status where
  | ok
  | continue
  | break
  | return
  | error (error : TclError)

/-- The `CTABLE_SEARCH_ACTION_*` kinds. The kinds that set variables for a code body are
one here, and `cursor` carries the name of the cursor.
-/
inductive SearchAction where
  | none
  | code
  | writeTabsep
  | transactionOnly
  | cursor (name : CString)
  deriving DecidableEq

/-- The `CTABLE_SEARCH_TRAN_*` kinds, with the list of `-update`. -/
inductive Transaction where
  | none
  | delete
  | update (list : Obj)
  | cursor
  deriving DecidableEq

/-- The index a search asks for: none, any, or the one of a field. -/
inductive IndexRequest (creator : CreatorTable) where
  | none
  | any
  | field (field : creator.Field)

/-- The options of a search after `ctable_SetupSearch`, which gives every transaction an action.
Sort fields come with a flag for descending order, and `buffer` is the value of `-buffer`.
-/
structure SearchRequest (creator : CreatorTable) where
  components : List (Component creator)
  filters : List (Row creator → Status)
  glob : Option CString
  sort : List (creator.Field × Bool)
  offset : Nat
  limit : Nat
  action : SearchAction
  transaction : Transaction
  buffer : Option Int
  index : IndexRequest creator
  transaction_acts : transaction ≠ .none → action ≠ .none
  cursor_iff : transaction = .cursor ↔ ∃ name, action = .cursor name

-----------------------------------------------------------------------------------------
-- Walk types
-----------------------------------------------------------------------------------------

/-- `walkType_e` -/
inductive WalkType where
  | default
  | skip
  | hashEq
  | hashIn
  deriving DecidableEq

/-- `skipStart_e` -/
inductive SkipStart where
  | none
  | geRow1
  | gtRow1
  | eqRow1
  | reset
  deriving DecidableEq

/-- `skipEnd_e`, without the value that only shared readers use. -/
inductive SkipEnd where
  | none
  | geRow1
  | gtRow1
  | geRow2
  deriving DecidableEq

/-- `skipNext_e` -/
inductive SkipNext where
  | none
  | row
  | match
  | inList
  deriving DecidableEq

/-- A row of the skip-list scanning rules. -/
structure SkipType where
  start : SkipStart
  stop : SkipEnd
  next : SkipNext
  score : Int

/-- `skipTypes` -/
def skipTypes : Term creator → SkipType
  | .compare .lt _ => { start := .reset, stop := .geRow1, next := .row, score := 2 }
  | .compare .le _ => { start := .reset, stop := .gtRow1, next := .row, score := 2 }
  | .compare .eq _ => { start := .eqRow1, stop := .gtRow1, next := .row, score := 6 }
  | .compare .ge _ => { start := .geRow1, stop := .none, next := .row, score := 2 }
  | .compare .gt _ => { start := .gtRow1, stop := .none, next := .row, score := 1 }
  | .matching { keeps := true, nocase := false, .. } _ =>
      { start := .geRow1, stop := .geRow2, next := .match, score := 3 }
  | .range _ _ => { start := .geRow1, stop := .geRow2, next := .row, score := 4 }
  | .inList _ => { start := .reset, stop := .none, next := .inList, score := 6 }
  | _ => { start := .none, stop := .none, next := .none, score := -2 }

/-- `row1` of a component. -/
def Term.row1 : Term creator → Option (Row creator)
  | .compare _ row1 => some row1
  | .matching _ row1 => some row1
  | .range row1 _ => some row1
  | _ => none

/-- `row2` of a component. A match never has one. -/
def Term.row2 : Term creator → Option (Row creator)
  | .range _ row2 => some row2
  | _ => none

/-- The skip list a plan walks: its field, and the list found when the plan was made. -/
structure WalkedIndex (creator : CreatorTable) where
  field : creator.Field
  head : NodeId

/-- The local variables of `ctable_PerformSearch` that describe the walk, and the search's
`alreadySearched` and `searchField`.
-/
structure Plan (creator : CreatorTable) where
  walkType : WalkType
  alreadySearched : Option Nat
  searchField : Option creator.Field
  skipField : Nat
  skipList : Option (WalkedIndex creator)
  inOrderWalk : Bool
  skipStart : SkipStart
  skipEnd : SkipEnd
  skipNext : SkipNext
  row1 : Option (Row creator)
  row2 : Option (Row creator)
  key : Option CString
  inListObj : List Obj
  inListRows : List (Row creator)

/-- The initial values of these variables. -/
def Plan.initial : Plan creator where
  walkType := .default
  alreadySearched := none
  searchField := none
  skipField := 0
  skipList := none
  inOrderWalk := false
  skipStart := .none
  skipEnd := .none
  skipNext := .none
  row1 := none
  row2 := none
  key := none
  inListObj := []
  inListRows := []

-----------------------------------------------------------------------------------------
-- The choice among the components
-----------------------------------------------------------------------------------------

/-- Take a hash lookup by `=` or `in` on the key. -/
def Plan.takeHash (plan : Plan creator) (index : Nat) : Term creator → Option (Plan creator)
  | .compare .eq row1 =>
      some { plan with
        walkType := .hashEq
        inOrderWalk := true
        row1 := some row1
        key := some row1.keyString
        alreadySearched := some index }
  | .inList values =>
      some { plan with
        walkType := .hashIn
        inOrderWalk := false
        inListObj := values
        alreadySearched := some index }
  | _ => none

/-- Take a component as the best candidate for a skip-list walk. Another candidate's values
stay where this one does not set them.
-/
def Plan.takeSkip (plan : Plan creator) (host : Host) (head : NodeId) (index : Nat)
    (component : Component creator) : Except Stop (Plan creator) :=
  let type := skipTypes component.term
  let candidate :=
    { plan with
      walkType := .skip
      alreadySearched := some index
      searchField := some component.field
      skipField := component.field.val
      skipList := some { field := component.field, head := head }
      skipStart := type.start
      skipEnd := type.stop
      skipNext := type.next
      row1 := component.term.row1 }
  match component.term with
  | .inList values =>
      match createInRows host component.field values with
      | .error stop => .error stop
      | .ok rows =>
          .ok { candidate with inOrderWalk := false, inListObj := values, inListRows := rows }
  | term => .ok { candidate with inOrderWalk := true, row2 := term.row2 }

/-- The skip list a component can drive a walk of: its field has an index no outer search
is walking, it is not a match, and its score reaches the best one, which stays 0.
-/
def usable (table : CTable creator) (previous : List (Option creator.Field))
    (sortField : Option creator.Field) (component : Component creator)
    : Option (Lib.SkipList RowId) :=
  let type := skipTypes component.term
  let score := if sortField = some component.field then type.score + 1 else type.score
  if type.next = .match ∨ some component.field ∈ previous ∨ score < 0 then none
  else table.skipLists component.field

/-- The loop over the components, from the requested one around. A hash lookup ends it. -/
def planLoop (host : Host) (table : CTable creator) (previous : List (Option creator.Field))
    (sortField : Option creator.Field)
    : List (Nat × Component creator) → Plan creator → Except Stop (Plan creator)
  | [], plan => .ok plan
  | (index, component) :: rest, plan =>
      let hashed := if component.field = creator.keyField then plan.takeHash index component.term
        else none
      match hashed with
      | some plan => .ok plan
      | none =>
          match usable table previous sortField component with
          | none => planLoop host table previous sortField rest plan
          | some skip =>
              match plan.takeSkip host skip.head index component with
              | .error stop => .error stop
              | .ok plan => planLoop host table previous sortField rest plan

/-- The order in which the loop tries the components. -/
def SearchRequest.tryOrder (request : SearchRequest creator) : List (Nat × Component creator) :=
  let numbered := request.components.zipIdx.map (fun entry => (entry.2, entry.1))
  match request.index with
  | .none => []
  | .any => numbered
  | .field field =>
      let start := (numbered.takeWhile (fun entry => entry.2.field ≠ field)).length
      numbered.drop start ++ numbered.take start

/-- The loop tries components of the request, each under its own number. -/
theorem tryOrder_getElem {request : SearchRequest creator} {entry : Nat × Component creator}
    (tried : entry ∈ request.tryOrder)
    : request.components[entry.1]? = some entry.2 := by
  have numbered {entry : Nat × Component creator}
      (member : entry ∈ request.components.zipIdx.map (fun entry => (entry.2, entry.1)))
      : request.components[entry.1]? = some entry.2 := by
    obtain ⟨other, inside, rfl⟩ := List.mem_map.mp member
    exact List.mem_zipIdx_iff_getElem?.mp inside
  unfold SearchRequest.tryOrder at tried
  split at tried
  · exact nomatch tried
  · exact numbered tried
  · cases List.mem_append.mp tried with
    | inl late => exact numbered (List.mem_of_mem_drop late)
    | inr early => exact numbered (List.mem_of_mem_take early)

/-- The single sort field, if there is just one. -/
def SearchRequest.sortField (request : SearchRequest creator) : Option creator.Field :=
  match request.sort with
  | [(field, _)] => some field
  | _ => none

/-- The planning part of `ctable_PerformSearch`. -/
def SearchRequest.plan (request : SearchRequest creator) (host : Host) (table : CTable creator)
    (previous : List (Option creator.Field)) : Except Stop (Plan creator) :=
  planLoop host table previous request.sortField request.tryOrder Plan.initial

/-- The sort that remains: walking in the order of the one sort field makes it unnecessary. -/
def SearchRequest.remainingSort (request : SearchRequest creator) (plan : Plan creator)
    : List (creator.Field × Bool) :=
  match request.sort with
  | [(field, _)] => if plan.inOrderWalk && field.val == plan.skipField then [] else request.sort
  | sort => sort

-----------------------------------------------------------------------------------------
-- Buffering
-----------------------------------------------------------------------------------------

/-- How results are buffered: not at all, in a table until the walk is over, or in a table
while the actions are still taken during the walk.
-/
inductive Buffering where
  | none
  | deferred
  | provisional
  deriving DecidableEq

/-- `ctable_PrepareTransactions` -/
def SearchRequest.buffering (request : SearchRequest creator)
    (sort : List (creator.Field × Bool)) : Buffering :=
  let buffered : Buffering :=
    match request.action with
    | .none => .none
    | .cursor _ => .deferred
    | _ =>
        if sort ≠ [] then .deferred
        else
          match request.buffer with
          | Option.none => .none
          | some value =>
              if value ≤ 0 then .none
              else if value = 1 then .deferred
              else .provisional
  if buffered = .none ∧ request.transaction ≠ .none then .provisional else buffered

end SpeedTables
