import SpeedTables.Search.Planner

/-! The walks of a search, one visited row at a time. -/

namespace SpeedTables

open Lib (Node SkipList)

variable {creator : CreatorTable}

-----------------------------------------------------------------------------------------
-- The current position of a skip list
-----------------------------------------------------------------------------------------

/-- The skip list a search walks, as long as its memory is the one the plan found. -/
def CTable.walkedList (table : CTable creator) (field : creator.Field) (head : NodeId)
    : Except Fault (SkipList RowId) :=
  match table.skipLists field with
  | some skip => if skip.head = head then .ok skip else .error .useAfterFree
  | none => .error .useAfterFree

/-- Move the current position of a field's skip list. -/
def CTable.setCurl (table : CTable creator) (field : creator.Field) (curl : Option NodeId)
    : CTable creator :=
  match table.skipLists field with
  | some skip => table.setSkipList field (some { skip with curl := curl })
  | none => table

/-- `jsw_sreset` -/
def resetCurl (field : creator.Field) (skip : SkipList RowId) : TableM creator Unit := do
  if skip.maxh = 0 then crash .outOfBounds
  else modify (CTable.setCurl · field (skip.nodes.head?.map Node.id))

/-- `jsw_sfind`: move to the position of a row, and tell whether an equal row is there. -/
def sfind (field : creator.Field) (skip : SkipList RowId) (row : Row creator)
    : TableM creator Bool := do
  let rest ← inspect (CTable.locate · field skip row)
  modify (CTable.setCurl · field (rest.head?.map Node.id))
  match rest with
  | [] => pure false
  | node :: _ => do
      let ordering ← inspect (CTable.compareBucket · field row node.bucket)
      pure (ordering == .eq)

/-- Drop the nodes whose first row compares with a row in a given way. -/
def CTable.dropNodes (table : CTable creator) (field : creator.Field) (row : Row creator)
    (passes : Ordering → Bool) : List (Node RowId) → Except Fault (List (Node RowId))
  | [] => .ok []
  | node :: rest =>
      match table.compareBucket field row node.bucket with
      | .error fault => .error fault
      | .ok ordering =>
          if passes ordering then table.dropNodes field row passes rest
          else .ok (node :: rest)

/-- `jsw_sfind_equal_or_greater` -/
def sfindEqualOrGreater (field : creator.Field) (skip : SkipList RowId) (row : Row creator)
    : TableM creator Unit := do
  let rest ← inspect (CTable.locate · field skip row)
  let rest ← inspect (CTable.dropNodes · field row (· == .gt) rest)
  modify (CTable.setCurl · field (rest.head?.map Node.id))

/-- The loop that starts a walk by `>`: pass the nodes that are not greater. -/
def sfindGreater (field : creator.Field) (skip : SkipList RowId) (row : Row creator)
    : TableM creator Unit := do
  let rest ← inspect (CTable.locate · field skip row)
  let rest ← inspect (CTable.dropNodes · field row (· != .lt) rest)
  modify (CTable.setCurl · field (rest.head?.map Node.id))

/-- The chain from the current position on. -/
def chainFrom (skip : SkipList RowId) (id : NodeId) : List (Node RowId) :=
  skip.nodes.dropWhile (fun node => node.id ≠ id)

/-- `jsw_srow`: the first row at the current position. -/
def srow (skip : SkipList RowId) : Except Fault (Option RowId) :=
  match skip.curl with
  | none => .ok none
  | some id =>
      match chainFrom skip id with
      | [] => .error .useAfterFree
      | node :: _ => .ok node.bucket.head?

/-- `jsw_snext` -/
def snext (field : creator.Field) (skip : SkipList RowId) : TableM creator Unit :=
  match skip.curl with
  | none => crash .nullPointer
  | some id =>
      match chainFrom skip id with
      | [] => crash .useAfterFree
      | _ :: rest => modify (CTable.setCurl · field (rest.head?.map Node.id))

/-- The row after a row in its bucket list, through its `next` pointer. -/
def CTable.bucketNext (table : CTable creator) (field : creator.Field) (id : RowId)
    : Except Fault (Option RowId) :=
  match table.row id with
  | .error fault => .error fault
  | .ok _ =>
      match table.links field id, table.skipLists field with
      | some node, some skip => .ok (nextInList (bucketOf skip node id) id)
      | _, _ => .ok (table.lastNext field id)

-----------------------------------------------------------------------------------------
-- Walk steps
-----------------------------------------------------------------------------------------

/-- Where a walk stands between two visits: at its start, after a row of the row list, after
a number of hash probes, or after a row of a bucket list. The last comes with the loop
counter and the number of `in` values used.
-/
inductive WalkPos where
  | start
  | listRow (row : RowId)
  | probes (used : Nat)
  | bucketRow (row : RowId) (myCount inIndex : Nat)
  deriving DecidableEq

/-- A step of a walk: the next row, the end, or the end of the loop that should not end. -/
inductive WalkResult where
  | visit (row : RowId) (pos : WalkPos)
  | complete
  | endless
  deriving DecidableEq

/-- The loop of the hash walk up to a key that is found. -/
def probeKeys : List CString → Nat → TableM creator WalkResult
  | [], _ => pure .complete
  | key :: rest, used => do
      match ← inspect (CTable.findHashEntry · key) with
      | some row => pure (.visit row (.probes (used + 1)))
      | none => probeKeys rest (used + 1)

/-- The keys of a hash walk: the one set by `=`, then those of the remembered list. -/
def Plan.probeList (plan : Plan creator) : List CString :=
  plan.key.toList ++ plan.inListObj

/-- The loop over the `in` values up to one that is found, with the number used then. -/
def probeRows (field : creator.Field) (head : NodeId)
    : List (Row creator) → Nat → TableM creator (Option Nat)
  | [], _ => pure none
  | row :: rest, used => do
      let skip ← inspect (CTable.walkedList · field head)
      if ← sfind field skip row then pure (some (used + 1))
      else probeRows field head rest (used + 1)

/-- A row of the plan that the walk needs. -/
def needRow : Option (Row creator) → TableM creator (Row creator)
  | some row => pure row
  | none => crash .nullPointer

/-- Find the row to start a skip-list walk on. -/
def startSkip (plan : Plan creator) (field : creator.Field) (skip : SkipList RowId)
    : TableM creator Unit :=
  match plan.skipStart with
  | .eqRow1 => do
      let row1 ← needRow plan.row1
      let _ ← sfind field skip row1
  | .geRow1 => do
      let row1 ← needRow plan.row1
      sfindEqualOrGreater field skip row1
  | .gtRow1 => do
      let row1 ← needRow plan.row1
      sfindGreater field skip row1
  | .reset => resetCurl field skip
  | .none => crash .unimplementedComparison

/-- Whether a row is at or past the terminating condition of a skip-list walk. -/
def pastEnd (plan : Plan creator) (field : creator.Field) (row : Row creator)
    : TableM creator Bool :=
  match plan.skipEnd with
  | .none => pure false
  | .geRow1 => do
      let row1 ← needRow plan.row1
      let ordering ← inspect (fun _ => compareRows creator field row row1)
      pure (ordering != .lt)
  | .gtRow1 => do
      let row1 ← needRow plan.row1
      let ordering ← inspect (fun _ => compareRows creator field row row1)
      pure (ordering == .gt)
  | .geRow2 => do
      let row2 ← needRow plan.row2
      let ordering ← inspect (fun _ => compareRows creator field row row2)
      pure (ordering != .lt)

/-- The use of the next `in` value at the head of the skip-list loop: the number of values
used then, if one is left that is found.
-/
def nextInValue (plan : Plan creator) (field : creator.Field) (head : NodeId) (inIndex : Nat)
    : TableM creator (Option Nat) :=
  if plan.skipNext = .inList then probeRows field head (plan.inListRows.drop inIndex) inIndex
  else pure (some inIndex)

/-- The head of the skip-list loop: the first row of the next bucket list. -/
def nextBucket (plan : Plan creator) (field : creator.Field) (head : NodeId)
    (myCount inIndex : Nat) : TableM creator WalkResult := do
  let table ← get
  if table.count < myCount then
    pure .endless
  else
    match ← nextInValue plan field head inIndex with
    | none => pure .complete
    | some inIndex =>
        let skip ← inspect (CTable.walkedList · field head)
        match ← inspect (fun _ => srow skip) with
        | none => pure .complete
        | some first =>
            let row ← inspect (CTable.row · first)
            if ← pastEnd plan field row then pure .complete
            else pure (.visit first (.bucketRow first myCount inIndex))

/-- The move of a skip-list walk to its next bucket list. -/
def leaveBucket (plan : Plan creator) (field : creator.Field) (head : NodeId)
    : TableM creator Unit :=
  if plan.skipNext = .row then do
    let skip ← inspect (CTable.walkedList · field head)
    snext field skip
  else
    pure ()

/-- A step of a skip-list walk. -/
def skipStep (plan : Plan creator) (field : creator.Field) (head : NodeId)
    : WalkPos → TableM creator WalkResult
  | .bucketRow row myCount inIndex => do
      match ← inspect (CTable.bucketNext · field row) with
      | some next => pure (.visit next (.bucketRow next myCount inIndex))
      | none =>
          leaveBucket plan field head
          nextBucket plan field head (myCount + 1) inIndex
  | _ => do
      let skip ← inspect (CTable.walkedList · field head)
      startSkip plan field skip
      nextBucket plan field head 0 0

/-- A step of the walk of all rows. -/
def listStep : WalkPos → TableM creator WalkResult
  | .listRow row => do
      let _ ← inspect (CTable.row · row)
      match nextInList (← get).llHead row with
      | some next => pure (.visit next (.listRow next))
      | none => pure .complete
  | _ => do
      match (← get).llHead with
      | first :: _ => pure (.visit first (.listRow first))
      | [] => pure .complete

/-- A step of a hash walk. -/
def hashStep (plan : Plan creator) : WalkPos → TableM creator WalkResult
  | .probes used => probeKeys (plan.probeList.drop used) used
  | _ => probeKeys plan.probeList 0

/-- A step of the walk of a plan. -/
def walkStep (plan : Plan creator) (pos : WalkPos) : TableM creator WalkResult :=
  match plan.walkType, plan.skipList with
  | .default, _ => listStep pos
  | .hashEq, _ => hashStep plan pos
  | .hashIn, _ => hashStep plan pos
  | .skip, some walked => skipStep plan walked.field walked.head pos
  | .skip, none => crash .nullPointer

end SpeedTables
