import SpeedTables.Table.Compare
import SpeedTables.Table.State

/-! The indexes of a table: skip lists whose nodes hold bucket lists of equal rows. -/

namespace SpeedTables

open Lib (Node SkipList lowerHeight randomLevel chainBefore setBucket)

variable {creator : CreatorTable}

-----------------------------------------------------------------------------------------
-- Skip-list operations
-----------------------------------------------------------------------------------------

/-- Whether a compare function reads a string through a NULL `Tcl_Obj` pointer. -/
def readsNullObj (creator : CreatorTable) (field : creator.Field) (left right : Row creator)
    : Bool :=
  match creator.type field, left.cells field, right.cells field with
  | .tclobj, left, right =>
      !(!(creator.fields field).notnull && (left.isNull || right.isNull))
        && (left.value.isNone || right.value.isNone)
  | _, _, _ => false

/-- Run the compare function of a field on two rows. -/
def compareRows (creator : CreatorTable) (field : creator.Field) (left right : Row creator)
    : Except Fault Ordering :=
  if readsNullObj creator field left right then .error .nullPointer
  else .ok (creator.compareFunction field left right)

/-- Compare a row with the first row of a node's bucket list. -/
def CTable.compareBucket (table : CTable creator) (field : creator.Field) (row : Row creator)
    : List RowId → Except Fault Ordering
  | [] => .error .nullPointer
  | first :: _ =>
      match table.row first with
      | .error fault => .error fault
      | .ok other => compareRows creator field row other

/-- Whether a node lies before the position of a row. -/
def CTable.beforeRow (table : CTable creator) (field : creator.Field) (row : Row creator)
    (bucket : List RowId) : Except Fault Bool :=
  match table.compareBucket field row bucket with
  | .error fault => .error fault
  | .ok ordering => .ok (ordering == .gt)

/-- `locate`: the chain from the first node that is not before the row. A skip list made
with depth -1 has a head without links.
-/
def CTable.locate (table : CTable creator) (field : creator.Field) (skip : SkipList RowId)
    (row : Row creator) : Except Fault (List (Node RowId)) :=
  if skip.maxh = 0 then .error .outOfBounds
  else Lib.locate (table.beforeRow field row) (skip.curh + 1) skip.nodes

/-- `jsw_sreset` -/
def sreset (skip : SkipList RowId) : SkipList RowId :=
  { skip with curl := skip.nodes.head?.map Node.id }

/-- `jsw_serase`: unlink the node that compares equal to the row, if there is one. -/
def CTable.serase (table : CTable creator) (field : creator.Field) (skip : SkipList RowId)
    (row : Row creator) : Except Fault (SkipList RowId) :=
  match table.locate field skip row with
  | .error fault => .error fault
  | .ok [] => .ok skip
  | .ok (node :: rest) =>
      match table.compareBucket field row node.bucket with
      | .error fault => .error fault
      | .ok .eq =>
          let nodes := chainBefore skip.nodes (node :: rest) ++ rest
          .ok (sreset
            { skip with
              nodes := nodes
              size := skip.size - 1
              curh := lowerHeight nodes skip.curh })
      | .ok _ => .ok skip

/-- Set the link of a row for one field. -/
def CTable.setLink (table : CTable creator) (field : creator.Field) (id : RowId)
    (link : Option NodeId) : CTable creator :=
  { table with
    links := Function.update table.links field (Function.update (table.links field) id link) }

/-- Set the skip list of a field. -/
def CTable.setSkipList (table : CTable creator) (field : creator.Field)
    (skip : Option (SkipList RowId)) : CTable creator :=
  { table with skipLists := Function.update table.skipLists field skip }

/-- The new node of `jsw_sinsert_linked`, linked at its levels up to one above the current
height. A list made with depth 0 draws level 0, and the node is linked nowhere.
-/
def CTable.growChain (table : CTable creator) (host : Host) (skip : SkipList RowId)
    (rest : List (Node RowId)) (id : RowId) : SkipList RowId :=
  let level := randomLevel skip.maxh (host.zeroBits table.draws)
  let curh := if skip.curh < level then skip.curh + 1 else skip.curh
  let node := { id := table.nextNode, height := min level curh, bucket := [id] }
  let nodes := if level = 0 then skip.nodes else chainBefore skip.nodes rest ++ node :: rest
  { skip with nodes := nodes, curh := curh, size := skip.size + 1 }

/-- Link a row to the new node that holds it. -/
def CTable.linkNode (table : CTable creator) (host : Host) (field : creator.Field)
    (skip : SkipList RowId) (rest : List (Node RowId)) (id : RowId) : CTable creator :=
  { (table.setSkipList field (some (table.growChain host skip rest id))).setLink field id
      (some table.nextNode) with
    nextNode := table.nextNode + 1
    draws := table.draws + 1
    allocations := table.allocations + 1 }

/-- `new_node` and its linking. A shared table panics when the node cannot be allocated. -/
def CTable.insertNode (table : CTable creator) (host : Host) (field : creator.Field)
    (skip : SkipList RowId) (rest : List (Node RowId)) (id : RowId)
    : Except Fault (Option (CTable creator)) :=
  if table.sharedMaster && !host.shmalloc table.allocations then .error .outOfSharedMemory
  else .ok (some (table.linkNode host field skip rest id))

/-- `jsw_sinsert_linked`: `none` when the list is unique and has an equal row. -/
def CTable.sinsertLinked (table : CTable creator) (host : Host) (field : creator.Field)
    (skip : SkipList RowId) (id : RowId) (row : Row creator)
    : Except Fault (Option (CTable creator)) :=
  match table.locate field skip row with
  | .error fault => .error fault
  | .ok [] => table.insertNode host field skip [] id
  | .ok (node :: rest) =>
      match table.compareBucket field row node.bucket with
      | .error fault => .error fault
      | .ok .eq =>
          if (creator.fields field).unique then
            .ok none
          else
            let nodes := setBucket skip.nodes node.id (id :: node.bucket)
            let skip := { skip with nodes := nodes, size := skip.size + 1 }
            .ok (some ((table.setSkipList field (some skip)).setLink field id (some node.id)))
      | .ok _ => table.insertNode host field skip (node :: rest) id

-----------------------------------------------------------------------------------------
-- Index maintenance
-----------------------------------------------------------------------------------------

/-- The bucket list a row is linked in. The list of a node linked nowhere is the row alone. -/
def bucketOf (skip : SkipList RowId) (node : NodeId) (id : RowId) : List RowId :=
  match skip.nodes.find? (fun other => other.id = node) with
  | some found => found.bucket
  | none => [id]

/-- The row after a given one in a list. -/
def nextInList (rows : List RowId) (id : RowId) : Option RowId :=
  (rows.dropWhile (· ≠ id)).tail.head?

/-- Take a row out of its bucket list, leaving its `next` pointer as it is. -/
def CTable.unlinkRow (table : CTable creator) (field : creator.Field) (id : RowId)
    (bucket : List RowId) : CTable creator :=
  { table.setLink field id none with
    lastNext := Function.update table.lastNext field
      (Function.update (table.lastNext field) id (nextInList bucket id)) }

/-- `ctable_RemoveFromIndex`. The last row of a bucket list stays in it while the node is
looked up by comparison and erased.
-/
def CTable.removeFromIndex (table : CTable creator) (field : creator.Field) (id : RowId)
    : Except Fault (CTable creator) :=
  match table.skipLists field, table.links field id with
  | some skip, some node =>
      match table.row id with
      | .error fault => .error fault
      | .ok row =>
          let bucket := bucketOf skip node id
          let unlinked := table.unlinkRow field id bucket
          match bucket.erase id with
          | [] =>
              match table.serase field skip row with
              | .error fault => .error fault
              | .ok erased =>
                  .ok (unlinked.setSkipList field
                    (some { erased with nodes := setBucket erased.nodes node [] }))
          | first :: others =>
              .ok (unlinked.setSkipList field
                (some { skip with nodes := setBucket skip.nodes node (first :: others) }))
  | _, _ => .ok table

/-- `ctable_InsertIntoIndex` -/
def insertIntoIndex (host : Host) (field : creator.Field) (id : RowId)
    : TableM creator Unit := do
  let table ← get
  match table.skipLists field with
  | none => pure ()
  | some skip =>
      if (table.links field id).isSome then
        crash (.doubleInsert (creator.fields field).name)
      else
        let row ← inspect (CTable.row · id)
        match ← inspect (CTable.sinsertLinked · host field skip id row) with
        | some inserted => set inserted
        | none =>
            fail (.uniqueCheckFailed (creator.fields field).name (getString host row field))

/-- `ctable_RemoveFromIndex` as an operation on the table. -/
def removeFromIndex (field : creator.Field) (id : RowId) : TableM creator Unit := do
  set (← inspect (CTable.removeFromIndex · field id))

/-- `ctable_RemoveFromAllIndexes` -/
def removeFromAllIndexes (id : RowId) : TableM creator Unit := do
  let table ← get
  if id ∈ table.llHead then
    set { table with llHead := table.llHead.erase id }
    (List.finRange creator.nFields).forM (fun field => removeFromIndex field id)
  else
    crash .removingUnlisted

-----------------------------------------------------------------------------------------
-- Creating and dropping indexes
-----------------------------------------------------------------------------------------

/-- `jsw_snew` with a depth: the head gets one link more than the depth. The addition
wraps to a head without links at depth -1, and lower depths ask for a negative size.
-/
def CTable.snew (table : CTable creator) (host : Host) (depth : Int) : Except Fault (SkipList RowId) :=
  if depth < -1 then .error .outOfBounds
  else if table.sharedMaster && !host.shmalloc table.allocations then .error .outOfSharedMemory
  else .ok
    { head := table.nextNode
      maxh := (depth + 1).toNat
      curh := 0
      size := 0
      nodes := []
      curl := none }

/-- `ctable_CreateIndex`. After a failure the list is freed but the rows keep their links. -/
def createIndex (host : Host) (field : creator.Field) (depth : Int)
    : TableM creator Unit := do
  let table ← get
  if !(creator.fields field).indexed then
    fail (.notIndexable (creator.fields field).name)
  else if (table.skipLists field).isSome then
    pure ()
  else
    let skip ← inspect (CTable.snew · host depth)
    modify (fun table =>
      { table.setSkipList field (some skip) with
        nextNode := table.nextNode + 1
        allocations := table.allocations + 1 })
    onTclError
      (table.llHead.forM (fun id => insertIntoIndex host field id))
      (fun error => do
        modify (fun table => table.setSkipList field none)
        fail (.whileCreatingIndex error))

/-- `ctable_DropIndex` -/
def CTable.dropIndex (table : CTable creator) (field : creator.Field) : CTable creator :=
  match table.skipLists field with
  | none => table
  | some _ =>
      { table.setSkipList field none with
        links := Function.update table.links field
          (fun id => if id ∈ table.llHead then none else table.links field id)
        lastNext := Function.update table.lastNext field
          (fun id => if id ∈ table.llHead then none else table.lastNext field id) }

/-- `ctable_DropAllIndexes` -/
def CTable.dropAllIndexes (table : CTable creator) : CTable creator :=
  (List.finRange creator.nFields).foldl CTable.dropIndex table

/-- `index_defaults`: insert a new row in the indexes that its fields were not set in. -/
def indexDefaults (host : Host) (id : RowId) : TableM creator Unit :=
  (List.finRange creator.nFields).forM (fun field => do
    let table ← get
    if (creator.fields field).indexed && (table.skipLists field).isSome
        && (table.links field id).isNone then
      insertIntoIndex host field id
    else
      pure ())

end SpeedTables
