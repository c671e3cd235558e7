import SpeedTables.Table.State

/-! The key hash table: bucket chains through the entries embedded in the rows. -/

namespace SpeedTables

variable {creator : CreatorTable}

-----------------------------------------------------------------------------------------
-- Hashing
-----------------------------------------------------------------------------------------

/-- `HashStringKey` -/
def hashStringKey (key : CString) : UInt32 :=
  key.foldl (fun result c => result + ((result <<< 3) + c.toInt8.toInt32.toUInt32)) 0

/-- `RANDOM_INDEX` -/
def HashTable.randomIndex (table : HashTable) (hash : UInt32) : Nat :=
  ((hash.toNat * 1103515245) >>> table.downShift) &&& table.mask

/-- `ctable_InitHashTable`. The fields of entries in rows are not touched. -/
def HashTable.init (table : HashTable) : HashTable :=
  { table with
    buckets := fun _ => none
    numBuckets := 16
    numEntries := 0
    rebuildSize := 48
    downShift := 26
    mask := 15 }

/-- The hash table of a new table. -/
def HashTable.empty : HashTable :=
  HashTable.init
    { buckets := fun _ => none
      next := fun _ => none
      hash := fun _ => 0
      numBuckets := 0
      numEntries := 0
      rebuildSize := 0
      downShift := 0
      mask := 0 }

/-- A new table. -/
def CTable.empty (creator : CreatorTable) (sharedMaster sharePanic : Bool) : CTable creator where
  rows := fun _ => none
  nextRow := 0
  llHead := []
  keyTable := HashTable.empty
  skipLists := fun _ => none
  links := fun _ _ => none
  lastNext := fun _ _ => none
  nextNode := 0
  count := 0
  autoRowNumber := 0
  sharedMaster := sharedMaster
  sharePanic := sharePanic
  searches := []
  cursors := []
  destroyed := false
  draws := 0
  allocations := 0
  memoryTests := 0

-----------------------------------------------------------------------------------------
-- Chains
-----------------------------------------------------------------------------------------

/-- The longest chain without a repeated entry, plus one: a longer walk never ends. -/
def CTable.chainFuel (table : CTable creator) : Nat :=
  table.nextRow + 1

/-- The characters at an entry's key pointer. The null key is a NULL pointer in a private
table and an empty string in a shared one.
-/
def CTable.entryKey (table : CTable creator) (row : Row creator) : Except Fault CString :=
  match row.key with
  | some key => .ok key
  | none => if table.sharedMaster then .ok [] else .error .nullPointer

/-- The chain loop of a lookup. -/
def CTable.searchChain (table : CTable creator) (key : CString) (hash : UInt32)
    : Nat → Option RowId → Except Fault (Option RowId)
  | _, none => .ok none
  | 0, some _ => .error .endlessLoop
  | fuel + 1, some entry =>
      match table.row entry with
      | .error fault => .error fault
      | .ok row =>
          if table.keyTable.hash entry = hash then
            match table.entryKey row with
            | .error fault => .error fault
            | .ok entryKey =>
                if entryKey = key then .ok (some entry)
                else table.searchChain key hash fuel (table.keyTable.next entry)
          else
            table.searchChain key hash fuel (table.keyTable.next entry)

/-- `ctable_FindHashEntry` -/
def CTable.findHashEntry (table : CTable creator) (key : CString)
    : Except Fault (Option RowId) :=
  let hash := hashStringKey key
  table.searchChain key hash table.chainFuel
    (table.keyTable.buckets (table.keyTable.randomIndex hash))

/-- Link an entry at the head of its bucket. -/
def HashTable.push (table : HashTable) (entry : RowId) : HashTable :=
  let index := table.randomIndex (table.hash entry)
  { table with
    next := Function.update table.next entry (table.buckets index)
    buckets := Function.update table.buckets index (some entry) }

/-- The inner loop of `RebuildTable`: move the entries of one old chain. -/
def CTable.rehashChain (table : CTable creator)
    : Nat → Option RowId → HashTable → Except Fault HashTable
  | _, none, moved => .ok moved
  | 0, some _, _ => .error .endlessLoop
  | fuel + 1, some entry, moved =>
      match table.row entry with
      | .error fault => .error fault
      | .ok _ => table.rehashChain fuel (moved.next entry) (moved.push entry)

/-- The outer loop of `RebuildTable`, over the old bucket array. -/
def CTable.rehashBuckets (table : CTable creator) (old : Nat → Option RowId)
    : List Nat → HashTable → Except Fault HashTable
  | [], moved => .ok moved
  | index :: rest, moved =>
      match table.rehashChain (3 * table.chainFuel) (old index) moved with
      | .error fault => .error fault
      | .ok next => table.rehashBuckets old rest next

/-- `RebuildTable`. The multiplication of the `int` fields overflows on the seventh call. -/
def CTable.rebuildTable (table : CTable creator) (keyTable : HashTable)
    : Except Fault HashTable :=
  if 2147483647 < keyTable.rebuildSize * 16 then
    .error .integerOverflow
  else
    table.rehashBuckets keyTable.buckets (List.range keyTable.numBuckets)
      { keyTable with
        buckets := fun _ => none
        numBuckets := keyTable.numBuckets * 16
        rebuildSize := keyTable.rebuildSize * 16
        downShift := keyTable.downShift - 4
        mask := (keyTable.mask <<< 4) + 15 }

/-- The second half of `ctable_InitOrStoreHashEntry`: link an entry under a key. -/
def CTable.linkHashEntry (table : CTable creator) (key : CString) (entry : RowId)
    : Except Fault HashTable :=
  let keyTable := table.keyTable
  let hashed := { keyTable with hash := Function.update keyTable.hash entry (hashStringKey key) }
  let linked := { hashed.push entry with numEntries := keyTable.numEntries + 1 }
  if (linked.rebuildSize : Int) ≤ linked.numEntries then table.rebuildTable linked
  else .ok linked

/-- `ctable_StoreHashEntry`: the entry of a key, and whether it is the one provided. The
key is stored in the entry's row.
-/
def storeHashEntry (key : CString) (entry : RowId) (fresh : Row creator)
    : TableM creator (RowId × Bool) := do
  match ← inspect (CTable.findHashEntry · key) with
  | some found => pure (found, false)
  | none =>
      modify (CTable.putRow · entry { fresh with key := some key })
      let keyTable ← inspect (CTable.linkHashEntry · key entry)
      modify (fun table => { table with keyTable := keyTable })
      pure (entry, true)

/-- The loop of `ctable_DeleteHashEntry` that finds the entry before the deleted one. -/
def CTable.searchPrevious (table : CTable creator) (entry : RowId)
    : Nat → Option RowId → Except Fault RowId
  | _, none => .error .malformedChain
  | 0, some _ => .error .endlessLoop
  | fuel + 1, some previous =>
      match table.row previous with
      | .error fault => .error fault
      | .ok _ =>
          if table.keyTable.next previous = some entry then .ok previous
          else table.searchPrevious entry fuel (table.keyTable.next previous)

/-- `ctable_DeleteHashEntry` -/
def CTable.deleteHashEntry (table : CTable creator) (entry : RowId) : Except Fault HashTable :=
  let keyTable := table.keyTable
  let index := keyTable.randomIndex (keyTable.hash entry)
  if keyTable.buckets index = some entry then
    .ok { keyTable with
      buckets := Function.update keyTable.buckets index (keyTable.next entry)
      numEntries := keyTable.numEntries - 1 }
  else
    match table.searchPrevious entry table.chainFuel (keyTable.buckets index) with
    | .error fault => .error fault
    | .ok previous =>
        .ok { keyTable with
          next := Function.update keyTable.next previous (keyTable.next entry)
          numEntries := keyTable.numEntries - 1 }

end SpeedTables
