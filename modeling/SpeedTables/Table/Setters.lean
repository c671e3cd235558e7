import SpeedTables.Table.HashTable
import SpeedTables.Table.Index

/-! The generated setters, increments and null setting, with their index maintenance. -/

namespace SpeedTables

variable {creator : CreatorTable}

-----------------------------------------------------------------------------------------
-- Values a set stores
-----------------------------------------------------------------------------------------

/-- What a setter does with a cell: stop on a bad value, return at once because nothing
changes, dereference NULL, or store. A store first updates the null flag, may then allocate,
and ends with the stored cell.
-/
inductive SetOutcome (type : CtableType) where
  | error (error : TclError)
  | same
  | nullPointer
  | assign (flagged : Cell type) (allocates : Bool) (stored : Cell type)

/-- The setter shape shared by the types: null handling around a conversion, a test for an
unchanged value, and the stored form of the converted value. `null` is the value stored
together with a set null flag.
-/
def standardSet {type : CtableType} {α : Type} (notnull objIsNull : Bool)
    (parsed : Except TclError α) (unchanged : Storage type → α → Bool) (stored : α → Storage type)
    (null : Storage type) (cell : Cell type) : SetOutcome type :=
  if !notnull && objIsNull then
    if cell.isNull then .same
    else .assign { cell with isNull := true } false { value := null, isNull := true }
  else
    match parsed with
    | .error error => .error error
    | .ok value =>
        if !notnull && cell.isNull then
          .assign { cell with isNull := false } false { value := stored value, isNull := false }
        else if unchanged cell.value value then
          .same
        else
          .assign cell false { cell with value := stored value }

/-- The result of a conversion of the library. -/
def converted {α : Type} (result : Option α) (error : TclError) : Except TclError α :=
  match result with
  | some value => .ok value
  | none => .error error

/-- `numberSetSource`, on a value converted by the given library function. -/
def numberSet {type : CtableType} {α : Type} (host : Host) (info : FieldInfo) (objIsNull : Bool)
    (convert : Obj → Option α) (unchanged : Storage type → α → Bool) (stored : α → Storage type)
    (cell : Cell type) (obj : Obj) : SetOutcome type :=
  standardSet info.notnull objIsNull
    (converted (convert obj) (.whileConverting (.badValue type obj) info.name))
    unchanged stored (host.uninitialized type) cell

/-- The conversion of a value to a C integer type of the given width. -/
def narrow (width : Nat) (value : Int) : Int :=
  value.bmod (2 ^ width)

/-- `boolSetSource` -/
def boolSet (host : Host) (info : FieldInfo) (objIsNull : Bool) (cell : Cell .boolean) (obj : Obj)
    : SetOutcome .boolean :=
  standardSet info.notnull objIsNull
    (converted (host.getBoolean obj) (.whileConverting (.badValue .boolean obj) info.name))
    (fun old new => old == new) id false cell

/-- `charSetSource`. Its test returns when the character differs from the stored one. -/
def charSet (info : FieldInfo) (objIsNull : Bool) (cell : Cell .char) (obj : Obj)
    : SetOutcome .char :=
  standardSet info.notnull objIsNull (.ok (obj.headD 0)) (fun old new => old != new) id
    (obj.headD 0) cell

/-- Store a string over the default in a fixed number of bytes, as two `strncpy` calls do. -/
def fixedstringValue (width : Nat) (default : List UInt8) (text : CString) : List UInt8 :=
  if text.length < width then
    text ++ ((default ++ List.replicate width 0).take width).drop text.length
  else
    text.take width

/-- `fixedstringSetSource`. An empty string stands for a nonempty default. -/
def fixedstringSet (info : FieldInfo) (objIsNull : Bool) (default : List UInt8)
    (cell : Cell .fixedstring) (obj : Obj) : SetOutcome .fixedstring :=
  standardSet info.notnull objIsNull (.ok obj)
    (fun old new =>
      let compared := if new.isEmpty && !default.isEmpty then default else new
      firstChar compared == firstChar old && strncmp info.length old compared == .eq)
    (fixedstringValue info.length default) (fixedstringValue info.length default obj) cell

/-- `inetSetSource` -/
def inetSet (host : Host) (info : FieldInfo) (objIsNull : Bool) (cell : Cell .inet) (obj : Obj)
    : SetOutcome .inet :=
  standardSet info.notnull objIsNull
    (converted (host.inetAton obj) (.expectedAddress obj info.name))
    (fun old new => old == new) id [0, 0, 0, 0] cell

/-- `macSetSource`. Setting a null copies the address from a NULL pointer. -/
def macSet (host : Host) (info : FieldInfo) (objIsNull : Bool) (cell : Cell .mac) (obj : Obj)
    : SetOutcome .mac :=
  if !info.notnull && objIsNull && !cell.isNull then
    .nullPointer
  else
    standardSet info.notnull objIsNull
      (converted (host.etherAton obj) (.expectedMac obj info.name))
      (fun old new => old == new) id cell.value cell

/-- The stored form of a string in a varstring field, growing its allocation when needed. -/
def varstringValue (old : VarString) (text : CString) : VarString where
  text := some text
  length := text.length
  allocatedLength :=
    if old.text.isNone || old.allocatedLength ≤ text.length then text.length + 1
    else old.allocatedLength

/-- `varstringSetSource` -/
def varstringSet (info : FieldInfo) (objIsNull : Bool) (cell : Cell .varstring) (obj : Obj)
    : SetOutcome .varstring :=
  let outcome : SetOutcome .varstring :=
    standardSet info.notnull objIsNull (.ok obj)
      (fun old new => new.length == old.length && old.text == some new)
      (varstringValue cell.value) (varstringValue cell.value obj) cell
  match outcome with
  | .assign flagged _ stored =>
      .assign flagged (cell.value.text.isNone || cell.value.allocatedLength ≤ obj.length) stored
  | other => other

/-- `tclobjSetSource`. The old object is released first, and no value counts as unchanged.
The value under a null flag that stays set is never read, so that case stores nothing.
-/
def tclobjSet (info : FieldInfo) (objIsNull : Bool) (cell : Cell .tclobj) (obj : Obj)
    : SetOutcome .tclobj :=
  if !info.notnull && objIsNull then
    if cell.isNull then .same
    else .assign { cell with value := none } false { value := none, isNull := true }
  else
    .assign { cell with value := some obj } false { value := some obj, isNull := false }

/-- The setter of a field's cell, by type. A key is kept in the hash entry. -/
def cellSetType (host : Host) (info : FieldInfo) (objIsNull : Bool)
    : (type : CtableType) → Option (Storage type) → Cell type → Obj → SetOutcome type
  | .boolean, _, cell, obj => boolSet host info objIsNull cell obj
  | .fixedstring, default, cell, obj => fixedstringSet info objIsNull (default.getD []) cell obj
  | .varstring, _, cell, obj => varstringSet info objIsNull cell obj
  | .char, _, cell, obj => charSet info objIsNull cell obj
  | .mac, _, cell, obj => macSet host info objIsNull cell obj
  | .short, _, cell, obj =>
      numberSet host info objIsNull host.getInt (fun old new => old == new) (narrow 16) cell obj
  | .int, _, cell, obj =>
      numberSet host info objIsNull host.getInt (fun old new => old == new) id cell obj
  | .long, _, cell, obj =>
      numberSet host info objIsNull host.getLong (fun old new => old == new) id cell obj
  | .wide, _, cell, obj =>
      numberSet host info objIsNull host.getWide (fun old new => old == new) id cell obj
  | .float, _, cell, obj =>
      numberSet host info objIsNull host.getDouble (fun old new => old == new) host.toFloat cell obj
  | .double, _, cell, obj =>
      numberSet host info objIsNull host.getDouble (fun old new => old == new) id cell obj
  | .inet, _, cell, obj => inetSet host info objIsNull cell obj
  | .tclobj, _, cell, obj => tclobjSet info objIsNull cell obj
  | .key, _, _, _ => .same

/-- The setter of a field, applied to its cell. -/
def cellSet (creator : CreatorTable) (host : Host) (field : creator.Field)
    (cell : Cell (creator.type field)) (obj : Obj) : SetOutcome (creator.type field) :=
  let info := creator.fields field
  cellSetType host info (creator.objIsNull obj) info.type info.default cell obj

-----------------------------------------------------------------------------------------
-- Storing a cell with index maintenance
-----------------------------------------------------------------------------------------

/-- Store a cell in a row of the table. -/
def putCell (field : creator.Field) (id : RowId) (cell : Cell (creator.type field))
    : TableM creator Unit := do
  let row ← inspect (CTable.row · id)
  modify (CTable.putRow · id (row.setCell field cell))

/-- Allocate space for a varstring where it needs more, which may fail in a shared table. -/
def allocateMayFail (host : Host) (field : creator.Field) (allocates : Bool)
    : TableM creator Unit := do
  let table ← get
  if allocates && table.sharedMaster then
    if ← shmalloc host then
      pure ()
    else if table.sharePanic then
      crash .outOfSharedMemory
    else
      fail (.outOfMemory (creator.fields field).name)
  else
    pure ()

/-- `removeFromIndexSource`: a row being created is not in the index yet. -/
def removeFromIndexSource (ctl : IndexCtl) (field : creator.Field) (id : RowId)
    : TableM creator Unit :=
  if ctl = .normal then removeFromIndex field id else pure ()

/-- The part of a setter after its tests: leave the index under the old value, store, and
enter it under the new one. Fields that are not indexed have no skip list, and both index
calls do nothing.
-/
def storeIndexed (host : Host) (ctl : IndexCtl) (id : RowId) (field : creator.Field)
    (flagged : Cell (creator.type field)) (allocates : Bool) (stored : Cell (creator.type field))
    : TableM creator Unit := do
  removeFromIndexSource ctl field id
  putCell field id flagged
  allocateMayFail host field allocates
  putCell field id stored
  insertIntoIndex host field id

/-- The release of the old object in `tclobjSetSource`, before its null handling. -/
def releaseObj (field : creator.Field) (id : RowId) (flagged : Cell (creator.type field))
    : TableM creator Unit :=
  if creator.type field = .tclobj then putCell field id flagged else pure ()

/-- The same part of `boolSetSource` and `tclobjSetSource`: they leave the index when the
null flag changes, and never enter it.
-/
def storeUnindexed (ctl : IndexCtl) (id : RowId) (field : creator.Field)
    (flagged stored : Cell (creator.type field)) : TableM creator Unit := do
  let row ← inspect (CTable.row · id)
  releaseObj field id flagged
  if (row.cells field).isNull != stored.isNull then
    removeFromIndexSource ctl field id
    putCell field id stored
  else
    putCell field id stored

/-- Whether the setter of a field leaves inserting in the index out. -/
def CtableType.storedUnindexed : CtableType → Bool
  | .boolean | .tclobj => true
  | _ => false

/-- The part of a setter after its tests, by type. -/
def storeCell (host : Host) (ctl : IndexCtl) (id : RowId) (field : creator.Field)
    (flagged : Cell (creator.type field)) (allocates : Bool) (stored : Cell (creator.type field))
    : TableM creator Unit :=
  if (creator.type field).storedUnindexed then storeUnindexed ctl id field flagged stored
  else storeIndexed host ctl id field flagged allocates stored

-----------------------------------------------------------------------------------------
-- The key field
-----------------------------------------------------------------------------------------

/-- Copy the key to shared memory for a row that is already visible. -/
def copySharedKey (host : Host) : TableM creator Unit := do
  let table ← get
  if table.sharedMaster then
    if ← shmalloc host then
      pure ()
    else if table.sharePanic then
      crash .outOfSharedMemory
    else
      fail .outOfSharedMemoryKey
  else
    pure ()

/-- Unlink the hash entry of a row. -/
def unlinkHashEntry (id : RowId) : TableM creator Unit := do
  let keyTable ← inspect (CTable.deleteHashEntry · id)
  modify (fun table => { table with keyTable := keyTable })

/-- The first part of `reinsert_row`: only an existing row is unlinked. -/
def unlinkOldKey (host : Host) (ctl : IndexCtl) (id : RowId) : TableM creator Unit :=
  if ctl = .normal then do
    copySharedKey host
    unlinkHashEntry id
  else
    pure ()

/-- The last part of `reinsert_row`: a row being created is entered in every index. -/
def enterIndexes (host : Host) (ctl : IndexCtl) (id : RowId) : TableM creator Unit :=
  if ctl = .new then
    (List.finRange creator.nFields).forM (fun field => insertIntoIndex host field id)
  else
    pure ()

/-- `reinsert_row`: link a row under a new key. -/
def reinsertRow (host : Host) (ctl : IndexCtl) (id : RowId) (value : CString)
    : TableM creator Unit := do
  match ← inspect (CTable.findHashEntry · value) with
  | some _ => fail (.duplicateKey value)
  | none =>
      unlinkOldKey host ctl id
      let row ← inspect (CTable.row · id)
      modify (CTable.putRow · id { row with key := none })
      let (_, isNew) ← storeHashEntry value id { row with key := none }
      if isNew then enterIndexes host ctl id
      else fail (.duplicateKeyAfter value)

-----------------------------------------------------------------------------------------
-- Set, increment and null setting
-----------------------------------------------------------------------------------------

/-- The `_dirty` cell of a changed row. -/
def CreatorTable.dirtyCell (creator : CreatorTable) : Cell (creator.type creator.dirtyField) :=
  cast (congrArg Cell creator.dirtyField_boolean.symm) { value := true, isNull := false }

/-- Set the `_dirty` flag of a row. -/
def setDirty (id : RowId) : TableM creator Unit :=
  putCell creator.dirtyField id creator.dirtyCell

/-- Mark a row as changed, unless the change was to its `_dirty` field. -/
def markDirty (id : RowId) (field : creator.Field) : TableM creator Unit :=
  if field = creator.dirtyField then pure () else setDirty id

/-- The generated `set`. A setter that returns early leaves `_dirty` alone. -/
def setField (host : Host) (ctl : IndexCtl) (id : RowId) (field : creator.Field) (obj : Obj)
    : TableM creator Unit := do
  let row ← inspect (CTable.row · id)
  if field = creator.keyField then
    if row.key = some obj then
      pure ()
    else
      reinsertRow host ctl id obj
      setDirty id
  else
    match cellSet creator host field (row.cells field) obj with
    | .error error => fail error
    | .same => pure ()
    | .nullPointer => crash .nullPointer
    | .assign flagged allocates stored =>
        storeCell host ctl id field flagged allocates stored
        markDirty id field

/-- The number an increment adds to: a null counts as 0. -/
def Cell.addend {type : CtableType} (cell : Cell type) (zero : Storage type) : Storage type :=
  if cell.isNull then zero else cell.value

/-- `numberIncrSource`: the value stored by the increment of a numeric field. -/
def incrValue (host : Host) : (type : CtableType) → Option (Cell type → Int → Storage type)
  | .short => some (fun cell amount => narrow 16 (cell.addend (0 : Int) + amount))
  | .int => some (fun cell amount => narrow 32 (cell.addend (0 : Int) + amount))
  | .long => some (fun cell amount => narrow 64 (cell.addend (0 : Int) + amount))
  | .wide => some (fun cell amount => narrow 64 (cell.addend (0 : Int) + amount))
  | .float => some (fun cell amount =>
      if cell.isNull then host.toFloat ((amount : ℚ) : WithTop ℚ)
      else host.addFloat cell.value amount)
  | .double => some (fun cell amount =>
      if cell.isNull then ((amount : ℚ) : WithTop ℚ) else host.addDouble cell.value amount)
  | _ => none

/-- The generated `incr` -/
def incrField (host : Host) (ctl : IndexCtl) (id : RowId) (field : creator.Field) (obj : Obj)
    : TableM creator Unit := do
  let info := creator.fields field
  match incrValue host info.type with
  | none => fail (.incrNonNumeric info.name)
  | some add =>
      match host.getInt obj with
      | none => fail (.whileConvertingIncrement (.badValue .int obj) info.name)
      | some amount =>
          let row ← inspect (CTable.row · id)
          let cell := { value := add (row.cells field) amount, isNull := false }
          storeIndexed host ctl id field cell false cell

/-- The generated `set_null` -/
def setNull (host : Host) (id : RowId) (field : creator.Field) : TableM creator Unit := do
  let row ← inspect (CTable.row · id)
  let info := creator.fields field
  if info.notnull then
    fail (.nullNonNull info.name)
  else if (row.cells field).isNull then
    pure ()
  else
    let cell := { row.cells field with isNull := true }
    storeIndexed host .normal id field cell false cell

end SpeedTables
