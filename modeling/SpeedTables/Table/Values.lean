import Mathlib

/-! Field types, stored field values, and the static description of a generated table. -/

namespace SpeedTables

-----------------------------------------------------------------------------------------
-- Strings and field types
-----------------------------------------------------------------------------------------

/-- The bytes of a C string before its terminating NUL. -/
abbrev CString := List UInt8

/-- A Tcl object is read through its string representation. -/
abbrev Obj := CString

/-- The values of a C `double` that are not NaN, in their numeric order.
`Tcl_GetDoubleFromObj` rejects NaN, and adding an `int` to these never produces it.
-/
abbrev CDouble := WithBot (WithTop ℚ)

/-- `enum ctable_types` -/
inductive CtableType where
  | boolean
  | fixedstring
  | varstring
  | char
  | mac
  | short
  | int
  | long
  | wide
  | float
  | double
  | inet
  | tclobj
  | key
  deriving DecidableEq, Repr

/-- A varstring field: the `char *` (`none` for NULL) with its two recorded lengths. -/
structure VarString where
  text : Option CString
  length : Nat
  allocatedLength : Nat
  deriving DecidableEq

/-- The C storage of a field value. The key lives in the row's hash entry instead. -/
@[reducible] def Storage : CtableType → Type
  | .boolean => Bool
  | .fixedstring => List UInt8
  | .varstring => VarString
  | .char => UInt8
  | .mac => List UInt8
  | .short => Int
  | .int => Int
  | .long => Int
  | .wide => Int
  | .float => CDouble
  | .double => CDouble
  | .inet => List UInt8
  | .tclobj => Option Obj
  | .key => Unit

-----------------------------------------------------------------------------------------
-- The generated table description
-----------------------------------------------------------------------------------------

/-- A field of the table definition, with the attributes the generated code reads.
`length` is the width of a fixedstring. A default has been converted to its stored form.
-/
structure FieldInfo where
  name : CString
  type : CtableType
  notnull : Bool
  indexed : Bool
  unique : Bool
  length : Nat
  default : Option (Storage type)

/-- The zero value of the static `basecopy` row for a field without a default. -/
def Storage.zero (width : Nat) : (type : CtableType) → Storage type
  | .boolean => false
  | .fixedstring => List.replicate width 0
  | .varstring => { text := none, length := 0, allocatedLength := 0 }
  | .char => 0
  | .mac => List.replicate 6 0
  | .short => 0
  | .int => 0
  | .long => 0
  | .wide => 0
  | .float => ((0 : ℚ) : WithTop ℚ)
  | .double => ((0 : ℚ) : WithTop ℚ)
  | .inet => List.replicate 4 0
  | .tclobj => none
  | .key => ()

/-- The generated part of a table: its fields, its key field, its `_dirty` field and its
null value. `deffield` makes every field with a default notnull, `key` makes the key field
notnull and the only one of its type, and `_dirty` is added without an index.
-/
structure CreatorTable where
  nFields : Nat
  fields : Fin nFields → FieldInfo
  keyField : Fin nFields
  keyField_iff : ∀ f, (fields f).type = .key ↔ f = keyField
  keyField_notnull : (fields keyField).notnull = true
  default_notnull : ∀ f, (fields f).default.isSome → (fields f).notnull = true
  names_injective : ∀ f g, (fields f).name = (fields g).name → f = g
  dirtyField : Fin nFields
  dirtyField_boolean : (fields dirtyField).type = .boolean
  dirtyField_unindexed : (fields dirtyField).indexed = false
  nullValue : CString

namespace CreatorTable

/-- A field number of the table. -/
abbrev Field (creator : CreatorTable) := Fin creator.nFields

/-- The declared type of a field. -/
abbrev type (creator : CreatorTable) (field : creator.Field) : CtableType :=
  (creator.fields field).type

/-- `Tcl_GetIndexFromObj` over the field names. -/
def fieldNumber (creator : CreatorTable) (name : CString) : Option creator.Field :=
  (List.finRange creator.nFields).find? (fun field => (creator.fields field).name = name)

/-- The generated `obj_is_null`: the string equals the table's null value. -/
def objIsNull (creator : CreatorTable) (obj : Obj) : Bool :=
  obj = creator.nullValue

end CreatorTable

-----------------------------------------------------------------------------------------
-- Rows
-----------------------------------------------------------------------------------------

/-- The stored value of a field with its `_IsNull` bit. -/
structure Cell (type : CtableType) where
  value : Storage type
  isNull : Bool

/-- The contents of a row: the key of its hash entry (`none` for the null key) and one
cell for each field.
-/
structure Row (creator : CreatorTable) where
  key : Option CString
  cells : (field : creator.Field) → Cell (creator.type field)

/-- The initial value of a field: its default when the generator uses one. A notnull
varstring without a default points at an empty default string, and a tclobj at NULL.
-/
def FieldInfo.initialValue : (info : FieldInfo) → Storage info.type
  | { type := .tclobj, .. } => none
  | { type := .varstring, notnull, default, .. } =>
      match default with
      | some value => value
      | none =>
          if notnull then { text := some [], length := 0, allocatedLength := 0 }
          else { text := none, length := 0, allocatedLength := 0 }
  | { type, length, default, .. } => default.getD (Storage.zero length type)

/-- The cell of a field in the generated `basecopy`. -/
def FieldInfo.initialCell (info : FieldInfo) : Cell info.type where
  value := info.initialValue
  isNull := !info.notnull && info.default.isNone

/-- The generated `init`: a row with the null key and the field defaults. -/
def CreatorTable.init (creator : CreatorTable) : Row creator where
  key := none
  cells := fun field => (creator.fields field).initialCell

namespace Row

variable {creator : CreatorTable}

/-- Store a new cell for one field. -/
def setCell (row : Row creator) (field : creator.Field) (cell : Cell (creator.type field))
    : Row creator :=
  { row with cells := Function.update row.cells field cell }

/-- The characters at the key pointer. -/
def keyString (row : Row creator) : CString :=
  row.key.getD []

@[simp]
theorem setCell_key (row : Row creator) (field : creator.Field) (cell)
    : (row.setCell field cell).key = row.key :=
  rfl

@[simp]
theorem setCell_cells_self (row : Row creator) (field : creator.Field) (cell)
    : (row.setCell field cell).cells field = cell := by
  simp [setCell]

@[simp]
theorem setCell_cells_of_ne (row : Row creator) {field other : creator.Field} (cell)
    (different : other ≠ field)
    : (row.setCell field cell).cells other = row.cells other := by
  simp [setCell, different]

end Row

end SpeedTables
