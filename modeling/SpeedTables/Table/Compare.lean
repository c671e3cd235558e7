import SpeedTables.Table.Values

/-! The generated field compare functions, which order the entries of an index. -/

namespace SpeedTables

open Std

-----------------------------------------------------------------------------------------
-- Comparisons of stored values
-----------------------------------------------------------------------------------------

/-- `strcmp` -/
def strcmp (left right : CString) : Ordering :=
  compare left right

/-- `strncmp` over arrays of `width` bytes. -/
def strncmp (width : Nat) : List UInt8 → List UInt8 → Ordering :=
  compareOn (fun bytes => (bytes.take width).takeWhile (· ≠ 0))

/-- The `char` at a string pointer. -/
def firstChar (text : CString) : Int8 :=
  (text.headD 0).toInt8

/-- The comparison of strings in indexes: first characters as signed chars, then `strcmp`. -/
def compareString : CString → CString → Ordering :=
  compareLex (compareOn firstChar) strcmp

/-- Order the values for which `high` holds after all others. -/
def compareNullsHigh {α : Type*} (high : α → Bool) (cmp : α → α → Ordering) (left right : α)
    : Ordering :=
  if high left then
    if high right then .eq else .gt
  else
    if high right then .lt else cmp left right

/-- `boolFieldCompSource`: true sorts before false. -/
def compareBoolean (left right : Bool) : Ordering :=
  if left && !right then .lt
  else if !left && right then .gt
  else .eq

/-- The comparison of two non-null values of a field, by type. -/
def compareStorage (width : Nat) : (type : CtableType) → Storage type → Storage type → Ordering
  | .boolean => compareBoolean
  | .fixedstring => compareLex (compareOn firstChar) (strncmp width)
  | .varstring => fun left right => compareString (left.text.getD []) (right.text.getD [])
  | .char => compareOn UInt8.toInt8
  | .mac => fun left right => compare left right
  | .short => fun left right => compare left right
  | .int => fun left right => compare left right
  | .long => fun left right => compare left right
  | .wide => fun left right => compare left right
  | .float => fun left right => compare left right
  | .double => fun left right => compare left right
  | .inet => fun left right => compare left right
  | .tclobj => fun left right => strcmp (left.getD []) (right.getD [])
  | .key => fun _ _ => .eq

/-- Whether the compare function takes a cell for a null, which sorts high. -/
def Cell.sortsAsNull : {type : CtableType} → Cell type → Bool
  | .varstring, cell => cell.isNull || cell.value.text.isNone
  | _, cell => cell.isNull

/-- The comparison of two cells of a field. -/
def compareCell (info : FieldInfo) : Cell info.type → Cell info.type → Ordering :=
  if info.notnull then
    fun left right => compareStorage info.length info.type left.value right.value
  else
    compareNullsHigh Cell.sortsAsNull
      (fun left right => compareStorage info.length info.type left.value right.value)

/-- The compare function of a field, on rows. The key field compares hash entry keys. -/
def CreatorTable.compareFunction (creator : CreatorTable) (field : creator.Field)
    (left right : Row creator) : Ordering :=
  if field = creator.keyField then compareString left.keyString right.keyString
  else compareCell (creator.fields field) (left.cells field) (right.cells field)

-----------------------------------------------------------------------------------------
-- The compare functions are preorders
-----------------------------------------------------------------------------------------

instance strcmp_trans : TransCmp strcmp :=
  inferInstanceAs (TransCmp (fun left right : CString => compare left right))

instance compareString_trans : TransCmp compareString :=
  inferInstanceAs (TransCmp (compareLex (compareOn firstChar) strcmp))

instance strncmp_trans (width : Nat) : TransCmp (strncmp width) :=
  inferInstanceAs
    (TransCmp (compareOn (fun bytes : List UInt8 => (bytes.take width).takeWhile (· ≠ 0))))

/-- Pulling a preorder back along a function gives a preorder. -/
theorem transCmp_comap {α β : Type*} (cmp : β → β → Ordering) [TransCmp cmp] (f : α → β)
    : TransCmp (fun left right => cmp (f left) (f right)) where
  eq_swap := by
    intro left right
    exact (OrientedCmp.eq_swap : cmp (f left) (f right) = _)
  isLE_trans := by
    intro left middle right first second
    exact (TransCmp.isLE_trans first second : (cmp (f left) (f right)).isLE = true)

/-- Sorting nulls high keeps a preorder, by cases on which values are null. -/
instance compareNullsHigh_trans {α : Type*} (high : α → Bool) (cmp : α → α → Ordering)
    [TransCmp cmp]
    : TransCmp (compareNullsHigh high cmp) where
  eq_swap := by
    intro left right
    have swap : cmp left right = (cmp right left).swap := OrientedCmp.eq_swap
    cases leftHigh : high left <;> cases rightHigh : high right <;>
      simp [compareNullsHigh, leftHigh, rightHigh, swap]
  isLE_trans := by
    intro left middle right first second
    cases leftHigh : high left <;> cases middleHigh : high middle <;>
      cases rightHigh : high right <;>
      simp [compareNullsHigh, leftHigh, middleHigh, rightHigh] at first second ⊢
    exact (TransCmp.isLE_trans first second : (cmp left right).isLE = true)

instance compareBoolean_trans : TransCmp compareBoolean where
  eq_swap := by decide
  isLE_trans := by decide

instance compareStorage_trans (width : Nat) (type : CtableType)
    : TransCmp (compareStorage width type) := by
  cases type with
  | boolean => exact compareBoolean_trans
  | fixedstring =>
      exact inferInstanceAs (TransCmp (compareLex (compareOn firstChar) (strncmp width)))
  | varstring => exact transCmp_comap compareString (fun value : VarString => value.text.getD [])
  | char => exact inferInstanceAs (TransCmp (compareOn UInt8.toInt8))
  | mac | inet => exact inferInstanceAs (TransOrd (List UInt8))
  | short | int | long | wide => exact inferInstanceAs (TransOrd Int)
  | float | double => exact inferInstanceAs (TransOrd CDouble)
  | tclobj => exact transCmp_comap strcmp (fun value : Option Obj => value.getD [])
  | key =>
      refine { eq_swap := ?_, isLE_trans := ?_ }
      · intro left right
        rfl
      · intro left middle right first second
        rfl

instance compareCell_trans (info : FieldInfo) : TransCmp (compareCell info) := by
  have values : TransCmp (fun left right : Cell info.type =>
      compareStorage info.length info.type left.value right.value) :=
    transCmp_comap (compareStorage info.length info.type) Cell.value
  unfold compareCell
  split
  · exact values
  · exact compareNullsHigh_trans _ _

/-- Every field's compare function is a total preorder of the rows. -/
instance compareFunction_trans (creator : CreatorTable) (field : creator.Field)
    : TransCmp (creator.compareFunction field) := by
  by_cases isKey : field = creator.keyField
  · have same : creator.compareFunction field =
        fun left right => compareString left.keyString right.keyString := by
      funext left right
      simp [CreatorTable.compareFunction, isKey]
    rw [same]
    exact transCmp_comap compareString Row.keyString
  · have same : creator.compareFunction field =
        fun left right =>
          compareCell (creator.fields field) (left.cells field) (right.cells field) := by
      funext left right
      simp [CreatorTable.compareFunction, isKey]
    rw [same]
    exact transCmp_comap (compareCell (creator.fields field))
      (fun row : Row creator => row.cells field)

/-- Two rows agree on what the compare function of a field reads: the key, for the key field,
and the field's cell otherwise.
-/
def CreatorTable.SameOn (creator : CreatorTable) (field : creator.Field)
    (left right : Row creator) : Prop :=
  (field = creator.keyField → left.key = right.key)
    ∧ (field ≠ creator.keyField → left.cells field = right.cells field)

theorem CreatorTable.SameOn.refl (creator : CreatorTable) (field : creator.Field)
    (row : Row creator)
    : creator.SameOn field row row :=
  ⟨fun _ => rfl, fun _ => rfl⟩

/-- Rows that agree on a field compare the same. -/
theorem compareFunction_congr {creator : CreatorTable} {field : creator.Field}
    {left left' right right' : Row creator}
    (leftSame : creator.SameOn field left' left) (rightSame : creator.SameOn field right' right)
    : creator.compareFunction field left' right' = creator.compareFunction field left right := by
  by_cases isKey : field = creator.keyField
  · simp [CreatorTable.compareFunction, isKey, Row.keyString, leftSame.1 isKey, rightSame.1 isKey]
  · simp [CreatorTable.compareFunction, isKey, leftSame.2 isKey, rightSame.2 isKey]

/-- A row that agrees with another on a field is equal to it there. -/
theorem CreatorTable.SameOn.equal {creator : CreatorTable} {field : creator.Field}
    {left right : Row creator} (same : creator.SameOn field left right)
    : creator.compareFunction field left right = .eq := by
  rw [compareFunction_congr same (.refl creator field right)]
  exact ReflCmp.compare_self

end SpeedTables
