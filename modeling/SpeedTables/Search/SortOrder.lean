import SpeedTables.Search.Frame
import SpeedTables.Table.Sample

/-! The order of a sort beside the order of an index. -/

namespace SpeedTables

open Std

-----------------------------------------------------------------------------------------
-- Signed and unsigned characters
-----------------------------------------------------------------------------------------

theorem toInt8_toInt (byte : UInt8)
    : byte.toInt8.toInt = if byte.toNat < 128 then (byte.toNat : Int) else byte.toNat - 256 := by
  have bound := byte.toNat_lt
  show byte.toBitVec.toInt = _
  rw [BitVec.toInt_eq_toNat_cond]
  simp only [UInt8.toNat_toBitVec]
  split <;> split <;> omega

/-- Two different bytes have the same order as signed and as unsigned characters when they
agree on the high bit.
-/
theorem compare_toInt8 {left right : UInt8} (different : left ≠ right)
    : compare left.toInt8 right.toInt8 = compare left right
      ↔ (left.toNat < 128 ↔ right.toNat < 128) := by
  have leftInt := toInt8_toInt left
  have rightInt := toInt8_toInt right
  have apart : left.toNat ≠ right.toNat := fun same => different (UInt8.toNat_inj.mp same)
  have leftBound := left.toNat_lt
  have rightBound := right.toNat_lt
  have signed : left.toInt8 ≠ right.toInt8 := by
    intro same
    rw [same] at leftInt
    split at leftInt <;> split at rightInt <;> omega
  show compareOfLessAndEq left.toInt8 right.toInt8 = compareOfLessAndEq left right ↔ _
  unfold compareOfLessAndEq
  rw [if_neg signed, if_neg different]
  by_cases first : left.toInt8 < right.toInt8 <;> by_cases second : left < right <;>
    simp only [first, second, ↓reduceIte, reduceCtorEq, true_iff, false_iff] <;>
    rw [Int8.lt_iff_toInt_lt] at first <;> rw [UInt8.lt_iff_toNat_lt] at second <;>
    split at leftInt <;> split at rightInt <;> omega

/-- The first byte of a string, or its terminating NUL. -/
def firstByte (text : CString) : UInt8 :=
  text.headD 0

/-- Whether the first bytes of two strings agree on the high bit. -/
def SameSide (left right : CString) : Prop :=
  (firstByte left).toNat < 128 ↔ (firstByte right).toNat < 128

instance (left right : CString) : Decidable (SameSide left right) :=
  inferInstanceAs (Decidable (_ ↔ _))

theorem compare_firstChar {left right : CString} (different : firstByte left ≠ firstByte right)
    : compareOn firstChar left right = compare (firstByte left) (firstByte right)
      ↔ SameSide left right :=
  compare_toInt8 different

theorem firstChar_eq {left right : CString}
    : compareOn firstChar left right = .eq ↔ firstByte left = firstByte right := by
  constructor
  · intro equal
    have same : firstChar left = firstChar right := LawfulEqCmp.eq_of_compare equal
    by_contra different
    have leftInt := toInt8_toInt (firstByte left)
    have rightInt := toInt8_toInt (firstByte right)
    have apart : (firstByte left).toNat ≠ (firstByte right).toNat :=
      fun same => different (UInt8.toNat_inj.mp same)
    have leftBound := (firstByte left).toNat_lt
    have rightBound := (firstByte right).toNat_lt
    have ints : (firstByte left).toInt8.toInt = (firstByte right).toInt8.toInt :=
      congrArg Int8.toInt same
    split at leftInt <;> split at rightInt <;> omega
  · intro same
    have equal : firstChar left = firstChar right := congrArg UInt8.toInt8 same
    exact compare_eq_iff_eq.mpr equal

/-- A nonzero byte is above the NUL. -/
theorem compare_zero {byte : UInt8} (present : byte ≠ 0)
    : compare 0 byte = .lt := by
  show compareOfLessAndEq 0 byte = .lt
  unfold compareOfLessAndEq
  rw [if_pos (UInt8.pos_iff_ne_zero.mpr present)]

/-- Strings without a common first byte are compared by their first bytes. -/
theorem compare_of_firstByte {left right : CString}
    (different : firstByte left ≠ firstByte right)
    : compare left right = compare (firstByte left) (firstByte right) := by
  cases left with
  | nil =>
      cases right with
      | nil => exact absurd rfl different
      | cons byte rest => exact (compare_zero fun zero => different zero.symm).symm
  | cons byte rest =>
      cases right with
      | nil =>
          have below : compare (0 : UInt8) byte = .lt := compare_zero different
          have above : compare byte (0 : UInt8) = .gt := OrientedCmp.gt_of_lt below
          exact above.symm
      | cons other more =>
          have apart : compare byte other ≠ .eq := fun equal =>
            different (compare_eq_iff_eq.mp equal)
          rw [List.compare_cons_cons]
          show (compare byte other).then (compare rest more) = compare byte other
          cases order : compare byte other with
          | lt | gt => rfl
          | eq => exact absurd order apart

/-- The shortcut of `compareString` gives the order of `strcmp` on the same side. -/
theorem compareString_eq_strcmp {left right : CString}
    : compareString left right = strcmp left right ↔ SameSide left right := by
  by_cases same : firstByte left = firstByte right
  · have shortcut : compareString left right = strcmp left right := by
      unfold compareString compareLex
      rw [firstChar_eq.mpr same]
      rfl
    exact iff_of_true shortcut (by rw [SameSide, same])
  · have shortcut : compareString left right = compareOn firstChar left right := by
      unfold compareString compareLex
      cases order : compareOn firstChar left right with
      | lt | gt => rfl
      | eq => exact absurd (firstChar_eq.mp order) same
    rw [shortcut, strcmp, compare_of_firstByte same]
    exact compare_firstChar same

/-- The same shortcut before a `strncmp`, which looks at no byte when the width is 0. -/
theorem compareFixed_eq_strncmp {width : Nat} {left right : CString}
    : compareLex (compareOn firstChar) (strncmp width) left right = strncmp width left right
      ↔ firstByte left = firstByte right ∨ (0 < width ∧ SameSide left right) := by
  by_cases same : firstByte left = firstByte right
  · have shortcut : compareLex (compareOn firstChar) (strncmp width) left right
        = strncmp width left right := by
      unfold compareLex
      rw [firstChar_eq.mpr same]
      rfl
    exact iff_of_true shortcut (.inl same)
  · have shortcut : compareLex (compareOn firstChar) (strncmp width) left right
        = compareOn firstChar left right := by
      unfold compareLex
      cases order : compareOn firstChar left right with
      | lt | gt => rfl
      | eq => exact absurd (firstChar_eq.mp order) same
    have first : ∀ text : CString, 0 < width →
        firstByte ((text.take width).takeWhile (· ≠ 0)) = firstByte text := by
      intro text positive
      obtain ⟨more, rfl⟩ := Nat.exists_eq_succ_of_ne_zero positive.ne'
      cases text with
      | nil => rfl
      | cons byte rest =>
          by_cases zero : byte = 0
          · simp [firstByte, zero]
          · simp [firstByte, zero]
    rw [shortcut, or_iff_right same]
    rcases Nat.eq_zero_or_pos width with rfl | positive
    · refine iff_of_false (fun equal => same (firstChar_eq.mp ?_)) (fun both => by simp at both)
      simpa [strncmp, compareOn] using equal
    · have bytes := @compare_of_firstByte ((left.take width).takeWhile (· ≠ 0))
        ((right.take width).takeWhile (· ≠ 0))
        (by rw [first left positive, first right positive]; exact same)
      rw [first left positive, first right positive] at bytes
      have ordered : strncmp width left right = compare (firstByte left) (firstByte right) :=
        bytes
      rw [ordered, and_iff_right positive]
      exact compare_firstChar same

-----------------------------------------------------------------------------------------
-- The two comparisons with what they dereference
-----------------------------------------------------------------------------------------

variable {creator : CreatorTable}

/-- Whether the index comparison of two cells reads through a NULL pointer: it checks a notnull
field for no nulls, and no field for a NULL object.
-/
def FieldInfo.indexReadsNull : (info : FieldInfo) → Cell info.type → Cell info.type → Bool
  | { type := .varstring, notnull, .. }, left, right =>
      notnull && (left.value.text.isNone || right.value.text.isNone)
  | { type := .tclobj, notnull, .. }, left, right =>
      !(!notnull && (left.isNull || right.isNull))
        && (left.value.isNone || right.value.isNone)
  | _, _, _ => false

/-- Whether the sort comparison of two cells reads through a NULL pointer: it checks varstrings
for NULL, and objects for nothing.
-/
def FieldInfo.sortReadsNull : (info : FieldInfo) → Cell info.type → Cell info.type → Bool
  | { type := .tclobj, .. }, left, right => left.value.isNone || right.value.isNone
  | _, _, _ => false

/-- A field's compare function, run on two rows. -/
def indexCompareRows (creator : CreatorTable) (field : creator.Field) (left right : Row creator)
    : Except Fault Ordering :=
  if (creator.fields field).indexReadsNull (left.cells field) (right.cells field) then
    .error .nullPointer
  else .ok (creator.compareFunction field left right)

/-- The comparison of an ascending sort on one field, run on two rows. -/
def sortCompareRows (creator : CreatorTable) (field : creator.Field) (left right : Row creator)
    : Except Fault Ordering :=
  if (creator.fields field).sortReadsNull (left.cells field) (right.cells field) then
    .error .nullPointer
  else .ok (sortCompareField field left right)

-----------------------------------------------------------------------------------------
-- When they agree
-----------------------------------------------------------------------------------------

/-- An order that looks at the stored texts alone has to put the nulls last. -/
def NullsLast (leftNull rightNull : Bool) (texts : Ordering) (values : Prop) : Prop :=
  match leftNull, rightNull with
  | true, true => texts = .eq
  | true, false => texts = .gt
  | false, true => texts = .lt
  | false, false => values

/-- The condition on two cells of a field under which sort and index put them in one order: a
varstring sorts by its pointer and text and not by its null flag, and without the signed
first character; a fixedstring sorts without the signed first character; an object sorts by
its string and not by its null flag, and must be there.
-/
def FieldInfo.SortsAlike : (info : FieldInfo) → Cell info.type → Cell info.type → Prop
  | { type := .varstring, notnull, .. }, left, right =>
      if notnull then
        left.value.text.isSome ∧ right.value.text.isSome
          ∧ SameSide (left.value.text.getD []) (right.value.text.getD [])
      else
        NullsLast (left.isNull || left.value.text.isNone) (right.isNull || right.value.text.isNone)
          (compare left.value.text right.value.text)
          (SameSide (left.value.text.getD []) (right.value.text.getD []))
  | { type := .fixedstring, notnull, length, .. }, left, right =>
      (notnull = false ∧ (left.isNull ∨ right.isNull))
        ∨ firstByte left.value = firstByte right.value
        ∨ (0 < length ∧ SameSide left.value right.value)
  | { type := .tclobj, notnull, .. }, left, right =>
      left.value.isSome ∧ right.value.isSome
        ∧ (notnull ∨ NullsLast left.isNull right.isNull
            (strcmp (left.value.getD []) (right.value.getD [])) True)
  | _, _, _ => True

theorem compareNullsHigh_eq_iff {α : Type*} {high : α → Bool} {cmp : α → α → Ordering}
    {left right : α} {texts : Ordering}
    : compareNullsHigh high cmp left right = texts
      ↔ NullsLast (high left) (high right) texts (cmp left right = texts) := by
  unfold compareNullsHigh NullsLast
  cases high left <;> cases high right <;> simp [eq_comm]

/-- The sort comparison of two cells of a field other than the key. -/
def sortCompareCell (info : FieldInfo) : Cell info.type → Cell info.type → Ordering :=
  if info.notnull ∨ info.type = .varstring ∨ info.type = .tclobj then
    sortCompareStorage info.length info.type
  else
    compareNullsHigh Cell.isNull (sortCompareStorage info.length info.type)

/-- Texts that are there compare as strings. -/
theorem compare_text {left right : Option CString} (leftSome : left.isSome)
    (rightSome : right.isSome)
    : compare left right = strcmp (left.getD []) (right.getD []) := by
  cases left with
  | none => cases leftSome
  | some left =>
      cases right with
      | none => cases rightSome
      | some right => rfl

/-- Two cells are in one order exactly under the condition, by the case of the type. -/
theorem cells_agree_iff (info : FieldInfo) (left right : Cell info.type)
    : (info.indexReadsNull left right = false ∧ info.sortReadsNull left right = false
        ∧ compareCell info left right = sortCompareCell info left right)
      ↔ info.SortsAlike left right := by
  obtain ⟨name, type, notnull, indexed, unique, length, default⟩ := info
  cases type with
  | varstring =>
      cases notnull with
      | true =>
          simp only [FieldInfo.indexReadsNull, FieldInfo.sortReadsNull, compareCell,
            sortCompareCell, FieldInfo.SortsAlike, Bool.true_and, Bool.or_eq_false_iff,
            ↓reduceIte, true_or, true_and, compareStorage, sortCompareStorage, compareOn]
          constructor
          · rintro ⟨⟨leftSome, rightSome⟩, same⟩
            rw [Option.isNone_eq_false_iff] at leftSome rightSome
            rw [compare_text leftSome rightSome, compareString_eq_strcmp] at same
            exact ⟨leftSome, rightSome, same⟩
          · rintro ⟨leftSome, rightSome, same⟩
            rw [compare_text leftSome rightSome, compareString_eq_strcmp]
            rw [Option.isNone_eq_false_iff, Option.isNone_eq_false_iff]
            exact ⟨⟨leftSome, rightSome⟩, same⟩
      | false =>
          simp only [FieldInfo.indexReadsNull, FieldInfo.sortReadsNull, compareCell,
            sortCompareCell, FieldInfo.SortsAlike, Bool.false_and, Bool.false_eq_true,
            ↓reduceIte, or_true, true_or, true_and, compareStorage, sortCompareStorage, compareOn]
          rw [compareNullsHigh_eq_iff]
          simp only [Cell.sortsAsNull]
          unfold NullsLast
          cases leftNull : left.isNull || left.value.text.isNone <;>
            cases rightNull : right.isNull || right.value.text.isNone <;> simp only
          simp only [Bool.or_eq_false_iff, Option.isNone_eq_false_iff] at leftNull rightNull
          rw [compare_text leftNull.2 rightNull.2, compareString_eq_strcmp]
  | fixedstring =>
      have values := @compareFixed_eq_strncmp length left.value right.value
      cases notnull with
      | true =>
          have same : FieldInfo.SortsAlike ⟨name, .fixedstring, true, indexed, unique, length,
              default⟩ left right
              ↔ firstByte left.value = firstByte right.value
                ∨ (0 < length ∧ SameSide left.value right.value) := by
            simp [FieldInfo.SortsAlike]
          rw [same, ← values]
          exact ⟨fun agree => agree.2.2, fun agree => ⟨rfl, rfl, agree⟩⟩
      | false =>
          simp only [FieldInfo.indexReadsNull, FieldInfo.sortReadsNull, compareCell,
            sortCompareCell, FieldInfo.SortsAlike, Bool.false_eq_true, ↓reduceIte, false_or,
            reduceCtorEq, true_and, compareStorage]
          rw [compareNullsHigh_eq_iff, ← values]
          simp only [Cell.sortsAsNull, NullsLast, compareNullsHigh]
          cases left.isNull <;> cases right.isNull <;> simp
          exact Iff.rfl
  | tclobj =>
      cases leftObj : left.value with
      | none => simp [FieldInfo.sortReadsNull, FieldInfo.SortsAlike, leftObj]
      | some leftText =>
          cases rightObj : right.value with
          | none => simp [FieldInfo.sortReadsNull, FieldInfo.SortsAlike, rightObj]
          | some rightText =>
              cases notnull with
              | true =>
                  simp [FieldInfo.indexReadsNull, FieldInfo.sortReadsNull, FieldInfo.SortsAlike,
                    leftObj, rightObj, compareCell, sortCompareCell, compareStorage,
                    sortCompareStorage]
              | false =>
                  simp only [FieldInfo.indexReadsNull, FieldInfo.sortReadsNull,
                    FieldInfo.SortsAlike, leftObj, rightObj, compareCell, sortCompareCell,
                    compareStorage, sortCompareStorage, Bool.false_eq_true, ↓reduceIte,
                    false_or, or_true, Option.isSome_some, Option.isNone_some, Bool.or_self,
                    Bool.and_false, true_and]
                  rw [compareNullsHigh_eq_iff]
                  simp only [Cell.sortsAsNull, leftObj, rightObj]
  | boolean | char | mac | short | int | long | wide | float | double | inet | key =>
      cases notnull <;> exact iff_of_true ⟨rfl, rfl, rfl⟩ trivial

instance sortCompareStorage_trans (width : Nat) (type : CtableType)
    : TransCmp (sortCompareStorage width type) := by
  cases type with
  | varstring =>
      exact transCmp_comap (fun left right : Option CString => compare left right)
        (fun cell : Cell .varstring => cell.value.text)
  | fixedstring =>
      exact transCmp_comap (strncmp width) (Cell.value : Cell .fixedstring → List UInt8)
  | boolean | char | mac | short | int | long | wide | float | double | inet | tclobj | key =>
      exact @transCmp_comap _ _ (compareStorage width _) (compareStorage_trans width _) Cell.value

instance sortCompareCell_trans (info : FieldInfo) : TransCmp (sortCompareCell info) := by
  unfold sortCompareCell
  split
  · exact sortCompareStorage_trans info.length info.type
  · exact compareNullsHigh_trans _ _

/-- Off the key, a sort compares the cells of its field. -/
theorem sortCompareField_cell {field : creator.Field} (notKey : field ≠ creator.keyField)
    : sortCompareField field
      = fun left right : Row creator =>
          sortCompareCell (creator.fields field) (left.cells field) (right.cells field) := by
  funext left right
  unfold sortCompareField sortCompareCell
  rw [if_neg notKey]
  split <;> rfl

instance sortCompareField_trans (field : creator.Field)
    : TransCmp (@sortCompareField creator field) := by
  by_cases isKey : field = creator.keyField
  · have same : sortCompareField field =
        fun left right : Row creator => compareString left.keyString right.keyString := by
      funext left right
      simp [sortCompareField, isKey]
    rw [same]
    exact transCmp_comap compareString Row.keyString
  · rw [sortCompareField_cell isKey]
    exact transCmp_comap (sortCompareCell (creator.fields field))
      (fun row : Row creator => row.cells field)

/-- The unused cells of the key field are always in one order. -/
theorem key_cells_agree {info : FieldInfo} (isKey : info.type = .key)
    (left right : Cell info.type)
    : info.indexReadsNull left right = false ∧ info.sortReadsNull left right = false
      ∧ compareCell info left right = sortCompareCell info left right := by
  rw [cells_agree_iff]
  obtain ⟨name, type, notnull, indexed, unique, length, default⟩ := info
  cases isKey
  exact trivial

/-- A comparison that may stop at a NULL pointer and one that may stop at another give one
order when neither does.
-/
theorem both_ok_iff {leftNull rightNull : Bool} {left right : Ordering}
    : (∃ ordering, (if leftNull then .error .nullPointer else .ok left : Except Fault Ordering)
          = .ok ordering
        ∧ (if rightNull then .error .nullPointer else .ok right : Except Fault Ordering)
          = .ok ordering)
      ↔ leftNull = false ∧ rightNull = false ∧ left = right := by
  cases leftNull <;> cases rightNull <;> simp [eq_comm]

/-- Both orders are total preorders, and they are the same one on two rows exactly under the
condition on the two cells.
-/
theorem sortCompareRows_iff (creator : CreatorTable) (field : creator.Field)
    : TransCmp (creator.compareFunction field)
      ∧ TransCmp (fun left right : Row creator => sortCompareField field left right)
      ∧ ∀ left right : Row creator,
        (∃ ordering, indexCompareRows creator field left right = .ok ordering
            ∧ sortCompareRows creator field left right = .ok ordering)
          ↔ (creator.fields field).SortsAlike (left.cells field) (right.cells field) := by
  refine ⟨compareFunction_trans creator field, sortCompareField_trans field, ?_⟩
  intro left right
  rw [← cells_agree_iff, indexCompareRows, sortCompareRows, both_ok_iff]
  by_cases isKey : field = creator.keyField
  · have same : creator.compareFunction field left right = sortCompareField field left right := by
      simp [CreatorTable.compareFunction, sortCompareField, isKey]
    have cells := key_cells_agree ((creator.keyField_iff field).mpr isKey) (left.cells field)
      (right.cells field)
    exact iff_of_true ⟨cells.1, cells.2.1, same⟩ cells
  · have index : creator.compareFunction field left right
        = compareCell (creator.fields field) (left.cells field) (right.cells field) := by
      simp [CreatorTable.compareFunction, isKey]
    rw [index, sortCompareField_cell isKey]

/-- A string that was never set is the last in its index and the first in a sort. -/
theorem sortCompareRows_null
    : ¬ ∀ (creator : CreatorTable) (field : creator.Field) (left right : Row creator),
        ∃ ordering, indexCompareRows creator field left right = .ok ordering
          ∧ sortCompareRows creator field left right = .ok ordering := by
  intro agree
  let field : sampleCreator.Field := (3 : Fin 6)
  let named : Cell (sampleCreator.type field) :=
    { value := { text := some [97], length := 1, allocatedLength := 2 }, isNull := false }
  obtain ⟨ordering, index, sort⟩ :=
    agree sampleCreator field (sampleCreator.init.setCell field named) sampleCreator.init
  have below : indexCompareRows sampleCreator field (sampleCreator.init.setCell field named)
      sampleCreator.init = .ok .lt := by
    decide +kernel
  have above : sortCompareRows sampleCreator field (sampleCreator.init.setCell field named)
      sampleCreator.init = .ok .gt := by
    decide +kernel
  cases below.symm.trans index
  cases above.symm.trans sort

end SpeedTables
