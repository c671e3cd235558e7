import SpeedTables.Table.Increment

/-! Reading a field back after it has been set. -/

namespace SpeedTables

open Lib

variable {creator : CreatorTable} {host : Host}

-----------------------------------------------------------------------------------------
-- Values of fields
-----------------------------------------------------------------------------------------

/-- The value of a field, as a `get` makes an object of it. -/
inductive FieldValue where
  | boolean (value : Bool)
  | number (value : Int)
  | double (value : CDouble)
  | text (value : CString)
  | character (value : UInt8)
  | address (bytes : List UInt8)
  deriving DecidableEq

/-- The value that is stored for a type. A varstring is read up to its recorded length, and a
missing object as an empty one.
-/
def storedValue : (type : CtableType) → Storage type → Option FieldValue
  | .boolean, value => some (.boolean value)
  | .fixedstring, value => some (.text value)
  | .varstring, value => value.text.map (fun text => .text (text.take value.length))
  | .char, value => some (.character value)
  | .mac, value | .inet, value => some (.address value)
  | .short, value | .int, value | .long, value | .wide, value => some (.number value)
  | .float, value | .double, value => some (.double value)
  | .tclobj, value => some (.text (value.getD []))
  | .key, _ => none

/-- `gen_new_obj` for a field that is kept in the row: a null has no value. -/
def Cell.fieldValue (info : FieldInfo) {type : CtableType} (cell : Cell type) : Option FieldValue :=
  if !info.notnull && cell.isNull then none else storedValue type cell.value

/-- `gen_new_obj` -/
def Row.fieldValue (row : Row creator) (field : creator.Field) : Option FieldValue :=
  if field = creator.keyField then some (.text row.keyString)
  else (row.cells field).fieldValue (creator.fields field)

/-- The value an object stands for in a field of a type, up to what the type calls equal: a fixed
string is cut or padded, and a `char` is the first character.
-/
def StandsFor (host : Host) (info : FieldInfo) (obj : Obj)
    : (type : CtableType) → FieldValue → Prop
  | .boolean, value => ∃ flag, host.getBoolean obj = some flag ∧ value = .boolean flag
  | .fixedstring, value => ∃ text, value = .text text ∧ text.length = info.length
      ∧ obj.take info.length <+: text
  | .varstring, value | .tclobj, value | .key, value => value = .text obj
  | .char, value => value = .character (obj.headD 0)
  | .mac, value => ∃ bytes, host.etherAton obj = some bytes ∧ value = .address bytes
  | .inet, value => ∃ bytes, host.inetAton obj = some bytes ∧ value = .address bytes
  | .short, value => ∃ number, host.getInt obj = some number ∧ InRange 16 number
      ∧ value = .number number
  | .int, value => ∃ number, host.getInt obj = some number ∧ value = .number number
  | .long, value => ∃ number, host.getLong obj = some number ∧ value = .number number
  | .wide, value => ∃ number, host.getWide obj = some number ∧ value = .number number
  | .float, value | .double, value => ∃ number, host.getDouble obj = some number
      ∧ value = .double number

/-- What a set is to do: once it has returned, the field has the value it was set to, and a value
that the field cannot hold is an error that leaves the row as it was.
-/
def SetCorrect (host : Host) (field : creator.Field) (id : RowId) (row : Row creator) (obj : Obj)
    : EStateM.Result Stop (CTable creator) Unit → Prop
  | .ok _ after =>
      ∃ now value, after.rows id = some now ∧ now.fieldValue field = some value
        ∧ StandsFor host (creator.fields field) obj (creator.type field) value
  | .error (.tcl _) after =>
      (∀ value, ¬ StandsFor host (creator.fields field) obj (creator.type field) value) →
        after.rows id = some row
  | .error (.fault _) _ => True

/-- When a set does that: a `char` that is not null is only ever set to the character it has, and
a `short` to numbers of 16 bits.
-/
def SetExact (host : Host) (info : FieldInfo) (obj : Obj) : (type : CtableType) → Cell type → Prop
  | .char, cell => (info.notnull = false ∧ cell.isNull = true) ∨ cell.value = obj.headD 0
  | .short, _ => ∀ number, host.getInt obj = some number → InRange 16 number
  | _, _ => True

/-- The array of a fixed string has the declared length. -/
def Cell.FitsLength (info : FieldInfo) : {type : CtableType} → Cell type → Prop
  | .fixedstring, cell => (show List UInt8 from cell.value).length = info.length
  | _, _ => True

-----------------------------------------------------------------------------------------
-- What a setter leaves in the cell
-----------------------------------------------------------------------------------------

/-- The cell after a setter that returns. -/
def SetOutcome.leaves {type : CtableType} (before : Cell type) : SetOutcome type → Option (Cell type)
  | .same => some before
  | .assign _ _ stored => some stored
  | .error _ | .nullPointer => none

section Outcome

variable {type : CtableType} {α : Type} {notnull : Bool} {parsed : Except TclError α}
  {unchanged : Storage type → α → Bool} {stored : α → Storage type} {null : Storage type}
  {cell next : Cell type} {info : FieldInfo} {obj : Obj}

/-- A setter leaves the converted value, which is not null, or an old value that counts as
unchanged.
-/
theorem standardSet_leaves
    (leaves : (standardSet notnull false parsed unchanged stored null cell).leaves cell = some next)
    : ∃ value, parsed = .ok value ∧ (!notnull && next.isNull) = false
        ∧ (next.value = stored value
          ∨ (unchanged cell.value value = true ∧ next = cell)) := by
  simp only [standardSet, Bool.and_false, Bool.false_eq_true, if_false] at leaves
  cases parsed with
  | error error => cases leaves
  | ok value =>
      refine ⟨value, rfl, ?_⟩
      dsimp only at leaves
      split at leaves
      · cases leaves
        exact ⟨Bool.and_false _, .inl rfl⟩
      next shown =>
        rw [Bool.not_eq_true] at shown
        split at leaves
        next same =>
          cases leaves
          exact ⟨shown, .inr ⟨same, rfl⟩⟩
        · cases leaves
          exact ⟨shown, .inl rfl⟩

/-- What a setter stores is the converted value, or the one that goes with a null. -/
theorem standardSet_assigns {objIsNull allocates : Bool} {flagged : Cell type}
    (assigns : standardSet notnull objIsNull parsed unchanged stored null cell
      = .assign flagged allocates next)
    : flagged.value = cell.value
        ∧ (next.value = null ∨ ∃ value, parsed = .ok value ∧ next.value = stored value) := by
  unfold standardSet at assigns
  split at assigns
  · split at assigns
    · cases assigns
    · cases assigns
      exact ⟨rfl, .inl rfl⟩
  · cases parsed with
    | error error => cases assigns
    | ok value =>
        dsimp only at assigns
        split at assigns
        · cases assigns
          exact ⟨rfl, .inr ⟨value, rfl, rfl⟩⟩
        · split at assigns
          · cases assigns
          · cases assigns
            exact ⟨rfl, .inr ⟨value, rfl, rfl⟩⟩

/-- So it leaves a value of a kind if both are of the kind. -/
theorem standardSet_stands {stands : FieldValue → Prop}
    (leaves : (standardSet info.notnull false parsed unchanged stored null cell).leaves cell
      = some next)
    (fresh : ∀ value, parsed = .ok value →
      ∃ shown, storedValue type (stored value) = some shown ∧ stands shown)
    (old : ∀ value, parsed = .ok value → unchanged cell.value value = true →
      (!info.notnull && cell.isNull) = false →
      ∃ shown, storedValue type cell.value = some shown ∧ stands shown)
    : ∃ shown, next.fieldValue info = some shown ∧ stands shown := by
  obtain ⟨value, parsed, notNull, left⟩ := standardSet_leaves leaves
  have reads : next.fieldValue info = storedValue type next.value := by
    rw [Cell.fieldValue, notNull, if_neg Bool.false_ne_true]
  rw [reads]
  rcases left with same | ⟨same, rfl⟩
  · rw [same]
    exact fresh value parsed
  · exact old value parsed same notNull

/-- Only a value that does not convert is rejected. -/
theorem standardSet_rejects (fails : ∀ value, parsed ≠ .ok value)
    : ∃ error, standardSet notnull false parsed unchanged stored null cell = .error error := by
  cases parsed with
  | ok value => exact absurd rfl (fails value)
  | error error =>
      exact ⟨error, by simp [standardSet]⟩

theorem converted_ok {α : Type} {result : Option α} {error : TclError} {value : α}
    (ok : converted result error = .ok value)
    : result = some value := by
  cases result with
  | none => cases ok
  | some other => exact congrArg some (Except.ok.inj ok)

/-- The bytes of a fixed string start with the string, and are as many as declared. -/
theorem fixedstringValue_pads (width : Nat) (default : List UInt8) (text : CString)
    : (fixedstringValue width default text).length = width
        ∧ text.take width <+: fixedstringValue width default text := by
  unfold fixedstringValue
  split
  next short =>
    constructor
    · simp only [List.length_append, List.length_drop, List.length_take, List.length_replicate]
      omega
    · rw [List.take_of_length_le (Nat.le_of_lt short)]
      exact List.prefix_append _ _
  next long =>
    exact ⟨by rw [List.length_take]; omega, List.prefix_refl _⟩

/-- A fixed string that counts as unchanged starts with the string. -/
theorem fixedstring_unchanged {width : Nat} {default old : List UInt8} {text : CString}
    (noNul : 0 ∉ text)
    (same : (let compared := if text.isEmpty && !default.isEmpty then default else text
      firstChar compared == firstChar old && strncmp width old compared == .eq) = true)
    : text.take width <+: old := by
  by_cases empty : text = []
  · rw [empty, List.take_nil]
    exact List.nil_prefix
  · have compared : (if text.isEmpty && !default.isEmpty then default else text) = text := by
      simp [empty]
    dsimp only at same
    rw [compared, Bool.and_eq_true] at same
    have equal := beq_iff_eq.mp same.2
    rw [strncmp, compareOn, Std.LawfulEqCmp.compare_eq_iff_eq] at equal
    have all : (text.take width).takeWhile (· ≠ 0) = text.take width := by
      rw [List.takeWhile_eq_self_iff]
      intro c member
      have other : c ≠ 0 := fun zero => noNul (zero ▸ List.mem_of_mem_take member)
      simpa using other
    rw [all] at equal
    rw [← equal]
    exact (List.takeWhile_prefix _).trans (List.take_prefix _ _)

end Outcome

/-- The setter of a varstring leaves what the standard one does, and may allocate. -/
theorem varstringSet_leaves {info : FieldInfo} {objIsNull : Bool} {cell : Cell .varstring}
    {obj : Obj}
    : (varstringSet info objIsNull cell obj).leaves cell
        = SetOutcome.leaves cell (standardSet info.notnull objIsNull (.ok obj)
          (fun old new => new.length == old.length && old.text == some new)
          (varstringValue cell.value) (varstringValue cell.value obj) cell) := by
  simp only [varstringSet]
  split
  next assigns => rw [assigns]; rfl
  · rfl

/-- A setter that returns leaves the value it was given, where it is exact. -/
theorem cellSet_stands {field : creator.Field} {cell next : Cell (creator.type field)} {obj : Obj}
    (notKey : field ≠ creator.keyField)
    (whole : creator.type field ≠ .float ∧ creator.type field ≠ .double)
    (other : obj ≠ creator.nullValue) (noNul : 0 ∉ obj)
    (fits : cell.FitsLength (creator.fields field))
    (exact' : SetExact host (creator.fields field) obj (creator.type field) cell)
    (leaves : (cellSet creator host field cell obj).leaves cell = some next)
    : ∃ value, next.fieldValue (creator.fields field) = some value
        ∧ StandsFor host (creator.fields field) obj (creator.type field) value := by
  have notNull : creator.objIsNull obj = false := decide_eq_false other
  have notKeyType : creator.type field ≠ .key := fun same => notKey ((creator.keyField_iff _).mp same)
  unfold cellSet at leaves
  rw [notNull] at leaves
  revert cell next
  revert whole notKeyType
  unfold CreatorTable.type
  generalize creator.fields field = info
  obtain ⟨name, type, notnull, indexed, unique, length, default⟩ := info
  intro whole notKeyType cell next fits exact' leaves
  cases type with
  | boolean =>
      refine standardSet_stands leaves ?_ ?_
      · intro value parsed
        exact ⟨_, rfl, value, converted_ok parsed, rfl⟩
      · intro value parsed same _
        exact ⟨_, rfl, value, converted_ok parsed, by rw [beq_iff_eq.mp same]⟩
  | fixedstring =>
      simp only [cellSetType, fixedstringSet] at leaves
      refine standardSet_stands leaves ?_ ?_
      · rintro _ ⟨⟩
        exact ⟨_, rfl, _, rfl, fixedstringValue_pads length (default.getD []) obj⟩
      · rintro _ ⟨⟩ same _
        exact ⟨_, rfl, _, rfl, fits, fixedstring_unchanged noNul same⟩
  | varstring =>
      simp only [cellSetType, varstringSet_leaves] at leaves
      refine standardSet_stands leaves ?_ ?_
      · rintro _ ⟨⟩
        exact ⟨_, rfl, congrArg FieldValue.text List.take_length⟩
      · rintro _ ⟨⟩ same _
        rw [Bool.and_eq_true, beq_iff_eq, beq_iff_eq] at same
        refine ⟨.text obj, ?_, rfl⟩
        rw [storedValue, same.2, ← same.1, Option.map_some, List.take_length]
  | char =>
      simp only [cellSetType, charSet] at leaves
      refine standardSet_stands leaves ?_ ?_
      · rintro _ ⟨⟩
        exact ⟨_, rfl, rfl⟩
      · rintro _ ⟨⟩ same notNull
        refine ⟨_, rfl, ?_⟩
        rcases exact' with ⟨nullable, null⟩ | kept
        · rw [nullable, null] at notNull
          cases notNull
        · exact congrArg FieldValue.character kept
  | mac =>
      simp only [cellSetType, macSet, Bool.and_false, Bool.false_and, Bool.false_eq_true, if_false]
        at leaves
      refine standardSet_stands leaves ?_ ?_
      · intro value parsed
        exact ⟨_, rfl, value, converted_ok parsed, rfl⟩
      · intro value parsed same _
        exact ⟨_, rfl, value, converted_ok parsed, by rw [beq_iff_eq.mp same]⟩
  | short =>
      refine standardSet_stands leaves ?_ ?_
      · intro value parsed
        have inside := exact' value (converted_ok parsed)
        exact ⟨_, rfl, value, converted_ok parsed, inside,
          congrArg FieldValue.number ((narrow_eq_iff (by decide)).mpr inside)⟩
      · intro value parsed same _
        exact ⟨_, rfl, value, converted_ok parsed, exact' value (converted_ok parsed),
          by rw [beq_iff_eq.mp same]⟩
  | int | long | wide =>
      refine standardSet_stands leaves ?_ ?_
      · intro value parsed
        exact ⟨_, rfl, value, converted_ok parsed, rfl⟩
      · intro value parsed same _
        exact ⟨_, rfl, value, converted_ok parsed, by rw [beq_iff_eq.mp same]⟩
  | float => exact absurd rfl whole.1
  | double => exact absurd rfl whole.2
  | inet =>
      refine standardSet_stands leaves ?_ ?_
      · intro value parsed
        exact ⟨_, rfl, value, converted_ok parsed, rfl⟩
      · intro value parsed same _
        exact ⟨_, rfl, value, converted_ok parsed, by rw [beq_iff_eq.mp same]⟩
  | tclobj =>
      simp only [cellSetType, tclobjSet, Bool.and_false, Bool.false_eq_true, if_false] at leaves
      cases leaves
      exact ⟨.text obj, by simp [Cell.fieldValue, storedValue], rfl⟩
  | key => exact absurd rfl notKeyType

/-- A value that stands for nothing in its field is rejected. -/
theorem cellSet_rejects {field : creator.Field} {cell : Cell (creator.type field)} {obj : Obj}
    (whole : creator.type field ≠ .float ∧ creator.type field ≠ .double)
    (other : obj ≠ creator.nullValue)
    (exact' : SetExact host (creator.fields field) obj (creator.type field) cell)
    (none' : ∀ value, ¬ StandsFor host (creator.fields field) obj (creator.type field) value)
    : ∃ error, cellSet creator host field cell obj = .error error := by
  have notNull : creator.objIsNull obj = false := decide_eq_false other
  unfold cellSet
  rw [notNull]
  revert cell
  revert whole none'
  unfold CreatorTable.type
  generalize creator.fields field = info
  obtain ⟨name, type, notnull, indexed, unique, length, default⟩ := info
  intro whole none' cell exact'
  cases type with
  | fixedstring => exact absurd ⟨_, rfl, fixedstringValue_pads length [] obj⟩ (none' _)
  | varstring | char | tclobj | key => exact absurd rfl (none' _)
  | float => exact absurd rfl whole.1
  | double => exact absurd rfl whole.2
  | mac =>
      simp only [cellSetType, macSet, Bool.and_false, Bool.false_and, Bool.false_eq_true, if_false]
      exact standardSet_rejects fun value parsed => none' _ ⟨value, converted_ok parsed, rfl⟩
  | short =>
      refine standardSet_rejects fun value parsed => none' _ ⟨value, converted_ok parsed, ?_, rfl⟩
      exact exact' value (converted_ok parsed)
  | _ => exact standardSet_rejects fun value parsed => none' _ ⟨value, converted_ok parsed, rfl⟩

/-- The array of a fixed string has its length from the start, where its default has. -/
theorem FieldInfo.initialCell_fits {info : FieldInfo}
    (default : ∀ value, info.default = some value → Cell.FitsLength info ⟨value, false⟩)
    : info.initialCell.FitsLength info := by
  obtain ⟨name, type, notnull, indexed, unique, length, given⟩ := info
  cases type with
  | fixedstring =>
      cases given with
      | none => exact List.length_replicate
      | some value => exact default value rfl
  | _ => trivial

/-- Setters keep it. -/
theorem cellSet_fits {field : creator.Field} {cell flagged stored : Cell (creator.type field)}
    {obj : Obj} {allocates : Bool} (fits : cell.FitsLength (creator.fields field))
    (assigns : cellSet creator host field cell obj = .assign flagged allocates stored)
    : flagged.FitsLength (creator.fields field) ∧ stored.FitsLength (creator.fields field) := by
  unfold cellSet at assigns
  revert cell flagged stored
  unfold CreatorTable.type
  generalize creator.objIsNull obj = isNull
  generalize creator.fields field = info
  obtain ⟨name, type, notnull, indexed, unique, length, default⟩ := info
  intro cell flagged stored fits assigns
  cases type with
  | fixedstring =>
      have pads := (fixedstringValue_pads length (default.getD []) obj).1
      simp only [cellSetType, fixedstringSet] at assigns
      obtain ⟨same, null | ⟨_, ⟨⟩, value⟩⟩ := standardSet_assigns assigns
      · exact ⟨(congrArg List.length same).trans fits, (congrArg List.length null).trans pads⟩
      · exact ⟨(congrArg List.length same).trans fits, (congrArg List.length value).trans pads⟩
  | _ => exact ⟨trivial, trivial⟩

theorem setExact_key {field : creator.Field} {cell : Cell (creator.type field)} {obj : Obj}
    (isKey : creator.type field = .key)
    : SetExact host (creator.fields field) obj (creator.type field) cell := by
  revert cell
  rw [isKey]
  intro cell
  trivial

/-- Where a setter is not exact, it returns and leaves another value. -/
theorem cellSet_differs {field : creator.Field} {cell : Cell (creator.type field)} {obj : Obj}
    (other : obj ≠ creator.nullValue)
    (inexact : ¬ SetExact host (creator.fields field) obj (creator.type field) cell)
    : ∃ next, (cellSet creator host field cell obj).leaves cell = some next
        ∧ ∀ value, next.fieldValue (creator.fields field) = some value →
          ¬ StandsFor host (creator.fields field) obj (creator.type field) value := by
  have notNull : creator.objIsNull obj = false := decide_eq_false other
  unfold cellSet
  rw [notNull]
  revert cell
  unfold CreatorTable.type
  generalize creator.fields field = info
  obtain ⟨name, type, notnull, indexed, unique, length, default⟩ := info
  intro cell inexact
  cases type with
  | char =>
      simp only [SetExact, not_or, not_and, Bool.not_eq_true] at inexact
      obtain ⟨notNull, different⟩ := inexact
      have shown : (!notnull && cell.isNull) = false := by
        cases notnull with
        | true => rfl
        | false => exact notNull rfl
      refine ⟨cell, ?_, ?_⟩
      · have changes : (cell.value != obj.headD 0) = true := bne_iff_ne.mpr different
        simp only [cellSetType, charSet, standardSet, Bool.and_false, Bool.false_eq_true, if_false,
          shown, changes, if_true, SetOutcome.leaves]
      · rintro value reads rfl
        rw [Cell.fieldValue, shown, if_neg Bool.false_ne_true] at reads
        exact different (FieldValue.character.inj (Option.some.inj reads))
  | short =>
      simp only [SetExact, not_forall] at inexact
      obtain ⟨number, reads, outside⟩ := inexact
      have returns : ∃ next, (cellSetType host
          ⟨name, .short, notnull, indexed, unique, length, default⟩ false .short default cell
          obj).leaves cell = some next := by
        simp only [cellSetType, numberSet, reads, converted, standardSet, Bool.and_false,
          Bool.false_eq_true, if_false]
        split
        · exact ⟨_, rfl⟩
        · split <;> exact ⟨_, rfl⟩
      obtain ⟨next, leaves⟩ := returns
      refine ⟨next, leaves, ?_⟩
      rintro value - ⟨same, read, inside, -⟩
      rw [reads, Option.some.injEq] at read
      exact outside (read ▸ inside)
  | _ => exact absurd trivial inexact

-----------------------------------------------------------------------------------------
-- What a setter leaves in the row
-----------------------------------------------------------------------------------------

section Rows

variable {table : CTable creator} {ctl : IndexCtl} {id : RowId} {row : Row creator}
  {field : creator.Field} {obj : Obj}

/-- Entering a row in an index changes no row. -/
theorem insertIntoIndex_rows
    : wp (insertIntoIndex host field id) (fun _ after => after.rows = table.rows)
        (fun _ _ => True) table :=
  wp_mono (respects_insertIntoIndex host field id table) (fun _ _ frame => frame.rows)
    fun _ _ _ => trivial

theorem removeFromIndexSource_rows
    : wp (removeFromIndexSource ctl field id) (fun _ after => after.rows = table.rows)
        (fun _ _ => True) table := by
  cases ctl with
  | new => exact rfl
  | normal =>
      exact wp_mono (respects_removeFromIndex field id table) (fun _ _ frame => frame.rows)
        fun _ _ _ => trivial

/-- The part of a setter behind its tests stores the cell, if it returns. -/
theorem storeCell_stores {flagged stored : Cell (creator.type field)} {allocates : Bool}
    (found : table.rows id = some row)
    : wp (storeCell host ctl id field flagged allocates stored)
        (fun _ after => after.rows id = some (row.setCell field stored)) (fun _ _ => True)
        table := by
  have replaced (first : Cell (creator.type field))
      : (row.setCell field first).setCell field stored = row.setCell field stored := by
    simp [Row.setCell]
  rw [storeCell]
  split
  · rw [storeUnindexed, wp_bind, wp_inspectRow found, wp_bind]
    have released : wp (releaseObj field id flagged)
        (fun _ after => ∃ now, after.rows id = some now
          ∧ now.setCell field stored = row.setCell field stored) (fun _ _ => True) table := by
      rw [releaseObj]
      split
      · rw [putCell_spec found]
        exact ⟨row.setCell field flagged, by simp [CTable.putRow], replaced flagged⟩
      · exact ⟨row, found, rfl⟩
    refine wp_mono released ?_ fun _ _ _ => trivial
    rintro _ middle ⟨now, here, same⟩
    have puts (next : CTable creator) (there : next.rows id = some now)
        : wp (putCell field id stored)
            (fun _ after => after.rows id = some (row.setCell field stored)) (fun _ _ => True)
            next := by
      rw [putCell_spec there, same]
      simp [CTable.putRow]
    split
    · rw [wp_bind]
      refine wp_mono removeFromIndexSource_rows ?_ fun _ _ _ => trivial
      intro _ next rows
      exact puts next (rows ▸ here)
    · exact puts middle here
  · rw [storeIndexed, wp_bind]
    refine wp_mono removeFromIndexSource_rows ?_ fun _ _ _ => trivial
    intro _ removed rows
    rw [wp_bind, putCell_spec (rows ▸ found), wp_bind]
    refine wp_mono allocateMayFail_spec ?_ fun _ _ _ => trivial
    rintro _ _ ⟨-, count, rfl⟩
    have contents : ({ removed.putRow id (row.setCell field flagged) with
        allocations := count } : CTable creator).rows id = some (row.setCell field flagged) := by
      simp [CTable.putRow]
    rw [wp_bind, putCell_spec contents, replaced]
    refine wp_mono insertIntoIndex_rows ?_ fun _ _ _ => trivial
    intro _ after same
    rw [same]
    simp [CTable.putRow]

/-- Setting a field that is kept in the row leaves what its setter leaves. -/
theorem setField_leaves (notKey : field ≠ creator.keyField) (found : table.rows id = some row)
    : wp (setField host ctl id field obj)
        (fun _ after => ∃ now, after.rows id = some now
          ∧ (cellSet creator host field (row.cells field) obj).leaves (row.cells field)
            = some (now.cells field))
        (fun _ _ => True) table := by
  rw [setField, wp_bind, wp_inspectRow found, if_neg notKey]
  split
  · trivial
  next same => exact ⟨row, found, by rw [same]; rfl⟩
  · trivial
  next flagged allocates stored assigns =>
    rw [wp_bind, assigns]
    refine wp_mono (storeCell_stores found) ?_ fun _ _ _ => trivial
    intro _ middle here
    rw [markDirty]
    split
    · exact ⟨_, here, by rw [Row.setCell_cells_self]; rfl⟩
    next other =>
      rw [setDirty, putCell_spec here]
      refine ⟨_, Function.update_self .., ?_⟩
      rw [Row.setCell_cells_of_ne _ _ other, Row.setCell_cells_self]
      rfl

/-- Setting the key of a row leaves the row with the key. -/
theorem setField_key (found : table.rows id = some row)
    : wp (setField host ctl id creator.keyField obj)
        (fun _ after => ∃ now, after.rows id = some now ∧ now.key = some obj) (fun _ _ => True)
        table := by
  rw [setField, wp_bind, wp_inspectRow found, if_pos rfl]
  split
  next kept => exact ⟨row, found, kept⟩
  · rw [wp_bind]
    have moved : wp (reinsertRow host ctl id obj)
        (fun _ after => ∃ now, after.rows id = some now ∧ now.key = some obj) (fun _ _ => True)
        table := by
      rw [reinsertRow, wp_bind, wp_inspect]
      refine ⟨fun entry _ => ?_, fun _ _ => trivial⟩
      cases entry with
      | some taken => trivial
      | none =>
          dsimp only
          rw [wp_bind]
          refine wp_of_results (fun _ unlinked _ => ?_) fun _ _ _ => trivial
          rw [wp_bind, wp_inspect]
          refine ⟨fun now _ => ?_, fun _ _ => trivial⟩
          rw [wp_bind, wp_modify, wp_bind]
          refine wp_mono (storeHashEntry_spec _ obj id _) ?_ fun _ _ _ => trivial
          intro result next stored
          cases stored with
          | found lookup => trivial
          | @created keyTable lookup linked =>
              dsimp only
              rw [if_pos rfl, enterIndexes]
              split
              · refine wp_forM ?_ ⟨_, Function.update_self .., rfl⟩
                rintro other _ before ⟨now, here, key⟩
                exact wp_mono insertIntoIndex_rows
                  (fun _ after rows => ⟨now, rows ▸ here, key⟩) fun _ _ _ => trivial
              · exact ⟨_, Function.update_self .., rfl⟩
    refine wp_mono moved ?_ fun _ _ _ => trivial
    rintro _ middle ⟨now, here, key⟩
    rw [setDirty, putCell_spec here]
    exact ⟨_, Function.update_self .., key⟩

/-- A private table without indexes that has a row at every address. -/
def Row.alone (row : Row creator) : CTable creator :=
  { CTable.empty creator false false with rows := fun _ => some row }

/-- There a set whose setter leaves a cell returns. -/
theorem setField_alone {next : Cell (creator.type field)} (notKey : field ≠ creator.keyField)
    (leaves : (cellSet creator host field (row.cells field) obj).leaves (row.cells field)
      = some next)
    : wp (setField host .new id field obj) (fun _ _ => True) (fun _ _ => False) row.alone := by
  have found : row.alone.rows id = some row := rfl
  rw [setField, wp_bind, wp_inspectRow found, if_neg notKey]
  cases outcome : cellSet creator host field (row.cells field) obj with
  | error error => rw [outcome] at leaves; cases leaves
  | nullPointer => rw [outcome] at leaves; cases leaves
  | same => trivial
  | assign flagged allocates stored =>
      dsimp only
      rw [wp_bind]
      have marks (after : CTable creator) (there : ∃ now, after.rows id = some now)
          : wp (markDirty id field) (fun _ _ => True) (fun _ _ => False) after := by
        obtain ⟨now, here⟩ := there
        rw [markDirty]
        split
        · trivial
        · rw [setDirty, putCell_spec here]
          trivial
      have kept := @storeCell_stores creator host row.alone .new id row field flagged stored
        allocates found
      have returns : wp (storeCell host .new id field flagged allocates stored)
          (fun _ _ => True) (fun _ _ => False) row.alone := by
        rw [storeCell]
        split
        · rw [storeUnindexed, wp_bind, wp_inspectRow found]
          have stores (next : CTable creator) (there : (next.rows id).isSome = true)
              : wp (putCell field id stored) (fun _ _ => True) (fun _ _ => False) next := by
            obtain ⟨now, here⟩ := Option.isSome_iff_exists.mp there
            rw [putCell_spec here]
            trivial
          rw [wp_bind, releaseObj]
          split
          · rw [putCell_spec found]
            exact wp_ite.mpr ⟨fun _ => stores _ (by simp [CTable.putRow]),
              fun _ => stores _ (by simp [CTable.putRow])⟩
          · exact wp_ite.mpr ⟨fun _ => stores _ rfl, fun _ => stores _ rfl⟩
        · change wp (do
              putCell field id flagged
              allocateMayFail host field allocates
              putCell field id stored
              insertIntoIndex host field id) _ _ _
          rw [wp_bind, putCell_spec found, wp_bind, allocateMayFail, wp_bind, wp_get]
          change wp (if (allocates && false) = true then _ else pure ()) _ _ _
          rw [Bool.and_false, if_neg Bool.false_ne_true, wp_pure, wp_bind,
            putCell_spec (Function.update_self ..)]
          trivial
      refine wp_mono (wp_and kept returns) ?_ fun _ _ stops => stops.2
      rintro _ after ⟨here, -⟩
      exact marks after ⟨_, here⟩

end Rows

-----------------------------------------------------------------------------------------
-- Round trips
-----------------------------------------------------------------------------------------

/-- A set leaves the value it was given where its setter is exact. -/
theorem setCorrect_of_exact {table : CTable creator} {ctl : IndexCtl} {id : RowId}
    {row : Row creator} {field : creator.Field} {obj : Obj} (found : table.rows id = some row)
    (whole : creator.type field ≠ .float ∧ creator.type field ≠ .double)
    (other : obj ≠ creator.nullValue) (noNul : 0 ∉ obj)
    (fits : (row.cells field).FitsLength (creator.fields field))
    (exact' : SetExact host (creator.fields field) obj (creator.type field) (row.cells field))
    : SetCorrect host field id row obj (setField host ctl id field obj table) := by
  by_cases isKey : field = creator.keyField
  · subst isKey
    have type : creator.type creator.keyField = .key := (creator.keyField_iff _).mpr rfl
    have stands : StandsFor host (creator.fields creator.keyField) obj
        (creator.type creator.keyField) (.text obj) := by
      rw [type]
      rfl
    cases run : setField host ctl id creator.keyField obj table with
    | ok _ after =>
        obtain ⟨now, here, key⟩ := wp_returns (setField_key found) run
        refine ⟨now, .text obj, here, ?_, stands⟩
        rw [Row.fieldValue, if_pos rfl, Row.keyString, key, Option.getD_some]
    | error stop after =>
        cases stop with
        | fault fault => trivial
        | tcl error => exact fun none' => absurd stands (none' _)
  · cases run : setField host ctl id field obj table with
    | ok _ after =>
        obtain ⟨now, here, leaves⟩ := wp_returns (setField_leaves isKey found) run
        obtain ⟨value, shown, stands⟩ := cellSet_stands isKey whole other noNul fits exact' leaves
        exact ⟨now, value, here, by rw [Row.fieldValue, if_neg isKey, shown], stands⟩
    | error stop after =>
        cases stop with
        | fault fault => trivial
        | tcl error =>
            intro none'
            obtain ⟨rejected, rejects⟩ := cellSet_rejects whole other exact' none'
            have stops : wp (setField host ctl id field obj) (fun _ _ => False)
                (fun _ after => after = table) table := by
              rw [setField, wp_bind, wp_inspectRow found, if_neg isKey, rejects]
              rfl
            rw [wp_stops stops run]
            exact found

/-- A set of any field but a floating-point one is right in every table, for what the field holds
and the value it is set to, exactly where its setter is exact.
-/
theorem set_roundTrips_iff {field : creator.Field}
    (whole : creator.type field ≠ .float ∧ creator.type field ≠ .double)
    (cell : Cell (creator.type field)) {obj : Obj} (other : obj ≠ creator.nullValue)
    (noNul : 0 ∉ obj) (fits : cell.FitsLength (creator.fields field))
    : (∀ (table : CTable creator) (ctl : IndexCtl) (id : RowId) (row : Row creator),
        table.rows id = some row → row.cells field = cell →
        SetCorrect host field id row obj (setField host ctl id field obj table))
      ↔ SetExact host (creator.fields field) obj (creator.type field) cell := by
  constructor
  · intro right
    by_contra inexact
    have notKey : field ≠ creator.keyField :=
      fun isKey => inexact (setExact_key ((creator.keyField_iff _).mpr isKey))
    obtain ⟨next, leaves, differs⟩ := cellSet_differs other inexact
    let row : Row creator := creator.init.setCell field cell
    have holds : row.cells field = cell := Row.setCell_cells_self ..
    rw [← holds] at leaves
    have returns := @setField_alone creator host 0 row field obj next notKey leaves
    have left := @setField_leaves creator host row.alone .new 0 row field obj notKey rfl
    have correct := right row.alone .new 0 row rfl holds
    cases run : setField host .new 0 field obj row.alone with
    | error stop after => exact wp_stops returns run
    | ok _ after =>
        obtain ⟨now, here, same⟩ := wp_returns left run
        rw [run] at correct
        obtain ⟨now', value, there, shown, stands⟩ := correct
        obtain rfl : now = now' := Option.some.inj (here.symm.trans there)
        obtain rfl : next = now.cells field := Option.some.inj (leaves.symm.trans same)
        rw [Row.fieldValue, if_neg notKey] at shown
        exact differs value shown stands
  · rintro exact' table ctl id row found rfl
    exact setCorrect_of_exact found whole other noNul fits exact'

/-- The fields `k`, `c`, `h` and `_dirty`: a key, a character, a short number and the flag. -/
def letterFields : Fin 4 → FieldInfo
  | 0 => { name := [107], type := .key, notnull := true, indexed := false, unique := false,
           length := 0, default := none }
  | 1 => { name := [99], type := .char, notnull := false, indexed := true, unique := false,
           length := 0, default := none }
  | 2 => { name := [104], type := .short, notnull := false, indexed := true, unique := false,
           length := 0, default := none }
  | 3 => { name := [95, 100, 105, 114, 116, 121], type := .boolean, notnull := true,
           indexed := false, unique := false, length := 0, default := some false }

def letterCreator : CreatorTable where
  nFields := 4
  fields := letterFields
  keyField := 0
  keyField_iff := by decide
  keyField_notnull := by decide
  default_notnull := by decide
  names_injective := by decide
  dirtyField := 3
  dirtyField_boolean := by decide
  dirtyField_unindexed := by decide
  nullValue := []

/-- The character `a` in its field. -/
def letterCell : Cell .char := ⟨(97 : UInt8), false⟩

/-- Setting the character `a` to `b`. -/
theorem set_roundTrips_iff_letter
    : (∀ (table : CTable letterCreator) (ctl : IndexCtl) (id : RowId) (row : Row letterCreator),
        table.rows id = some row → row.cells (1 : Fin 4) = letterCell →
        SetCorrect sampleHost (1 : Fin 4) id row [98]
          (setField sampleHost ctl id (1 : Fin 4) [98] table))
      ↔ SetExact sampleHost (letterFields 1) [98] .char letterCell :=
  @set_roundTrips_iff letterCreator sampleHost (1 : Fin 4) (by decide) letterCell [98]
    (by decide) (by decide) trivial

/-- A table whose row `a` has the character `a`. -/
def letterTable : CTable letterCreator :=
  (CTable.empty letterCreator false false).afterAll [setCommand countingHost [[97], [99], [97]]]

/-- What a set of a field of this row leaves there, when it returns. -/
def letterAfter (field : letterCreator.Field) (obj : Obj) : Option FieldValue :=
  match setField countingHost .normal 0 field obj letterTable with
  | .ok _ after => (after.rowAt 0).fieldValue field
  | .error _ _ => none

theorem letterAfter_correct {field : letterCreator.Field} {obj : Obj} {left : FieldValue}
    (leaves : letterAfter field obj = some left)
    (correct : SetCorrect countingHost field 0 (letterTable.rowAt 0) obj
      (setField countingHost .normal 0 field obj letterTable))
    : StandsFor countingHost (letterFields field) obj (letterCreator.type field) left := by
  unfold letterAfter at leaves
  cases run : setField countingHost .normal 0 field obj letterTable with
  | error stop after =>
      rw [run] at leaves
      cases leaves
  | ok _ after =>
      rw [run] at leaves correct
      obtain ⟨now, value, here, shown, stands⟩ := correct
      have same : (after.rowAt 0).fieldValue field = some value := by
        rw [CTable.rowAt, here, Option.getD_some, shown]
      exact Option.some.inj (same.symm.trans leaves) ▸ stands

/-- A character keeps its value when it is set to another, and a short takes the last 16 bits of a
number.
-/
theorem set_letter_kept
    : ¬ SetCorrect countingHost (1 : Fin 4) 0 (letterTable.rowAt 0) [98]
          (setField countingHost .normal 0 (1 : Fin 4) [98] letterTable)
      ∧ ¬ SetCorrect countingHost (2 : Fin 4) 0 (letterTable.rowAt 0) largestInt
          (setField countingHost .normal 0 (2 : Fin 4) largestInt letterTable) := by
  have kept : letterAfter (1 : Fin 4) [98] = some (.character 97) := by decide +kernel
  have cut : letterAfter (2 : Fin 4) largestInt = some (.number (-1)) := by decide +kernel
  have reads : countingHost.getInt largestInt = some (2 ^ 31 - 1) := by decide +kernel
  constructor
  · intro correct
    have stands : FieldValue.character 97 = .character 98 := letterAfter_correct kept correct
    exact absurd stands (by decide)
  · intro correct
    obtain ⟨number, read, inside, -⟩ := letterAfter_correct cut correct
    rw [reads, Option.some.injEq] at read
    rw [← read] at inside
    exact absurd inside.2 (by decide)

end SpeedTables
