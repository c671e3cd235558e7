import SpeedTables.Search.Walk
import SpeedTables.Table.Outcomes
import SpeedTables.Table.Sample

/-! Which parsed comparisons the generated code can evaluate on which rows. -/

namespace SpeedTables

open Lib

variable {creator : CreatorTable} {host : Host}

-----------------------------------------------------------------------------------------
-- Comparisons without code or without data
-----------------------------------------------------------------------------------------

/-- The panic of a comparison that is not implemented, or a read through a NULL pointer. -/
def Fault.Uncovered (fault : Fault) : Prop :=
  fault = .nullPointer ∨ fault = .unimplementedComparison

/-- An evaluation ends with such a fault. -/
def Hits {α : Type} (result : Except Stop α) : Prop :=
  ∃ fault, fault.Uncovered ∧ result = .error (.fault fault)

section Hits

variable {α β : Type}

@[simp]
theorem not_hits_ok {value : α} : ¬ Hits (.ok value : Except Stop α) :=
  fun ⟨_, _, same⟩ => nomatch same

@[simp]
theorem not_hits_tcl {error : TclError} : ¬ Hits (.error (.tcl error) : Except Stop α) :=
  fun ⟨_, _, same⟩ => nomatch same

@[simp]
theorem hits_fault {fault : Fault}
    : Hits (.error (.fault fault) : Except Stop α) ↔ fault.Uncovered := by
  constructor
  · rintro ⟨other, uncovered, same⟩
    cases same
    exact uncovered
  · exact fun uncovered => ⟨fault, uncovered, rfl⟩

end Hits

section Loops

variable {α β : Type} {step : α → Except Stop β} {values : List α}

theorem bind_ok {first : Except Stop α} {next : α → Except Stop β} {result : β}
    (succeeds : (first >>= next) = .ok result)
    : ∃ value, first = .ok value ∧ next value = .ok result := by
  cases first with
  | error stop => cases succeeds
  | ok value => exact ⟨value, rfl, succeeds⟩

theorem mapM_cons_ok {value : α} {results : List β}
    (succeeds : (value :: values).mapM step = .ok results)
    : ∃ first rest, step value = .ok first ∧ values.mapM step = .ok rest
        ∧ results = first :: rest := by
  rw [List.mapM_cons] at succeeds
  obtain ⟨first, here, succeeds⟩ := bind_ok succeeds
  obtain ⟨rest, later, succeeds⟩ := bind_ok succeeds
  cases succeeds
  exact ⟨first, rest, here, later, rfl⟩

/-- The results of a loop that succeeds are results of its steps. -/
theorem mem_mapM_ok {results : List β} (succeeds : values.mapM step = .ok results) {result : β}
    (member : result ∈ results)
    : ∃ value ∈ values, step value = .ok result := by
  induction values generalizing results with
  | nil =>
      cases succeeds
      exact nomatch member
  | cons value rest ih =>
      obtain ⟨first, others, here, later, rfl⟩ := mapM_cons_ok succeeds
      rcases List.mem_cons.mp member with rfl | inRest
      · exact ⟨value, List.mem_cons_self, here⟩
      · obtain ⟨other, inside, same⟩ := ih later inRest
        exact ⟨other, List.mem_cons_of_mem value inside, same⟩

/-- A loop stops where one of its steps does. -/
theorem mapM_error {stop : Stop} (stops : values.mapM step = .error stop)
    : ∃ value ∈ values, step value = .error stop := by
  induction values with
  | nil => cases stops
  | cons value rest ih =>
      rw [List.mapM_cons] at stops
      cases here : step value with
      | error other =>
          obtain rfl : other = stop := by simpa [here, bind, Except.bind] using stops
          exact ⟨value, List.mem_cons_self, here⟩
      | ok first =>
          cases later : rest.mapM step with
          | error other =>
              obtain rfl : other = stop := by simpa [here, later, bind, Except.bind] using stops
              obtain ⟨other, inside, same⟩ := ih later
              exact ⟨other, List.mem_cons_of_mem value inside, same⟩
          | ok others => simp [here, later, bind, Except.bind, pure, Except.pure] at stops

end Loops

-----------------------------------------------------------------------------------------
-- The rows that hold the values of a comparison
-----------------------------------------------------------------------------------------

/-- Whether a value is the null of a field that can be null. -/
def nullFor (field : creator.Field) (obj : Obj) : Bool :=
  !(creator.fields field).notnull && creator.objIsNull obj

/-- Whether a field of a row is null for the comparisons. -/
def Row.nullIn (row : Row creator) (field : creator.Field) : Bool :=
  !(creator.fields field).notnull && (row.cells field).isNull

/-- A cell of a `tclobj` field without an object. -/
def Cell.lacksObject : {type : CtableType} → Cell type → Bool
  | .tclobj, cell => cell.value.isNone
  | _, _ => false

/-- The string pointer of a varstring cell. -/
def Cell.stringPointer : {type : CtableType} → Cell type → Option CString
  | .varstring, cell => cell.value.text
  | _, _ => none

/-- The cell a setter leaves behind. -/
def SetOutcome.Gives {type : CtableType} (outcome : SetOutcome type) (cell result : Cell type)
    : Prop :=
  (outcome = .same ∧ result = cell)
    ∨ ∃ flagged allocates, outcome = .assign flagged allocates result

/-- Setting a null cell leaves a null exactly when the value is the null value. -/
theorem standardSet_gives {type : CtableType} {α : Type} {notnull isNull : Bool}
    {parsed : Except TclError α} {unchanged : Storage type → α → Bool} {stored : α → Storage type}
    {null : Storage type} {cell result : Cell type} (initial : notnull = false → cell.isNull = true)
    (gives : (standardSet notnull isNull parsed unchanged stored null cell).Gives cell result)
    : (!notnull && result.isNull) = (!notnull && isNull) := by
  cases notnull with
  | true => rfl
  | false =>
      have start := initial rfl
      cases isNull with
      | true =>
          rcases gives with ⟨-, rfl⟩ | ⟨_, _, assigns⟩
          · simp [start]
          · simp [standardSet, start] at assigns
      | false =>
          cases parsed with
          | error error => simp [standardSet, SetOutcome.Gives] at gives
          | ok value =>
              obtain rfl : { value := stored value, isNull := false } = result := by
                simpa [standardSet, start, SetOutcome.Gives] using gives
              rfl

theorem varstringSet_gives {info : FieldInfo} {isNull : Bool} {obj : Obj}
    {cell result : Cell .varstring}
    (initial : info.notnull = false → cell.isNull = true ∧ cell.value.text = none)
    (gives : (varstringSet info isNull cell obj).Gives cell result)
    : (!info.notnull && result.isNull) = (!info.notnull && isNull)
      ∧ result.stringPointer = if !info.notnull && isNull then none else some obj := by
  cases nullable : info.notnull with
  | true =>
      refine ⟨by simp, ?_⟩
      cases same : (obj.length == cell.value.length && cell.value.text == some obj) with
      | true =>
          obtain rfl : result = cell := by
            simpa [varstringSet, standardSet, nullable, same, SetOutcome.Gives] using gives
          rw [Bool.and_eq_true, beq_iff_eq, beq_iff_eq] at same
          simp [Cell.stringPointer, same.2]
      | false =>
          obtain rfl : { value := varstringValue cell.value obj, isNull := cell.isNull }
              = result := by
            simpa [varstringSet, standardSet, nullable, same, SetOutcome.Gives] using gives
          simp [Cell.stringPointer, varstringValue]
  | false =>
      obtain ⟨start, empty⟩ := initial nullable
      cases isNull with
      | true =>
          obtain rfl : result = cell := by
            simpa [varstringSet, standardSet, nullable, start, SetOutcome.Gives] using gives
          simp [start, empty, Cell.stringPointer]
      | false =>
          obtain rfl : { value := varstringValue cell.value obj, isNull := false } = result := by
            simpa [varstringSet, standardSet, nullable, start, SetOutcome.Gives] using gives
          simp [Cell.stringPointer, varstringValue]

theorem tclobjSet_gives {info : FieldInfo} {isNull : Bool} {obj : Obj} {cell result : Cell .tclobj}
    (initial : info.notnull = false → cell.isNull = true)
    (gives : (tclobjSet info isNull cell obj).Gives cell result)
    : (!info.notnull && result.isNull) = (!info.notnull && isNull)
      ∧ ((!info.notnull && isNull) = false → result.lacksObject = false) := by
  cases null : (!info.notnull && isNull) with
  | true =>
      have both : info.notnull = false ∧ isNull = true := by simpa using null
      obtain rfl : result = cell := by
        simpa [tclobjSet, both.1, both.2, initial both.1, SetOutcome.Gives] using gives
      simp [both.1, initial both.1]
  | false =>
      obtain rfl : { value := some obj, isNull := false } = result := by
        simpa [tclobjSet, null, SetOutcome.Gives] using gives
      simp [Cell.lacksObject]

/-- The cell of a comparison row. A field with a default is notnull. -/
theorem cellSetType_gives {info : FieldInfo} {isNull : Bool} {obj : Obj} {cell : Cell info.type}
    (notKey : info.type ≠ .key) (defaults : info.default.isSome → info.notnull = true)
    (gives : (cellSetType host info isNull info.type info.default info.initialCell obj).Gives
      info.initialCell cell)
    : (!info.notnull && cell.isNull) = (!info.notnull && isNull)
      ∧ ((!info.notnull && isNull) = false → cell.lacksObject = false)
      ∧ (info.type = .varstring →
          cell.stringPointer = if !info.notnull && isNull then none else some obj) := by
  have initial (nullable : info.notnull = false) : info.initialCell.isNull = true := by
    cases default : info.default with
    | none => simp [FieldInfo.initialCell, nullable, default]
    | some value => simp [defaults (by simp [default])] at nullable
  obtain ⟨name, type, notnull, indexed, unique, length, default⟩ := info
  cases type with
  | tclobj =>
      have outcome := tclobjSet_gives initial gives
      exact ⟨outcome.1, outcome.2, nofun⟩
  | varstring =>
      have text (nullable : notnull = false)
          : (FieldInfo.initialCell ⟨name, .varstring, notnull, indexed, unique, length,
              default⟩).value.text = none := by
        obtain rfl : default = none := by
          simpa [nullable] using defaults
        simp [FieldInfo.initialCell, FieldInfo.initialValue, nullable]
      have outcome := varstringSet_gives (fun nullable => ⟨initial nullable, text nullable⟩) gives
      exact ⟨outcome.1, fun _ => rfl, fun _ => outcome.2⟩
  | mac =>
      have guarded : (!notnull && isNull && !(FieldInfo.initialCell ⟨name, .mac, notnull, indexed,
          unique, length, default⟩).isNull) = false := by
        cases nullable : notnull with
        | true => simp
        | false =>
            subst nullable
            simp [initial rfl]
      simp only [cellSetType, macSet, guarded, Bool.false_eq_true, if_false] at gives
      exact ⟨standardSet_gives initial gives, fun _ => rfl, nofun⟩
  | key => exact absurd rfl notKey
  | fixedstring =>
      simp only [cellSetType, fixedstringSet] at gives
      exact ⟨standardSet_gives initial gives, fun _ => rfl, nofun⟩
  | char =>
      simp only [cellSetType, charSet] at gives
      exact ⟨standardSet_gives initial gives, fun _ => rfl, nofun⟩
  | boolean | short | int | long | wide | float | double | inet =>
      exact ⟨standardSet_gives initial gives, fun _ => rfl, nofun⟩

theorem standardSet_covered {type : CtableType} {α : Type} {notnull isNull : Bool}
    {parsed : Except TclError α} {unchanged : Storage type → α → Bool} {stored : α → Storage type}
    {null : Storage type} {cell : Cell type}
    : standardSet notnull isNull parsed unchanged stored null cell ≠ .nullPointer := by
  unfold standardSet
  repeat' split
  all_goals simp

/-- A private set does not read through a NULL pointer: only a null address that replaces
another one does.
-/
theorem cellSetType_covered {info : FieldInfo} {isNull : Bool} {obj : Obj}
    (defaults : info.default.isSome → info.notnull = true)
    : cellSetType host info isNull info.type info.default info.initialCell obj ≠ .nullPointer := by
  obtain ⟨name, type, notnull, indexed, unique, length, default⟩ := info
  cases type with
  | tclobj =>
      simp only [cellSetType, tclobjSet]
      repeat' split
      all_goals simp
  | varstring =>
      simp only [cellSetType, varstringSet]
      split
      · simp
      · exact standardSet_covered
  | mac =>
      simp only [cellSetType, macSet]
      split
      · rename_i stops
        cases notnull <;> cases default <;> simp_all [FieldInfo.initialCell]
      · exact standardSet_covered
  | key => simp [cellSetType]
  | fixedstring =>
      simp only [cellSetType, fixedstringSet]
      exact standardSet_covered
  | char =>
      simp only [cellSetType, charSet]
      exact standardSet_covered
  | boolean | short | int | long | wide | float | double | inet => exact standardSet_covered

theorem lacksObject_of_ne {type : CtableType} (different : type ≠ .tclobj) (cell : Cell type)
    : cell.lacksObject = false := by
  cases type with
  | tclobj => exact absurd rfl different
  | _ => rfl

/-- The row of a comparison with a value. -/
theorem searchRow_ok {field : creator.Field} {obj : Obj} {row1 : Row creator}
    (made : searchRow host field obj = .ok row1)
    : row1.nullIn field = nullFor field obj
      ∧ (nullFor field obj = false → (row1.cells field).lacksObject = false)
      ∧ (creator.type field = .varstring →
          (row1.cells field).stringPointer = if nullFor field obj then none else some obj) := by
  unfold searchRow setPrivate at made
  by_cases isKey : field = creator.keyField
  · have type := (creator.keyField_iff field).mpr isKey
    have notnull : (creator.fields field).notnull = true := isKey ▸ creator.keyField_notnull
    refine ⟨by simp [Row.nullIn, nullFor, notnull], fun _ => lacksObject_of_ne ?_ _, ?_⟩
    · simp [CreatorTable.type, type]
    · simp [CreatorTable.type, type]
  · rw [if_neg isKey] at made
    have gives : (cellSet creator host field (creator.init.cells field) obj).Gives
        (creator.init.cells field) (row1.cells field) := by
      cases outcome : cellSet creator host field (creator.init.cells field) obj with
      | error error => simp [outcome] at made
      | same =>
          obtain rfl : creator.init = row1 := by simpa [outcome] using made
          exact Or.inl ⟨rfl, rfl⟩
      | nullPointer => simp [outcome] at made
      | assign flagged allocates stored =>
          obtain rfl : creator.init.setCell field stored = row1 := by
            simpa [outcome] using made
          exact Or.inr ⟨flagged, allocates, by simp⟩
    have notKey : (creator.fields field).type ≠ .key := fun type =>
      isKey ((creator.keyField_iff field).mp type)
    exact cellSetType_gives notKey (creator.default_notnull field) gives

theorem searchRow_key {obj : Obj} {row1 : Row creator}
    (made : searchRow host creator.keyField obj = .ok row1)
    : row1.keyString = obj := by
  simp only [searchRow, setPrivate, ↓reduceIte] at made
  cases made
  rfl

/-- An object field takes every value. -/
theorem searchRow_tclobj {field : creator.Field} (type : creator.type field = .tclobj) (obj : Obj)
    : ∃ row1, searchRow host field obj = .ok row1 := by
  have notKey : field ≠ creator.keyField := by
    intro isKey
    have key := (creator.keyField_iff field).mpr isKey
    rw [CreatorTable.type, key] at type
    cases type
  have outcome (info : FieldInfo) (isNull : Bool) (cell : Cell info.type) (type : info.type = .tclobj)
      : cellSetType host info isNull info.type info.default cell obj = .same
        ∨ ∃ flagged allocates stored,
            cellSetType host info isNull info.type info.default cell obj
              = .assign flagged allocates stored := by
    obtain ⟨name, type', notnull, indexed, unique, length, default⟩ := info
    cases type
    simp only [cellSetType, tclobjSet]
    repeat' split
    all_goals simp
  unfold searchRow setPrivate
  rw [if_neg notKey]
  rcases outcome (creator.fields field) (creator.objIsNull obj) (creator.init.cells field) type with
    same | ⟨flagged, allocates, stored, assigns⟩
  · exact ⟨creator.init, by simp [cellSet, same]⟩
  · exact ⟨creator.init.setCell field stored, by simp [cellSet, assigns]⟩

theorem searchRow_covered (field : creator.Field) (obj : Obj)
    : ¬ Hits (searchRow host field obj) := by
  unfold searchRow setPrivate
  by_cases isKey : field = creator.keyField
  · simp [isKey]
  · rw [if_neg isKey]
    have safe : cellSet creator host field (creator.init.cells field) obj ≠ .nullPointer :=
      cellSetType_covered (creator.default_notnull field)
    cases outcome : cellSet creator host field (creator.init.cells field) obj with
    | error error => simp
    | same => simp
    | nullPointer => exact absurd outcome safe
    | assign flagged allocates stored => simp

-----------------------------------------------------------------------------------------
-- Parsed components
-----------------------------------------------------------------------------------------

/-- What `ctable_ParseSearch` leaves in a component. -/
def Component.Parsed (host : Host) (component : Component creator) : Prop :=
  match component.term with
  | .compare _ row1 => ∃ value, searchRow host component.field value = .ok row1
  | .range row1 row2 =>
      (∃ low, searchRow host component.field low = .ok row1)
        ∧ ∃ high, searchRow host component.field high = .ok row2
  | .matching term row1 =>
      matchable (creator.type component.field) = true
        ∧ term.type = searchMatchPatternCheck term.word
        ∧ searchRow host component.field term.word = .ok row1
  | _ => True

theorem parseTerm_parsed {field : creator.Field} {word : CString} {type : CompType}
    {values : List Obj} {term : Term creator}
    (parses : parseTerm host field word type values = .ok term)
    : Component.Parsed host { field := field, term := term } := by
  unfold parseTerm at parses
  split at parses
  · cases parses
    exact trivial
  · cases parses
    exact trivial
  · cases parses
    exact trivial
  · cases parses
    exact trivial
  · split at parses <;> cases parses
    exact trivial
  · obtain ⟨row1, low, rest⟩ := bind_ok parses
    obtain ⟨row2, high, rest⟩ := bind_ok rest
    cases rest
    exact ⟨⟨_, low⟩, _, high⟩
  · split at parses
    · rename_i isString
      obtain ⟨row1, made, rest⟩ := bind_ok parses
      cases rest
      exact ⟨isString, rfl, made⟩
    · cases parses
  · obtain ⟨row1, made, rest⟩ := bind_ok parses
    cases rest
    exact ⟨_, made⟩
  all_goals cases parses

theorem parseComponent_parsed {expression : Obj} {component : Component creator}
    (parses : parseComponent host expression = .ok component)
    : component.Parsed host := by
  unfold parseComponent at parses
  split at parses
  · cases parses
  · split at parses
    · cases parses
    · split at parses
      · cases parses
      · obtain ⟨term, parsed, rest⟩ := bind_ok parses
        cases rest
        exact parseTerm_parsed parsed
  · cases parses

theorem parseSearch_parsed {list : Obj} {components : List (Component creator)}
    (parses : parseSearch host list = .ok components)
    : ∀ component ∈ components, component.Parsed host := by
  unfold parseSearch at parses
  split at parses
  · cases parses
  · intro component member
    obtain ⟨expression, -, parsed⟩ := mem_mapM_ok parses member
    exact parseComponent_parsed parsed

-----------------------------------------------------------------------------------------
-- Covered rows
-----------------------------------------------------------------------------------------

/-- Whether the generated comparison of a type has truth values. -/
def CtableType.hasTruth : CtableType → Bool
  | .boolean | .char | .short | .int | .long | .wide | .float | .double => true
  | _ => false

/-- When a parsed component can be evaluated on a row. A truth value needs a type that has
them, and a match one that is not a fixedstring, unless the row is null. A match needs the
string of its pattern, which is not kept for the null value, and a string in the row. A
comparison needs the object of a row that it does not skip as a null.
-/
def Component.Covers (component : Component creator) (row : Row creator) : Prop :=
  let field := component.field
  match component.term with
  | .isNull | .notNull => True
  | .isTrue | .isFalse => row.nullIn field = true ∨ (creator.type field).hasTruth = true
  | .matching term _ =>
      row.nullIn field = true
        ∨ field = creator.keyField
        ∨ (creator.type field = .varstring
          ∧ (term.type = .unanchored
            ∨ (nullFor field term.word = false
              ∧ ((row.cells field).stringPointer.isSome = true
                ∨ (term.type = .anchored ∧ term.word = [])))))
  | .compare _ row1 | .range row1 _ =>
      (row.cells field).lacksObject = false ∨ row.nullIn field = true
        ∨ row1.nullIn field = true
  | .inList values =>
      (row.cells field).lacksObject = false ∨ row.nullIn field = true
        ∨ ∀ value ∈ values, nullFor field value = true

/-- Whether a comparison of two cells reads through a NULL object pointer. -/
def Cell.readsNull (notnull : Bool) : {type : CtableType} → Cell type → Cell type → Bool
  | .tclobj, left, right =>
      !(!notnull && (left.isNull || right.isNull)) && (left.value.isNone || right.value.isNone)
  | _, _, _ => false

/-- A comparison reads through a NULL object pointer unless one of its rows is null. -/
theorem readsNullObj_iff (field : creator.Field) (left right : Row creator)
    : readsNullObj creator field left right = true
      ↔ left.nullIn field = false ∧ right.nullIn field = false
        ∧ ((left.cells field).lacksObject = true ∨ (right.cells field).lacksObject = true) := by
  have cells (type : CtableType) (notnull : Bool) (left right : Cell type)
      : left.readsNull notnull right = true
        ↔ (!notnull && left.isNull) = false ∧ (!notnull && right.isNull) = false
          ∧ (left.lacksObject = true ∨ right.lacksObject = true) := by
    cases type with
    | tclobj =>
        cases notnull <;> cases leftNull : left.isNull <;> cases rightNull : right.isNull <;>
          simp [Cell.readsNull, Cell.lacksObject, leftNull, rightNull]
    | _ => simp [Cell.readsNull, Cell.lacksObject]
  exact cells _ _ _ _

theorem compareRows_error {field : creator.Field} {left right : Row creator} {fault : Fault}
    (stops : compareRows creator field left right = .error fault)
    : readsNullObj creator field left right = true ∧ fault = .nullPointer := by
  unfold compareRows at stops
  split at stops
  · rename_i reads
    cases stops
    exact ⟨reads, rfl⟩
  · cases stops

/-- A comparison with a row of the parser's stops exactly at a row without its object. -/
theorem reads_searchRow_iff {field : creator.Field} {value : Obj} {row row1 : Row creator}
    (made : searchRow host field value = .ok row1)
    : readsNullObj creator field row row1 = true
      ↔ ¬ ((row.cells field).lacksObject = false ∨ row.nullIn field = true
        ∨ row1.nullIn field = true) := by
  obtain ⟨null, object, -⟩ := searchRow_ok made
  rw [readsNullObj_iff]
  simp only [not_or, Bool.not_eq_false, Bool.not_eq_true]
  constructor
  · rintro ⟨left, right, lacks⟩
    have whole : (row1.cells field).lacksObject = false := object (null ▸ right)
    rw [whole] at lacks
    exact ⟨by simpa using lacks, left, right⟩
  · rintro ⟨lacks, left, right⟩
    exact ⟨left, right, Or.inl lacks⟩

/-- A comparison that needs its rows hits a NULL pointer where they lack an object. -/
theorem hits_compareRows {field : creator.Field} {left right : Row creator}
    {next : Ordering → Except Stop Bool} (safe : ∀ ordering, ¬ Hits (next ordering))
    : Hits (match compareRows creator field left right with
        | .error fault => .error (.fault fault)
        | .ok ordering => next ordering)
      ↔ readsNullObj creator field left right = true := by
  cases reads : readsNullObj creator field left right with
  | true => simp [compareRows, reads, Fault.Uncovered]
  | false => simpa [compareRows, reads] using safe _

/-- A null object is above one that is missing without being null. -/
theorem compareCell_null {info : FieldInfo} {left right : Cell info.type}
    (lacks : left.lacksObject = true) (notNull : (!info.notnull && left.isNull) = false)
    (null : (!info.notnull && right.isNull) = true)
    : compareCell info left right = .lt := by
  obtain ⟨name, type, notnull, indexed, unique, length, default⟩ := info
  cases type with
  | tclobj =>
      obtain ⟨rfl, isNull⟩ : notnull = false ∧ right.isNull = true := by simpa using null
      have leftNull : left.isNull = false := by simpa using notNull
      simp [compareCell, compareNullsHigh, Cell.sortsAsNull, leftNull, isNull]
  | _ => cases lacks

theorem compareRows_null {field : creator.Field} {row row1 : Row creator}
    (lacks : (row.cells field).lacksObject = true) (notNull : row.nullIn field = false)
    (null : row1.nullIn field = true)
    : compareRows creator field row row1 = .ok .lt := by
  have notKey : field ≠ creator.keyField := by
    rintro rfl
    simp [Row.nullIn, creator.keyField_notnull] at null
  have reads : readsNullObj creator field row row1 = false := by
    rw [Bool.eq_false_iff, Ne, readsNullObj_iff]
    simp [null]
  rw [compareRows, reads, if_neg (by simp), CreatorTable.compareFunction, if_neg notKey,
    compareCell_null lacks notNull null]

theorem truth_eq_none {type : CtableType} {value : Storage type}
    : truth type value = none ↔ type.hasTruth = false := by
  cases type <;> simp [truth, CtableType.hasTruth]

/-- The loop ends or runs out of its bound, by induction on the bound. -/
theorem boyerMooreLoop_error {nocase : Bool} {needle haystack : CString} {fault : Fault}
    {fuel shift : Nat} (stops : boyerMooreLoop nocase needle haystack fuel shift = .error fault)
    : fault = .endlessLoop := by
  induction fuel generalizing shift with
  | zero =>
      cases stops
      rfl
  | succ fuel ih =>
      rw [boyerMooreLoop] at stops
      split at stops
      · cases stops
      · split at stops
        · cases stops
        · exact ih stops

/-- A Boyer-Moore search may read before its needle, but both its strings are there. -/
theorem boyerMoore_covered {nocase : Bool} {needle haystack : CString} {fault : Fault}
    (stops : boyerMooreSearch nocase needle haystack = .error fault)
    : ¬ fault.Uncovered := by
  unfold boyerMooreSearch at stops
  dsimp only at stops
  split at stops
  · cases stops
  · split at stops
    · cases stops
      simp [Fault.Uncovered]
    · rw [boyerMooreLoop_error stops]
      simp [Fault.Uncovered]

/-- A pattern that starts with a star is not anchored, by induction on the rest. -/
theorem patternLoop_star {rest : CString} {last : Bool} : patternLoop true rest last ≠ .anchored := by
  induction rest generalizing last with
  | nil => cases last <;> simp [patternLoop]
  | cons byte rest ih =>
      rw [patternLoop]
      split
      · split
        · exact ih
        · simp
      · split
        · simp
        · exact ih

theorem searchMatchPatternCheck_anchored {pattern : CString}
    (anchored : searchMatchPatternCheck pattern = .anchored)
    : pattern.headD 42 = 42 ↔ pattern = [] := by
  cases pattern with
  | nil => simp
  | cons first rest =>
      have noStar : first ≠ 42 := by
        rintro rfl
        exact patternLoop_star anchored
      simp [noStar]

/-- A match needs its pattern and the string of the row, unless it searches without an anchor. -/
theorem keepsText_hits {term : MatchTerm} {text pattern : Option CString}
    (check : term.type = searchMatchPatternCheck term.word)
    (kept : ∀ held, pattern = some held → held = term.word)
    : Hits (orStop (term.keepsText host text pattern))
      ↔ ¬ (term.type = .unanchored
        ∨ (pattern.isSome = true
          ∧ (text.isSome = true ∨ (term.type = .anchored ∧ term.word = [])))) := by
  have null : Fault.nullPointer.Uncovered := Or.inl rfl
  unfold MatchTerm.keepsText MatchTerm.matches
  cases type : term.type with
  | unanchored =>
      cases found : boyerMooreSearch term.nocase (term.word.drop 1).dropLast (text.getD []) with
      | error fault =>
          simp only [found, orStop, hits_fault, true_or, not_true_eq_false, iff_false]
          exact boyerMoore_covered found
      | ok value => simp only [found, orStop, not_hits_ok, true_or, not_true_eq_false]
  | anchored =>
      have stars := searchMatchPatternCheck_anchored (check.symm.trans type)
      cases pattern with
      | none => simp [orStop, null]
      | some held =>
          obtain rfl := kept held rfl
          cases text with
          | some text => simp [orStop]
          | none =>
              by_cases empty : term.word = []
              · simp [orStop, empty]
              · have noStar : ¬ term.word.headD 42 = 42 := fun star => empty (stars.mp star)
                simp only [if_neg noStar]
                simp [orStop, null, empty]
  | pattern =>
      cases pattern with
      | none => simp [orStop, null]
      | some held =>
          cases text with
          | some text => simp [orStop]
          | none => simp [orStop, null]

theorem hits_truth {type : CtableType} {value : Storage type} {use : Bool → Bool}
    : Hits (orStop (match truth type value with
        | some value => .ok (use value)
        | none => .error .nullPointer))
      ↔ type.hasTruth = false := by
  rw [← @truth_eq_none type value]
  cases truth type value with
  | none => simp [orStop, Fault.Uncovered]
  | some value => simp [orStop]

theorem matchText_eq {type : CtableType} (cell : Cell type)
    : matchText type cell.value
      = if type = .varstring then .ok cell.stringPointer else .error .unimplementedComparison := by
  cases type <;> rfl

/-- Comparisons that read no NULL pointer do not stop, by induction on the rows. -/
theorem equalsAny_covered {field : creator.Field} {row : Row creator} {rows : List (Row creator)}
    (safe : ∀ row1 ∈ rows, readsNullObj creator field row row1 = false)
    : ¬ Hits (orStop (equalsAny field row rows)) := by
  induction rows with
  | nil => simp [equalsAny, orStop]
  | cons row1 rest ih =>
      have later := ih fun other member => safe other (List.mem_cons_of_mem row1 member)
      have compared : compareRows creator field row row1
          = .ok (creator.compareFunction field row row1) := by
        simp [compareRows, safe row1 List.mem_cons_self]
      cases ordering : creator.compareFunction field row row1 with
      | eq => simp [equalsAny, compared, ordering, orStop]
      | lt => simpa [equalsAny, compared, ordering] using later
      | gt => simpa [equalsAny, compared, ordering] using later

/-- The loop over an `in` list stops at the first value that is not null, when the row lacks its
object and is not null. By induction on the values.
-/
theorem hits_equalsAny_lacking {field : creator.Field} {row : Row creator} {values : List Obj}
    {rows : List (Row creator)} (made : createInRows host field values = .ok rows)
    (lacks : (row.cells field).lacksObject = true) (notNull : row.nullIn field = false)
    : Hits (orStop (equalsAny field row rows))
      ↔ ¬ ∀ value ∈ values, nullFor field value = true := by
  unfold createInRows at made
  induction values generalizing rows with
  | nil =>
      cases made
      simp [equalsAny, orStop]
  | cons value rest ih =>
      obtain ⟨row1, others, here, later, rfl⟩ := mapM_cons_ok made
      have reads := @reads_searchRow_iff _ _ _ _ row _ here
      rw [(searchRow_ok here).1, lacks, notNull] at reads
      cases null : nullFor field value with
      | true =>
          have below := compareRows_null lacks notNull ((searchRow_ok here).1.trans null)
          rw [equalsAny, below]
          simpa [null] using ih later
      | false =>
          have stops : readsNullObj creator field row row1 = true := by simpa [null] using reads
          simp [equalsAny, compareRows, stops, orStop, Fault.Uncovered, null]

theorem hits_equalsAny {field : creator.Field} {row : Row creator} {values : List Obj}
    {rows : List (Row creator)} (made : createInRows host field values = .ok rows)
    : Hits (orStop (equalsAny field row rows))
      ↔ ¬ ((row.cells field).lacksObject = false ∨ row.nullIn field = true
        ∨ ∀ value ∈ values, nullFor field value = true) := by
  by_cases skipped : (row.cells field).lacksObject = false ∨ row.nullIn field = true
  · refine iff_of_false (equalsAny_covered fun row1 member => ?_) ?_
    · obtain ⟨value, -, here⟩ := mem_mapM_ok made member
      rw [Bool.eq_false_iff, Ne, reads_searchRow_iff here]
      tauto
    · tauto
  · simp only [not_or, Bool.not_eq_false, Bool.not_eq_true] at skipped
    rw [hits_equalsAny_lacking made skipped.1 skipped.2]
    simp [skipped.1, skipped.2]

/-- A component stops for want of code or data exactly on the rows it does not cover, by the
case of its term.
-/
theorem test_hits_iff {component : Component creator} (parsed : component.Parsed host)
    (row : Row creator)
    : Hits (component.test host row) ↔ ¬ component.Covers row := by
  obtain ⟨field, term⟩ := component
  cases term with
  | isNull =>
      simp only [Component.test, fieldTest, Component.Covers, not_true_eq_false, iff_false]
      split <;> simp [orStop]
  | notNull =>
      simp only [Component.test, fieldTest, Component.Covers, not_true_eq_false, iff_false]
      split <;> simp [orStop]
  | isTrue =>
      simp only [Component.test, fieldTest, Component.Covers, Row.nullIn, not_or]
      cases isNull : !(creator.fields field).notnull && (row.cells field).isNull with
      | true => simp [orStop]
      | false => 
          simp only [Bool.false_eq_true, if_false, not_false_eq_true, true_and, Bool.not_eq_true]
          exact @hits_truth _ _ id
  | isFalse =>
      simp only [Component.test, fieldTest, Component.Covers, Row.nullIn, not_or]
      cases isNull : !(creator.fields field).notnull && (row.cells field).isNull with
      | true => simp [orStop]
      | false => 
          simp only [Bool.false_eq_true, if_false, not_false_eq_true, true_and, Bool.not_eq_true]
          exact @hits_truth _ _ not
  | compare op row1 =>
      obtain ⟨value, made⟩ := parsed
      rw [Component.Covers, ← reads_searchRow_iff made, ← hits_compareRows]
      · exact Iff.rfl
      · exact fun ordering => not_hits_ok
  | range row1 row2 =>
      obtain ⟨⟨low, lowMade⟩, high, highMade⟩ := parsed
      have first := @reads_searchRow_iff _ _ _ _ row _ lowMade
      have second := @reads_searchRow_iff _ _ _ _ row _ highMade
      simp only [Component.Covers, ← first]
      cases reads : readsNullObj creator field row row1 with
      | true => simp [Component.test, compareRows, reads, Fault.Uncovered]
      | false =>
          simp only [Bool.false_eq_true, iff_false]
          by_cases below : creator.compareFunction field row row1 = .lt
          · simp [Component.test, compareRows, reads, below]
          · have whole : readsNullObj creator field row row2 = false := by
              rw [Bool.eq_false_iff, Ne, second]
              simp only [not_not]
              by_contra apart
              simp only [not_or, Bool.not_eq_false, Bool.not_eq_true] at apart
              have null : row1.nullIn field = true := by
                simpa [reads, apart.1, apart.2.1] using first
              have compared := compareRows_null apart.1 apart.2.1 null
              simp only [compareRows, reads, Bool.false_eq_true, if_false, Except.ok.injEq]
                at compared
              exact below compared
            simp only [Component.test, compareRows, reads, whole, Bool.false_eq_true, if_false]
            exact not_hits_ok
  | matching term row1 =>
      obtain ⟨isString, check, made⟩ := parsed
      simp only [Component.test, fieldTest, Component.Covers, Row.nullIn]
      cases isNull : !(creator.fields field).notnull && (row.cells field).isNull with
      | true => simp [orStop]
      | false =>
          simp only [Bool.false_eq_true, if_false, false_or]
          by_cases isKey : field = creator.keyField
          · subst isKey
            have kept : ∀ held, some row1.keyString = some held → held = term.word := by
              intro held same
              rw [← Option.some.inj same, searchRow_key made]
            rw [if_pos rfl, keepsText_hits check kept]
            simp
          · rw [if_neg isKey]
            simp only [matchField, matchText_eq, isKey, false_or]
            by_cases string : creator.type field = .varstring
            · have pointer := (searchRow_ok made).2.2 string
              have kept : ∀ held, (row1.cells field).stringPointer = some held
                  → held = term.word := by
                intro held same
                rw [pointer] at same
                split at same <;> cases same
                rfl
              simp only [if_pos string]
              rw [keepsText_hits check kept, pointer]
              cases nullFor field term.word <;> simp [string]
            · simp [string, orStop, Fault.Uncovered]
  | inList values =>
      cases made : createInRows host field values with
      | error stop =>
          obtain ⟨value, -, stops⟩ := mapM_error made
          have safe : ¬ Hits (Except.error stop : Except Stop Bool) := by
            rintro ⟨fault, uncovered, same⟩
            cases same
            exact searchRow_covered field value ⟨fault, uncovered, stops⟩
          refine iff_of_false (by simpa only [Component.test, made] using safe) ?_
          have notObject : creator.type field ≠ .tclobj := by
            intro type
            obtain ⟨row1, made⟩ := @searchRow_tclobj _ host _ type value
            exact nomatch made.symm.trans stops
          simp [Component.Covers, lacksObject_of_ne notObject]
      | ok rows =>
          simp only [Component.test, made, Component.Covers]
          exact hits_equalsAny made

/-- The loop of the generated comparison stops only where one of its tests does. -/
theorem searchCompare_covered {components : List (Component creator)} {row : Row creator}
    (safe : ∀ component ∈ components, ¬ Hits (component.test host row))
    (alreadySearched : Option Nat) (index : Nat)
    : ¬ Hits (searchCompare host alreadySearched row index components) := by
  induction components generalizing index with
  | nil => exact not_hits_ok
  | cons component rest ih =>
      have later := ih (fun other member => safe other (List.mem_cons_of_mem component member))
        (index + 1)
      have here := safe component List.mem_cons_self
      unfold searchCompare
      split
      · exact later
      · cases test : component.test host row with
        | error stop =>
            rw [test] at here
            rintro ⟨fault, uncovered, same⟩
            cases same
            exact here (hits_fault.mpr uncovered)
        | ok passes =>
            cases passes with
            | false => exact not_hits_ok
            | true => exact later

-----------------------------------------------------------------------------------------
-- Walks
-----------------------------------------------------------------------------------------

/-- A stop that is not such a fault. -/
def CoveredStop (stop : Stop) (_ : CTable creator) : Prop :=
  ∀ fault, stop = .fault fault → ¬ fault.Uncovered

/-- An action does not end with such a fault. -/
def Evaluates {α : Type} (action : TableM creator α) (table : CTable creator) : Prop :=
  wp action (fun _ _ => True) CoveredStop table

/-- The nodes of an index hold rows of the table. -/
def CTable.Filled (table : CTable creator) (skip : SkipList RowId) : Prop :=
  ∀ node ∈ skip.nodes, ∃ first rest row, node.bucket = first :: rest ∧ table.rows first = some row

/-- A row that the start of a walk does not pass over. -/
def Plan.Admits (plan : Plan creator) (field : creator.Field) (row : Row creator) : Prop :=
  ∀ row1, plan.row1 = some row1 → plan.skipStart ≠ .reset →
    creator.compareFunction field row row1 ≠ .lt

/-- A walk has the rows that it compares with, and the objects of the rows that it compares. -/
structure Plan.WalkCovered (plan : Plan creator) (table : CTable creator) : Prop where
  listed : plan.walkType = .skip → plan.skipList ≠ none
  starts
    : ∀ walked skip,
        plan.walkType = .skip
        → plan.skipList = some walked
        → table.walkedList walked.field walked.head = .ok skip
        → table.Filled skip
        → Evaluates (startSkip plan walked.field skip) table
  probes
    : ∀ walked skip inIndex,
        plan.walkType = .skip
        → plan.skipList = some walked
        → table.walkedList walked.field walked.head = .ok skip
        → table.Filled skip
        → Evaluates (nextInValue plan walked.field walked.head inIndex) table
  stops
    : ∀ walked id row,
        plan.walkType = .skip
        → plan.skipList = some walked
        → table.rows id = some row
        → plan.Admits walked.field row
        → Evaluates (pastEnd plan walked.field row) table

/-- The candidate that a skip-list walk was planned for. -/
structure Plan.Chose (plan : Plan creator) (host : Host) (component : Component creator) : Prop where
  list : ∃ head, plan.skipList = some { field := component.field, head := head }
  start : plan.skipStart = (skipTypes component.term).start
  stop : plan.skipEnd = (skipTypes component.term).stop
  next : plan.skipNext = (skipTypes component.term).next
  row1 : plan.row1 = component.term.row1
  row2 : (∀ values, component.term ≠ .inList values) → plan.row2 = component.term.row2
  values
    : ∀ values,
        component.term = .inList values
        → createInRows host component.field values = .ok plan.inListRows
  scored : 0 ≤ (skipTypes component.term).score + 1 ∧ (skipTypes component.term).next ≠ .match

theorem usable_scored {table : CTable creator} {previous : List (Option creator.Field)}
    {sortField : Option creator.Field} {component : Component creator} {skip : SkipList RowId}
    (found : usable table previous sortField component = some skip)
    : 0 ≤ (skipTypes component.term).score + 1 ∧ (skipTypes component.term).next ≠ .match := by
  unfold usable at found
  by_cases skipped : (skipTypes component.term).next = .match ∨ some component.field ∈ previous
      ∨ (if sortField = some component.field then (skipTypes component.term).score + 1
        else (skipTypes component.term).score) < 0
  · rw [if_pos skipped] at found
    cases found
  · simp only [not_or] at skipped
    refine ⟨?_, skipped.1⟩
    have score := skipped.2.2
    split at score <;> omega

theorem takeSkip_chose {plan after : Plan creator} {head : NodeId} {index : Nat}
    {component : Component creator} (takes : plan.takeSkip host head index component = .ok after)
    (scored : 0 ≤ (skipTypes component.term).score + 1
      ∧ (skipTypes component.term).next ≠ .match)
    : after.Chose host component := by
  unfold Plan.takeSkip at takes
  dsimp only at takes
  split at takes
  · rename_i values term
    split at takes
    · cases takes
    · rename_i rows made
      cases takes
      refine ⟨⟨head, rfl⟩, rfl, rfl, rfl, rfl, fun others => absurd term (others values), ?_, scored⟩
      intro others same
      cases term.symm.trans same
      exact made
  · rename_i notList
    cases takes
    exact ⟨⟨head, rfl⟩, rfl, rfl, rfl, rfl, fun _ => rfl,
      fun values same => absurd same (notList values), scored⟩

/-- A skip-list walk is planned for one of the components, by induction on the loop. -/
theorem planLoop_chose {table : CTable creator} {previous : List (Option creator.Field)}
    {sortField : Option creator.Field} {entries : List (Nat × Component creator)}
    {plan after : Plan creator}
    (plans : planLoop host table previous sortField entries plan = .ok after)
    (skips : after.walkType = .skip)
    : plan = after ∨ ∃ entry ∈ entries, after.Chose host entry.2 := by
  induction entries generalizing plan with
  | nil =>
      cases plans
      exact Or.inl rfl
  | cons entry rest ih =>
      obtain ⟨index, component⟩ := entry
      have later {other : Plan creator}
          (plans : planLoop host table previous sortField rest other = .ok after)
          : other = after ∨ ∃ entry ∈ (index, component) :: rest, after.Chose host entry.2 := by
        rcases ih plans with same | ⟨entry, member, chose⟩
        · exact Or.inl same
        · exact Or.inr ⟨entry, List.mem_cons_of_mem _ member, chose⟩
      rw [planLoop] at plans
      split at plans
      · rename_i hashed found
        cases plans
        split at found
        · unfold Plan.takeHash at found
          split at found <;> cases found <;> cases skips
        · cases found
      · split at plans
        · exact later plans
        · rename_i skip found
          split at plans
          · cases plans
          · rename_i taken takes
            have chose := takeSkip_chose takes (usable_scored found)
            rcases later plans with rfl | chosen
            · exact Or.inr ⟨(index, component), List.mem_cons_self, chose⟩
            · exact Or.inr chosen

section Comparisons

variable {table : CTable creator} {field : creator.Field} {skip : SkipList RowId}
  {row : Row creator} {fault : Fault}

/-- A row compares with every row of the table without reading a NULL pointer. -/
def CTable.ComparesWith (table : CTable creator) (field : creator.Field) (row : Row creator)
    : Prop :=
  ∀ id other, table.rows id = some other →
    readsNullObj creator field row other = false ∧ readsNullObj creator field other row = false

theorem compareBucket_covered (filled : table.Filled skip)
    (compares : table.ComparesWith field row) {node : Node RowId} (member : node ∈ skip.nodes)
    : table.compareBucket field row node.bucket ≠ .error fault := by
  obtain ⟨first, rest, other, bucket, found⟩ := filled node member
  simp [bucket, CTable.compareBucket, CTable.row, found, compareRows, (compares first other found).1]

theorem locate_covered (filled : table.Filled skip) (compares : table.ComparesWith field row)
    (stops : table.locate field skip row = .error fault)
    : ¬ fault.Uncovered := by
  unfold CTable.locate at stops
  split at stops
  · cases stops
    simp [Fault.Uncovered]
  · obtain ⟨node, member, before⟩ := locate_stops stops
    unfold CTable.beforeRow at before
    split at before
    · rename_i compared
      exact absurd compared (compareBucket_covered filled compares member)
    · cases before

theorem locate_nodes {rest : List (Node RowId)} (finds : table.locate field skip row = .ok rest)
    : rest ⊆ skip.nodes := by
  unfold CTable.locate at finds
  split at finds
  · cases finds
  · exact locate_subset finds

/-- Passing over nodes stops at no comparison, by induction on the nodes. -/
theorem dropNodes_covered (filled : table.Filled skip) (compares : table.ComparesWith field row)
    {passes : Ordering → Bool} {nodes : List (Node RowId)} (part : nodes ⊆ skip.nodes)
    : table.dropNodes field row passes nodes ≠ .error fault := by
  induction nodes with
  | nil => simp [CTable.dropNodes]
  | cons node rest ih =>
      unfold CTable.dropNodes
      split
      · rename_i compared
        exact absurd compared (compareBucket_covered filled compares (part List.mem_cons_self))
      · split
        · exact ih fun other member => part (List.mem_cons_of_mem node member)
        · simp

theorem setCurl_rows {curl : Option NodeId} : (table.setCurl field curl).rows = table.rows := by
  unfold CTable.setCurl
  split <;> rfl

/-- Moving the current position leaves the nodes of every index alone. -/
theorem setCurl_walkedList {curl : Option NodeId} {other : creator.Field} {head : NodeId}
    {moved : SkipList RowId} (walked : (table.setCurl field curl).walkedList other head = .ok moved)
    : ∃ skip, table.walkedList other head = .ok skip ∧ moved.nodes = skip.nodes := by
  unfold CTable.walkedList CTable.setCurl at *
  cases list : table.skipLists field with
  | none =>
      rw [list] at walked
      exact ⟨moved, walked, rfl⟩
  | some skip =>
      rw [list] at walked
      by_cases same : other = field
      · subst same
        simp only [CTable.setSkipList, Function.update_self] at walked
        split at walked <;> cases walked
        rename_i sameHead
        exact ⟨skip, by simp [list, sameHead], rfl⟩
      · simp only [CTable.setSkipList, Function.update_of_ne same] at walked
        exact ⟨moved, walked, rfl⟩

theorem Filled.congr {other : CTable creator} {moved : SkipList RowId} (filled : table.Filled skip)
    (rows : other.rows = table.rows) (nodes : moved.nodes = skip.nodes)
    : other.Filled moved := by
  intro node member
  obtain ⟨first, rest, row, bucket, found⟩ := filled node (nodes ▸ member)
  exact ⟨first, rest, row, bucket, by rw [rows, found]⟩

/-- A lookup compares with rows of the table only. Its result is the table with the index moved. -/
theorem sfind_covered (filled : table.Filled skip) (compares : table.ComparesWith field row)
    : wp (sfind field skip row) (fun _ after => ∃ curl, after = table.setCurl field curl) CoveredStop
        table := by
  unfold sfind
  rw [wp_bind, wp_inspect]
  refine ⟨fun rest located => ?_, fun fault stops other same => ?_⟩
  · rw [wp_bind, wp_modify]
    cases rest with
    | nil => exact ⟨_, rfl⟩
    | cons node rest =>
        dsimp only
        rw [wp_bind, wp_inspect]
        refine ⟨fun ordering _ => ⟨_, rfl⟩, fun fault stops => ?_⟩
        have member := locate_nodes located List.mem_cons_self
        have filled' : (table.setCurl field (some node.id)).Filled skip :=
          Filled.congr filled setCurl_rows rfl
        have compares' : (table.setCurl field (some node.id)).ComparesWith field row := by
          intro id other found
          rw [setCurl_rows] at found
          exact compares id other found
        exact absurd stops (compareBucket_covered filled' compares' member)
  · cases same
    exact locate_covered filled compares stops

/-- The loop over the `in` values compares with rows of the table only, by induction on them. -/
theorem probeRows_covered {head : NodeId} {rows : List (Row creator)}
    (filled : ∀ skip, table.walkedList field head = .ok skip → table.Filled skip)
    (compares : ∀ row ∈ rows, table.ComparesWith field row) (used : Nat)
    : Evaluates (probeRows field head rows used) table := by
  induction rows generalizing table used with
  | nil => exact trivial
  | cons row rest ih =>
      unfold Evaluates probeRows
      rw [wp_bind, wp_inspect]
      refine ⟨fun skip walked => ?_, fun fault stops other same => ?_⟩
      · rw [wp_bind]
        refine wp_mono (sfind_covered (filled skip walked) (compares row List.mem_cons_self)) ?_
          (fun _ _ stop => stop)
        rintro found after ⟨curl, rfl⟩
        cases found with
        | true => exact trivial
        | false =>
            refine ih ?_ ?_ (used + 1)
            · intro moved walked'
              obtain ⟨before, walked, nodes⟩ := setCurl_walkedList walked'
              exact Filled.congr (filled before walked) setCurl_rows nodes
            · intro other member id row found
              rw [setCurl_rows] at found
              exact compares other (List.mem_cons_of_mem _ member) id row found
      · cases same
        unfold CTable.walkedList at stops
        split at stops
        · split at stops <;> cases stops
          simp [Fault.Uncovered]
        · cases stops
          simp [Fault.Uncovered]

theorem startSkip_covered {plan : Plan creator} (filled : table.Filled skip)
    (starts : plan.skipStart ≠ .none)
    (compares : plan.skipStart ≠ .reset →
      ∃ row1, plan.row1 = some row1 ∧ table.ComparesWith field row1)
    : Evaluates (startSkip plan field skip) table := by
  have ends {passes : Ordering → Bool} {row1 : Row creator}
      (compares : table.ComparesWith field row1)
      : Evaluates (do
          let rest ← inspect (CTable.locate · field skip row1)
          let rest ← inspect (CTable.dropNodes · field row1 passes rest)
          modify (CTable.setCurl · field (rest.head?.map Node.id))) table := by
    unfold Evaluates
    rw [wp_bind, wp_inspect]
    refine ⟨fun rest located => ?_, fun fault stops other same => ?_⟩
    · rw [wp_bind, wp_inspect]
      exact ⟨fun _ _ => trivial, fun fault stops =>
        absurd stops (dropNodes_covered filled compares (locate_nodes located))⟩
    · cases same
      exact locate_covered filled compares stops
  unfold startSkip
  cases start : plan.skipStart with
  | none => exact absurd start starts
  | reset =>
      unfold Evaluates resetCurl
      dsimp only
      split
      · rw [wp_crash]
        rintro fault same
        cases same
        simp [Fault.Uncovered]
      · exact trivial
  | eqRow1 =>
      obtain ⟨row1, here, compares⟩ := compares (by simp [start])
      simp only [here, needRow, Evaluates, pure_bind]
      rw [wp_bind]
      exact wp_mono (sfind_covered filled compares) (fun _ _ _ => trivial) (fun _ _ stop => stop)
  | geRow1 =>
      obtain ⟨row1, here, compares⟩ := compares (by simp [start])
      simp only [here, needRow]
      exact ends compares
  | gtRow1 =>
      obtain ⟨row1, here, compares⟩ := compares (by simp [start])
      simp only [here, needRow]
      exact ends compares

theorem pastEnd_covered {plan : Plan creator}
    (first : plan.skipEnd = .geRow1 ∨ plan.skipEnd = .gtRow1 →
      ∃ row1, plan.row1 = some row1 ∧ readsNullObj creator field row row1 = false)
    (second : plan.skipEnd = .geRow2 →
      ∃ row2, plan.row2 = some row2 ∧ readsNullObj creator field row row2 = false)
    : Evaluates (pastEnd plan field row) table := by
  have compared {other : Row creator} {past : Ordering → Bool}
      (reads : readsNullObj creator field row other = false)
      : Evaluates (do
          let ordering ← inspect (fun _ => compareRows creator field row other)
          pure (past ordering)) table := by
    unfold Evaluates
    rw [wp_bind, wp_inspect]
    refine ⟨fun _ _ => trivial, fun fault stops => ?_⟩
    exact absurd (compareRows_error stops).1 (by simp [reads])
  unfold pastEnd
  cases stop : plan.skipEnd with
  | none => exact trivial
  | geRow1 =>
      obtain ⟨row1, here, reads⟩ := first (Or.inl stop)
      simp only [here, needRow]
      exact compared reads
  | gtRow1 =>
      obtain ⟨row1, here, reads⟩ := first (Or.inr stop)
      simp only [here, needRow]
      exact compared reads
  | geRow2 =>
      obtain ⟨row2, here, reads⟩ := second stop
      simp only [here, needRow]
      exact compared reads

theorem nextInValue_covered {plan : Plan creator} {head : NodeId}
    (filled : ∀ skip, table.walkedList field head = .ok skip → table.Filled skip)
    (compares : plan.skipNext = .inList → ∀ row ∈ plan.inListRows, table.ComparesWith field row)
    (inIndex : Nat)
    : Evaluates (nextInValue plan field head inIndex) table := by
  unfold nextInValue
  split
  · rename_i inList
    exact probeRows_covered filled
      (fun row member => compares inList row (List.mem_of_mem_drop member)) inIndex
  · exact trivial

end Comparisons

/-- A component that covers the rows of a table compares its values with all of them. -/
theorem comparesWith_of_covers {table : CTable creator} {field : creator.Field} {value : Obj}
    {row1 : Row creator} (made : searchRow host field value = .ok row1)
    (covers : ∀ id row, table.rows id = some row →
      (row.cells field).lacksObject = false ∨ row.nullIn field = true
        ∨ row1.nullIn field = true)
    : table.ComparesWith field row1 := by
  intro id row found
  have forwards : readsNullObj creator field row row1 = false := by
    rw [Bool.eq_false_iff, Ne, reads_searchRow_iff made, not_not]
    exact covers id row found
  refine ⟨?_, forwards⟩
  rw [Bool.eq_false_iff, Ne, readsNullObj_iff] at forwards ⊢
  tauto

/-- A chosen walk has what it compares with, by the terms that can drive one. -/
theorem chose_covered {table : CTable creator} {plan : Plan creator} {component : Component creator}
    (chose : plan.Chose host component) (parsed : component.Parsed host)
    (covers : ∀ id row, table.rows id = some row → component.Covers row)
    : plan.WalkCovered table := by
  obtain ⟨field, term⟩ := component
  obtain ⟨⟨head, list⟩, start, stop, next, row1, row2, values, scored⟩ := chose
  have assemble
      (starts : plan.skipStart ≠ .none)
      (first : plan.skipStart ≠ .reset →
        ∃ row1, plan.row1 = some row1 ∧ table.ComparesWith field row1)
      (lists : plan.skipNext = .inList → ∀ row ∈ plan.inListRows, table.ComparesWith field row)
      (past : ∀ id row, table.rows id = some row → plan.Admits field row →
        Evaluates (pastEnd plan field row) table)
      : plan.WalkCovered table := by
    refine ⟨by simp [list], ?_, ?_, ?_⟩
    · intro walked skip _ same found filled
      cases list.symm.trans same
      exact startSkip_covered filled starts first
    · intro walked skip inIndex _ same found filled
      cases list.symm.trans same
      refine nextInValue_covered (fun other walked => ?_) lists inIndex
      cases found.symm.trans walked
      exact filled
    · intro walked id row _ same found admits
      cases list.symm.trans same
      exact past id row found admits
  cases term with
  | isNull | notNull | isTrue | isFalse => simp [skipTypes] at scored
  | matching term row1 =>
      obtain ⟨keeps, nocase, type, word⟩ := term
      cases keeps <;> cases nocase <;> simp [skipTypes] at scored
  | compare op row =>
      obtain ⟨value, made⟩ := parsed
      have compares : table.ComparesWith field row := comparesWith_of_covers made covers
      have reads (id : RowId) (other : Row creator) (found : table.rows id = some other)
          : ∃ row1, plan.row1 = some row1 ∧ readsNullObj creator field other row1 = false :=
        ⟨row, row1, (compares id other found).2⟩
      refine assemble ?_ (fun _ => ⟨row, row1, compares⟩) ?_ ?_
      · rw [start]
        cases op <;> simp [skipTypes] at scored ⊢
      · rw [next]
        cases op <;> simp [skipTypes]
      · intro id other found _
        refine pastEnd_covered (fun _ => reads id other found) fun second => ?_
        rw [stop] at second
        cases op <;> simp [skipTypes] at second
  | range low high =>
      obtain ⟨⟨lowValue, lowMade⟩, highValue, highMade⟩ := parsed
      have compares : table.ComparesWith field low := comparesWith_of_covers lowMade covers
      refine assemble (by simp [start, skipTypes]) (fun _ => ⟨low, row1, compares⟩)
        (by simp [next, skipTypes]) ?_
      intro id other found admits
      refine pastEnd_covered (by simp [stop, skipTypes]) fun _ => ⟨high, row2 (by simp), ?_⟩
      rw [Bool.eq_false_iff, Ne, reads_searchRow_iff highMade, not_not]
      have above := admits low row1 (by simp [start, skipTypes])
      rcases covers id other found with whole | null | null
      · exact Or.inl whole
      · exact Or.inr (Or.inl null)
      · cases lacks : (other.cells field).lacksObject with
        | false => exact Or.inl rfl
        | true =>
            cases isNull : other.nullIn field with
            | true => exact Or.inr (Or.inl rfl)
            | false =>
                have below := compareRows_null lacks isNull null
                simp only [compareRows, (compares id other found).2, Bool.false_eq_true, if_false,
                  Except.ok.injEq] at below
                exact absurd below above
  | inList elements =>
      refine assemble (by simp [start, skipTypes]) (by simp [start, skipTypes]) ?_ ?_
      · intro _ row member
        obtain ⟨value, inside, made⟩ := mem_mapM_ok (values elements rfl) member
        refine comparesWith_of_covers made fun id other found => ?_
        rcases covers id other found with whole | null | nulls
        · exact Or.inl whole
        · exact Or.inr (Or.inl null)
        · exact Or.inr (Or.inr ((searchRow_ok made).1.trans (nulls value inside)))
      · intro id other found _
        exact pastEnd_covered (by simp [stop, skipTypes]) (by simp [stop, skipTypes])

-----------------------------------------------------------------------------------------
-- Every comparison that the parser accepts
-----------------------------------------------------------------------------------------

/-- A compare list can be evaluated: each of its components on each row of the table, the whole
list, and every walk that is planned for it.
-/
structure Evaluable (host : Host) (table : CTable creator) (components : List (Component creator))
    : Prop where
  tests
    : ∀ id row,
        table.rows id = some row
        → ∀ component ∈ components, ¬ Hits (component.test host row)
  compares
    : ∀ id row alreadySearched,
        table.rows id = some row
        → ¬ Hits (searchCompare host alreadySearched row 0 components)
  walks
    : ∀ (request : SearchRequest creator) previous plan,
        request.components = components
        → request.plan host table previous = .ok plan
        → plan.WalkCovered table

/-- A compare list that the parser accepts can be evaluated exactly when its components cover the
rows of the table.
-/
theorem parsedSearch_evaluable {list : Obj} {components : List (Component creator)}
    (parses : parseSearch host list = .ok components) (table : CTable creator)
    : Evaluable host table components
      ↔ ∀ id row, table.rows id = some row → ∀ component ∈ components, component.Covers row := by
  have parsed := parseSearch_parsed parses
  constructor
  · intro evaluable id row found component member
    have safe := evaluable.tests id row found component member
    rwa [test_hits_iff (parsed component member), not_not] at safe
  · intro covers
    have tests : ∀ id row, table.rows id = some row →
        ∀ component ∈ components, ¬ Hits (component.test host row) := by
      intro id row found component member
      rw [test_hits_iff (parsed component member), not_not]
      exact covers id row found component member
    refine ⟨tests, fun id row already found => searchCompare_covered (tests id row found) already 0, ?_⟩
    intro request previous plan same plans
    have unplanned (other : plan.walkType ≠ .skip) : plan.WalkCovered table :=
      ⟨fun skips => absurd skips other, fun _ _ skips => absurd skips other,
        fun _ _ _ skips => absurd skips other, fun _ _ _ skips => absurd skips other⟩
    by_cases skips : plan.walkType = .skip
    · rcases planLoop_chose plans skips with initial | ⟨entry, tried, chose⟩
      · rw [← initial] at skips
        cases skips
      · have member : entry.2 ∈ components := same ▸ List.mem_of_getElem? (tryOrder_getElem tried)
        exact chose_covered chose (parsed entry.2 member)
          fun id row found => covers id row found entry.2 member
    · exact unplanned skips

/-- The row `a` with the string `x`. -/
def stringRow : CTable sampleCreator :=
  sampleTable [setCommand sampleHost [[97], [115], [120]]]

/-- The list of one truth test of the field named by one character. -/
theorem parseSearch_true {name : UInt8} {field : sampleCreator.Field}
    (words : listWords 0 none [123, 116, 114, 117, 101, 32, name, 125]
      = [[116, 114, 117, 101, 32, name]])
    (word : listWords 0 none [116, 114, 117, 101, 32, name] = [[116, 114, 117, 101], [name]])
    (number : sampleCreator.fieldNumber [name] = some field)
    : parseSearch sampleHost [123, 116, 114, 117, 101, 32, name, 125]
      = .ok [{ field := field, term := .isTrue }] := by
  have term : CompType.ofWord [116, 114, 117, 101] = some .isTrue := by decide +kernel
  have parses : parseComponent sampleHost [116, 114, 117, 101, 32, name]
      = .ok { field := field, term := .isTrue } := by
    simp only [parseComponent, sampleHost, word, term, number]
    rfl
  simp only [parseSearch, sampleHost, words]
  simp only [sampleHost] at parses
  rw [List.mapM_cons, parses]
  rfl

/-- The list `{true b}` can be evaluated. -/
theorem parsedSearch_evaluable_boolean
    : Evaluable sampleHost stringRow [{ field := (2 : Fin 6), term := .isTrue }] := by
  have parses : parseSearch sampleHost [123, 116, 114, 117, 101, 32, 98, 125]
      = .ok [{ field := (2 : Fin 6), term := (.isTrue : Term sampleCreator) }] :=
    parseSearch_true (by decide +kernel) (by decide +kernel) (by decide +kernel)
  refine (parsedSearch_evaluable parses stringRow).mpr fun id row _ component member => ?_
  obtain rfl := List.mem_singleton.mp member
  exact Or.inr rfl

/-- The list `{true s}` reads the string of a comparison row that is not there. -/
theorem parsedSearch_true
    : ¬ ∀ (creator : CreatorTable) (host : Host) (list : Obj) (components : List (Component creator))
        (table : CTable creator),
        parseSearch host list = .ok components → Evaluable host table components := by
  intro claim
  let component : Component sampleCreator := { field := (3 : Fin 6), term := .isTrue }
  have parses : parseSearch sampleHost [123, 116, 114, 117, 101, 32, 115, 125]
      = .ok [component] :=
    parseSearch_true (by decide +kernel) (by decide +kernel) (by decide +kernel)
  have evaluable := claim sampleCreator sampleHost _ [component] stringRow parses
  have stops : (stringRow.rows 0).map (fun row =>
      match component.test sampleHost row with
      | .error (.fault fault) => some fault
      | _ => none) = some (some .nullPointer) := by
    decide +kernel
  obtain ⟨row, found, fault⟩ := Option.map_eq_some_iff.mp stops
  refine evaluable.tests 0 row found component (List.mem_singleton.mpr rfl)
    ⟨.nullPointer, Or.inl rfl, ?_⟩
  split at fault
  · rename_i here
    rw [here, Option.some.inj fault]
  · cases fault

end SpeedTables
