import SpeedTables.Table.Export
import SpeedTables.Table.Sample

/-! The title line that `write_tabsep` writes, and the fields that `read_tabsep` takes from one. -/

namespace SpeedTables

variable {creator : CreatorTable} {host : Host}

-----------------------------------------------------------------------------------------
-- Title lines
-----------------------------------------------------------------------------------------

/-- The title of the keys, `_key`. -/
def keyTitle : CString := [95, 107, 101, 121]

/-- The titles of the columns that are written. -/
def ExportOptions.titles (options : ExportOptions creator) : List CString :=
  (if options.noKeys then [] else [keyTitle])
    ++ options.fieldNums.map (fun field => (creator.fields field).name)

/-- `dstring_append_fieldnames`, without the line end. -/
def ExportOptions.titleLine (options : ExportOptions creator) : CString :=
  options.separator.intercalate options.titles

/-- The texts between separators. An empty separator is found again and again. -/
def splitColumns (separator : CString) : Nat → CString → Option (List CString)
  | 0, _ => none
  | steps + 1, text =>
      match strstr separator text with
      | none => some [text]
      | some (before, found) =>
          (splitColumns separator steps (found.drop separator.length)).map (before :: ·)

/-- What `get_fields_from_tabsep` has read of a title line. `hasKey` says that `keyCol` is set. -/
structure TitleFields (creator : CreatorTable) where
  fieldNums : List (Option creator.Field)
  noKeys : Bool
  hasKey : Bool

namespace TitleFields

/-- One more title. A name that no field has is an error, unless it is to be ignored, and the key
field counts only once.
-/
def read (nocomplain : Bool) (titles : TitleFields creator) (title : CString)
    : Except CString (TitleFields creator) :=
  if titles.noKeys && titles.fieldNums.isEmpty && title == keyTitle then
    .ok { titles with noKeys := false, hasKey := true }
  else
    match creator.fieldNumber title with
    | none =>
        if nocomplain then .ok { titles with fieldNums := titles.fieldNums ++ [none] }
        else .error title
    | some field =>
        if field = creator.keyField then
          .ok { titles with
            fieldNums := titles.fieldNums ++ [if titles.hasKey then none else some field]
            hasKey := true }
        else
          .ok { titles with fieldNums := titles.fieldNums ++ [some field] }

def start (creator : CreatorTable) : TitleFields creator where
  fieldNums := []
  noKeys := true
  hasKey := false

end TitleFields

/-- `get_fields_from_tabsep`, where it ends. The error is the field that is unknown. -/
def getFieldsFromTabsep (creator : CreatorTable) (separator : CString) (nocomplain : Bool)
    (line : CString) : Option (Except CString (TitleFields creator)) :=
  (splitColumns separator (line.length + 1) line).map (fun titles =>
    titles.foldlM (TitleFields.read nocomplain) (TitleFields.start creator))

section Splitting

variable {separator : CString}

/-- A list of columns that are joined is no longer than the text. -/
theorem length_columns (nonempty : separator ≠ []) (columns : List CString)
    : columns.length ≤ (separator.intercalate columns).length + 1 := by
  induction columns with
  | nil => exact Nat.zero_le _
  | cons first rest ih =>
      cases rest with
      | nil => simp
      | cons second others =>
          have one := List.length_pos_iff.mpr nonempty
          rw [List.intercalate_cons_cons]
          simp only [List.length_cons, List.length_append] at ih ⊢
          omega

/-- Columns without the first character of the separator are what their text is split into, by
induction on them.
-/
theorem splitColumns_joined (nonempty : separator ≠ []) {columns : List CString}
    : ∀ {steps : Nat}, columns ≠ [] → columns.length ≤ steps →
        (∀ column ∈ columns, separator.headD 0 ∉ column) →
        splitColumns separator steps (separator.intercalate columns) = some columns := by
  induction columns with
  | nil => exact fun some' _ _ => absurd rfl some'
  | cons first rest ih =>
      intro steps _ enough absent
      cases steps with
      | zero => exact absurd enough (by simp)
      | succ steps =>
          have here := absent first List.mem_cons_self
          cases rest with
          | nil =>
              rw [List.intercalate_singleton, splitColumns, strstr_absent nonempty here]
          | cons second others =>
              have found := strstr_behind nonempty here
                (separator.intercalate (second :: others))
              rw [List.intercalate_cons_cons, List.append_assoc, splitColumns, found]
              dsimp only
              rw [List.drop_left, ih (by simp) (by simpa using enough)
                fun column member => absent column (List.mem_cons_of_mem _ member)]
              rfl

end Splitting

-----------------------------------------------------------------------------------------
-- Title lines that are read
-----------------------------------------------------------------------------------------

/-- A field has the number of its name. -/
theorem CreatorTable.fieldNumber_name (field : creator.Field)
    : creator.fieldNumber (creator.fields field).name = some field := by
  cases number : creator.fieldNumber (creator.fields field).name with
  | none =>
      have missing := List.find?_eq_none.mp number field (List.mem_finRange field)
      simp at missing
  | some found =>
      have named := List.find?_some number
      exact congrArg some (creator.names_injective _ _ (of_decide_eq_true named))

namespace TitleFields

/-- The next titles are names of fields: `_key` has been read, or there is a field before them, or
the first of them is not called `_key`.
-/
def TakesNames (titles : TitleFields creator) (fields : List creator.Field) : Prop :=
  titles.noKeys = false ∨ titles.fieldNums ≠ []
    ∨ ∀ first ∈ fields.head?, (creator.fields first).name ≠ keyTitle

/-- The name of a field is read as the field, unless it is a second key. -/
theorem read_name {nocomplain : Bool} {titles : TitleFields creator} {field : creator.Field}
    {rest : List creator.Field} (takes : titles.TakesNames (field :: rest))
    (once : titles.hasKey = true → field ≠ creator.keyField)
    : read nocomplain titles (creator.fields field).name
      = .ok { titles with
          fieldNums := titles.fieldNums ++ [some field]
          hasKey := titles.hasKey || field == creator.keyField } := by
  have isName : (titles.noKeys && titles.fieldNums.isEmpty
      && (creator.fields field).name == keyTitle) = false := by
    rcases takes with keys | behind | other
    · rw [keys]
      rfl
    · rw [List.isEmpty_eq_false_iff.mpr behind, Bool.and_false, Bool.false_and]
    · rw [beq_false_of_ne (other field rfl), Bool.and_false]
  rw [read, isName, if_neg Bool.false_ne_true, CreatorTable.fieldNumber_name]
  dsimp only
  by_cases isKey : field = creator.keyField
  · have first : titles.hasKey = false := by
      cases hasKey : titles.hasKey with
      | false => rfl
      | true => exact absurd isKey (once hasKey)
    rw [if_pos isKey, first, isKey]
    simp
  · rw [if_neg isKey, beq_false_of_ne isKey, Bool.or_false]

/-- The names of fields are read as the fields, when the key is among them at most once and has not
been read before, by induction on them.
-/
theorem read_names {nocomplain : Bool} {fields : List creator.Field}
    : ∀ {titles : TitleFields creator}, titles.TakesNames fields →
        fields.count creator.keyField ≤ 1 →
        (titles.hasKey = true → creator.keyField ∉ fields) →
        ∃ hasKey,
          (fields.map (fun field => (creator.fields field).name)).foldlM (read nocomplain) titles
            = .ok { titles with
              fieldNums := titles.fieldNums ++ fields.map some
              hasKey := hasKey } := by
  induction fields with
  | nil =>
      intro titles _ _ _
      exact ⟨titles.hasKey, by simp [pure, Except.pure]⟩
  | cons field rest ih =>
      intro titles takes once first
      have read' := @read_name creator nocomplain titles field rest takes
        fun hasKey isKey => first hasKey (isKey ▸ List.mem_cons_self)
      have onceRest : rest.count creator.keyField ≤ 1 :=
        (List.count_le_count_cons ..).trans once
      have firstRest (hasKey : (titles.hasKey || field == creator.keyField) = true)
          : creator.keyField ∉ rest := by
        rcases Bool.or_eq_true_iff.mp hasKey with before | isKey
        · exact fun inside => first before (List.mem_cons_of_mem _ inside)
        · rw [eq_of_beq isKey, List.count_cons_self] at once
          exact List.count_eq_zero.mp (by omega)
      obtain ⟨hasKey, reads⟩ := @ih
        { titles with
          fieldNums := titles.fieldNums ++ [some field]
          hasKey := titles.hasKey || field == creator.keyField }
        (.inr (.inl (by simp))) onceRest firstRest
      refine ⟨hasKey, ?_⟩
      rw [List.map_cons, List.foldlM_cons, read']
      dsimp only [bind, Except.bind]
      rw [reads]
      simp

end TitleFields

namespace ExportOptions

/-- The key is read from one column only: that of the keys, or else one of the fields, which does
not stand first under the title of the keys.
-/
def KeyOnce (options : ExportOptions creator) : Prop :=
  if options.noKeys then
    options.fieldNums.count creator.keyField ≤ 1
      ∧ ∀ first ∈ options.fieldNums.head?, (creator.fields first).name ≠ keyTitle
  else creator.keyField ∉ options.fieldNums

/-- The titles stand in a line: there is one, and none has a line end or the first character of the
separator.
-/
structure Titled (options : ExportOptions creator) : Prop where
  present : options.titleLine ≠ []
  absent : ∀ title ∈ options.titles, options.separator.headD 0 ∉ title ∧ 10 ∉ title
  once : options.KeyOnce

section Titles

variable {options : ExportOptions creator}

/-- The titles are read as the fields that they were written for. -/
theorem KeyOnce.reads (once : options.KeyOnce) (nocomplain : Bool)
    : ∃ hasKey, options.titles.foldlM (TitleFields.read nocomplain) (TitleFields.start creator)
      = .ok {
        fieldNums := options.fieldNums.map some
        noKeys := options.noKeys
        hasKey := hasKey } := by
  rw [KeyOnce] at once
  cases noKeys : options.noKeys with
  | true =>
      rw [noKeys, if_pos rfl] at once
      obtain ⟨hasKey, reads⟩ := @TitleFields.read_names creator nocomplain options.fieldNums
        (TitleFields.start creator) (.inr (.inr once.2)) once.1 fun has => by cases has
      refine ⟨hasKey, ?_⟩
      rw [titles, noKeys, if_pos rfl, List.nil_append, reads]
      rfl
  | false =>
      rw [noKeys, if_neg Bool.false_ne_true] at once
      obtain ⟨hasKey, reads⟩ := @TitleFields.read_names creator nocomplain options.fieldNums
        { fieldNums := [], noKeys := false, hasKey := true } (.inl rfl)
        (by rw [List.count_eq_zero.mpr once]; exact Nat.zero_le _) fun _ => once
      refine ⟨hasKey, ?_⟩
      rw [titles, noKeys, if_neg Bool.false_ne_true, List.cons_append, List.nil_append,
        List.foldlM_cons]
      exact reads

theorem Titled.reads (titled : options.Titled) (separates : options.Separates) (nocomplain : Bool)
    : ∃ hasKey, getFieldsFromTabsep creator options.separator nocomplain options.titleLine
      = some (.ok {
        fieldNums := options.fieldNums.map some
        noKeys := options.noKeys
        hasKey := hasKey }) := by
  have some' : options.titles ≠ [] := by
    intro none'
    exact titled.present (by rw [titleLine, none']; rfl)
  obtain ⟨hasKey, reads⟩ := titled.once.reads nocomplain
  refine ⟨hasKey, ?_⟩
  rw [getFieldsFromTabsep, titleLine,
    splitColumns_joined separates.nonempty some' (length_columns separates.nonempty _)
      fun title member => (titled.absent title member).1,
    Option.map_some, reads]

end Titles

end ExportOptions

end SpeedTables
