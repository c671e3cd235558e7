import SpeedTables.Table.Import
import SpeedTables.Table.Quoting
import SpeedTables.Table.Records

/-! The lines that `write_tabsep` writes, and what `read_tabsep` reads from them. -/

namespace SpeedTables

variable {creator : CreatorTable} {host : Host}

-----------------------------------------------------------------------------------------
-- The export
-----------------------------------------------------------------------------------------

/-- The arguments of `export_tabsep`, without a title line. -/
structure ExportOptions (creator : CreatorTable) where
  fieldNums : List creator.Field
  pattern : Option CString
  noKeys : Bool
  separator : CString
  term : Option CString
  quoteType : QuoteType
  nullString : Option CString

namespace ExportOptions

/-- Whether a field is written as the null string. -/
def writesNull (options : ExportOptions creator) (row : Row creator) (field : creator.Field)
    : Bool :=
  options.nullString.isSome && (!(creator.fields field).notnull && (row.cells field).isNull)

def quotesField (options : ExportOptions creator) (field : creator.Field) : Bool :=
  needsQuoting (creator.type field) && options.quoteType != .none

/-- The text of a string, which overflows when it is quoted to more than an `int` can count. -/
def written (options : ExportOptions creator) (quotes : Bool) (string : CString) : Option CString :=
  if quotes then quoteString options.quoteType (some options.separator) string else some string

/-- A column of `dstring_append_get_tabsep`. -/
def columnText (host : Host) (options : ExportOptions creator) (row : Row creator)
    (field : creator.Field) : Option CString :=
  if options.writesNull row field then options.nullString
  else options.written (options.quotesField field) (getString host row field)

/-- `dstring_append_get_tabsep`, without the line end. -/
def lineText (host : Host) (options : ExportOptions creator) (row : Row creator)
    : Option CString := do
  let columns ← options.fieldNums.mapM (options.columnText host row)
  if options.noKeys then
    some (options.separator.intercalate columns)
  else
    let key ← options.written (options.quoteType != .none) row.keyString
    some (options.separator.intercalate (key :: columns))

/-- The rows whose keys match the pattern. -/
def exports (host : Host) (options : ExportOptions creator) (key : CString) : Bool :=
  options.pattern.all (host.stringCaseMatch key · true)

def rowIds (host : Host) (options : ExportOptions creator) (table : CTable creator) : List RowId :=
  table.llHead.filter (fun id => options.exports host (table.rowAt id).keyString)

/-- The import with the same options. -/
def importOptions (options : ExportOptions creator) : ImportOptions creator where
  fieldNums := options.fieldNums.map some
  pattern := none
  noKeys := options.noKeys
  separator := options.separator
  skip := none
  term := options.term
  withNulls := false
  quoteType := options.quoteType
  nullString := options.nullString
  dirty := false

end ExportOptions

/-- What is written for items is written for one of them. -/
theorem written_mem {α β : Type} {write : α → Option β} {items : List α} {results : List β}
    (written : items.mapM write = some results)
    : ∀ result ∈ results, ∃ item ∈ items, write item = some result := by
  induction items generalizing results with
  | nil =>
      cases written
      exact fun _ member => absurd member List.not_mem_nil
  | cons item rest ih =>
      rw [List.mapM_cons] at written
      obtain ⟨first, isFirst, more⟩ := Option.bind_eq_some_iff.mp written
      obtain ⟨others, areOthers, same⟩ := Option.bind_eq_some_iff.mp more
      cases same
      intro result member
      rcases List.mem_cons.mp member with rfl | later
      · exact ⟨item, List.mem_cons_self, isFirst⟩
      · obtain ⟨other, inside, isOther⟩ := ih areOthers result later
        exact ⟨other, List.mem_cons_of_mem _ inside, isOther⟩

/-- A separator is found behind a column in which its first character does not occur. -/
theorem strstr_behind {separator column : CString} (nonempty : separator ≠ [])
    (absent : separator.headD 0 ∉ column) (rest : CString)
    : strstr separator (column ++ (separator ++ rest)) = some (column, separator ++ rest) := by
  obtain ⟨first, more, rfl⟩ := List.exists_cons_of_ne_nil nonempty
  induction column with
  | nil =>
      rw [List.nil_append, List.cons_append, strstr, if_pos]
      exact List.isPrefixOf_iff_prefix.mpr (List.prefix_append (first :: more) rest)
  | cons byte column ih =>
      rw [List.headD_cons, List.mem_cons, not_or] at absent
      rw [List.cons_append, strstr, if_neg, ih absent.2]
      · rfl
      · rw [List.isPrefixOf_cons_cons]
        simp [absent.1]

theorem strstr_absent {separator column : CString} (nonempty : separator ≠ [])
    (absent : separator.headD 0 ∉ column) : strstr separator column = none := by
  obtain ⟨first, more, rfl⟩ := List.exists_cons_of_ne_nil nonempty
  induction column with
  | nil => rfl
  | cons byte column ih =>
      rw [List.headD_cons, List.mem_cons, not_or] at absent
      rw [strstr, if_neg, ih absent.2]
      · rfl
      · rw [List.isPrefixOf_cons_cons]
        simp [absent.1]

/-- A byte that is quoted, and that quoting does not emit, is not in quoted text. -/
theorem absent_quoteBytes {type : QuoteType} (quotes : type ≠ .none) {separators : CString}
    {byte : UInt8} (quoted : mustQuote type separators byte = true)
    (apart : emits type byte = false) (string : CString)
    : byte ∉ quoteBytes type separators string := by
  intro member
  obtain ⟨source, -, piece⟩ := List.mem_flatMap.mp member
  split at piece
  · rw [(quoteByte_emits quotes source).1 byte piece] at apart
    cases apart
  · next plain =>
      rw [List.mem_singleton.mp piece] at quoted
      exact plain quoted

/-- Quoted text is dequoted to the string, whatever follows. -/
theorem copyDequoted_quoteBytes {type : QuoteType} (quotes : type ≠ .none)
    {separators string : CString} (undone : Undone type separators string) (rest : CString)
    : copyDequoted type (quoteBytes type separators string).length
        (quoteBytes type separators string ++ rest) = some string := by
  by_cases strict : type = .strictEscape
  · subst strict
    rw [copyDequoted_strictEscape (by simp), List.take_left]
    refine congrArg some (quoteBytes_plain (List.any_eq_false.mpr fun byte member => ?_))
    rw [undone byte member]
    exact Bool.false_ne_true
  · have enough := (quoteBytes_length quotes separators string).1
    rw [copyDequoted, if_neg quotes,
      copyDequotedLoop_quoted ⟨quotes, strict⟩ separators string rest enough]
    have same : ∀ byte ∈ string, readAs type separators byte = byte := by
      intro byte member
      refine (readAs_eq_self type separators byte).mpr ?_
      rintro rfl
      exact undone byte member
    rw [List.map_congr_left same, List.map_id']

namespace ExportOptions

/-- The separator stands between columns: it is there, has no line end, and quoting does not emit
its first character.
-/
structure Separates (options : ExportOptions creator) : Prop where
  nonempty : options.separator ≠ []
  oneLine : 10 ∉ options.separator
  apart : emits options.quoteType (options.separator.headD 0) = false

/-- A string can be read from its column: what quoting makes of it can be undone, or it has no line
end and not the first character of the separator.
-/
def Fits (options : ExportOptions creator) (quotes : Bool) (string : CString) : Prop :=
  if quotes then Undone options.quoteType options.separator string
  else options.separator.headD 0 ∉ string ∧ 10 ∉ string

instance undone_decidable (type : QuoteType) (separators string : CString)
    : Decidable (Undone type separators string) :=
  match type with
  | .strictEscape => inferInstanceAs (Decidable (∀ byte ∈ string, _ = false))
  | .escape => inferInstanceAs (Decidable (∀ byte ∈ string, _ → _ → _))
  | .none | .uri | .strictUri => .isTrue trivial

instance fits_decidable (options : ExportOptions creator) (quotes : Bool) (string : CString)
    : Decidable (options.Fits quotes string) :=
  inferInstanceAs (Decidable (if quotes then _ else _))

section Columns

variable {options : ExportOptions creator} {quotes : Bool} {string column : CString}

/-- The text of a column has no line end and not the first character of the separator. -/
theorem Fits.absent (fits : options.Fits quotes string) (separates : options.Separates)
    (quoting : quotes = true → options.quoteType ≠ .none)
    (written : options.written quotes string = some column)
    : options.separator.headD 0 ∉ column ∧ 10 ∉ column := by
  cases quotes with
  | false =>
      cases written
      exact fits
  | true =>
      have quotesText := quoting rfl
      obtain rfl := quoteString_eq quotesText written
      obtain ⟨first, more, isSeparator⟩ := List.exists_cons_of_ne_nil separates.nonempty
      have apart := separates.apart
      rw [Option.getD_some, isSeparator]
      rw [isSeparator] at apart
      constructor
      · refine absent_quoteBytes quotesText ?_ apart string
        simp [mustQuote]
      · refine absent_quoteBytes quotesText ?_ ?_ string
        · simp [mustQuote]
        · cases options.quoteType <;> decide

/-- The text of a column is read as the string. -/
theorem Fits.reads (fits : options.Fits quotes string)
    (quoting : quotes = true → options.quoteType ≠ .none)
    (written : options.written quotes string = some column) (rest : CString)
    : copyDequoted (if quotes then options.quoteType else .none) column.length (column ++ rest)
      = some string := by
  cases quotes with
  | false =>
      cases written
      simp [copyDequoted]
  | true =>
      have quotesText := quoting rfl
      obtain rfl := quoteString_eq quotesText written
      exact copyDequoted_quoteBytes quotesText fits rest

end Columns

/-- A column is read as what was written: a null string is not empty and keeps to its column, and
other text can be read from its column and does not look like a null.
-/
def Legible (host : Host) (options : ExportOptions creator) (row : Row creator)
    (field : creator.Field) (column : CString) : Prop :=
  if options.writesNull row field then
    column ≠ [] ∧ options.separator.headD 0 ∉ column ∧ 10 ∉ column
  else
    options.Fits (options.quotesField field) (getString host row field)
      ∧ ∀ nullString, options.nullString = some nullString →
          (creator.fields field).notnull = false →
          column.headD 0 ≠ nullString.headD 0
            ∧ (column = [] → options.separator.headD 0 ≠ nullString.headD 0)

instance legible_decidable (options : ExportOptions creator) (row : Row creator)
    (field : creator.Field) (column : CString)
    : Decidable (options.Legible host row field column) :=
  inferInstanceAs (Decidable
    (if options.writesNull row field then _ else _ ∧ ∀ nullString ∈ options.nullString, _))

/-- The write of a column that is read. -/
def columnMade (host : Host) (options : ExportOptions creator) (row : Row creator)
    (field : creator.Field) : List (Write creator) :=
  if options.writesNull row field then [] else [.set field (getString host row field)]

section Lines

variable {options : ExportOptions creator} {row : Row creator} {field : creator.Field}
  {column : CString}

theorem quotesField_quotes (quotes : options.quotesField field = true)
    : options.quoteType ≠ .none := by
  simp only [quotesField, Bool.and_eq_true, bne_iff_ne] at quotes
  exact quotes.2

theorem Legible.absent (legible : options.Legible host row field column)
    (separates : options.Separates) (written : options.columnText host row field = some column)
    : options.separator.headD 0 ∉ column ∧ 10 ∉ column := by
  rw [columnText] at written
  rw [Legible] at legible
  split at written
  · next null =>
      rw [if_pos null] at legible
      exact legible.2
  · next text =>
      rw [if_neg text] at legible
      exact legible.1.absent separates quotesField_quotes written

/-- Text that a column begins does not begin like a null string that the column is apart from. -/
theorem head_ne {null rest : CString} (separates : options.Separates)
    (behind : rest = [] ∨ ∃ more, rest = options.separator ++ more)
    (apart : column.headD 0 ≠ null.headD 0
      ∧ (column = [] → options.separator.headD 0 ≠ null.headD 0))
    : (column ++ rest).headD 0 ≠ null.headD 0 := by
  cases column with
  | cons byte column => exact apart.1
  | nil =>
      rcases behind with rfl | ⟨more, rfl⟩
      · exact apart.1
      · obtain ⟨first, others, isSeparator⟩ := List.exists_cons_of_ne_nil separates.nonempty
        have differs := apart.2 rfl
        rw [isSeparator] at differs ⊢
        exact differs

/-- A column, and what follows it in its line, is read as the write that it was made for. -/
theorem Legible.reads (legible : options.Legible host row field column)
    (separates : options.Separates) (written : options.columnText host row field = some column)
    {rest : CString} (behind : rest = [] ∨ ∃ more, rest = options.separator ++ more)
    : columnWrite options.importOptions.lineOptions false (column ++ rest) column.length
        (some field)
      = some (options.columnMade host row field) := by
  rw [columnText] at written
  rw [Legible] at legible
  rw [columnWrite, columnMade]
  have nullString : options.importOptions.lineOptions.nullString = options.nullString := by
    rw [ImportOptions.lineOptions, importOptions]
    cases options.nullString <;> rfl
  split at written
  · next null =>
      rw [if_pos null] at legible ⊢
      rw [if_pos]
      simp only [writesNull, Bool.and_eq_true] at null
      obtain ⟨byte, more, rfl⟩ := List.exists_cons_of_ne_nil legible.1
      rw [columnIsNull, nullString, written]
      simp [null.2.1]
  · next text =>
      rw [if_neg text] at legible ⊢
      obtain ⟨fits, apart⟩ := legible
      have notNull : columnIsNull options.importOptions.lineOptions field false (column ++ rest)
          = false := by
        rw [columnIsNull, nullString]
        cases isNullString : options.nullString with
        | none => rfl
        | some null =>
            cases notnull : (creator.fields field).notnull with
            | true => rfl
            | false =>
                have other := head_ne separates behind (apart null isNullString notnull)
                have differs : column ++ rest ≠ null := fun same => other (same ▸ rfl)
                dsimp only
                rw [Bool.not_false, Bool.true_and, Bool.false_or, beq_false_of_ne other,
                  beq_false_of_ne differs, Bool.false_or]
      have reads := fits.reads quotesField_quotes written []
      rw [List.append_nil] at reads
      have obj : columnObj options.importOptions.lineOptions field (column ++ rest) column.length
          = .ok (getString host row field) := by
        rw [columnObj, List.take_left]
        have quotesColumn : (needsQuoting (creator.type field)
            && options.importOptions.lineOptions.quoteType != .none) = options.quotesField field :=
          rfl
        have sameType : options.importOptions.lineOptions.quoteType = options.quoteType := rfl
        rw [quotesColumn, sameType]
        cases quotes : options.quotesField field with
        | false =>
            rw [quotes, if_neg Bool.false_ne_true, copyDequoted, if_pos rfl, List.take_length]
              at reads
            rw [if_neg Bool.false_ne_true, Option.some.inj reads]
        | true =>
            rw [quotes, if_pos rfl] at reads
            rw [if_pos rfl, reads]
      rw [notNull, if_neg Bool.false_ne_true, obj]

/-- The rest of a line, from a column on. -/
def lineFrom (options : ExportOptions creator) : List CString → Option CString
  | [] => none
  | first :: rest => some (options.separator.intercalate (first :: rest))

/-- The text behind a column in its line. -/
def behind (options : ExportOptions creator) (columns : List CString) : CString :=
  (options.lineFrom columns).elim [] (options.separator ++ ·)

theorem behind_cases (columns : List CString)
    : options.behind columns = [] ∨ ∃ more, options.behind columns = options.separator ++ more := by
  cases columns with
  | nil => exact .inl rfl
  | cons first rest => exact .inr ⟨_, rfl⟩

theorem lineFrom_cons (first : CString) (rest : List CString)
    : options.lineFrom (first :: rest) = some (first ++ options.behind rest) := by
  cases rest with
  | nil =>
      rw [lineFrom, List.intercalate_singleton]
      simp [behind, lineFrom]
  | cons second others =>
      rw [lineFrom, List.intercalate_cons_cons]
      simp [behind, lineFrom]

/-- The next column is the first one that is left. -/
theorem nextColumn_first (separates : options.Separates) {first : CString}
    (absent : options.separator.headD 0 ∉ first) (rest : List CString)
    : nextColumn options.importOptions.lineOptions (options.lineFrom (first :: rest))
      = (first ++ options.behind rest, first.length, options.lineFrom rest) := by
  have separator : options.importOptions.lineOptions.separator = options.separator := rfl
  rw [lineFrom_cons]
  cases rest with
  | nil =>
      have nothing : first ++ options.behind [] = first := List.append_nil first
      have found := strstr_absent separates.nonempty absent
      simp only [nextColumn, separator, nothing, found]
      rfl
  | cons second others =>
      have found := strstr_behind separates.nonempty absent
        (options.separator.intercalate (second :: others))
      simp only [nextColumn, separator, behind, lineFrom, Option.elim_some, found, List.drop_left]

/-- The first of the columns that are left, and then the others. -/
theorem columnWrites_first (separates : options.Separates)
    (legible : options.Legible host row field column)
    (written : options.columnText host row field = some column) {rest : List CString}
    {fields : List (Option creator.Field)} {index : Nat} {line : Option CString}
    (isLine : (if options.importOptions.lineOptions.keyColumn = some index then
        (nextColumn options.importOptions.lineOptions line).2.2
      else line) = options.lineFrom (column :: rest))
    : ∃ next, 0 < next
        ∧ columnWrites options.importOptions.lineOptions (some field :: fields) index line
          = (columnWrites options.importOptions.lineOptions fields next
              (options.lineFrom rest)).map (options.columnMade host row field ++ ·) := by
  have absent := (legible.absent separates written).1
  have reads := legible.reads separates written (options.behind_cases rest)
  have present : (options.lineFrom (column :: rest)).isNone = false := by
    rw [lineFrom_cons]
    rfl
  simp only [columnWrites, isLine, nextColumn_first separates absent, present, reads]
  refine ⟨if options.importOptions.lineOptions.keyColumn = some index then index + 2 else index + 1,
    by split <;> omega, ?_⟩
  cases columnWrites options.importOptions.lineOptions fields _ (options.lineFrom rest) <;> rfl

/-- The columns of a line behind its key are read as the writes that they were made for, by
induction on the fields.
-/
theorem columnWrites_read (separates : options.Separates) (fields : List creator.Field)
    : ∀ {columns : List CString} {index : Nat},
        (∀ field ∈ fields, ∀ column, options.columnText host row field = some column →
          options.Legible host row field column) →
        fields.mapM (options.columnText host row) = some columns →
        options.importOptions.lineOptions.keyColumn ≠ some index →
        (∀ next, 0 < next → options.importOptions.lineOptions.keyColumn ≠ some next) →
        columnWrites options.importOptions.lineOptions (fields.map some) index
            (options.lineFrom columns)
          = some (fields.flatMap (options.columnMade host row)) := by
  induction fields with
  | nil => exact fun _ _ _ _ => rfl
  | cons field rest ih =>
      intro columns index legible written here later
      rw [List.mapM_cons] at written
      obtain ⟨column, isColumn, more⟩ := Option.bind_eq_some_iff.mp written
      obtain ⟨others, areOthers, same⟩ := Option.bind_eq_some_iff.mp more
      cases same
      obtain ⟨next, behind, reads⟩ := @columnWrites_first creator host options row field column
        separates (legible field List.mem_cons_self column isColumn) isColumn others
        (rest.map some) index (options.lineFrom (column :: others)) (if_neg here)
      rw [List.map_cons, reads,
        ih (fun field member => legible field (List.mem_cons_of_mem _ member)) areOthers
          (later next behind) later]
      rfl

/-- A line has no line end if its columns have none, by induction on them. -/
theorem oneLine_intercalate (separates : options.Separates) {columns : List CString}
    (absent : ∀ column ∈ columns, 10 ∉ column) : 10 ∉ options.separator.intercalate columns := by
  induction columns with
  | nil => exact List.not_mem_nil
  | cons first rest ih =>
      have head := absent first List.mem_cons_self
      have tail := ih fun column member => absent column (List.mem_cons_of_mem _ member)
      cases rest with
      | nil =>
          rw [List.intercalate_singleton]
          exact head
      | cons second others =>
          rw [List.intercalate_cons_cons]
          simp only [List.mem_append, not_or]
          exact ⟨⟨head, separates.oneLine⟩, tail⟩

/-- Keys are written, and the key field is not among the fields. -/
structure Keyed (options : ExportOptions creator) : Prop where
  keys : options.noKeys = false
  fields : creator.keyField ∉ options.fieldNums

theorem Keyed.keyColumn (keyed : options.Keyed)
    : options.importOptions.lineOptions.keyColumn = some 0 := by
  have absent : (options.fieldNums.map some).zipIdx.reverse.find?
      (fun entry => entry.1 == some creator.keyField) = none := by
    rw [List.find?_eq_none]
    intro entry member same
    have inside := List.fst_mem_of_mem_zipIdx (List.mem_reverse.mp member)
    rw [beq_iff_eq.mp same] at inside
    obtain ⟨field, listed, isKey⟩ := List.mem_map.mp inside
    exact keyed.fields (Option.some.inj isKey ▸ listed)
  simp only [ImportOptions.lineOptions, ImportOptions.keyColumn, importOptions, absent, keyed.keys,
    Bool.false_eq_true, if_false]

theorem Keyed.fieldIds (keyed : options.Keyed)
    : options.importOptions.lineOptions.fieldIds = options.fieldNums.map some := by
  have kept : (options.fieldNums.map some).filter (· != some creator.keyField)
      = options.fieldNums.map some := by
    rw [List.filter_eq_self]
    intro entry member
    obtain ⟨field, listed, rfl⟩ := List.mem_map.mp member
    rw [bne_iff_ne]
    exact fun same => keyed.fields (Option.some.inj same ▸ listed)
  simp only [ImportOptions.lineOptions, ImportOptions.fieldIds, importOptions, kept, if_true]

/-- A row whose key and columns are read as what was written. -/
structure LegibleRow (host : Host) (options : ExportOptions creator) (row : Row creator)
    : Prop where
  key : options.Fits (options.quoteType != .none) row.keyString
  columns : ∀ field ∈ options.fieldNums, ∀ column, options.columnText host row field = some column →
    options.Legible host row field column

instance legibleRow_decidable (options : ExportOptions creator) (row : Row creator)
    : Decidable (options.LegibleRow host row) :=
  decidable_of_iff
    (options.Fits (options.quoteType != .none) row.keyString
      ∧ ∀ field ∈ options.fieldNums, ∀ column ∈ options.columnText host row field,
          options.Legible host row field column)
    ⟨fun both => ⟨both.1, both.2⟩, fun legible => ⟨legible.key, legible.columns⟩⟩

/-- What is read from the line of a row: the key of the row, and the writes of its fields. -/
theorem LegibleRow.reads (legible : options.LegibleRow host row) (separates : options.Separates)
    (keyed : options.Keyed) {line : CString} (written : options.lineText host row = some line)
    : 10 ∉ line ∧ tabsepKey options.importOptions.lineOptions 0 line = .ok row.keyString
      ∧ columnWrites options.importOptions.lineOptions
          options.importOptions.lineOptions.fieldIds 0 (some line)
        = some (options.fieldNums.flatMap (options.columnMade host row)) := by
  rw [lineText, keyed.keys] at written
  obtain ⟨columns, areColumns, more⟩ := Option.bind_eq_some_iff.mp written
  obtain ⟨key, isKey, same⟩ := Option.bind_eq_some_iff.mp more
  cases same
  have quoting (quotes : (options.quoteType != .none) = true) : options.quoteType ≠ .none :=
    bne_iff_ne.mp quotes
  have absent := legible.key.absent separates quoting isKey
  refine ⟨oneLine_intercalate separates fun column member => ?_, ?_, ?_⟩
  · rcases List.mem_cons.mp member with rfl | inside
    · exact absent.2
    · obtain ⟨field, listed, isColumn⟩ := written_mem areColumns column inside
      exact ((legible.columns field listed column isColumn).absent separates isColumn).2
  · have text : options.separator.intercalate (key :: columns) = key ++ options.behind columns :=
      Option.some.inj (options.lineFrom_cons key columns)
    have reads := legible.key.reads quoting isKey (options.behind columns)
    have sameType : (if options.quoteType != .none then options.quoteType else .none)
        = options.quoteType := by
      cases options.quoteType <;> rfl
    have separator : options.importOptions.lineOptions.separator = options.separator := rfl
    have quoteType : options.importOptions.lineOptions.quoteType = options.quoteType := rfl
    rw [sameType] at reads
    rw [tabsepKey, skipColumns]
    dsimp only
    rw [separator, quoteType, text]
    cases columns with
    | nil =>
        have nothing : key ++ options.behind [] = key := List.append_nil key
        rw [nothing] at reads ⊢
        rw [strstr_absent separates.nonempty absent.1]
        dsimp only
        rw [reads]
    | cons second others =>
        have found := strstr_behind separates.nonempty absent.1
          (options.separator.intercalate (second :: others))
        simp only [behind, lineFrom, Option.elim_some] at reads ⊢
        simp only [found, reads]
  · have rest := nextColumn_first separates absent.1 columns
    have isLine : (if options.importOptions.lineOptions.keyColumn = some 0 then
        (nextColumn options.importOptions.lineOptions
          (some (options.separator.intercalate (key :: columns)))).2.2
      else some (options.separator.intercalate (key :: columns))) = options.lineFrom columns := by
      rw [if_pos keyed.keyColumn]
      exact congrArg (·.2.2) rest
    have later (next : Nat) (behind : 0 < next)
        : options.importOptions.lineOptions.keyColumn ≠ some next := by
      rw [keyed.keyColumn]
      exact fun same => absurd (Option.some.inj same) (by omega)
    rw [keyed.fieldIds]
    have columnsLegible := legible.columns
    cases fields : options.fieldNums with
    | nil => rfl
    | cons field others =>
        rw [fields] at areColumns columnsLegible
        rw [List.mapM_cons] at areColumns
        obtain ⟨column, isColumn, more⟩ := Option.bind_eq_some_iff.mp areColumns
        obtain ⟨behindColumns, areOthers, same⟩ := Option.bind_eq_some_iff.mp more
        cases same
        obtain ⟨next, behind, reads⟩ := @columnWrites_first creator host options row field column
          separates (columnsLegible field List.mem_cons_self column isColumn) isColumn
          behindColumns (others.map some) 0 _ isLine
        rw [List.map_cons, reads, columnWrites_read separates others
          (fun field member => columnsLegible field (List.mem_cons_of_mem _ member)) areOthers
          (later next behind) later]
        rfl

end Lines

end ExportOptions

end SpeedTables
