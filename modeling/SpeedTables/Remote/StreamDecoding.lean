import SpeedTables.Remote.StreamLines
import SpeedTables.Remote.StreamQuoting

/-! When the client decodes the response to a search faithfully. -/

namespace SpeedTables.Remote

open Lib (Text)

-----------------------------------------------------------------------------------------
-- Statements
-----------------------------------------------------------------------------------------

namespace Exchange

variable (exchange : Exchange) (ncgi : Ncgi)

/-- A column is written as it is. -/
def Bare (column : Column) : Prop :=
  column.quoted = false ∨ exchange.serverQuote = .none

/-- A column reads back for a script: what the server quotes is decoded without a change, and what it
does not quote has nothing to decode.
-/
def Decodes (column : Column) : Prop :=
  if exchange.enabled then
    if column.quoted then '+' ∉ column.text else ncgi.decode column.text = column.text
  else column.quoted = true → quoteString exchange.asked column.text = column.text

/-- A column reads back into a field of a table, which need not be one that this table quotes. -/
def Imports (table : LocalTable) (title : Text) (column : Column) : Prop :=
  let bytes := textBytes column.text
  if exchange.enabled then
    (column.quoted = true ∧ table.quotes title = false →
        textBytes (quoteString .uri column.text) = bytes)
      ∧ (column.quoted = false ∧ table.quotes title = true →
        copyDequoted .uri bytes.length bytes = some bytes)
  else column.quoted = true → textBytes (quoteString exchange.asked column.text) = bytes

/-- The values of a row. -/
def rowBytes (row : List Column) : List CString :=
  row.map fun column => textBytes column.text

/-- What each way of delivering the rows asks of them. -/
def SuitsMode : Prop :=
  match exchange.mode with
  | .writeTabsep =>
      ∀ row ∈ exchange.rows,
        exchange.rowText row = tabbed (row.map (writtenUnder exchange.asked))
  | .code action =>
      (action = false → ∀ names ∈ exchange.names, names ≠ [] → exchange.rows = [])
      ∧ ∀ row ∈ exchange.rows, ∀ column ∈ row,
          (exchange.Bare column → '\t' ∉ column.text) ∧ exchange.Decodes ncgi column
  | .into table =>
      ∃ names, exchange.names = some names ∧ names ≠ []
        ∧ table.knows (columnTitles names) = true
        ∧ (∀ row ∈ exchange.rows, exchange.rowText row ≠ []
            ∧ (∀ column ∈ row, exchange.Bare column → '\t' ∉ column.text)
            ∧ ∀ pair ∈ (columnTitles names).zip row, exchange.Imports table pair.1 pair.2)
        ∧ ∀ before row after, exchange.rows = before ++ row :: after →
            table.takes (before.map rowBytes) (rowBytes row) = true

/-- A search whose response the client decodes: no line end stands bare in a row, no row is the end
marker, no carriage return stands in the final response, and the rows suit their delivery.
-/
structure Sound : Prop where
  unbroken : ∀ row ∈ exchange.rows, ∀ column ∈ row, exchange.Bare column →
    ∀ c ∈ column.text, isBreak c = false
  unmarked : ∀ row ∈ exchange.rows, exchange.rowText row ≠ marker
  response : '\r' ∉ exchange.reply.line
  suits : exchange.SuitsMode ncgi

end Exchange

-----------------------------------------------------------------------------------------
-- Columns
-----------------------------------------------------------------------------------------

theorem tabbed_cons (column other : Text) (columns : List Text)
    : tabbed (column :: other :: columns) = column ++ '\t' :: tabbed (other :: columns) := by
  simp [tabbed, List.intercalate_cons_cons]

theorem mem_tabbed {columns : List Text} {c : Char} (member : c ∈ tabbed columns)
    : c = '\t' ∨ ∃ column ∈ columns, c ∈ column := by
  induction columns with
  | nil => simp [tabbed] at member
  | cons column columns ih =>
      cases columns with
      | nil => exact .inr ⟨column, by simp, by simpa [tabbed] using member⟩
      | cons other columns =>
          rw [tabbed_cons] at member
          rcases List.mem_append.mp member with inside | inside
          · exact .inr ⟨column, by simp, inside⟩
          · rcases List.mem_cons.mp inside with tab | inside
            · exact .inl tab
            · rcases ih inside with tab | ⟨found, present, inside⟩
              · exact .inl tab
              · exact .inr ⟨found, List.mem_cons_of_mem _ present, inside⟩

theorem tabbed_mem {columns : List Text} {column : Text} {c : Char} (present : column ∈ columns)
    (member : c ∈ column) : c ∈ tabbed columns := by
  induction columns with
  | nil => cases present
  | cons first columns ih =>
      cases columns with
      | nil =>
          obtain rfl := List.mem_singleton.mp present
          simpa [tabbed] using member
      | cons other columns =>
          rw [tabbed_cons]
          rcases List.mem_cons.mp present with rfl | present
          · exact List.mem_append_left _ member
          · exact List.mem_append_right _ (List.mem_cons_of_mem _ (ih present))

theorem count_tabbed (column : Text) (columns : List Text)
    : (tabbed (column :: columns)).count '\t'
        = columns.length + ((column :: columns).map (List.count '\t')).sum := by
  induction columns generalizing column with
  | nil => simp [tabbed]
  | cons other columns ih =>
      rw [tabbed_cons, List.count_append, List.count_cons_self, ih]
      simp only [List.map_cons, List.sum_cons, List.length_cons]
      omega

theorem splitOn_length (line : Text) : (line.splitOn '\t').length = line.count '\t' + 1 := by
  induction line with
  | nil => rfl
  | cons c line ih =>
      rw [List.splitOn_cons_eq_if_modifyHead]
      by_cases tab : c = '\t'
      · simp [tab, ih]
      · simp [tab, ih, List.count_cons_of_ne tab]

theorem splitOn_tabbed {columns : List Text} (some : columns ≠ [])
    (plain : ∀ column ∈ columns, '\t' ∉ column)
    : (tabbed columns).splitOn '\t' = columns :=
  List.splitOn_intercalate '\t' plain some

theorem length_le_tabbed {columns : List Text} (some : ∀ column ∈ columns, column ≠ [])
    : columns.length ≤ (tabbed columns).length := by
  induction columns with
  | nil => exact Nat.zero_le _
  | cons column columns ih =>
      have first := List.length_pos_of_ne_nil (some column List.mem_cons_self)
      cases columns with
      | nil => simpa [tabbed] using Nat.succ_le_of_lt first
      | cons other columns =>
          have behind := ih fun column member => some column (List.mem_cons_of_mem _ member)
          rw [tabbed_cons, List.length_append, List.length_cons, List.length_cons]
          simp only [List.length_cons] at behind ⊢
          omega

-----------------------------------------------------------------------------------------
-- Titles
-----------------------------------------------------------------------------------------

theorem FieldName.plain (name : FieldName) {c : Char} (member : c ∈ name.text)
    : Lib.TclList.isSpace c = false ∧ c ≠ '\\' ∧ c ≠ '{' ∧ c ≠ '"' := by
  have word := name.word c member
  have other (d : Char) (no : d.isAlphanum = false ∧ d ≠ '_') : c ≠ d := by
    rintro rfl
    rcases word with letter | under
    · rw [no.1] at letter
      cases letter
    · exact no.2 under
  refine ⟨?_, other _ (by decide), other _ (by decide), other _ (by decide)⟩
  by_contra space
  rw [Bool.not_eq_false, Lib.TclList.isSpace] at space
  simp only [Bool.or_eq_true, beq_iff_eq] at space
  rcases space with ((((same | same) | same) | same) | same) | same <;>
  · exact other _ (by decide) same

theorem columnTitles_plain {names : List FieldName} {title : Text}
    (member : title ∈ columnTitles names)
    : title ≠ [] ∧ ∀ c ∈ title, Lib.TclList.isSpace c = false ∧ c ≠ '\\' ∧ c ≠ '{' ∧ c ≠ '"' := by
  obtain ⟨name, -, rfl⟩ := List.mem_map.mp member
  exact ⟨name.present, fun c inside => name.plain inside⟩

theorem columnTitles_noTab {names : List FieldName} {title : Text}
    (member : title ∈ columnTitles names) : '\t' ∉ title := by
  intro tab
  exact absurd ((columnTitles_plain member).2 _ tab).1 (by decide)

/-- The line of titles is read back as a list. -/
theorem parse_titles (names : List FieldName)
    : Lib.TclList.parse (tabbed (columnTitles names)) = some (columnTitles names) := by
  have all {titles : List Text} {fuel : Nat} (enough : titles.length < fuel)
      (plain : ∀ title ∈ titles, title ≠ []
        ∧ ∀ c ∈ title, Lib.TclList.isSpace c = false ∧ c ≠ '\\' ∧ c ≠ '{' ∧ c ≠ '"')
      : Lib.TclList.parseAll fuel (tabbed titles) = some titles
        ∧ Lib.TclList.parseAll fuel ('\t' :: tabbed titles) = some titles := by
    induction titles generalizing fuel with
    | nil =>
        obtain ⟨fuel, rfl⟩ := Nat.exists_eq_add_one_of_ne_zero (Nat.ne_zero_of_lt enough)
        exact ⟨rfl, rfl⟩
    | cons title titles ih =>
        obtain ⟨fuel, rfl⟩ := Nat.exists_eq_add_one_of_ne_zero (Nat.ne_zero_of_lt enough)
        obtain ⟨behindFirst, behindTab⟩ := ih (Nat.lt_of_succ_lt_succ enough)
          fun other member => plain other (List.mem_cons_of_mem _ member)
        obtain ⟨present, word⟩ := plain title List.mem_cons_self
        obtain ⟨tail, shape, ends, behind⟩
            : ∃ tail, tabbed (title :: titles) = title ++ tail ∧ Lib.TclList.Ends tail
              ∧ Lib.TclList.parseAll fuel tail = some titles := by
          cases titles with
          | nil => exact ⟨[], by simp [tabbed], nofun, behindFirst⟩
          | cons other titles =>
              refine ⟨'\t' :: tabbed (other :: titles), tabbed_cons .., ?_, behindTab⟩
              rintro c ⟨⟩
              rfl
        obtain ⟨c, rest, rfl⟩ := List.exists_cons_of_ne_nil present
        have first := word c List.mem_cons_self
        have closes : Lib.TclList.opens (c :: rest ++ tail) = false := by
          simp [Lib.TclList.opens, first.2.2.1, first.2.2.2]
        have element := Lib.TclList.parseElement_bare closes
        rw [Lib.TclList.parseBare_plain (fun d inside => ⟨(word d inside).1, (word d inside).2.1⟩)
          ends] at element
        have whole : Lib.TclList.parseAll (fuel + 1) (tabbed ((c :: rest) :: titles))
            = some ((c :: rest) :: titles) := by
          rw [shape]
          exact (Lib.TclList.parseAll_cons first.1 element).trans (by rw [behind]; rfl)
        refine ⟨whole, ?_⟩
        rw [← whole, Lib.TclList.parseAll, Lib.TclList.parseAll,
          List.dropWhile_cons_of_pos (by decide)]
  refine (all ?_ fun title member => columnTitles_plain member).1
  exact Nat.lt_succ_of_le (length_le_tabbed fun title member => (columnTitles_plain member).1)

theorem titles_noBreak (names : List FieldName)
    : ∀ c ∈ tabbed (columnTitles names), isBreak c = false := by
  intro c member
  by_contra breaks
  rw [Bool.not_eq_false] at breaks
  rcases mem_tabbed member with rfl | ⟨title, present, inside⟩
  · exact absurd breaks (by decide)
  · have plain := ((columnTitles_plain present).2 c inside).1
    rw [(isBreak_space breaks).1] at plain
    cases plain

theorem titles_ne_marker (names : List FieldName) : tabbed (columnTitles names) ≠ marker := by
  intro same
  have member : '\\' ∈ tabbed (columnTitles names) := by
    rw [same]
    exact List.mem_cons_self
  rcases mem_tabbed member with tab | ⟨title, present, inside⟩
  · exact absurd tab (by decide)
  · exact ((columnTitles_plain present).2 _ inside).2.1 rfl

theorem titles_eq_nil {names : List FieldName} : tabbed (columnTitles names) = [] ↔ names = [] := by
  constructor
  · intro empty
    have few := length_le_tabbed fun title member => (@columnTitles_plain names title member).1
    rw [empty, columnTitles, List.length_map] at few
    exact List.length_eq_zero_iff.mp (Nat.le_zero.mp few)
  · rintro rfl
    rfl

theorem splitOn_titles {names : List FieldName} (some : names ≠ [])
    : (tabbed (columnTitles names)).splitOn '\t' = columnTitles names := by
  refine splitOn_tabbed ?_ fun title member => columnTitles_noTab member
  exact fun none' => some (List.map_eq_nil_iff.mp none')

-----------------------------------------------------------------------------------------
-- Rows
-----------------------------------------------------------------------------------------

namespace Exchange

variable {exchange : Exchange} {ncgi : Ncgi} {column : Column} {row : List Column}

theorem written_bare (bare : exchange.Bare column) : exchange.written column = column.text := by
  rw [written, writtenUnder]
  rcases bare with unquoted | none'
  · simp [unquoted]
  · simp [none', quoteString]

/-- A column that is not written as it is has neither separators nor line ends. -/
theorem written_quoted (quoted : ¬exchange.Bare column)
    : ∀ c ∈ exchange.written column, c ≠ '\t' ∧ isBreak c = false := by
  obtain ⟨isQuoted, quotes⟩ := not_or.mp quoted
  rw [written, writtenUnder, if_pos (by simpa using isQuoted)]
  exact quoteString_plain quotes column.text

theorem noTab_written
    : '\t' ∉ exchange.written column ↔ (exchange.Bare column → '\t' ∉ column.text) := by
  by_cases bare : exchange.Bare column
  · rw [written_bare bare]
    exact ⟨fun plain _ => plain, fun plain => plain bare⟩
  · exact ⟨fun _ isBare => absurd isBare bare, fun _ tab => (written_quoted bare _ tab).1 rfl⟩

/-- The lines hold line ends exactly where a column written as it is does. -/
theorem lines_unbroken
    : (∀ line ∈ exchange.lines, ∀ c ∈ line, isBreak c = false)
        ↔ ∀ row ∈ exchange.rows, ∀ column ∈ row, exchange.Bare column →
          ∀ c ∈ column.text, isBreak c = false := by
  constructor
  · intro unbroken row inside column present bare c member
    refine unbroken (exchange.rowText row) ?_ c ?_
    · exact List.mem_append_right _ (List.mem_map_of_mem inside)
    · rw [← written_bare bare] at member
      exact tabbed_mem (List.mem_map_of_mem present) member
  · intro unbroken line member c present
    rcases List.mem_append.mp member with title | inside
    · obtain ⟨names, -, rfl⟩ := List.mem_map.mp title
      exact titles_noBreak names c present
    · obtain ⟨row, isRow, rfl⟩ := List.mem_map.mp inside
      rcases mem_tabbed present with rfl | ⟨text, written, present⟩
      · decide
      · obtain ⟨column, within, rfl⟩ := List.mem_map.mp written
        by_cases bare : exchange.Bare column
        · rw [written_bare bare] at present
          exact unbroken row isRow column within bare c present
        · exact (written_quoted bare c present).2

/-- What a script is given for a column. -/
theorem decodes_iff
    : (if exchange.enabled then ncgi.decode (exchange.written column) else exchange.written column)
          = column.text
        ↔ exchange.Decodes ncgi column := by
  unfold Decodes
  rcases enabled : exchange.enabled with _ | _
  · rcases quoted : column.quoted with _ | _
    · simp [written, writtenUnder, quoted]
    · simp [written, writtenUnder, quoted, serverQuote, enabled]
  · rcases quoted : column.quoted with _ | _
    · simp [written, writtenUnder, quoted]
    · simp [written, writtenUnder, quoted, serverQuote, enabled, ncgi.decode_quoted_iff]

/-- The columns of a row without separators are those that `split` gives, but for a last empty one. -/
theorem split_row (plain : ∀ column ∈ row, '\t' ∉ exchange.written column)
    : padded row.length (splitTabs (exchange.rowText row)) = row.map exchange.written
        ∧ (splitTabs (exchange.rowText row)).length ≤ row.length := by
  rcases row with _ | ⟨first, row⟩
  · exact ⟨rfl, Nat.le_refl 0⟩
  · by_cases empty : exchange.rowText (first :: row) = []
    · rw [splitTabs, if_pos empty]
      rcases row with _ | ⟨second, row⟩
      · have nothing : exchange.written first = [] := by simpa [rowText, tabbed] using empty
        exact ⟨by simp [padded, nothing], Nat.zero_le _⟩
      · rw [rowText, List.map_cons, List.map_cons, tabbed_cons] at empty
        simp at empty
    · have pieces : (exchange.rowText (first :: row)).splitOn '\t'
          = (first :: row).map exchange.written := by
        refine splitOn_tabbed nofun ?_
        intro text member
        obtain ⟨column, present, rfl⟩ := List.mem_map.mp member
        exact plain column present
      rw [splitTabs, if_neg empty, pieces]
      exact ⟨by simp [padded], by simp⟩

/-- A script is given the columns of a row exactly when each reads back. -/
theorem foreachPairs_row {titles : List Text} (fits : row.length = titles.length)
    : foreachPairs ncgi exchange.enabled titles (exchange.rowText row)
          = titles.zip (row.map Column.text)
        ↔ ∀ column ∈ row, (exchange.Bare column → '\t' ∉ column.text)
          ∧ exchange.Decodes ncgi column := by
  have given (plain : ∀ column ∈ row, '\t' ∉ exchange.written column)
      : foreachPairs ncgi exchange.enabled titles (exchange.rowText row)
            = titles.zip (row.map Column.text)
          ↔ ∀ column ∈ row, exchange.Decodes ncgi column := by
    obtain ⟨values, few⟩ := split_row plain
    have rounds : max titles.length (splitTabs (exchange.rowText row)).length = row.length := by omega
    have all : padded row.length titles = titles := by simp [padded, fits]
    simp only [foreachPairs, rounds, values, all, List.map_map]
    constructor
    · intro same column present
      have seconds := congrArg (List.map Prod.snd) same
      rw [List.map_snd_zip (by simp [fits]), List.map_snd_zip (by simp [fits])] at seconds
      exact decodes_iff.mp (List.map_inj_left.mp seconds column present)
    · intro decodes
      refine congrArg titles.zip (List.map_congr_left fun column present => ?_)
      exact decodes_iff.mpr (decodes column present)
  constructor
  · intro same
    have plain : ∀ column ∈ row, '\t' ∉ exchange.written column := by
      have many := congrArg List.length same
      by_cases empty : exchange.rowText row = []
      · intro column present tab
        have inside : '\t' ∈ exchange.rowText row := tabbed_mem (List.mem_map_of_mem present) tab
        rw [empty] at inside
        cases inside
      · rcases row with _ | ⟨first, row⟩
        · exact nofun
        · have pieces := splitOn_length (exchange.rowText (first :: row))
          have count := count_tabbed (exchange.written first) (row.map exchange.written)
          rw [← List.map_cons] at count
          simp only [foreachPairs, padded, splitTabs, if_neg empty, List.length_zip,
            List.length_append, List.length_replicate, List.length_map] at many
          simp only [List.length_cons] at fits many
          have none' : (((first :: row).map exchange.written).map (List.count '\t')).sum = 0 := by
            have same' : (exchange.rowText (first :: row)).count '\t'
                = (tabbed ((first :: row).map exchange.written)).count '\t' := rfl
            rw [List.length_map] at count
            omega
          rw [List.sum_eq_zero_iff] at none'
          intro column present
          exact List.count_eq_zero.mp
            (none' _ (List.mem_map_of_mem (List.mem_map_of_mem present)))
    exact fun column present =>
      ⟨noTab_written.mp (plain column present), (given plain).mp same column present⟩
  · intro each
    have plain : ∀ column ∈ row, '\t' ∉ exchange.written column :=
      fun column present => noTab_written.mpr (each column present).1
    exact (given plain).mpr fun column present => (each column present).2

/-- What a field of a table is given for a piece of a line. -/
def fieldBytes (exchange : Exchange) (table : LocalTable) (title piece : Text) : CString :=
  if exchange.enabled ∧ table.quotes title then
    (copyDequoted .uri (textBytes piece).length (textBytes piece)).getD []
  else textBytes piece

theorem fieldBytes_length (table : LocalTable) (title piece : Text)
    : (exchange.fieldBytes table title piece).length ≤ (textBytes piece).length := by
  unfold fieldBytes
  split
  · rcases read : copyDequoted .uri (textBytes piece).length (textBytes piece) with _ | value
    · exact Nat.zero_le _
    · exact copyDequoted_length read
  · exact Nat.le_refl _

/-- What a field of a table is given for a column. -/
theorem imports_iff (table : LocalTable) (title : Text)
    : exchange.fieldBytes table title (exchange.written column) = textBytes column.text
        ↔ exchange.Imports table title column := by
  have bare : (copyDequoted .uri (textBytes column.text).length (textBytes column.text)).getD []
        = textBytes column.text
      ↔ copyDequoted .uri (textBytes column.text).length (textBytes column.text)
        = some (textBytes column.text) := by
    constructor
    · intro same
      rcases read : copyDequoted .uri (textBytes column.text).length (textBytes column.text)
        with _ | value
      · rw [read, Option.getD_none] at same
        rw [← same] at read
        exact absurd read (by decide)
      · rw [read, Option.getD_some] at same
        rw [same]
    · intro read
      rw [read, Option.getD_some]
  unfold Imports fieldBytes
  rcases enabled : exchange.enabled with _ | _
  · rcases quoted : column.quoted with _ | _
    · simp [written, writtenUnder, quoted]
    · simp [written, writtenUnder, quoted, serverQuote, enabled]
  · rcases quoted : column.quoted with _ | _
    · rcases quotes : table.quotes title with _ | _
      · simp [written, writtenUnder, quoted]
      · simpa [written, writtenUnder, quoted] using bare
    · rcases quotes : table.quotes title with _ | _
      · simp [written, writtenUnder, quoted, serverQuote, enabled]
      · simp [written, writtenUnder, quoted, serverQuote, enabled, copyDequoted_quoted]

/-- A piece up to a separator within a column is too short for its value. -/
theorem fieldBytes_cut {table : LocalTable} {title piece rest : Text}
    (cut : exchange.written column = piece ++ '\t' :: rest)
    : exchange.fieldBytes table title piece ≠ textBytes column.text := by
  intro same
  have bare : exchange.Bare column := by
    by_contra quoted
    exact (written_quoted quoted '\t' (by simp [cut])).1 rfl
  rw [written_bare bare] at cut
  have short := @fieldBytes_length exchange table title piece
  have longer := textBytes_length_lt piece '\t' rest
  rw [← cut, ← same] at longer
  omega

/-- A text with a separator splits before the first. -/
theorem splitOn_cut {text : Text} (tab : '\t' ∈ text) (behind : Text)
    : ∃ piece rest pieces, text = piece ++ '\t' :: rest
        ∧ (text ++ behind).splitOn '\t' = piece :: pieces := by
  obtain ⟨piece, rest, split, plain⟩ := List.eq_append_cons_of_mem tab
  refine ⟨piece, rest, (rest ++ behind).splitOn '\t', split, ?_⟩
  rw [split, List.append_assoc, List.cons_append, List.splitOn_append_cons_self_of_not_mem plain]

theorem padded_cons (length : Nat) (value : Text) (values : List Text)
    : padded (length + 1) (value :: values) = value :: padded length values := by
  simp [padded]

/-- A table whose fields are given the columns of a row is given no separator within one, by
induction on the columns.
-/
theorem noTab_of_values {table : LocalTable} {titles : List Text}
    (fits : row.length = titles.length)
    (same : titles.zipWith (exchange.fieldBytes table)
        (padded titles.length ((exchange.rowText row).splitOn '\t'))
      = rowBytes row)
    : ∀ column ∈ row, '\t' ∉ exchange.written column := by
  induction row generalizing titles with
  | nil => exact nofun
  | cons first row ih =>
      obtain ⟨title, titles, rfl⟩ := List.exists_cons_of_length_eq_add_one fits.symm
      have firstPlain : '\t' ∉ exchange.written first := by
        intro tab
        obtain ⟨behind, shape⟩ : ∃ behind,
            exchange.rowText (first :: row) = exchange.written first ++ behind := by
          cases row with
          | nil => exact ⟨[], by simp [rowText, tabbed]⟩
          | cons second row => exact ⟨_, tabbed_cons ..⟩
        obtain ⟨piece, rest, pieces, cut, split⟩ := splitOn_cut tab behind
        rw [shape, split, List.length_cons, padded_cons, List.zipWith_cons_cons] at same
        exact fieldBytes_cut cut (List.cons.inj same).1
      cases row with
      | nil => simpa using firstPlain
      | cons second row =>
          have split : (exchange.rowText (first :: second :: row)).splitOn '\t'
              = exchange.written first :: (exchange.rowText (second :: row)).splitOn '\t' := by
            have shape : exchange.rowText (first :: second :: row)
                = exchange.written first ++ '\t' :: exchange.rowText (second :: row) :=
              tabbed_cons ..
            rw [shape, List.splitOn_append_cons_self_of_not_mem firstPlain]
          rw [split, List.length_cons, padded_cons, List.zipWith_cons_cons] at same
          have behind := ih (Nat.succ.inj fits) (List.cons.inj same).2
          exact List.forall_mem_cons.mpr ⟨firstPlain, behind⟩

/-- A table is given the columns of a row exactly when each reads back. -/
theorem values_row {table : LocalTable} {titles : List Text} (fits : row.length = titles.length)
    (some : titles ≠ [])
    : table.values exchange.enabled titles (exchange.rowText row) = rowBytes row
        ↔ (∀ column ∈ row, exchange.Bare column → '\t' ∉ column.text)
          ∧ ∀ pair ∈ titles.zip row, exchange.Imports table pair.1 pair.2 := by
  have shape : table.values exchange.enabled titles (exchange.rowText row)
      = titles.zipWith (exchange.fieldBytes table)
          (padded titles.length ((exchange.rowText row).splitOn '\t')) := rfl
  have given (plain : ∀ column ∈ row, '\t' ∉ exchange.written column)
      : titles.zipWith (exchange.fieldBytes table)
            (padded titles.length ((exchange.rowText row).splitOn '\t')) = rowBytes row
          ↔ ∀ pair ∈ titles.zip row, exchange.Imports table pair.1 pair.2 := by
    have pieces : (exchange.rowText row).splitOn '\t' = row.map exchange.written := by
      refine splitOn_tabbed ?_ ?_
      · rintro none'
        have empty := congrArg List.length none'
        rw [List.length_map, fits] at empty
        exact some (List.length_eq_zero_iff.mp empty)
      · intro text member
        obtain ⟨column, present, rfl⟩ := List.mem_map.mp member
        exact plain column present
    have all : padded titles.length (row.map exchange.written) = row.map exchange.written := by
      simp [padded, fits]
    rw [pieces, all]
    clear plain pieces all shape some
    induction row generalizing titles with
    | nil => simp [rowBytes]
    | cons first row ih =>
        obtain ⟨title, titles, rfl⟩ := List.exists_cons_of_length_eq_add_one fits.symm
        have behind := ih (Nat.succ.inj fits)
        simp only [List.map_cons, List.zipWith_cons_cons, rowBytes, List.cons.injEq,
          List.zip_cons_cons, List.forall_mem_cons, imports_iff] at behind ⊢
        exact and_congr_right fun _ => behind
  rw [shape]
  constructor
  · intro same
    have plain := noTab_of_values fits same
    exact ⟨fun column present => noTab_written.mp (plain column present), (given plain).mp same⟩
  · rintro ⟨bare, imports⟩
    exact (given fun column present => noTab_written.mpr (bare column present)).mpr imports

-----------------------------------------------------------------------------------------
-- Deliveries
-----------------------------------------------------------------------------------------

/-- A loop accepts a first line and others behind it. -/
theorem accepts_cons {first : Text} {lines : List Text}
    : exchange.Accepts (first :: lines)
        ↔ exchange.take [] first = .next
          ∧ ∀ before line after, lines = before ++ line :: after →
              exchange.take (first :: before) line = .next := by
  constructor
  · intro accepts
    refine ⟨accepts [] first lines rfl, fun before line after split => ?_⟩
    exact accepts (first :: before) line after (by rw [split]; rfl)
  · rintro ⟨goes, rest⟩ before line after split
    rcases before with _ | ⟨other, before⟩
    · obtain rfl : first = line := (List.cons.inj split).1
      exact goes
    · obtain rfl : first = other := (List.cons.inj split).1
      exact rest before line after (List.cons.inj split).2

/-- The rows have the split that their lines have. -/
theorem rowLines_split {P : List Text → Text → Prop}
    : (∀ before line after, exchange.rows.map exchange.rowText = before ++ line :: after →
          P before line)
        ↔ ∀ before row after, exchange.rows = before ++ row :: after →
          P (before.map exchange.rowText) (exchange.rowText row) := by
  constructor
  · intro each before row after split
    exact each _ _ (after.map exchange.rowText) (by rw [split, List.map_append, List.map_cons])
  · intro each before line after split
    obtain ⟨early, later, rows, rfl, behind⟩ := List.map_eq_append_iff.mp split
    obtain ⟨row, late, rfl, rfl, -⟩ := List.map_eq_cons_iff.mp behind
    exact each early row late rows

theorem mem_of_split {α : Type} {rows : List α} {P : α → Prop}
    : (∀ before row after, rows = before ++ row :: after → P row) ↔ ∀ row ∈ rows, P row := by
  constructor
  · intro each row member
    obtain ⟨before, after, split⟩ := List.append_of_mem member
    exact each before row after split
  · rintro each before row after rfl
    exact each row (by simp)

theorem lines_none (names : exchange.names = none) (structured : exchange.mode.raw = false)
    : exchange.lines = [] ∧ exchange.rows = [] := by
  have none' := exchange.headed structured names
  exact ⟨by simp [lines, titles, names, none'], none'⟩

theorem lines_some {names : List FieldName} (some : exchange.names = some names)
    : exchange.lines
        = tabbed (columnTitles names) :: exchange.rows.map exchange.rowText := by
  simp [lines, titles, some]

/-- Rows are written to a channel as lines. -/
theorem suits_writeTabsep (mode : exchange.mode = .writeTabsep)
    : exchange.Accepts exchange.lines ∧ exchange.take exchange.lines marker = .stop
          ∧ exchange.delivered ncgi exchange.lines = exchange.expected
        ↔ (∀ row ∈ exchange.rows, exchange.rowText row ≠ marker) ∧ exchange.SuitsMode ncgi := by
  have take (accepted : List Text) (line : Text)
      : exchange.take accepted line = if line = marker then .stop else .next := by
    simp only [Exchange.take, mode]
  have accepts : exchange.Accepts exchange.lines
      ↔ ∀ row ∈ exchange.rows, exchange.rowText row ≠ marker := by
    have goes (line : Text) : (if line = marker then Taken.stop else .next) = .next
        ↔ line ≠ marker := by
      split <;> simp_all
    simp only [Accepts, take, goes]
    rw [mem_of_split (P := fun line => line ≠ marker)]
    constructor
    · intro each row member
      exact each _ (List.mem_append_right _ (List.mem_map_of_mem member))
    · intro each line member
      rcases List.mem_append.mp member with title | inside
      · obtain ⟨names, -, rfl⟩ := List.mem_map.mp title
        exact titles_ne_marker names
      · obtain ⟨row, isRow, rfl⟩ := List.mem_map.mp inside
        exact each row isRow
  have delivers : exchange.delivered ncgi exchange.lines = exchange.expected
      ↔ exchange.SuitsMode ncgi := by
    simp only [delivered, expected, SuitsMode, mode, Delivered.written.injEq, lines,
      List.append_cancel_left_eq, List.map_inj_left]
  rw [accepts, delivers, take, if_pos rfl]
  simp

/-- A script is evaluated for each row. -/
theorem suits_code {action : Bool} (mode : exchange.mode = .code action)
    : exchange.Accepts exchange.lines ∧ exchange.take exchange.lines marker = .stop
          ∧ exchange.delivered ncgi exchange.lines = exchange.expected
        ↔ (∀ row ∈ exchange.rows, exchange.rowText row ≠ marker) ∧ exchange.SuitsMode ncgi := by
  have structured : exchange.mode.raw = false := by
    rw [mode]
    rfl
  rcases some : exchange.names with _ | names
  · obtain ⟨noLines, noRows⟩ := lines_none some structured
    simp [noLines, noRows, Accepts, SuitsMode, Exchange.take, delivered, expected, mode, some]
  · have fits := exchange.fits names some
    rw [lines_some some, accepts_cons, rowLines_split]
    have header : exchange.take [] (tabbed (columnTitles names)) = .next := by
      simp only [Exchange.take, mode, if_neg (titles_ne_marker names)]
    have stops (rest : List Text)
        : exchange.take (tabbed (columnTitles names) :: rest) marker = .stop := by
      simp only [Exchange.take, mode, if_true]
    have goes (before : List Text) {row : List Column} (member : row ∈ exchange.rows)
        : exchange.take (tabbed (columnTitles names) :: before) (exchange.rowText row) = .next
          ↔ exchange.rowText row ≠ marker ∧ (action = false → names = []) := by
      have rounds : columnTitles names ≠ [] ∨ splitTabs (exchange.rowText row) ≠ []
          ↔ names ≠ [] := by
        constructor
        · rintro (titled | pieces) rfl
          · exact titled rfl
          · have empty := List.length_eq_zero_iff.mp (fits row member)
            rw [empty] at pieces
            exact pieces rfl
        · exact fun present => .inl fun none' => present (List.map_eq_nil_iff.mp none')
      simp only [Exchange.take, mode, parse_titles, rounds]
      by_cases marked : exchange.rowText row = marker
      · simp [marked]
      · by_cases untitled : names = []
        · simp [marked, untitled]
        · cases action <;> simp [marked, untitled]
    have delivers : exchange.delivered ncgi
          (tabbed (columnTitles names) :: exchange.rows.map exchange.rowText) = exchange.expected
        ↔ ∀ row ∈ exchange.rows, ∀ column ∈ row,
          (exchange.Bare column → '\t' ∉ column.text) ∧ exchange.Decodes ncgi column := by
      have each : ∀ row ∈ exchange.rows,
          (foreachPairs ncgi exchange.enabled (columnTitles names) (exchange.rowText row)
              = (columnTitles names).zip (row.map Column.text)
            ↔ ∀ column ∈ row, (exchange.Bare column → '\t' ∉ column.text)
              ∧ exchange.Decodes ncgi column) := by
        intro row member
        refine foreachPairs_row ?_
        rw [fits row member, columnTitles, List.length_map]
      simp only [delivered, expected, mode, some, parse_titles, Option.getD_some, Option.map_some,
        Delivered.evaluated.injEq, Option.some.injEq, List.map_map, List.map_inj_left,
        Function.comp_apply]
      exact forall₂_congr each
    have accepts : (∀ before row after, exchange.rows = before ++ row :: after →
          exchange.take (tabbed (columnTitles names) :: before.map exchange.rowText)
            (exchange.rowText row) = .next)
        ↔ ∀ row ∈ exchange.rows,
          exchange.rowText row ≠ marker ∧ (action = false → names = []) := by
      rw [← mem_of_split (P := fun row =>
        exchange.rowText row ≠ marker ∧ (action = false → names = []))]
      refine forall₄_congr fun before row after split => ?_
      exact goes _ (by rw [split]; simp)
    rw [header, accepts, stops, delivers]
    simp only [SuitsMode, mode, some, true_and, Option.mem_def, Option.some.injEq, forall_eq']
    constructor
    · rintro ⟨each, columns⟩
      refine ⟨fun row member => (each row member).1, fun unset present => ?_, columns⟩
      refine List.eq_nil_iff_forall_not_mem.mpr fun row member => ?_
      exact present ((each row member).2 unset)
    · rintro ⟨unmarked, acts, columns⟩
      refine ⟨fun row member => ⟨unmarked row member, fun unset => ?_⟩, columns⟩
      by_contra present
      rw [acts unset present] at member
      cases member

/-- Rows are stored in a table. -/
theorem suits_into {table : LocalTable} (mode : exchange.mode = .into table)
    : exchange.Accepts exchange.lines ∧ exchange.take exchange.lines marker = .stop
          ∧ exchange.delivered ncgi exchange.lines = exchange.expected
        ↔ (∀ row ∈ exchange.rows, exchange.rowText row ≠ marker) ∧ exchange.SuitsMode ncgi := by
  have structured : exchange.mode.raw = false := by
    rw [mode]
    rfl
  rcases some : exchange.names with _ | names
  · obtain ⟨noLines, noRows⟩ := lines_none some structured
    have goesOn : exchange.take [] marker ≠ .stop := by
      simp only [Exchange.take, mode, if_neg (show marker ≠ [] from nofun)]
      split <;> nofun
    simp [noLines, goesOn, SuitsMode, mode, some]
  · have fits := exchange.fits names some
    rw [lines_some some, accepts_cons, rowLines_split]
    by_cases untitled : names = []
    · have stops : exchange.take [] (tabbed (columnTitles names)) = .stop := by
        simp only [Exchange.take, mode, if_pos (titles_eq_nil.mpr untitled)]
      constructor
      · rintro ⟨⟨goes, -⟩, -⟩
        rw [stops] at goes
        cases goes
      · rintro ⟨-, suits⟩
        simp [SuitsMode, mode, some, untitled] at suits
    · have titled : columnTitles names ≠ [] := fun none' => untitled (List.map_eq_nil_iff.mp none')
      have length (row : List Column) (member : row ∈ exchange.rows)
          : row.length = (columnTitles names).length := by
        rw [fits row member, columnTitles, List.length_map]
      have header : exchange.take [] (tabbed (columnTitles names)) = .next
          ↔ table.knows (columnTitles names) = true := by
        simp only [Exchange.take, mode, if_neg (mt titles_eq_nil.mp untitled),
          splitOn_titles untitled]
        split <;> simp_all
      have stops (rest : List Text)
          : exchange.take (tabbed (columnTitles names) :: rest) marker = .stop := by
        simp [Exchange.take, mode]
      have goes (before : List Text) (line : Text)
          : exchange.take (tabbed (columnTitles names) :: before) line = .next
            ↔ line ≠ [] ∧ line ≠ marker
              ∧ table.takes (before.map (table.values exchange.enabled (columnTitles names)))
                (table.values exchange.enabled (columnTitles names) line) = true := by
        simp only [Exchange.take, mode, splitOn_titles untitled]
        split
        next ends => simp only [reduceCtorEq, false_iff]; tauto
        next goesOn =>
          obtain ⟨present, unmarked⟩ := not_or.mp goesOn
          split <;> simp_all
      have delivers : exchange.delivered ncgi
            (tabbed (columnTitles names) :: exchange.rows.map exchange.rowText) = exchange.expected
          ↔ ∀ row ∈ exchange.rows,
            table.values exchange.enabled (columnTitles names) (exchange.rowText row)
              = rowBytes row := by
        simp only [delivered, expected, mode, some, splitOn_titles untitled, Option.map_some,
          Delivered.stored.injEq, Option.some.injEq, Prod.mk.injEq, true_and, List.map_map,
          List.map_inj_left, Function.comp_apply]
        rfl
      have each : (∀ row ∈ exchange.rows,
            table.values exchange.enabled (columnTitles names) (exchange.rowText row) = rowBytes row)
          ↔ ∀ row ∈ exchange.rows, (∀ column ∈ row, exchange.Bare column → '\t' ∉ column.text)
            ∧ ∀ pair ∈ (columnTitles names).zip row, exchange.Imports table pair.1 pair.2 :=
        forall₂_congr fun row member => values_row (length row member) titled
      have sameRows (values : ∀ row ∈ exchange.rows,
            table.values exchange.enabled (columnTitles names) (exchange.rowText row) = rowBytes row)
          {before after : List (List Column)} {row : List Column}
          (split : exchange.rows = before ++ row :: after)
          : (before.map exchange.rowText).map (table.values exchange.enabled (columnTitles names))
                = before.map rowBytes
            ∧ table.values exchange.enabled (columnTitles names) (exchange.rowText row)
                = rowBytes row := by
        refine ⟨?_, values row (by rw [split]; simp)⟩
        rw [List.map_map]
        refine List.map_congr_left fun other member => values other ?_
        rw [split]
        exact List.mem_append_left _ member
      rw [header, stops, delivers]
      simp only [goes, SuitsMode, mode, some]
      constructor
      · rintro ⟨⟨knows, accepts⟩, -, values⟩
        have lineOf (row : List Column) (member : row ∈ exchange.rows)
            : exchange.rowText row ≠ [] ∧ exchange.rowText row ≠ marker := by
          obtain ⟨before, after, split⟩ := List.append_of_mem member
          obtain ⟨present, unmarked, -⟩ := accepts before row after split
          exact ⟨present, unmarked⟩
        refine ⟨fun row member => (lineOf row member).2, names, rfl, untitled, knows, ?_, ?_⟩
        · exact fun row member => ⟨(lineOf row member).1, each.mp values row member⟩
        · intro before row after split
          have takes := (accepts before row after split).2.2
          obtain ⟨earlier, own⟩ := sameRows values split
          rwa [earlier, own] at takes
      · rintro ⟨unmarked, titles, same, -, knows, rows, takes⟩
        obtain rfl := Option.some.inj same
        have values := each.mpr fun row member => (rows row member).2
        refine ⟨⟨knows, fun before row after split => ?_⟩, trivial, values⟩
        have member : row ∈ exchange.rows := by rw [split]; simp
        obtain ⟨earlier, own⟩ := sameRows values split
        rw [earlier, own]
        exact ⟨(rows row member).1, unmarked row member, takes before row after split⟩

end Exchange

/-- The client decodes the response to a search faithfully exactly when no line end stands bare in a
row, no row is the end marker, no carriage return stands in the final response, and the rows suit the
way in which they are delivered.
-/
theorem search_decoded (exchange : Exchange) (ncgi : Ncgi)
    : exchange.Faithful ncgi ↔ exchange.Sound ncgi := by
  have delivery
      : exchange.Accepts exchange.lines ∧ exchange.take exchange.lines marker = .stop
            ∧ exchange.delivered ncgi exchange.lines = exchange.expected
          ↔ (∀ row ∈ exchange.rows, exchange.rowText row ≠ marker)
            ∧ exchange.SuitsMode ncgi := by
    rcases mode : exchange.mode with _ | action | table
    · exact Exchange.suits_writeTabsep mode
    · exact Exchange.suits_code mode
    · exact Exchange.suits_into mode
  rw [exchange.faithful_iff_lines, Exchange.lines_unbroken, delivery]
  constructor
  · rintro ⟨response, unbroken, unmarked, suits⟩
    exact ⟨unbroken, unmarked, response, suits⟩
  · rintro ⟨unbroken, unmarked, response, suits⟩
    exact ⟨response, unbroken, unmarked, suits⟩

-----------------------------------------------------------------------------------------
-- A row that is the end marker
-----------------------------------------------------------------------------------------

def hexValue (c : Char) : Option Nat :=
  ((List.range 16).find? fun digit => Nat.digitChar digit = c)

/-- The character of an escape sequence behind its percent sign. -/
def escaped : Text → Option Char
  | high :: low :: _ =>
      (hexValue high).bind fun first =>
        (hexValue low).map fun second => Char.ofNat (first * 16 + second)
  | _ => none

/-- The decoding of pluses and of escape sequences for single bytes. The first argument counts the
characters that an escape sequence has taken.
-/
def asciiDecode : Nat → Text → Text
  | _, [] => []
  | taken + 1, _ :: rest => asciiDecode taken rest
  | 0, c :: rest =>
      if c = '+' then ' ' :: asciiDecode 0 rest
      else
        match if c = '%' then escaped rest else none with
        | some value => value :: asciiDecode 2 rest
        | none => c :: asciiDecode 0 rest

def asciiNcgi : Ncgi where
  decode := asciiDecode 0
  nil := rfl
  plus := fun rest => by simp [asciiDecode]
  escape := by
    intro byte rest small
    have digits : ∀ digit < 16, hexValue (Nat.digitChar digit) = some digit := by decide
    have bound := byte.toNat_lt
    have high := digits (byte.toNat / 16) (by omega)
    have low := digits (byte.toNat % 16) (by omega)
    have whole : byte.toNat / 16 * 16 + byte.toNat % 16 = byte.toNat := by omega
    simp [asciiDecode, escaped, hexText, high, low, whole]
  other := fun c rest noPlus noPercent => by simp [asciiDecode, noPlus, noPercent]

/-- A search that writes two rows, of one column each, to a channel. -/
def markerSearch : Exchange where
  mode := .writeTabsep
  asked := .none
  enabled := false
  names := none
  rows := [[{ text := marker, quoted := true }], [{ text := ['a'], quoted := true }]]
  reply := .ok ['2']
  headed := nofun
  fits := nofun

/-- A row that is the end marker ends the response: no row is delivered, the next one is taken for the
final response, and the end marker is left with that response.
-/
theorem search_markerRow
    : markerSearch.receive asciiNcgi (translated markerSearch.sent)
          = some
              { delivered := .written []
                behind := ['a', '\n', '\\', '.', '\n', 'k', ' ', '2', '\n']
                response := some ['a']
                left := ['\\', '.', '\n', 'k', ' ', '2', '\n'] }
        ∧ ¬markerSearch.Faithful asciiNcgi := by
  unfold Exchange.Faithful
  decide +kernel

end SpeedTables.Remote
