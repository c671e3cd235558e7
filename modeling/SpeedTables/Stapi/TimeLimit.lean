import Mathlib
import SpeedTables.Lib.SqlSelect

/-! The time limit that a refresh adds to the select statement of a table. -/

namespace SpeedTables.Stapi

open Lib (Text SqlToken SqlMode SqlDatabase SqlSelect AllTrue EndsInComment sqlTokens)

-----------------------------------------------------------------------------------------
-- The select statement of a table
-----------------------------------------------------------------------------------------

/-- A column of a definition: `foreach {field type expr} $column break`. -/
structure SelectColumn where
  field : Text
  expr : Text

def SelectColumn.selected (column : SelectColumn) : Text :=
  if column.expr = [] then column.field else column.expr ++ " AS ".toList ++ column.field

/-- The statement as far as its tables. Without tables, the name is the name of the table. -/
def selectText (name : Text) (tables : List Text) (columns : List SelectColumn) : Text :=
  let tables := if tables = [] then [name] else tables
  "SELECT ".toList ++ [','].intercalate (columns.map SelectColumn.selected)
    ++ " FROM ".toList ++ [','].intercalate tables

/-- `gen_speedtable_sql_select`. Without columns, the variable `selected` is unset. -/
def genSpeedtableSqlSelect (name : Text) (tables : List Text) (whereClause : Text)
    (columns : List SelectColumn) : Option Text :=
  if columns = [] then none
  else
    let sql := selectText name tables columns
    let sql := if whereClause = [] then sql else sql ++ " WHERE ".toList ++ whereClause
    some (sql ++ [';'])

-----------------------------------------------------------------------------------------
-- Times
-----------------------------------------------------------------------------------------

/-- The date of a day since 1970: year, month and day. Days before 15 October 1582 are in the Julian
calendar. Years are counted from March.
-/
def clockDate (days : Int) : Int × Nat × Nat :=
  let date (year : Int) (day : Nat) :=
    let month := (5 * day + 2) / 153
    let shifted := if month < 10 then month + 3 else month - 9
    (if shifted ≤ 2 then year + 1 else year, shifted, day - (153 * month + 2) / 5 + 1)
  if days < -141427 then
    let cycle := (days + 719470) / 1461
    let day := ((days + 719470) % 1461).toNat
    let year := (day - day / 1460) / 365
    date (cycle * 4 + year) (day - 365 * year)
  else
    let cycle := (days + 719468) / 146097
    let day := ((days + 719468) % 146097).toNat
    let year := (day - day / 1460 + day / 36524 - day / 146096) / 365
    date (cycle * 400 + year) (day - (365 * year + year / 4 - year / 100))

/-- A number with zeros before it. -/
def padded (width number : Nat) : Text :=
  let digits := Nat.toDigits 10 number
  List.replicate (width - digits.length) '0' ++ digits

def monthNames : List Text :=
  ["Jan".toList, "Feb".toList, "Mar".toList, "Apr".toList, "May".toList, "Jun".toList,
    "Jul".toList, "Aug".toList, "Sep".toList, "Oct".toList, "Nov".toList, "Dec".toList]

/-- `clock format $clock -format "%b %d %H:%M:%S %Y" -timezone :UTC`. Years before the first are
counted backwards.
-/
def clock2sqlgmt (clock : Int) : Text :=
  let (year, month, day) := clockDate (clock / 86400)
  let second := (clock % 86400).toNat
  let yearOfEra := if year ≤ 0 then 1 - year else year
  monthNames.getD (month - 1) [] ++ [' '] ++ padded 2 day ++ [' ']
    ++ padded 2 (second / 3600) ++ [':'] ++ padded 2 (second / 60 % 60) ++ [':']
    ++ padded 2 (second % 60) ++ [' '] ++ padded 4 yearOfEra.toNat

example : clock2sqlgmt 951782399 = "Feb 28 23:59:59 2000".toList := by decide +kernel

-----------------------------------------------------------------------------------------
-- The limit
-----------------------------------------------------------------------------------------

/-- What `regsub` writes for a match: `&` and `\0` stand for the match, the other digits behind a
backslash for groups that the pattern does not have.
-/
def substituteFrom (matched : Text) : (escaped : Bool) → Text → Text
  | true, [] => ['\\']
  | false, [] => []
  | false, c :: rest =>
      if c = '\\' then substituteFrom matched true rest
      else if c = '&' then matched ++ substituteFrom matched false rest
      else c :: substituteFrom matched false rest
  | true, c :: rest =>
      if c = '0' then matched ++ substituteFrom matched false rest
      else if c.isDigit then substituteFrom matched false rest
      else if c = '&' ∨ c = '\\' then c :: substituteFrom matched false rest
      else '\\' :: c :: substituteFrom matched false rest

def isEnding (c : Char) : Bool :=
  c = ';' || c = '\n'

/-- `[regexp -nocase { where } $sql]` -/
def hasWhere (sql : Text) : Bool :=
  decide (" where ".toList <:+: sql.map Char.toLower)

/-- `regsub "\[;\n]*$" $sql $new sql` -/
def replaceEnding (new sql : Text) : Text :=
  sql.rdropWhile isEnding ++ substituteFrom (sql.rtakeWhile isEnding) false new

/-- `set_time_limit` -/
def setTimeLimit (sql timeCol : Text) (lastRead : Int) : Text :=
  let lastRead := if timeCol = [] then 0 else lastRead
  if lastRead = 0 then sql
  else
    let timeVal := clock2sqlgmt lastRead
    let timeSql := timeCol ++ " > '".toList ++ timeVal ++ ['\'']
    let operator := if hasWhere sql then "AND".toList else "WHERE".toList
    replaceEnding ([' '] ++ operator ++ [' '] ++ timeSql ++ [';']) sql

-----------------------------------------------------------------------------------------
-- Column names
-----------------------------------------------------------------------------------------

/-- A name without quotes: a word that is no keyword. -/
structure BareName where
  first : Char
  others : Text
  begins : SqlMode.isWordChar first = true
  goesOn : ∀ c ∈ others, SqlMode.isWordChar c = true ∨ c = '$'
  plain : (SqlToken.word (first :: others)).isPlain = true

/-- A name, and the characters that a quoted name stands for. -/
inductive NamePart where
  | bare (name : BareName)
  | quoted (content : Text)

/-- Quotes in a quoted name are doubled. -/
def doubled (content : Text) : Text :=
  content.flatMap (fun c => if c = '"' then ['"', '"'] else [c])

def NamePart.text : NamePart → Text
  | .bare name => name.first :: name.others
  | .quoted content => '"' :: (doubled content ++ ['"'])

def NamePart.token : NamePart → SqlToken
  | .bare name => .word (name.first :: name.others)
  | .quoted content => .quoted ('"' :: (doubled content ++ ['"']))

/-- The name of a column, which may have the names of its table and schema before it. -/
structure ColumnName where
  first : NamePart
  others : List NamePart

def ColumnName.text (column : ColumnName) : Text :=
  column.first.text ++ column.others.flatMap (fun part => '.' :: part.text)

def ColumnName.tokens (column : ColumnName) : List SqlToken :=
  column.first.token :: column.others.flatMap (fun part => [.symbol '.', part.token])

/-- The name that `regsub` makes of a name. -/
def NamePart.substituted (matched : Text) : NamePart → NamePart
  | .bare name => .bare name
  | .quoted content => .quoted (substituteFrom matched false content)

def ColumnName.substituted (matched : Text) (column : ColumnName) : ColumnName :=
  { first := column.first.substituted matched
    others := column.others.map (NamePart.substituted matched) }

-----------------------------------------------------------------------------------------
-- The rows behind the limit
-----------------------------------------------------------------------------------------

variable {Row : Type}

/-- The tokens of the limit. -/
def limitTokens (column : ColumnName) (lastRead : Int) : List SqlToken :=
  column.tokens ++ [.operator ['>'], .quoted ('\'' :: (clock2sqlgmt lastRead ++ ['\'']))]

/-- A column with times. -/
structure TimeColumn (sql : SqlDatabase Row) where
  name : ColumnName
  value : Row → Option Int
  isColumn : sql.column name.tokens = some value

/-- The database compares a column with the time that is written in the limit. -/
def ComparesTimes (sql : SqlDatabase Row) (lastRead : Int) : Prop :=
  ∀ column : ColumnName, sql.predicate (limitTokens column lastRead)
    = (sql.column column.tokens).map (fun value row =>
        (value row).map (fun time => decide (lastRead < time)))

/-- The time of the row is later. -/
def Later (value : Row → Option Int) (lastRead : Int) (row : Row) : Prop :=
  ∃ time, value row = some time ∧ lastRead < time

/-- The statement is a select that returns the later rows of the query. -/
def Limits (sql : SqlDatabase Row) (query : SqlSelect Row) (value : Row → Option Int)
    (lastRead : Int) (statement : Text) : Prop :=
  ∃ limited, sql.select statement = some limited
    ∧ ∀ row, limited.Returns row ↔ query.Returns row ∧ Later value lastRead row

/-- The row satisfies an alternative before the last one. -/
def TakenEarlier (query : SqlSelect Row) (row : Row) : Prop :=
  ∃ factors ∈ query.alternatives.dropLast, AllTrue factors row

/-- The row satisfies the last alternative. -/
def TakenLast (query : SqlSelect Row) (row : Row) : Prop :=
  AllTrue (query.alternatives.getLastD []) row

/-- Rows of the alternatives that the limit does not belong to are later, and for the other rows
the column that `regsub` leaves in the limit is as good as the time column.
-/
def LimitBinds (sql : SqlDatabase Row) (query : SqlSelect Row) (column : ColumnName)
    (value : Row → Option Int) (lastRead : Int) : Prop :=
  (∀ row, query.source row → TakenEarlier query row → Later value lastRead row)
  ∧ ∃ left, sql.column column.tokens = some left
    ∧ ∀ row, query.source row → ¬ TakenEarlier query row → TakenLast query row →
        (Later left lastRead row ↔ Later value lastRead row)

/-- The tables end with the condition of a join, and with `AND` the limit belongs to it. -/
def JoinTakes (sql : SqlDatabase Row) (query : SqlSelect Row) (tables : List SqlToken)
    (column : ColumnName) (value : Row → Option Int) (lastRead : Int) : Prop :=
  ∃ source, sql.source (tables ++ Lib.andToken :: limitTokens column lastRead) = some source
    ∧ ∀ row, source row ↔ query.source row ∧ Later value lastRead row

/-- All rows of the query are later. -/
def AllLater (query : SqlSelect Row) (value : Row → Option Int) (lastRead : Int) : Prop :=
  ∀ row, query.Returns row → Later value lastRead row

/-- The statement that the limit is appended to is complete, and the operator, `AND` or `WHERE`, is
the right one.
-/
def LimitFits (sql : SqlDatabase Row) (statement : Text) (isAnd : Bool) (query : SqlSelect Row)
    (column : ColumnName) (value : Row → Option Int) (lastRead : Int) : Prop :=
  let stripped := statement.rdropWhile isEnding
  let tokens := (sqlTokens stripped).getD []
  let left := column.substituted (statement.rtakeWhile isEnding)
  if lastRead = 0 then AllLater query value lastRead
  else if EndsInComment stripped then
    (∀ c ∈ left.text, c ≠ '\n' ∧ c ≠ '\r') ∧ AllLater query value lastRead
  else .symbol ';' ∉ tokens
    ∧ match isAnd, query.filtered with
      | true, false => JoinTakes sql query tokens left value lastRead
      | false, true => False
      | _, _ => LimitBinds sql query left value lastRead

-----------------------------------------------------------------------------------------
-- The tokens of the limit
-----------------------------------------------------------------------------------------

open Lib.SqlMode

theorem not_isBlank_of_word {c : Char} (isWord : isWordChar c = true) : isBlank c = false := by
  by_contra blank
  simp only [isBlank, List.elem_eq_contains, List.contains_cons, List.contains_nil, Bool.or_false,
    Bool.not_eq_false, Bool.or_eq_true, beq_iff_eq] at blank
  rcases blank with rfl | rfl | rfl | rfl | rfl | rfl <;> exact absurd isWord (by decide)

theorem scan_word {letters rest : Text} (goesOn : ∀ c ∈ rest, isWordChar c = true ∨ c = '$')
    : (word letters).scan rest = (word (letters ++ rest), []) := by
  induction rest generalizing letters with
  | nil => simp
  | cons c rest ih =>
      have later := @ih (letters ++ [c])
        (fun d member => goesOn d (List.mem_cons_of_mem _ member))
      simp [next, goesOn c List.mem_cons_self, later]

theorem scan_doubled {raw content : Text}
    : (quoted true false raw).scan (doubled content ++ ['"'])
      = (quote true false (raw ++ (doubled content ++ ['"'])), []) := by
  induction content generalizing raw with
  | nil => simp [doubled, next, quoteChar]
  | cons c content ih =>
      by_cases isQuote : c = '"'
      · have later := @ih (raw ++ ['"', '"'])
        simp only [doubled] at later
        simp [doubled, isQuote, next, quoteChar, later]
      · have later := @ih (raw ++ [c])
        simp only [doubled] at later
        simp [doubled, isQuote, next, quoteChar, later]

theorem NamePart.tokens_text (part : NamePart)
    : between.tokensFrom part.text = some [part.token] := by
  cases part with
  | bare name =>
      have begins : start name.first = (word [name.first], []) := by
        simp [start, not_isBlank_of_word name.begins, name.begins]
      simp [tokensFrom, text, token, begins, scan_word name.goesOn, pending]
  | quoted content =>
      have begins : start '"' = (SqlMode.quoted true false ['"'], []) := by decide
      simp [tokensFrom, text, token, begins, scan_doubled, pending]

/-- The other parts of a name behind its first tokens, part by part. -/
theorem tokensFrom_parts (others : List NamePart) {text : Text} {tokens : List SqlToken}
    (reads : between.tokensFrom text = some tokens)
    : between.tokensFrom (text ++ others.flatMap (fun part => '.' :: part.text))
      = some (tokens ++ others.flatMap (fun part => [.symbol '.', part.token])) := by
  induction others generalizing text tokens with
  | nil => simpa using reads
  | cons part others ih =>
      have isDot : start '.' = (between, [.symbol '.']) := by decide
      have next : between.tokensFrom (text ++ '.' :: part.text)
          = some (tokens ++ [.symbol '.', part.token]) := by
        rw [tokensFrom_break (by decide) reads, tokensFrom_symbol isDot, part.tokens_text]
        rfl
      simpa using ih next

theorem ColumnName.tokens_text (column : ColumnName)
    : between.tokensFrom column.text = some column.tokens :=
  tokensFrom_parts column.others column.first.tokens_text

theorem NamePart.isPlain_token (part : NamePart) : part.token.isPlain = true := by
  cases part with
  | bare name => exact name.plain
  | quoted content => rfl

theorem limitTokens_plain (column : ColumnName) (lastRead : Int)
    : ∀ token ∈ limitTokens column lastRead, token.isPlain = true := by
  intro token member
  simp only [limitTokens, ColumnName.tokens, List.mem_append, List.mem_cons, List.mem_flatMap,
    List.not_mem_nil, or_false] at member
  rcases member with (rfl | ⟨part, -, rfl | rfl⟩) | rfl | rfl
  · exact column.first.isPlain_token
  · rfl
  · exact part.isPlain_token
  · rfl
  · rfl

/-- The characters of a time. -/
def isClockChar (c : Char) : Bool :=
  c.isAlphanum || c == ' ' || c == ':'

theorem padded_clock (width number : Nat) : (padded width number).all isClockChar = true := by
  simp only [padded, List.all_append, Bool.and_eq_true, List.all_eq_true]
  constructor
  · intro c member
    rw [List.eq_of_mem_replicate member]
    decide
  · intro c member
    have digit := Nat.isDigit_of_mem_toDigits (by decide) (by decide) member
    simp [isClockChar, Char.isAlphanum, digit]

theorem monthNames_clock (month : Nat)
    : (monthNames.getD month []).all isClockChar = true := by
  have all : monthNames.all (fun name => name.all isClockChar) = true := by decide
  rw [List.getD_eq_getElem?_getD]
  cases found : monthNames[month]? with
  | none => rfl
  | some name => exact List.all_eq_true.mp all name (List.mem_of_getElem? found)

theorem clock2sqlgmt_clock (clock : Int) : (clock2sqlgmt clock).all isClockChar = true := by
  have blank : isClockChar ' ' = true := by decide
  have colon : isClockChar ':' = true := by decide
  have month := monthNames_clock ((clockDate (clock / 86400)).2.1 - 1)
  simp only [clock2sqlgmt, List.all_append, padded_clock, month, List.all_cons, List.all_nil, blank,
    colon, Bool.and_true]

theorem ne_of_clockChar {c other : Char} (isClock : isClockChar c = true)
    (apart : isClockChar other = false)
    : c ≠ other := by
  intro same
  rw [same, apart] at isClock
  cases isClock

theorem scan_string {raw content : Text} (plain : ∀ c ∈ content, c ≠ '\'')
    : (quoted false false raw).scan (content ++ ['\''])
      = (quote false false (raw ++ (content ++ ['\''])), []) := by
  induction content generalizing raw with
  | nil => simp [next, quoteChar]
  | cons c content ih =>
      have later := @ih (raw ++ [c])
        (fun d member => plain d (List.mem_cons_of_mem _ member))
      simp [next, quoteChar, plain c List.mem_cons_self, later]

/-- The tokens of a statement with a limit behind it. -/
theorem tokensFrom_limit (column : ColumnName) (lastRead : Int) {operator stripped : Text}
    {base : List SqlToken} (reads : between.tokensFrom stripped = some base)
    (isWord : between.tokensFrom operator = some [.word operator])
    : between.tokensFrom (stripped ++ ([' '] ++ operator ++ [' ']
          ++ (column.text ++ " > '".toList ++ clock2sqlgmt lastRead ++ ['\'']) ++ [';']))
      = some (base ++ .word operator :: limitTokens column lastRead ++ [.symbol ';']) := by
  have plain : ∀ c ∈ clock2sqlgmt lastRead, c ≠ '\'' := fun c member =>
    ne_of_clockChar (List.all_eq_true.mp (clock2sqlgmt_clock lastRead) c member) (by decide)
  have literal : between.tokensFrom ('\'' :: (clock2sqlgmt lastRead ++ ['\'']))
      = some [.quoted ('\'' :: (clock2sqlgmt lastRead ++ ['\'']))] := by
    have begins : start '\'' = (SqlMode.quoted false false ['\''], []) := by decide
    simp [tokensFrom, begins, scan_string plain, pending]
  have semicolon : between.tokensFrom [';'] = some [.symbol ';'] := by decide
  have comparison : between.tokensFrom ['>'] = some [.operator ['>']] := by decide
  have text : stripped ++ ([' '] ++ operator ++ [' ']
        ++ (column.text ++ " > '".toList ++ clock2sqlgmt lastRead ++ ['\'']) ++ [';'])
      = stripped ++ ' ' :: (operator ++ ' ' :: (column.text ++ ' ' :: (['>'] ++ ' ' ::
          (('\'' :: (clock2sqlgmt lastRead ++ ['\''])) ++ [';'])))) := by simp
  rw [text, tokensFrom_break (by decide) reads, tokensFrom_blank,
    tokensFrom_break (by decide) isWord, tokensFrom_blank,
    tokensFrom_break (by decide) column.tokens_text, tokensFrom_blank,
    tokensFrom_break (by decide) comparison, tokensFrom_blank,
    tokensFrom_break (by decide) literal, semicolon]
  simp [limitTokens]

-----------------------------------------------------------------------------------------
-- The text of the limit
-----------------------------------------------------------------------------------------

/-- Characters that are not special to `regsub` stay. -/
theorem substituteFrom_plain {matched plain rest : Text}
    (unspecial : ∀ c ∈ plain, c ≠ '&' ∧ c ≠ '\\')
    : substituteFrom matched false (plain ++ rest)
      = plain ++ substituteFrom matched false rest := by
  induction plain with
  | nil => rfl
  | cons c plain ih =>
      obtain ⟨ampersand, backslash⟩ := unspecial c List.mem_cons_self
      simp [substituteFrom, ampersand, backslash,
        ih (fun d member => unspecial d (List.mem_cons_of_mem _ member))]

/-- Doubled quotes stay doubled. -/
theorem substituteFrom_doubled {matched content rest : Text} {escaped : Bool}
    (quoteless : '"' ∉ matched)
    : substituteFrom matched escaped (doubled content ++ '"' :: rest)
      = doubled (substituteFrom matched escaped content)
        ++ '"' :: substituteFrom matched false rest := by
  have stays : doubled matched = matched := by
    simp only [doubled]
    have single : ∀ c ∈ matched, (if c = '"' then ['"', '"'] else [c]) = [c] := by
      intro c member
      exact if_neg (fun same : c = '"' => quoteless (same ▸ member))
    rw [List.flatMap_congr single, List.flatMap_singleton']
  have digits : '"'.isDigit = false := by decide
  have app (left right : Text) : doubled (left ++ right) = doubled left ++ doubled right := by
    simp [doubled]
  have one (c : Char) (other : c ≠ '"') (right : Text)
      : doubled (c :: right) = c :: doubled right := by
    simp [doubled, other]
  have two (right : Text) : doubled ('"' :: right) = '"' :: '"' :: doubled right := by
    simp [doubled]
  induction content generalizing escaped with
  | nil =>
      cases escaped <;> simp [doubled, substituteFrom, digits]
  | cons c content ih =>
      by_cases isQuote : c = '"'
      · subst isQuote
        cases escaped <;> simp [two, one, substituteFrom, digits, ih]
      · rw [one c isQuote]
        cases escaped with
        | false =>
            simp only [List.cons_append, substituteFrom]
            split
            · exact ih
            · split
              · rw [ih, app, stays, List.append_assoc]
              · rw [ih, one c isQuote, List.cons_append]
        | true =>
            simp only [List.cons_append, substituteFrom]
            split
            · rw [ih, app, stays, List.append_assoc]
            · split
              · exact ih
              · split
                · rw [ih, one c isQuote, List.cons_append]
                · rw [ih, one '\\' (by decide), one c isQuote, List.cons_append, List.cons_append]

theorem NamePart.substituted_text {matched rest : Text} (quoteless : '"' ∉ matched)
    (part : NamePart)
    : substituteFrom matched false (part.text ++ rest)
      = (part.substituted matched).text ++ substituteFrom matched false rest := by
  cases part with
  | bare name =>
      apply substituteFrom_plain
      intro c member
      have isName : isWordChar c = true ∨ c = '$' := by
        cases member with
        | head => exact .inl name.begins
        | tail _ later => exact name.goesOn c later
      constructor <;> intro same <;> rw [same] at isName <;> exact absurd isName (by decide)
  | quoted content =>
      have inside := @substituteFrom_doubled matched content rest false quoteless
      simp [text, substituted, substituteFrom, inside]

theorem ColumnName.substituted_text {matched rest : Text} (quoteless : '"' ∉ matched)
    (column : ColumnName)
    : substituteFrom matched false (column.text ++ rest)
      = (column.substituted matched).text ++ substituteFrom matched false rest := by
  have others (parts : List NamePart)
      : substituteFrom matched false (parts.flatMap (fun part => '.' :: part.text) ++ rest)
        = (parts.map (NamePart.substituted matched)).flatMap (fun part => '.' :: part.text)
          ++ substituteFrom matched false rest := by
    induction parts with
    | nil => rfl
    | cons part parts ih =>
        have later := @part.substituted_text matched
          (parts.flatMap (fun part => '.' :: part.text) ++ rest) quoteless
        simp [substituteFrom, later, ih]
  rw [text, List.append_assoc, column.first.substituted_text quoteless, others]
  simp [text, substituted]

/-- The text with the limit. -/
theorem setTimeLimit_text (statement : Text) (column : ColumnName) {lastRead : Int}
    (isTime : lastRead ≠ 0)
    : setTimeLimit statement column.text lastRead
      = statement.rdropWhile isEnding ++ ([' '] ++ (if hasWhere statement then "AND".toList
            else "WHERE".toList) ++ [' ']
          ++ ((column.substituted (statement.rtakeWhile isEnding)).text ++ " > '".toList
            ++ clock2sqlgmt lastRead ++ ['\'']) ++ [';']) := by
  have named : column.text ≠ [] := by
    cases first : column.first <;> simp [ColumnName.text, NamePart.text, first]
  have quoteless : '"' ∉ statement.rtakeWhile isEnding := by
    intro member
    exact absurd (List.mem_rtakeWhile_imp member) (by decide)
  have time : ∀ c ∈ " > '".toList ++ clock2sqlgmt lastRead ++ ['\''] ++ [';'],
      c ≠ '&' ∧ c ≠ '\\' := by
    have clock : ∀ c ∈ clock2sqlgmt lastRead, c ≠ '&' ∧ c ≠ '\\' := by
      intro c member
      have isClock := List.all_eq_true.mp (clock2sqlgmt_clock lastRead) c member
      exact ⟨ne_of_clockChar isClock (by decide), ne_of_clockChar isClock (by decide)⟩
    intro c member
    simp only [List.mem_append] at member
    rcases member with ((before | inside) | behind) | semicolon
    · revert c
      simp
    · exact clock c inside
    · cases List.mem_singleton.mp behind
      decide
    · cases List.mem_singleton.mp semicolon
      decide
  have operator : ∀ c ∈ [' '] ++ (if hasWhere statement then "AND".toList else "WHERE".toList)
      ++ [' '], c ≠ '&' ∧ c ≠ '\\' := by
    cases hasWhere statement <;> simp
  have behind : substituteFrom (statement.rtakeWhile isEnding) false
        (" > '".toList ++ clock2sqlgmt lastRead ++ ['\''] ++ [';'])
      = " > '".toList ++ clock2sqlgmt lastRead ++ ['\''] ++ [';'] := by
    have whole := @substituteFrom_plain (statement.rtakeWhile isEnding) _ [] time
    simpa [substituteFrom] using whole
  have new : [' '] ++ (if hasWhere statement then "AND".toList else "WHERE".toList) ++ [' ']
        ++ (column.text ++ " > '".toList ++ clock2sqlgmt lastRead ++ ['\'']) ++ [';']
      = [' '] ++ (if hasWhere statement then "AND".toList else "WHERE".toList) ++ [' ']
        ++ (column.text ++ (" > '".toList ++ clock2sqlgmt lastRead ++ ['\''] ++ [';'])) := by
    simp only [List.append_assoc]
  simp only [setTimeLimit, if_neg named, if_neg isTime, replaceEnding]
  rw [new, substituteFrom_plain operator, column.substituted_text quoteless, behind]
  simp only [List.append_assoc]

-----------------------------------------------------------------------------------------
-- The statement with the limit
-----------------------------------------------------------------------------------------

variable {sql : SqlDatabase Row} {statement : Text} {query : SqlSelect Row} {column : ColumnName}
  {value : Row → Option Int} {lastRead : Int} {base : List SqlToken}

/-- The operator of the limit. -/
def operatorToken (statement : Text) : SqlToken :=
  if hasWhere statement then Lib.andToken else Lib.whereToken

/-- The statement with the limit, where no comment hides it. -/
theorem select_limited (column : ColumnName) (isTime : lastRead ≠ 0)
    (reads : between.tokensFrom (statement.rdropWhile isEnding) = some base)
    : sql.select (setTimeLimit statement column.text lastRead)
      = sql.readSelect (base ++ operatorToken statement
          :: limitTokens (column.substituted (statement.rtakeWhile isEnding)) lastRead
          ++ [.symbol ';']) := by
  have isWord : between.tokensFrom (if hasWhere statement then "AND".toList else "WHERE".toList)
      = some [.word (if hasWhere statement then "AND".toList else "WHERE".toList)] := by
    cases hasWhere statement <;> decide
  have tokens := tokensFrom_limit (column.substituted (statement.rtakeWhile isEnding)) lastRead
    reads isWord
  have operator : operatorToken statement
      = .word (if hasWhere statement then "AND".toList else "WHERE".toList) := by
    cases isAnd : hasWhere statement <;> simp [operatorToken, isAnd, Lib.andToken, Lib.whereToken]
  rw [SqlDatabase.select, setTimeLimit_text statement column isTime,
    (Lib.sqlTokens_of_tokensFrom tokens).1, Option.bind_some, operator]

/-- The rows of a statement whose last alternative has the limit as a factor. -/
theorem binds_iff {factor : Row → Option Bool} {left : Row → Option Int}
    (some_alternative : query.alternatives ≠ [])
    (compares : ∀ row, factor row = some true ↔ Later left lastRead row)
    : (∀ row, (query.source row
            ∧ ∃ factors ∈ Lib.addFactor query.alternatives factor, AllTrue factors row)
          ↔ query.Returns row ∧ Later value lastRead row)
      ↔ (∀ row, query.source row → TakenEarlier query row → Later value lastRead row)
        ∧ ∀ row, query.source row → ¬ TakenEarlier query row → TakenLast query row →
            (Later left lastRead row ↔ Later value lastRead row) := by
  simp only [SqlSelect.Returns, Lib.addFactor_taken, Lib.taken_last some_alternative, compares]
  constructor
  · intro rows
    refine ⟨fun row isRow earlier => ?_, fun row isRow notEarlier last => ?_⟩
    · exact ((rows row).mp ⟨isRow, .inl earlier⟩).2
    · constructor
      · intro isLater
        exact ((rows row).mp ⟨isRow, .inr ⟨last, isLater⟩⟩).2
      · intro isLater
        cases ((rows row).mpr ⟨⟨isRow, .inr last⟩, isLater⟩).2 with
        | inl earlier => exact absurd earlier notEarlier
        | inr limited => exact limited.2
  · intro ⟨early, same⟩ row
    by_cases earlier : TakenEarlier query row
    · constructor
      · intro ⟨isRow, _⟩
        exact ⟨⟨isRow, .inl earlier⟩, early row isRow earlier⟩
      · intro ⟨⟨isRow, _⟩, _⟩
        exact ⟨isRow, .inl earlier⟩
    · constructor
      · intro ⟨isRow, taken⟩
        cases taken with
        | inl other => exact absurd other earlier
        | inr last => exact ⟨⟨isRow, .inr last.1⟩, (same row isRow earlier last.1).mp last.2⟩
      · intro ⟨⟨isRow, taken⟩, isLater⟩
        cases taken with
        | inl other => exact absurd other earlier
        | inr last => exact ⟨isRow, .inr ⟨last, (same row isRow earlier last).mpr isLater⟩⟩

/-- A factor of the last alternative binds its rows. -/
theorem bound_iff {left : ColumnName} {limited : (Row → Option Bool) → SqlSelect Row}
    (compares : ComparesTimes sql lastRead) (some_alternative : query.alternatives ≠ [])
    (source : ∀ factor, (limited factor).source = query.source)
    (added : ∀ factor, (limited factor).alternatives = Lib.addFactor query.alternatives factor)
    : (∃ result, (sql.predicate (limitTokens left lastRead)).map limited = some result
        ∧ ∀ row, result.Returns row ↔ query.Returns row ∧ Later value lastRead row)
      ↔ LimitBinds sql query left value lastRead := by
  rw [compares left, LimitBinds]
  cases isColumn : sql.column left.tokens with
  | none => simp
  | some times =>
      have factor (row : Row) : (times row).map (fun time => decide (lastRead < time)) = some true
          ↔ Later times lastRead row := by
        simp [Later]
      have binds := @binds_iff Row query value lastRead _ times some_alternative factor
      simp only [Option.map_some, Option.some.injEq, exists_eq_left']
      rw [← binds]
      simp only [SqlSelect.Returns, source, added]

/-- A limit that no comment hides. -/
theorem shown_iff (isTime : lastRead ≠ 0) (compares : ComparesTimes sql lastRead)
    (reads : between.tokensFrom (statement.rdropWhile isEnding) = some base)
    (isSelect : sql.readSelect base = some query)
    : Limits sql query value lastRead (setTimeLimit statement column.text lastRead)
      ↔ .symbol ';' ∉ base
        ∧ match hasWhere statement, query.filtered with
          | true, false => JoinTakes sql query base
              (column.substituted (statement.rtakeWhile isEnding)) value lastRead
          | false, true => False
          | _, _ => LimitBinds sql query (column.substituted (statement.rtakeWhile isEnding)) value
              lastRead := by
  rw [Limits, select_limited column isTime reads]
  generalize column.substituted (statement.rtakeWhile isEnding) = left
  have notSemicolon : operatorToken statement ≠ .symbol ';' := by
    unfold operatorToken
    split <;> decide
  by_cases inside : .symbol ';' ∈ base
  · have malformed : sql.readSelect (base ++ operatorToken statement :: limitTokens left lastRead
          ++ [.symbol ';']) = none := by
      rw [List.append_assoc]
      exact Lib.readSelect_behind inside List.mem_cons_self notSemicolon
    rw [malformed]
    simp [inside]
  have plain := limitTokens_plain left lastRead
  have body : sql.readBody base = some query := by
    rwa [← @Lib.readSelect_ended _ base sql [] (by simp) inside, List.append_nil]
  have whole : .symbol ';' ∉ base ++ operatorToken statement :: limitTokens left lastRead := by
    intro member
    rcases List.mem_append.mp member with old | new
    · exact inside old
    · cases List.mem_cons.mp new with
      | inl same => exact notSemicolon same.symm
      | inr limit => exact absurd (plain _ limit) (by decide)
  rw [Lib.readSelect_ended (by simp) whole]
  obtain ⟨some_alternative, bare⟩ := Lib.readBody_alternatives body
  simp only [inside, not_false_eq_true, true_and]
  cases isAnd : hasWhere statement <;> cases filtered : query.filtered
  · simp only [operatorToken, isAnd, Bool.false_eq_true, if_false, Lib.readBody_where plain body,
      filtered]
    exact bound_iff compares some_alternative (fun _ => rfl)
      (fun factor => by simp [Lib.addFactor, bare filtered])
  · simp [operatorToken, isAnd, Lib.readBody_where plain body, filtered]
  · simp only [operatorToken, isAnd, if_true, Lib.readBody_and_bare plain body filtered, JoinTakes]
    cases sql.source (base ++ Lib.andToken :: limitTokens left lastRead) with
    | none => simp
    | some source =>
        simp [SqlSelect.Returns, bare filtered, AllTrue]
  · simp only [operatorToken, isAnd, if_true, Lib.readBody_and_filtered plain body filtered]
    exact bound_iff compares some_alternative (fun _ => rfl) (fun _ => rfl)

/-- A limit in a comment. -/
theorem hidden_iff (isTime : lastRead ≠ 0)
    (comment : EndsInComment (statement.rdropWhile isEnding))
    (isSelect : sql.readSelect (between.scan (statement.rdropWhile isEnding)).2 = some query)
    (oneLine : ∀ c ∈ (column.substituted (statement.rtakeWhile isEnding)).text,
      c ≠ '\n' ∧ c ≠ '\r')
    : Limits sql query value lastRead (setTimeLimit statement column.text lastRead)
      ↔ AllLater query value lastRead := by
  have hidden : ∀ c ∈ [' '] ++ (if hasWhere statement then "AND".toList else "WHERE".toList)
        ++ [' ']
        ++ ((column.substituted (statement.rtakeWhile isEnding)).text ++ " > '".toList
          ++ clock2sqlgmt lastRead ++ ['\'']) ++ [';'], c ≠ '\n' ∧ c ≠ '\r' := by
    intro c member
    simp only [List.mem_append] at member
    rcases member with (((blank | operator) | blank) | ((name | before) | time) | after) | semicolon
    · cases List.mem_singleton.mp blank
      decide
    · revert c
      cases hasWhere statement <;> simp
    · cases List.mem_singleton.mp blank
      decide
    · exact oneLine c name
    · revert c
      simp
    · have isClock := List.all_eq_true.mp (clock2sqlgmt_clock lastRead) c time
      exact ⟨ne_of_clockChar isClock (by decide), ne_of_clockChar isClock (by decide)⟩
    · cases List.mem_singleton.mp after
      decide
    · cases List.mem_singleton.mp semicolon
      decide
  have same : sql.select (setTimeLimit statement column.text lastRead) = some query := by
    have line : (between.scan (statement.rdropWhile isEnding)).1 = .line := comment
    rw [SqlDatabase.select, setTimeLimit_text statement column isTime, sqlTokens, scan_append, line,
      scan_line_hides hidden]
    simpa using isSelect
  rw [Limits, same]
  simp [AllLater]

-----------------------------------------------------------------------------------------
-- The limit of a generated statement
-----------------------------------------------------------------------------------------

/-- A statement without its end, and the end. -/
theorem rdropWhile_ending (statement : Text)
    : statement.rdropWhile isEnding ++ statement.rtakeWhile isEnding = statement
      ∧ Ending (statement.rtakeWhile isEnding) := by
  constructor
  · rw [List.rdropWhile, List.rtakeWhile, ← List.reverse_append,
      List.takeWhile_append_dropWhile, List.reverse_reverse]
  · intro c member
    simpa [isEnding] using List.mem_rtakeWhile_imp member

/-- Every statement, with its own operator. -/
theorem setTimeLimit_limits (isSelect : sql.select statement = some query)
    (compares : ComparesTimes sql lastRead)
    : (LimitFits sql statement (hasWhere statement) query column value lastRead →
        Limits sql query value lastRead (setTimeLimit statement column.text lastRead))
      ∧ ((EndsInComment (statement.rdropWhile isEnding) →
            ∀ c ∈ (column.substituted (statement.rtakeWhile isEnding)).text, c ≠ '\n' ∧ c ≠ '\r') →
          Limits sql query value lastRead (setTimeLimit statement column.text lastRead) →
          LimitFits sql statement (hasWhere statement) query column value lastRead) := by
  by_cases isTime : lastRead = 0
  · have same : setTimeLimit statement column.text lastRead = statement := by
      simp [setTimeLimit, isTime]
    have exactly : Limits sql query value lastRead statement ↔ AllLater query value lastRead := by
      simp [Limits, isSelect, AllLater]
    simp only [same, LimitFits, if_pos isTime, exactly]
    exact ⟨id, fun _ => id⟩
  obtain ⟨parts, ending⟩ := rdropWhile_ending statement
  obtain ⟨tokens, isTokens, body⟩ := Option.bind_eq_some_iff.mp isSelect
  rw [← parts] at isTokens
  obtain ⟨base, ended, rfl, all, which⟩ := Lib.sqlTokens_ending isTokens ending
  rw [Lib.readSelect_more all] at body
  cases which with
  | inl hidden =>
      obtain ⟨comment, rfl⟩ := hidden
      simp only [LimitFits, if_neg isTime, if_pos comment]
      constructor
      · intro ⟨oneLine, later⟩
        exact (hidden_iff isTime comment body oneLine).mpr later
      · intro oneLine limits
        exact ⟨oneLine comment, (hidden_iff isTime comment body (oneLine comment)).mp limits⟩
  | inr shown =>
      obtain ⟨noComment, reads⟩ := shown
      have stripped : (sqlTokens (statement.rdropWhile isEnding)).getD [] = base := by
        rw [(Lib.sqlTokens_of_tokensFrom reads).1, Option.getD_some]
      simp only [LimitFits, if_neg isTime, if_neg noComment, stripped]
      have both := @shown_iff _ _ statement query column value lastRead base isTime compares
        reads body
      exact ⟨both.mpr, fun _ => both.mp⟩

theorem hasWhere_semicolon (text : Text) : hasWhere (text ++ [';']) = hasWhere text := by
  have lower : (text ++ [';']).map Char.toLower = text.map Char.toLower ++ [';'] := by
    rw [List.map_append]
    rfl
  apply decide_eq_decide.mpr
  rw [lower, List.infix_concat_iff, or_iff_right]
  intro ⟨before, same⟩
  have split : (before ++ " where".toList) ++ [' '] = text.map Char.toLower ++ [';'] := by
    simpa using same
  exact absurd (List.append_inj' split rfl).2 (by decide)

/-- The operator of a generated statement is `AND` if it has a clause, or if the word `where` stands
between blanks in its columns or tables.
-/
theorem hasWhere_generated {name whereClause : Text} {tables : List Text}
    {columns : List SelectColumn}
    (made : genSpeedtableSqlSelect name tables whereClause columns = some statement)
    : hasWhere statement
      = (!whereClause.isEmpty || hasWhere (selectText name tables columns)) := by
  simp only [genSpeedtableSqlSelect, Option.ite_none_left_eq_some, Option.some.injEq] at made
  obtain ⟨-, rfl⟩ := made
  rw [hasWhere_semicolon]
  by_cases empty : whereClause = []
  · rw [if_pos empty, empty, List.isEmpty_nil, Bool.not_true, Bool.false_or]
  · have given : whereClause.isEmpty = false := by simpa using empty
    rw [if_neg empty, given, Bool.not_false, Bool.true_or]
    apply decide_eq_true
    rw [List.map_append, List.map_append]
    exact ⟨_, _, rfl⟩

/-- A generated statement with a time limit returns the later rows if its operator fits, its last
alternative is the only one that needs the limit, and no comment hides the limit. The converse holds
for column names of one line, or where no comment is.
-/
theorem setTimeLimit_iff (sql : SqlDatabase Row) (column : TimeColumn sql)
    (compares : ComparesTimes sql lastRead) {name whereClause : Text} {tables : List Text}
    {columns : List SelectColumn}
    (made : genSpeedtableSqlSelect name tables whereClause columns = some statement)
    (isSelect : sql.select statement = some query)
    : (LimitFits sql statement (!whereClause.isEmpty || hasWhere (selectText name tables columns))
          query column.name column.value lastRead →
        Limits sql query column.value lastRead
          (setTimeLimit statement column.name.text lastRead))
      ∧ ((EndsInComment (statement.rdropWhile isEnding) →
            ∀ c ∈ (column.name.substituted (statement.rtakeWhile isEnding)).text,
              c ≠ '\n' ∧ c ≠ '\r') →
          Limits sql query column.value lastRead
            (setTimeLimit statement column.name.text lastRead) →
          LimitFits sql statement
            (!whereClause.isEmpty || hasWhere (selectText name tables columns))
            query column.name column.value lastRead) := by
  rw [← hasWhere_generated made]
  exact setTimeLimit_limits isSelect compares

-----------------------------------------------------------------------------------------
-- Examples
-----------------------------------------------------------------------------------------

/-- A table `t` with a time and a boolean. The predicates `a` and `b` are true where the boolean is,
and where it is not.
-/
def sampleSql : SqlDatabase (Int × Bool) :=
  let column (tokens : List SqlToken) : Option (Int × Bool → Option Int) :=
    if tokens = [.word ['c']] then some (fun row => some row.1) else none
  { source := fun tokens =>
      if tokens = [.word "SELECT".toList, .word ['k'], .word "FROM".toList, .word ['t']] then
        some (fun _ => True)
      else none
    predicate := fun tokens =>
      if tokens = [.word ['a']] then some (fun row => some row.2)
      else if tokens = [.word ['b']] then some (fun row => some !row.2)
      else if tokens.drop (tokens.length - 2)
          = [.operator ['>'], .quoted ('\'' :: (clock2sqlgmt 100 ++ ['\'']))] then
        (column (tokens.take (tokens.length - 2))).map (fun value row =>
          (value row).map (fun time => decide (100 < time)))
      else none
    column := column }

theorem sampleSql_compares : ComparesTimes sampleSql 100 := by
  intro column
  have long (word : SqlToken) : limitTokens column 100 ≠ [word] := by
    intro same
    have lengths := congrArg List.length same
    simp [limitTokens, ColumnName.tokens] at lengths
  have cut : (limitTokens column 100).length - 2 = column.tokens.length := by
    simp [limitTokens]
  simp only [sampleSql, if_neg (long _), cut]
  simp [limitTokens]

def sampleName : ColumnName :=
  { first := .bare
      { first := 'c', others := [], begins := rfl, goesOn := nofun, plain := rfl }
    others := [] }

def sampleColumn : TimeColumn sampleSql :=
  { name := sampleName
    value := fun row => some row.1
    isColumn := by
      have tokens : sampleName.tokens = [.word ['c']] := by decide
      simp [sampleSql, tokens] }

def sampleStatement (whereClause : Text) : Text :=
  "SELECT k FROM t WHERE ".toList ++ whereClause ++ [';']

theorem sampleStatement_made (whereClause : Text) (given : whereClause ≠ [])
    : genSpeedtableSqlSelect ['t'] [] whereClause [{ field := ['k'], expr := [] }]
      = some (sampleStatement whereClause) := by
  simp only [genSpeedtableSqlSelect, if_neg given, reduceCtorEq, if_false, Option.some.injEq]
  rfl

def sampleQuery (alternatives : List (List (Int × Bool → Option Bool)))
    : SqlSelect (Int × Bool) :=
  { source := fun _ => True, filtered := true, alternatives := alternatives }

theorem sampleStatement_single
    : sampleSql.select (sampleStatement ['a']) = some (sampleQuery [[fun row => some row.2]]) := by
  have tokens : sqlTokens (sampleStatement ['a'])
      = some ([.word "SELECT".toList, .word ['k'], .word "FROM".toList, .word ['t'],
        .word "WHERE".toList, .word ['a']] ++ [.symbol ';']) := by decide +kernel
  rw [SqlDatabase.select, tokens, Option.bind_some,
    Lib.readSelect_ended (by simp) (by decide)]
  rfl

theorem sampleStatement_either
    : sampleSql.select (sampleStatement "a OR b".toList)
      = some (sampleQuery [[fun row => some row.2], [fun row => some !row.2]]) := by
  have tokens : sqlTokens (sampleStatement "a OR b".toList)
      = some ([.word "SELECT".toList, .word ['k'], .word "FROM".toList, .word ['t'],
        .word "WHERE".toList, .word ['a'], .word "OR".toList, .word ['b']] ++ [.symbol ';']) := by
    decide +kernel
  rw [SqlDatabase.select, tokens, Option.bind_some,
    Lib.readSelect_ended (by simp) (by decide)]
  rfl

theorem setTimeLimit_iff_single
    : Limits sampleSql (sampleQuery [[fun row => some row.2]]) sampleColumn.value 100
        (setTimeLimit (sampleStatement ['a']) sampleColumn.name.text 100) := by
  refine (setTimeLimit_iff sampleSql sampleColumn sampleSql_compares
    (sampleStatement_made ['a'] (by decide)) sampleStatement_single).1 ?_
  have noComment : ¬ EndsInComment ((sampleStatement ['a']).rdropWhile isEnding) := by
    decide +kernel
  have complete : .symbol ';'
      ∉ (sqlTokens ((sampleStatement ['a']).rdropWhile isEnding)).getD [] := by
    decide +kernel
  simp only [LimitFits, if_neg noComment]
  refine ⟨complete, ?_, sampleColumn.value, sampleColumn.isColumn, ?_⟩
  · intro row _ ⟨factors, member, _⟩
    cases member
  · exact fun row _ _ _ => Iff.rfl

/-- With the clause `a OR b`, a row that satisfies `a` is returned whatever its time. -/
theorem setTimeLimit_alternativeEscapes
    : ¬ ∀ (Row : Type) (sql : SqlDatabase Row) (column : TimeColumn sql) (lastRead : Int)
        (name whereClause : Text) (tables : List Text) (columns : List SelectColumn)
        (statement : Text) (query : SqlSelect Row),
        ComparesTimes sql lastRead →
        genSpeedtableSqlSelect name tables whereClause columns = some statement →
        sql.select statement = some query →
        Limits sql query column.value lastRead
          (setTimeLimit statement column.name.text lastRead) := by
  intro claim
  have limits := claim _ sampleSql sampleColumn 100 ['t'] "a OR b".toList []
    [{ field := ['k'], expr := [] }] _ _ sampleSql_compares
    (sampleStatement_made _ (by decide)) sampleStatement_either
  have noComment : ¬ EndsInComment ((sampleStatement "a OR b".toList).rdropWhile isEnding) := by
    decide +kernel
  have isAnd : hasWhere (sampleStatement "a OR b".toList) = true := by decide +kernel
  have fits := (setTimeLimit_limits sampleStatement_either sampleSql_compares).2
    (fun comment => absurd comment noComment) limits
  simp only [LimitFits, if_neg noComment, isAnd, sampleQuery] at fits
  obtain ⟨-, early, -⟩ := fits
  have escapes : TakenEarlier (sampleQuery [[fun row => some row.2], [fun row => some !row.2]])
      (50, true) := by
    refine ⟨_, List.mem_cons_self, ?_⟩
    simp [AllTrue]
  obtain ⟨time, isTime, isLater⟩ := early (50, true) trivial escapes
  cases isTime
  exact absurd isLater (by decide)

end SpeedTables.Stapi
