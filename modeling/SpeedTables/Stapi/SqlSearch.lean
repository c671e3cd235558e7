import SpeedTables.Stapi.QuoteGlob

/-! The `WHERE` clause of a search on an SQL table, and the conditions of its components. -/

namespace SpeedTables.Stapi

open Lib (Text)

-----------------------------------------------------------------------------------------
-- Conditions
-----------------------------------------------------------------------------------------

/-- The comparison operators of SQL. -/
inductive SqlCompare where
  | lt
  | le
  | eq
  | ne
  | ge
  | gt
  deriving DecidableEq

def SqlCompare.text : SqlCompare → Text
  | .lt => ['<']
  | .le => ['<', '=']
  | .eq => ['=']
  | .ne => ['<', '>']
  | .ge => ['>', '=']
  | .gt => ['>']

def SqlCompare.holds : SqlCompare → Ordering → Bool
  | .lt, ordering => ordering == .lt
  | .le, ordering => ordering != .gt
  | .eq, ordering => ordering == .eq
  | .ne, ordering => ordering != .eq
  | .ge, ordering => ordering != .lt
  | .gt, ordering => ordering == .gt

/-- What a condition asks of the value of its column. -/
inductive SqlTest where
  | boolean (value : Bool)
  | null (isNull : Bool)
  | compare (op : SqlCompare) (value : Text)
  | like (negated nocase : Bool) (pattern : Text)
  | isIn (values : List Text)
  deriving DecidableEq

/-- An element of the list `where`. -/
structure SqlCondition where
  column : Text
  test : SqlTest
  deriving DecidableEq

/-- The text of a condition. -/
def SqlCondition.text (pgQuote : Text → Text) (condition : SqlCondition) : Text :=
  let col := condition.column
  match condition.test with
  | .boolean false => col ++ " = FALSE".toList
  | .boolean true => col ++ " = TRUE".toList
  | .null true => col ++ " IS NULL".toList
  | .null false => col ++ " IS NOT NULL".toList
  | .compare op value => col ++ [' '] ++ op.text ++ [' '] ++ pgQuote value
  | .like negated nocase pattern =>
      (if negated then "NOT ".toList else []) ++ col
        ++ (if nocase then " ILIKE ".toList else " LIKE ".toList) ++ quoteGlob pgQuote pattern
  | .isIn values =>
      col ++ " IN (".toList ++ [','].intercalate (values.map pgQuote) ++ [')']

-----------------------------------------------------------------------------------------
-- Components
-----------------------------------------------------------------------------------------

/-- How an operator changes the letters of its pattern. -/
inductive LetterCase where
  | kept
  | upper
  | lower
  deriving DecidableEq

/-- The operators of a search on an SQL table. -/
inductive SqlOp where
  | boolean (value : Bool)
  | null (isNull : Bool)
  | compare (op : SqlCompare)
  | like (negated nocase : Bool) (letters : LetterCase)
  | range
  | isIn
  deriving DecidableEq

/-- The words of the `switch` over the operators. -/
def SqlOp.words : List (Text × SqlOp) :=
  [("false".toList, .boolean false), ("true".toList, .boolean true),
    ("null".toList, .null true), ("notnull".toList, .null false),
    ("<".toList, .compare .lt), ("<=".toList, .compare .le), ("=".toList, .compare .eq),
    ("!=".toList, .compare .ne), ("<>".toList, .compare .ne), (">=".toList, .compare .ge),
    (">".toList, .compare .gt),
    ("imatch".toList, .like false true .kept), ("-imatch".toList, .like true true .kept),
    ("match".toList, .like false true .kept), ("notmatch".toList, .like true true .kept),
    ("xmatch".toList, .like false false .kept), ("-xmatch".toList, .like true false .kept),
    ("match_case".toList, .like false false .kept),
    ("notmatch_case".toList, .like true false .kept),
    ("umatch".toList, .like false false .upper), ("-umatch".toList, .like true false .upper),
    ("lmatch".toList, .like false false .lower), ("-lmatch".toList, .like true false .lower),
    ("range".toList, .range), ("in".toList, .isIn)]

def SqlOp.ofWord (word : Text) : Option SqlOp :=
  (words.find? (fun entry => entry.1 == word)).map Prod.snd

/-- A tuple of the compare list: `foreach {op col v1 v2} $tuple break`. Words that are missing are
empty.
-/
structure SqlComponent where
  op : Text
  col : Text
  v1 : Text
  v2 : Text

/-- `string tolower` and `string toupper`. -/
structure Letters where
  toLower : Text → Text
  toUpper : Text → Text

def Letters.apply (letters : Letters) : LetterCase → Text → Text
  | .kept => id
  | .upper => letters.toUpper
  | .lower => letters.toLower

def SqlComponent.operator (letters : Letters) (component : SqlComponent) : Option SqlOp :=
  SqlOp.ofWord (letters.toLower component.op)

/-- The clause that `search_to_sql` appends to its statement. -/
def whereClause (pgQuote : Text → Text) (conditions : List SqlCondition) : Text :=
  if conditions = [] then []
  else " WHERE ".toList
    ++ " AND ".toList.intercalate (conditions.map (SqlCondition.text pgQuote))

-----------------------------------------------------------------------------------------
-- Rows
-----------------------------------------------------------------------------------------

/-- How SQL takes the values of a row: as booleans, beside the value of a literal, and beside a
glob pattern that `quote_glob` has translated.
-/
structure SqlValues where
  isTrue : Text → Bool
  compare : (value literal : Text) → Ordering
  isLike : (nocase : Bool) → (pattern value : Text) → Bool

/-- A row of the SQL table: the value of each expression, `none` for NULL. -/
abbrev RowValues := Text → Option Text

/-- Whether a test is true of a value. No test but the one for NULL is true of NULL. -/
def SqlTest.accepts (sql : SqlValues) : SqlTest → Option Text → Bool
  | .null isNull, value => value.isNone == isNull
  | _, none => false
  | .boolean expected, some value => sql.isTrue value == expected
  | .compare op literal, some value => op.holds (sql.compare value literal)
  | .like negated nocase pattern, some value => sql.isLike nocase pattern value != negated
  | .isIn literals, some value => literals.any (fun literal => sql.compare value literal == .eq)

/-- A row satisfies a list of conditions. -/
def Satisfies (sql : SqlValues) (row : RowValues) (conditions : List SqlCondition) : Prop :=
  ∀ condition ∈ conditions, condition.test.accepts sql (row condition.column) = true

/-- What an operator asks of a value: that it is the boolean or NULL, that it compares, that it
matches the pattern, that it is in the range, or that it is one of the values of the list.
-/
def SqlOp.Accepts (sql : SqlValues) (letters : Letters) (v1 v2 : Text) (value : Option Text)
    : SqlOp → Prop
  | .boolean expected => ∃ x, value = some x ∧ sql.isTrue x = expected
  | .null isNull => if isNull then value = none else value ≠ none
  | .compare op => ∃ x, value = some x ∧ op.holds (sql.compare x v1) = true
  | .like negated nocase case =>
      ∃ x, value = some x ∧ (sql.isLike nocase (letters.apply case v1) x = true ↔ negated = false)
  | .range => ∃ x, value = some x ∧ sql.compare x v1 ≠ .lt ∧ sql.compare x v2 = .lt
  | .isIn =>
      ∃ x, value = some x
        ∧ ∃ literal ∈ (Lib.TclList.parse v1).getD [], sql.compare x literal = .eq

/-- What a component asks of the value of its field. -/
def SqlComponent.Accepts (sql : SqlValues) (letters : Letters) (component : SqlComponent)
    (value : Option Text) : Prop :=
  ∀ op, component.operator letters = some op →
    op.Accepts sql letters component.v1 component.v2 value

/-- The values of the list of an `in`. -/
def SqlComponent.inValues (letters : Letters) (component : SqlComponent) : List Text :=
  if component.operator letters = some .isIn then (Lib.TclList.parse component.v1).getD []
  else []

variable {sql : SqlValues} {letters : Letters} {expression : Text → Text}
  {component : SqlComponent} {earlier : List Text}

end SpeedTables.Stapi
