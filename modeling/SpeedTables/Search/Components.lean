import SpeedTables.Search.BoyerMoore
import SpeedTables.Table.Setters

/-! Search components: parsing a compare list, and testing a row against it. -/

namespace SpeedTables

variable {creator : CreatorTable}

-----------------------------------------------------------------------------------------
-- Components
-----------------------------------------------------------------------------------------

/-- The comparisons that go through a field's compare function. -/
inductive CompareOp where
  | lt
  | le
  | eq
  | ne
  | ge
  | gt
  deriving DecidableEq

/-- `ctable_searchMatchPatternCheck` results -/
inductive MatchType where
  | anchored
  | unanchored
  | pattern
  deriving DecidableEq

/-- A match comparison: whether a match keeps the row, case folding, and the word whose inner
part is the needle of an unanchored match. The other types read the pattern from `row1`.
-/
structure MatchTerm where
  keeps : Bool
  nocase : Bool
  type : MatchType
  word : CString
  deriving DecidableEq

/-- The term of a component with the rows its values are stored in. -/
inductive Term (creator : CreatorTable) where
  | isFalse
  | isTrue
  | isNull
  | notNull
  | compare (op : CompareOp) (row1 : Row creator)
  | matching (term : MatchTerm) (row1 : Row creator)
  | range (row1 row2 : Row creator)
  | inList (values : List Obj)

/-- `CTableSearchComponent`. The rows of an `in` list are made when they are first needed,
from the list alone. The prefix rows `row2` and `row3` of `match_case` do not appear: the
loop that collects the prefix breaks before it counts its first character, so that the
parser leaves both NULL.
-/
structure Component (creator : CreatorTable) where
  field : creator.Field
  term : Term creator

-----------------------------------------------------------------------------------------
-- Parsing a compare list
-----------------------------------------------------------------------------------------

/-- The generated `set` with `CTABLE_INDEX_PRIVATE`: only the row itself changes. -/
def setPrivate (host : Host) (row : Row creator) (field : creator.Field) (obj : Obj)
    : Except Stop (Row creator) :=
  if field = creator.keyField then
    .ok { row with key := some obj }
  else
    match cellSet creator host field (row.cells field) obj with
    | .error error => .error (.tcl error)
    | .same => .ok row
    | .nullPointer => .error (.fault .nullPointer)
    | .assign _ _ stored => .ok (row.setCell field stored)

/-- `make_empty_row` followed by a private set. -/
def searchRow (host : Host) (field : creator.Field) (obj : Obj) : Except Stop (Row creator) :=
  setPrivate host creator.init field obj

/-- The loop of `ctable_searchMatchPatternCheck` over the characters after the first. -/
def patternLoop (firstCharIsStar : Bool) : CString → Bool → MatchType
  | [], lastCharIsStar =>
      if firstCharIsStar then
        if lastCharIsStar then .unanchored else .pattern
      else
        if lastCharIsStar then .anchored else .pattern
  | byte :: rest, lastCharIsStar =>
      if byte = 42 then
        if rest.isEmpty then patternLoop firstCharIsStar rest true else .pattern
      else if byte = 63 ∨ byte = 91 ∨ byte = 93 ∨ byte = 92 then
        .pattern
      else
        patternLoop firstCharIsStar rest lastCharIsStar

/-- `ctable_searchMatchPatternCheck` -/
def searchMatchPatternCheck : CString → MatchType
  | [] => .anchored
  | first :: rest => patternLoop (first = 42) rest false

/-- The search terms, as `CTABLE_SEARCH_TERMS` lists them. -/
inductive CompType where
  | isFalse
  | isTrue
  | isNull
  | notNull
  | compare (op : CompareOp)
  | matching (keeps nocase : Bool)
  | range
  | inList
  deriving DecidableEq

/-- The word of a search term. -/
def CompType.ofWord (word : CString) : Option CompType :=
  let words : List (String × CompType) :=
    [("false", .isFalse), ("true", .isTrue), ("null", .isNull), ("notnull", .notNull),
      ("<", .compare .lt), ("<=", .compare .le), ("=", .compare .eq), ("!=", .compare .ne),
      (">=", .compare .ge), (">", .compare .gt), ("match", .matching true true),
      ("notmatch", .matching false true), ("match_case", .matching true false),
      ("notmatch_case", .matching false false), ("range", .range), ("in", .inList)]
  (words.find? (fun entry => entry.1.toUTF8.toList == word)).map Prod.snd

/-- Whether a field type supports string matches. -/
def matchable : CtableType → Bool
  | .fixedstring | .varstring | .key => true
  | _ => false

/-- The body of the loop of `ctable_ParseSearch`, on the values after term and field. -/
def parseTerm (host : Host) (field : creator.Field) (word : CString) (type : CompType)
    (values : List Obj) : Except Stop (Term creator) :=
  match type, values with
  | .isFalse, [] => .ok .isFalse
  | .isTrue, [] => .ok .isTrue
  | .isNull, [] => .ok .isNull
  | .notNull, [] => .ok .notNull
  | .inList, [list] =>
      match host.listElements list with
      | some elements => .ok (.inList elements)
      | none => .error (.tcl (.badList list))
  | .range, [low, high] => do
      let row1 ← searchRow host field low
      let row2 ← searchRow host field high
      pure (.range row1 row2)
  | .matching keeps nocase, [pattern] =>
      if matchable (creator.type field) then do
        let row1 ← searchRow host field pattern
        pure (.matching
          { keeps := keeps
            nocase := nocase
            type := searchMatchPatternCheck pattern
            word := pattern }
          row1)
      else
        .error (.tcl (.notAStringField (creator.fields field).name word))
  | .compare op, [value] => do
      let row1 ← searchRow host field value
      pure (.compare op row1)
  | .isFalse, _ | .isTrue, _ | .isNull, _ | .notNull, _ => .error (.tcl .onlyTwoTerms)
  | .inList, _ => .error (.tcl (.termArguments word "3 arguments (term, field, list)"))
  | .range, _ =>
      .error (.tcl (.termArguments word "4 arguments (term, field, lowValue, highValue)"))
  | _, _ => .error (.tcl (.termArguments word "3 arguments (term, field, value)"))

/-- One compare expression. -/
def parseComponent (host : Host) (expression : Obj) : Except Stop (Component creator) :=
  match host.listElements expression with
  | none => .error (.tcl (.badList expression))
  | some (word :: name :: values) =>
      match CompType.ofWord word with
      | none => .error (.tcl (.badOption "term" word))
      | some type =>
          match creator.fieldNumber name with
          | none => .error (.tcl (.badField name))
          | some field => do
              let term ← parseTerm host field word type values
              pure { field := field, term := term }
  | some _ => .error (.tcl (.wrongNumArgs "term field ?value..?"))

/-- `ctable_ParseSearch` -/
def parseSearch (host : Host) (list : Obj) : Except Stop (List (Component creator)) :=
  match host.listElements list with
  | none => .error (.tcl (.badList list))
  | some expressions => expressions.mapM (parseComponent host)

/-- `ctable_CreateInRows` -/
def createInRows (host : Host) (field : creator.Field) (values : List Obj)
    : Except Stop (List (Row creator)) :=
  values.mapM (searchRow host field)

-----------------------------------------------------------------------------------------
-- Testing a row
-----------------------------------------------------------------------------------------

/-- Whether an ordering satisfies a comparison. -/
def CompareOp.holds : CompareOp → Ordering → Bool
  | .lt, ordering => ordering == .lt
  | .le, ordering => ordering != .gt
  | .eq, ordering => ordering == .eq
  | .ne, ordering => ordering != .eq
  | .ge, ordering => ordering != .lt
  | .gt, ordering => ordering == .gt

/-- The loop of an anchored match: compare up to the star of the pattern. -/
def anchoredMatch (nocase : Bool) : CString → CString → Bool
  | _, [] => true
  | text, byte :: pattern =>
      if byte = 42 then true
      else if folded nocase (text.headD 0) = folded nocase byte then
        anchoredMatch nocase text.tail pattern
      else false

/-- The match block of `varstringCompSource` and `keyCompSource`, on the string pointers of the
row and of `row1`. A NULL string has the length 0 and is not read by an unanchored match.
-/
def MatchTerm.matches (host : Host) (term : MatchTerm) (text pattern : Option CString)
    : Except Fault Bool :=
  match term.type, text, pattern with
  | .unanchored, text, _ =>
      boyerMooreSearch term.nocase (term.word.drop 1).dropLast (text.getD [])
  | .anchored, _, none => .error .nullPointer
  | .anchored, some text, some pattern => .ok (anchoredMatch term.nocase text pattern)
  | .anchored, none, some pattern =>
      if pattern.headD 42 = 42 then .ok true else .error .nullPointer
  | .pattern, some text, some pattern => .ok (host.stringCaseMatch text pattern term.nocase)
  | .pattern, _, _ => .error .nullPointer

/-- Whether a match keeps a text. -/
def MatchTerm.keepsText (host : Host) (term : MatchTerm) (text pattern : Option CString)
    : Except Fault Bool :=
  match term.matches host text pattern with
  | .error fault => .error fault
  | .ok found => .ok (found == term.keeps)

/-- Whether a C value counts as true. -/
def truth : (type : CtableType) → Storage type → Option Bool
  | .boolean, value => some value
  | .char, value => some (value != 0)
  | .short, value => some (value != (0 : Int))
  | .int, value => some (value != (0 : Int))
  | .long, value => some (value != (0 : Int))
  | .wide, value => some (value != (0 : Int))
  | .float, value => some (value != (((0 : ℚ) : WithTop ℚ) : CDouble))
  | .double, value => some (value != (((0 : ℚ) : WithTop ℚ) : CDouble))
  | _, _ => none

/-- The string pointer a match reads, by type. The other types have no match. -/
def matchText : (type : CtableType) → Storage type → Except Fault (Option CString)
  | .varstring, value => .ok value.text
  | _, _ => .error .unimplementedComparison

/-- The match of a field that is not the key, against the same field of `row1`. -/
def matchField (host : Host) (field : creator.Field) (term : MatchTerm) (row row1 : Row creator)
    : Except Fault Bool :=
  match matchText (creator.type field) (row.cells field).value,
    matchText (creator.type field) (row1.cells field).value with
  | .ok text, .ok pattern => term.keepsText host text pattern
  | .error fault, _ => .error fault
  | _, .error fault => .error fault

/-- The part of the generated comparison that switches on the field: null tests, truth
values and matches.
-/
def fieldTest (host : Host) (field : creator.Field) (term : Term creator) (row : Row creator)
    : Except Fault Bool :=
  let info := creator.fields field
  if !info.notnull && (row.cells field).isNull then
    match term with
    | .isNull => .ok true
    | _ => .ok false
  else
    match term with
    | .isNull => .ok false
    | .notNull => .ok true
    | .isTrue =>
        match truth info.type (row.cells field).value with
        | some value => .ok value
        | none => .error .nullPointer
    | .isFalse =>
        match truth info.type (row.cells field).value with
        | some value => .ok !value
        | none => .error .nullPointer
    | .matching term row1 =>
        if field = creator.keyField then
          term.keepsText host (some row.keyString) (some row1.keyString)
        else
          matchField host field term row row1
    | _ => .error .unimplementedComparison

/-- The loop of an `in` comparison over the rows of its list. -/
def equalsAny (field : creator.Field) (row : Row creator)
    : List (Row creator) → Except Fault Bool
  | [] => .ok false
  | other :: rest =>
      match compareRows creator field row other with
      | .error fault => .error fault
      | .ok .eq => .ok true
      | .ok _ => equalsAny field row rest

/-- A fault as a stop. -/
def orStop {α : Type} : Except Fault α → Except Stop α
  | .ok value => .ok value
  | .error fault => .error (.fault fault)

/-- The loop body of the generated `search_compare`: whether a row passes a component. -/
def Component.test (host : Host) (component : Component creator) (row : Row creator)
    : Except Stop Bool :=
  match component.term with
  | .inList values =>
      match createInRows host component.field values with
      | .error stop => .error stop
      | .ok rows => orStop (equalsAny component.field row rows)
  | .compare op row1 =>
      match compareRows creator component.field row row1 with
      | .error fault => .error (.fault fault)
      | .ok ordering => .ok (op.holds ordering)
  | .range row1 row2 =>
      match compareRows creator component.field row row1 with
      | .error fault => .error (.fault fault)
      | .ok .lt => .ok false
      | .ok _ =>
          match compareRows creator component.field row row2 with
          | .error fault => .error (.fault fault)
          | .ok ordering => .ok (ordering == .lt)
  | term => orStop (fieldTest host component.field term row)

/-- The loop of the generated `search_compare`, without the component the walk takes care
of. The number is the index of the first component given.
-/
def searchCompare (host : Host) (alreadySearched : Option Nat) (row : Row creator)
    : Nat → List (Component creator) → Except Stop Bool
  | _, [] => .ok true
  | index, component :: rest =>
      if alreadySearched = some index then
        searchCompare host alreadySearched row (index + 1) rest
      else
        match component.test host row with
        | .error stop => .error stop
        | .ok false => .ok false
        | .ok true => searchCompare host alreadySearched row (index + 1) rest

end SpeedTables
