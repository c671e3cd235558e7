import Mathlib
import SpeedTables.Lib.SqlText

/-! The reading of an SQL select statement: its source, and its condition as alternatives of
factors. What stands between the keywords is read by the database.
-/

namespace SpeedTables.Lib

-----------------------------------------------------------------------------------------
-- Keywords at the top
-----------------------------------------------------------------------------------------

inductive SqlKeyword where
  | whereWord
  | orWord
  | andWord
  | notWord
  | betweenWord
  | caseWord
  | endWord
  deriving DecidableEq

def SqlKeyword.letters : SqlKeyword → Text
  | .whereWord => "where".toList
  | .orWord => "or".toList
  | .andWord => "and".toList
  | .notWord => "not".toList
  | .betweenWord => "between".toList
  | .caseWord => "case".toList
  | .endWord => "end".toList

/-- Keywords are words in letters of either case. -/
def SqlToken.isKeyword (keyword : SqlKeyword) : SqlToken → Bool
  | .word letters => letters.map Char.toLower == keyword.letters
  | _ => false

/-- How deep a token stands in brackets and in `CASE … END`, and whether the next `AND` at the top
belongs to a `BETWEEN`.
-/
structure Nesting where
  depth : Int
  range : Bool
  deriving DecidableEq

def Nesting.top : Nesting :=
  { depth := 0, range := false }

def Nesting.next (nesting : Nesting) (token : SqlToken) : Nesting :=
  if token = .symbol '(' ∨ token = .symbol '[' ∨ token.isKeyword .caseWord then
    { nesting with depth := nesting.depth + 1 }
  else if token = .symbol ')' ∨ token = .symbol ']' ∨ token.isKeyword .endWord then
    { nesting with depth := nesting.depth - 1 }
  else if nesting.depth = 0 ∧ token.isKeyword .betweenWord then { nesting with range := true }
  else if nesting.depth = 0 ∧ token.isKeyword .andWord then { nesting with range := false }
  else nesting

/-- The keyword separates here: it stands at the top, and is not the `AND` of a `BETWEEN`. -/
def Nesting.separates (nesting : Nesting) (keyword : SqlKeyword) (token : SqlToken) : Bool :=
  nesting.depth = 0 && token.isKeyword keyword && !(keyword == .andWord && nesting.range)

/-- Every bracket is closed, and every `BETWEEN` has its `AND`. -/
def Settled (tokens : List SqlToken) : Prop :=
  tokens.foldl Nesting.next .top = .top

instance (tokens : List SqlToken) : Decidable (Settled tokens) :=
  inferInstanceAs (Decidable (_ = _))

/-- The tokens between the keywords at the top. -/
def splitTop (keyword : SqlKeyword) : Nesting → List SqlToken → List (List SqlToken)
  | _, [] => [[]]
  | nesting, token :: rest =>
      let pieces := splitTop keyword (nesting.next token) rest
      if nesting.separates keyword token then [] :: pieces
      else (token :: pieces.headD []) :: pieces.tail

-----------------------------------------------------------------------------------------
-- Statements
-----------------------------------------------------------------------------------------

/-- How the database reads a select list with the tables behind it, a predicate, and a column. A
condition is NULL where it is neither true nor false, and so is a column without a time.
-/
structure SqlDatabase (Row : Type) where
  source : List SqlToken → Option (Row → Prop)
  predicate : List SqlToken → Option (Row → Option Bool)
  column : List SqlToken → Option (Row → Option Int)

/-- A select statement: the rows of its tables, whether it has a condition, and the condition: a
row is selected if all factors of an alternative are true.
-/
structure SqlSelect (Row : Type) where
  source : Row → Prop
  filtered : Bool
  alternatives : List (List (Row → Option Bool))

variable {Row : Type}

def AllTrue (factors : List (Row → Option Bool)) (row : Row) : Prop :=
  ∀ factor ∈ factors, factor row = some true

def SqlSelect.Returns (select : SqlSelect Row) (row : Row) : Prop :=
  select.source row ∧ ∃ factors ∈ select.alternatives, AllTrue factors row

namespace SqlDatabase

variable (sql : SqlDatabase Row)

/-- `NOT` binds more than `AND`. -/
def readFactor : List SqlToken → Option (Row → Option Bool)
  | [] => sql.predicate []
  | token :: rest =>
      if token.isKeyword .notWord then
        (readFactor rest).map (fun factor row => (factor row).map not)
      else sql.predicate (token :: rest)

/-- `AND` binds more than `OR`. -/
def readFactors (tokens : List SqlToken) : Option (List (Row → Option Bool)) :=
  if Settled tokens then (splitTop .andWord .top tokens).mapM sql.readFactor else none

def readAlternatives (tokens : List SqlToken) : Option (List (List (Row → Option Bool))) :=
  if Settled tokens then (splitTop .orWord .top tokens).mapM sql.readFactors else none

/-- A statement without the semicolons at its end. -/
def readBody (tokens : List SqlToken) : Option (SqlSelect Row) :=
  if Settled tokens then
    match splitTop .whereWord .top tokens with
    | [tables] => (sql.source tables).map (fun source =>
        { source := source, filtered := false, alternatives := [[]] })
    | [tables, condition] => (sql.source tables).bind (fun source =>
        (sql.readAlternatives condition).map (fun alternatives =>
          { source := source, filtered := true, alternatives := alternatives }))
    | _ => none
  else none

/-- Only semicolons may stand behind a semicolon. -/
def readSelect (tokens : List SqlToken) : Option (SqlSelect Row) :=
  if (tokens.dropWhile (· ≠ .symbol ';')).all (· == .symbol ';') then
    sql.readBody (tokens.takeWhile (· ≠ .symbol ';'))
  else none

/-- The statement that a text is. -/
def select (text : Text) : Option (SqlSelect Row) :=
  (sqlTokens text).bind sql.readSelect

end SqlDatabase

-----------------------------------------------------------------------------------------
-- Tokens behind a settled text
-----------------------------------------------------------------------------------------

/-- Tokens of names and literals: neither keywords nor brackets. -/
def SqlToken.isPlain : SqlToken → Bool
  | .word letters =>
      [SqlKeyword.whereWord, .orWord, .andWord, .notWord, .betweenWord, .caseWord, .endWord].all
        (fun keyword => !(SqlToken.word letters).isKeyword keyword)
  | .operator _ | .quoted _ => true
  | .symbol c => c == '.'

variable {token : SqlToken} {nesting : Nesting} {keyword : SqlKeyword}
  {tokens rest : List SqlToken} {sql : SqlDatabase Row} {select : SqlSelect Row}

theorem SqlToken.isKeyword_plain (plain : token.isPlain) (keyword : SqlKeyword)
    : token.isKeyword keyword = false := by
  cases token with
  | word letters =>
      simp only [isPlain, List.all_cons, List.all_nil, Bool.and_true, Bool.and_eq_true,
        Bool.not_eq_true'] at plain
      cases keyword <;> simp [plain]
  | operator symbols | quoted raw | symbol c => rfl

theorem SqlToken.next_plain (plain : token.isPlain) : nesting.next token = nesting := by
  have notBracket (c : Char) (other : c ≠ '.') : token ≠ .symbol c := by
    intro same
    rw [same] at plain
    exact other (by simpa [isPlain] using plain)
  simp [Nesting.next, isKeyword_plain plain, notBracket]

theorem exists_splitTop (keyword : SqlKeyword) (nesting : Nesting) (tokens : List SqlToken)
    : ∃ pieces last, splitTop keyword nesting tokens = pieces ++ [last] := by
  have some_piece : splitTop keyword nesting tokens ≠ [] := by
    cases tokens with
    | nil => simp [splitTop]
    | cons token rest =>
        simp only [splitTop]
        split <;> simp
  exact ⟨_, _, (List.dropLast_append_getLast some_piece).symm⟩

/-- Plain tokens are one piece, and leave the nesting as it is. -/
theorem splitTop_plain (keyword : SqlKeyword) (nesting : Nesting)
    (plain : ∀ token ∈ tokens, token.isPlain)
    : splitTop keyword nesting tokens = [tokens]
      ∧ tokens.foldl Nesting.next nesting = nesting := by
  induction tokens with
  | nil => exact ⟨rfl, rfl⟩
  | cons token rest ih =>
      have first := plain token List.mem_cons_self
      obtain ⟨pieces, level⟩ := ih (fun later member => plain later (List.mem_cons_of_mem _ member))
      simp [splitTop, SqlToken.next_plain first, pieces, level, Nesting.separates,
        SqlToken.isKeyword_plain first]

/-- The last piece of the first tokens goes on with the first piece of those behind them. -/
theorem splitTop_append {pieces more : List (List SqlToken)} {last head : List SqlToken}
    (left : splitTop keyword nesting tokens = pieces ++ [last])
    (right : splitTop keyword (tokens.foldl Nesting.next nesting) rest = head :: more)
    : splitTop keyword nesting (tokens ++ rest) = pieces ++ (last ++ head) :: more := by
  induction tokens generalizing nesting pieces last with
  | nil =>
      have split : [] ++ [[]] = pieces ++ [last] := left
      obtain ⟨rfl, same⟩ := List.append_inj' split rfl
      cases same
      simpa using right
  | cons token tokens ih =>
      obtain ⟨before, final, isPieces⟩ := exists_splitTop keyword (nesting.next token) tokens
      have later := ih isPieces right
      simp only [splitTop, isPieces] at left
      simp only [List.cons_append, splitTop, later]
      by_cases separated : nesting.separates keyword token = true
      · simp only [if_pos separated] at left ⊢
        have split : ([] :: before) ++ [final] = pieces ++ [last] := left
        obtain ⟨rfl, same⟩ := List.append_inj' split rfl
        cases same
        rfl
      · simp only [if_neg separated] at left ⊢
        cases before with
        | nil =>
            have split : [] ++ [token :: final] = pieces ++ [last] := left
            obtain ⟨rfl, same⟩ := List.append_inj' split rfl
            cases same
            rfl
        | cons first before =>
            have split : ((token :: first) :: before) ++ [final] = pieces ++ [last] := left
            obtain ⟨rfl, same⟩ := List.append_inj' split rfl
            cases same
            rfl

-----------------------------------------------------------------------------------------
-- A factor behind a statement
-----------------------------------------------------------------------------------------

/-- A factor joins the last alternative. -/
def addFactor (alternatives : List (List (Row → Option Bool))) (factor : Row → Option Bool)
    : List (List (Row → Option Bool)) :=
  alternatives.dropLast ++ [alternatives.getLastD [] ++ [factor]]

def andToken : SqlToken :=
  .word "AND".toList

def whereToken : SqlToken :=
  .word "WHERE".toList

/-- The rows of the last alternative must satisfy the factor, those of the others need not. -/
theorem addFactor_taken {alternatives : List (List (Row → Option Bool))}
    {factor : Row → Option Bool} {row : Row}
    : (∃ factors ∈ addFactor alternatives factor, AllTrue factors row)
      ↔ (∃ factors ∈ alternatives.dropLast, AllTrue factors row)
        ∨ AllTrue (alternatives.getLastD []) row ∧ factor row = some true := by
  simp only [addFactor, List.mem_append, List.mem_singleton]
  constructor
  · intro ⟨factors, member, all⟩
    cases member with
    | inl earlier => exact .inl ⟨factors, earlier, all⟩
    | inr last =>
        cases last
        exact .inr ⟨fun other member => all other (List.mem_append_left _ member),
          all factor (List.mem_append_right _ List.mem_cons_self)⟩
  · intro taken
    cases taken with
    | inl earlier =>
        obtain ⟨factors, member, all⟩ := earlier
        exact ⟨factors, .inl member, all⟩
    | inr last =>
        refine ⟨_, .inr rfl, fun other member => ?_⟩
        cases List.mem_append.mp member with
        | inl old => exact last.1 other old
        | inr new =>
            cases List.mem_singleton.mp new
            exact last.2

/-- A row satisfies the last alternative or one before it. -/
theorem taken_last {alternatives : List (List (Row → Option Bool))} {row : Row}
    (some_alternative : alternatives ≠ [])
    : (∃ factors ∈ alternatives, AllTrue factors row)
      ↔ (∃ factors ∈ alternatives.dropLast, AllTrue factors row)
        ∨ AllTrue (alternatives.getLastD []) row := by
  have split := List.dropLast_append_getLast some_alternative
  have last : alternatives.getLastD [] = alternatives.getLast some_alternative := by
    rw [List.getLastD_eq_getLast?, List.getLast?_eq_some_getLast some_alternative, Option.getD_some]
  conv_lhs => rw [← split]
  simp only [List.mem_append, List.mem_singleton, last]
  constructor
  · intro ⟨factors, member, all⟩
    cases member with
    | inl earlier => exact .inl ⟨factors, earlier, all⟩
    | inr same => exact .inr (same ▸ all)
  · intro taken
    cases taken with
    | inl earlier =>
        obtain ⟨factors, member, all⟩ := earlier
        exact ⟨factors, .inl member, all⟩
    | inr all => exact ⟨_, .inr rfl, all⟩

theorem mapM_last {α β : Type} (read : α → Option β) (items : List α) (item : α)
    : (items ++ [item]).mapM read
      = (items.mapM read).bind (fun values => (read item).map (fun value => values ++ [value])) := by
  rw [List.mapM_append]
  cases items.mapM read <;> cases h : read item <;> simp [h]

theorem settled_append {token : SqlToken} (settled : Settled tokens)
    (stays : Nesting.top.next token = .top) (plain : ∀ token ∈ rest, token.isPlain)
    : Settled (tokens ++ token :: rest) := by
  rw [Settled, List.foldl_append, settled, List.foldl_cons, stays]
  exact (splitTop_plain .andWord .top plain).2

theorem readFactor_plain (plain : ∀ token ∈ tokens, token.isPlain)
    : sql.readFactor tokens = sql.predicate tokens := by
  cases tokens with
  | nil => rfl
  | cons token rest =>
      simp [SqlDatabase.readFactor, SqlToken.isKeyword_plain (plain token List.mem_cons_self)]

theorem readFactors_and {factors : List (Row → Option Bool)}
    (plain : ∀ token ∈ rest, token.isPlain)
    (reads : sql.readFactors tokens = some factors)
    : sql.readFactors (tokens ++ andToken :: rest)
      = (sql.predicate rest).map (fun factor => factors ++ [factor]) := by
  simp only [SqlDatabase.readFactors, Option.ite_none_right_eq_some] at reads
  obtain ⟨settled, isFactors⟩ := reads
  obtain ⟨pieces, last, isPieces⟩ := exists_splitTop .andWord .top tokens
  have right : splitTop .andWord (tokens.foldl Nesting.next .top) (andToken :: rest)
      = [] :: [rest] := by
    rw [settled]
    have later := (splitTop_plain .andWord (Nesting.top.next andToken) plain).1
    have separates : Nesting.top.separates .andWord andToken = true := by decide
    simp [splitTop, later, separates]
  have whole := splitTop_append isPieces right
  rw [SqlDatabase.readFactors, if_pos (settled_append settled (by decide) plain), whole,
    List.append_nil, List.append_cons, mapM_last, ← isPieces, isFactors, readFactor_plain plain]
  rfl

theorem readAlternatives_and {alternatives : List (List (Row → Option Bool))}
    (plain : ∀ token ∈ rest, token.isPlain)
    (reads : sql.readAlternatives tokens = some alternatives)
    : sql.readAlternatives (tokens ++ andToken :: rest)
      = (sql.predicate rest).map (addFactor alternatives) := by
  simp only [SqlDatabase.readAlternatives, Option.ite_none_right_eq_some] at reads
  obtain ⟨settled, isAlternatives⟩ := reads
  obtain ⟨pieces, last, isPieces⟩ := exists_splitTop .orWord .top tokens
  have right : splitTop .orWord (tokens.foldl Nesting.next .top) (andToken :: rest)
      = [andToken :: rest] := by
    rw [settled]
    have later := (splitTop_plain .orWord (Nesting.top.next andToken) plain).1
    have stays : Nesting.top.separates .orWord andToken = false := by decide
    simp [splitTop, later, stays]
  have whole := splitTop_append isPieces right
  rw [isPieces, mapM_last] at isAlternatives
  obtain ⟨before, isBefore, final⟩ := Option.bind_eq_some_iff.mp isAlternatives
  obtain ⟨factors, isFactors, rfl⟩ := Option.map_eq_some_iff.mp final
  rw [SqlDatabase.readAlternatives, if_pos (settled_append settled (by decide) plain), whole,
    mapM_last, isBefore, readFactors_and plain isFactors]
  simp only [Option.bind_some, Option.map_map]
  congr 1
  funext factor
  simp [addFactor]

-----------------------------------------------------------------------------------------
-- A condition behind a statement
-----------------------------------------------------------------------------------------

/-- Tokens in one piece. -/
theorem splitTop_single {last : List SqlToken}
    (single : splitTop keyword nesting tokens = [last])
    : last = tokens := by
  induction tokens generalizing nesting last with
  | nil =>
      cases single
      rfl
  | cons token rest ih =>
      obtain ⟨pieces, final, isPieces⟩ := exists_splitTop keyword (nesting.next token) rest
      simp only [splitTop, isPieces] at single
      split at single
      · simp at single
      · cases pieces with
        | nil =>
            cases single
            simp [ih isPieces]
        | cons first pieces => simp at single

/-- A statement either has no `WHERE` at the top, or one. -/
theorem readBody_cases (reads : sql.readBody tokens = some select)
    : Settled tokens
      ∧ ((∃ source, splitTop .whereWord .top tokens = [tokens] ∧ sql.source tokens = some source
            ∧ select = { source := source, filtered := false, alternatives := [[]] })
        ∨ ∃ tables condition source alternatives,
            splitTop .whereWord .top tokens = [tables] ++ [condition]
            ∧ sql.source tables = some source
            ∧ sql.readAlternatives condition = some alternatives
            ∧ select = { source := source, filtered := true, alternatives := alternatives }) := by
  simp only [SqlDatabase.readBody, Option.ite_none_right_eq_some] at reads
  obtain ⟨settled, body⟩ := reads
  refine ⟨settled, ?_⟩
  split at body
  next tables isPieces =>
    obtain ⟨source, isSource, rfl⟩ := Option.map_eq_some_iff.mp body
    cases splitTop_single isPieces
    exact .inl ⟨source, isPieces, isSource, rfl⟩
  next tables condition isPieces =>
    obtain ⟨source, isSource, rest⟩ := Option.bind_eq_some_iff.mp body
    obtain ⟨alternatives, isCondition, rfl⟩ := Option.map_eq_some_iff.mp rest
    exact .inr ⟨tables, condition, source, alternatives, isPieces, isSource, isCondition, rfl⟩
  next => cases body

/-- Behind a condition, `AND` adds a factor to its last alternative. -/
theorem readBody_and_filtered (plain : ∀ token ∈ rest, token.isPlain)
    (reads : sql.readBody tokens = some select) (filtered : select.filtered = true)
    : sql.readBody (tokens ++ andToken :: rest)
      = (sql.predicate rest).map (fun factor =>
          { select with alternatives := addFactor select.alternatives factor }) := by
  obtain ⟨settled, bare | condition⟩ := readBody_cases reads
  · obtain ⟨source, -, -, rfl⟩ := bare
    cases filtered
  · obtain ⟨tables, condition, source, alternatives, isPieces, isSource, isCondition, rfl⟩ :=
      condition
    have right : splitTop .whereWord (tokens.foldl Nesting.next .top) (andToken :: rest)
        = [andToken :: rest] := by
      rw [settled]
      have later := (splitTop_plain .whereWord (Nesting.top.next andToken) plain).1
      have stays : Nesting.top.separates .whereWord andToken = false := by decide
      simp [splitTop, later, stays]
    have whole := splitTop_append isPieces right
    rw [SqlDatabase.readBody, if_pos (settled_append settled (by decide) plain), whole]
    simp only [List.cons_append, List.nil_append, isSource, Option.bind_some,
      readAlternatives_and plain isCondition, Option.map_map]
    rfl

/-- Without a condition, `AND` belongs to the tables. -/
theorem readBody_and_bare (plain : ∀ token ∈ rest, token.isPlain)
    (reads : sql.readBody tokens = some select) (bare : select.filtered = false)
    : sql.readBody (tokens ++ andToken :: rest)
      = (sql.source (tokens ++ andToken :: rest)).map (fun source =>
          { source := source, filtered := false, alternatives := [[]] }) := by
  obtain ⟨settled, single | condition⟩ := readBody_cases reads
  · obtain ⟨source, isPieces, -, -⟩ := single
    have right : splitTop .whereWord (tokens.foldl Nesting.next .top) (andToken :: rest)
        = [andToken :: rest] := by
      rw [settled]
      have later := (splitTop_plain .whereWord (Nesting.top.next andToken) plain).1
      have stays : Nesting.top.separates .whereWord andToken = false := by decide
      simp [splitTop, later, stays]
    have isLast : splitTop .whereWord .top tokens = [] ++ [tokens] := isPieces
    have whole := splitTop_append isLast right
    rw [SqlDatabase.readBody, if_pos (settled_append settled (by decide) plain), whole]
    rfl
  · obtain ⟨tables, condition, source, alternatives, -, -, -, rfl⟩ := condition
    cases bare

/-- `WHERE` begins a condition, and there can be one only. -/
theorem readBody_where (plain : ∀ token ∈ rest, token.isPlain)
    (reads : sql.readBody tokens = some select)
    : sql.readBody (tokens ++ whereToken :: rest)
      = if select.filtered then none
        else (sql.predicate rest).map (fun factor =>
          { source := select.source, filtered := true, alternatives := [[factor]] }) := by
  obtain ⟨settled, cases'⟩ := readBody_cases reads
  have right : splitTop .whereWord (tokens.foldl Nesting.next .top) (whereToken :: rest)
      = [] :: [rest] := by
    rw [settled]
    have later := (splitTop_plain .whereWord (Nesting.top.next whereToken) plain).1
    have separates : Nesting.top.separates .whereWord whereToken = true := by decide
    simp [splitTop, later, separates]
  rw [SqlDatabase.readBody, if_pos (settled_append settled (by decide) plain)]
  cases cases' with
  | inl bare =>
      obtain ⟨source, isPieces, isSource, rfl⟩ := bare
      have isLast : splitTop .whereWord .top tokens = [] ++ [tokens] := isPieces
      have whole := splitTop_append isLast right
      obtain ⟨alone, stays⟩ := splitTop_plain .orWord .top plain
      have level : Settled rest := stays
      have factors : sql.readFactors rest = (sql.predicate rest).map (fun factor => [factor]) := by
        rw [SqlDatabase.readFactors, if_pos level, (splitTop_plain .andWord .top plain).1]
        cases read : sql.predicate rest <;> simp [readFactor_plain plain, read]
      have condition : sql.readAlternatives rest
          = (sql.predicate rest).map (fun factor => [[factor]]) := by
        rw [SqlDatabase.readAlternatives, if_pos level, alone]
        cases read : sql.predicate rest <;> simp [factors, read]
      rw [whole]
      simp only [List.append_nil, List.nil_append, isSource, Option.bind_some, condition,
        Option.map_map]
      rfl
  | inr condition =>
      obtain ⟨tables, condition, source, alternatives, isPieces, -, -, rfl⟩ := condition
      rw [splitTop_append isPieces right]
      rfl

/-- There is an alternative, and without a condition it is always true. -/
theorem readBody_alternatives (reads : sql.readBody tokens = some select)
    : select.alternatives ≠ [] ∧ (select.filtered = false → select.alternatives = [[]]) := by
  obtain ⟨-, bare | condition⟩ := readBody_cases reads
  · obtain ⟨source, -, -, rfl⟩ := bare
    exact ⟨by simp, fun _ => rfl⟩
  · obtain ⟨tables, condition, source, alternatives, -, -, isCondition, rfl⟩ := condition
    refine ⟨?_, nofun⟩
    simp only [SqlDatabase.readAlternatives, Option.ite_none_right_eq_some] at isCondition
    obtain ⟨pieces, last, isPieces⟩ := exists_splitTop .orWord .top condition
    have read := isCondition.2
    rw [isPieces, mapM_last] at read
    obtain ⟨before, -, final⟩ := Option.bind_eq_some_iff.mp read
    obtain ⟨factors, -, rfl⟩ := Option.map_eq_some_iff.mp final
    simp

-----------------------------------------------------------------------------------------
-- Semicolons
-----------------------------------------------------------------------------------------

theorem dropWhile_stops (inside : .symbol ';' ∈ tokens)
    : (tokens.dropWhile (· ≠ .symbol ';')).isEmpty = false := by
  rw [List.isEmpty_eq_false_iff, ne_eq, List.dropWhile_eq_nil_iff]
  intro all
  simpa using all _ inside

theorem takeWhile_semicolons {ended : List SqlToken} (all : ∀ token ∈ ended, token = .symbol ';')
    : ended.takeWhile (· ≠ .symbol ';') = [] ∧ ended.dropWhile (· ≠ .symbol ';') = ended := by
  cases ended with
  | nil => exact ⟨rfl, rfl⟩
  | cons token ended => simp [all token List.mem_cons_self]

/-- Semicolons end a statement without semicolons. -/
theorem readSelect_ended {ended : List SqlToken} (all : ∀ token ∈ ended, token = .symbol ';')
    (whole : .symbol ';' ∉ tokens)
    : sql.readSelect (tokens ++ ended) = sql.readBody tokens := by
  have passes : ∀ token ∈ tokens, (decide (token ≠ .symbol ';')) = true := by
    intro token member
    exact decide_eq_true (fun same => whole (same ▸ member))
  obtain ⟨taken, dropped⟩ := takeWhile_semicolons all
  rw [SqlDatabase.readSelect, List.dropWhile_append_of_pos passes,
    List.takeWhile_append_of_pos passes, taken, dropped, List.append_nil, if_pos]
  simpa using all

/-- More semicolons at the end change nothing. -/
theorem readSelect_more {ended : List SqlToken} (all : ∀ token ∈ ended, token = .symbol ';')
    : sql.readSelect (tokens ++ ended) = sql.readSelect tokens := by
  by_cases whole : .symbol ';' ∈ tokens
  · have stops := dropWhile_stops whole
    have taken : (tokens ++ ended).takeWhile (· ≠ .symbol ';')
        = tokens.takeWhile (· ≠ .symbol ';') := by
      rw [List.takeWhile_append, if_neg]
      intro same
      have split := congrArg List.length
        (List.takeWhile_append_dropWhile (p := (· ≠ .symbol ';')) (l := tokens))
      rw [List.length_append, same] at split
      rw [List.isEmpty_eq_false_iff] at stops
      exact stops (List.length_eq_zero_iff.mp (by omega))
    have dropped : (tokens ++ ended).dropWhile (· ≠ .symbol ';')
        = tokens.dropWhile (· ≠ .symbol ';') ++ ended := by
      rw [List.dropWhile_append, stops, if_neg Bool.false_ne_true]
    have semicolons : ended.all (· == .symbol ';') = true := by simpa using all
    rw [SqlDatabase.readSelect, SqlDatabase.readSelect, taken, dropped, List.all_append,
      semicolons, Bool.and_true]
  · rw [readSelect_ended all whole, ← @readSelect_ended _ tokens sql [] (by simp) whole,
      List.append_nil]

/-- Nothing else may stand behind a semicolon. -/
theorem readSelect_behind (inside : .symbol ';' ∈ tokens) (member : token ∈ rest)
    (other : token ≠ .symbol ';')
    : sql.readSelect (tokens ++ rest) = none := by
  rw [SqlDatabase.readSelect, List.dropWhile_append, dropWhile_stops inside,
    if_neg Bool.false_ne_true, if_neg]
  intro all
  exact other (by simpa using List.all_eq_true.mp all token (List.mem_append_right _ member))

end SpeedTables.Lib
