import SpeedTables.Lib.TclList

/-! The tokens of SQL text: words, operators, quoted strings and names, comments. -/

namespace SpeedTables.Lib

-----------------------------------------------------------------------------------------
-- Tokens
-----------------------------------------------------------------------------------------

inductive SqlToken where
  | word (letters : Text)
  | operator (symbols : Text)
  | quoted (raw : Text)
  | symbol (c : Char)
  deriving DecidableEq

/-- Where a scan stands: between tokens, in a word or an operator, in a string or a quoted name
(double quotes), behind a backslash in a string with escapes, behind a quote that either closes or
is doubled, in the tag or the body of a dollar quote, or in a comment of either kind.
-/
inductive SqlMode where
  | between
  | word (letters : Text)
  | operator (symbols : Text)
  | quoted (double escapes : Bool) (raw : Text)
  | backslash (raw : Text)
  | quote (double escapes : Bool) (raw : Text)
  | dollar (tag : Text)
  | body (tag raw : Text)
  | line
  | block (depth : Nat)
  | blockStar (depth : Nat)
  | blockSlash (depth : Nat)
  deriving DecidableEq

namespace SqlMode

def isBlank (c : Char) : Bool :=
  [' ', '\t', '\n', '\r', '\x0b', '\x0c'].elem c

def isWordChar (c : Char) : Bool :=
  c.isAlphanum || c == '_' || decide (128 ≤ c.toNat)

def isOperatorChar (c : Char) : Bool :=
  ['+', '-', '*', '/', '<', '>', '=', '~', '!', '@', '#', '%', '^', '&', '|', '?', '\x60'].elem c

def quoteChar (double : Bool) : Char :=
  if double then '"' else '\''

/-- The words that a string may follow directly: bits, escapes and national characters. -/
def isPrefixWord (letters : Text) : Bool :=
  ["b".toList, "e".toList, "n".toList, "x".toList].elem (letters.map Char.toLower)

/-- The first character of a token, or one between tokens. -/
def start (c : Char) : SqlMode × List SqlToken :=
  if isBlank c then (between, [])
  else if isWordChar c then (word [c], [])
  else if c = '\'' then (quoted false false [c], [])
  else if c = '"' then (quoted true false [c], [])
  else if c = '$' then (dollar [], [])
  else if isOperatorChar c then (operator [c], [])
  else (between, [.symbol c])

/-- The token that a blank ends here, if one can stand here. -/
def pending : SqlMode → Option (List SqlToken)
  | between => some []
  | word letters => some [.word letters]
  | operator symbols => some [.operator symbols]
  | quote _ _ raw => some [.quoted raw]
  | dollar tag => some [.word ('$' :: tag)]
  | _ => none

/-- A character that ends the tokens before it. -/
def startAfter (ended : List SqlToken) (c : Char) : SqlMode × List SqlToken :=
  ((start c).1, ended ++ (start c).2)

/-- The tokens before a comment that the last character of an operator begins. -/
def beforeComment (symbols : Text) : List SqlToken :=
  if symbols.dropLast = [] then [] else [.operator symbols.dropLast]

def next (c : Char) : SqlMode → SqlMode × List SqlToken
  | between => start c
  | word letters =>
      if isWordChar c ∨ c = '$' then (word (letters ++ [c]), [])
      else if c = '\'' ∧ isPrefixWord letters then
        (quoted false (letters.map Char.toLower == "e".toList) (letters ++ [c]), [])
      else startAfter [.word letters] c
  | operator symbols =>
      if c = '-' ∧ symbols.getLast? = some '-' then (line, beforeComment symbols)
      else if c = '*' ∧ symbols.getLast? = some '/' then (block 0, beforeComment symbols)
      else if isOperatorChar c then (operator (symbols ++ [c]), [])
      else startAfter [.operator symbols] c
  | quoted double escapes raw =>
      if escapes ∧ c = '\\' then (backslash (raw ++ [c]), [])
      else if c = quoteChar double then (quote double escapes (raw ++ [c]), [])
      else (quoted double escapes (raw ++ [c]), [])
  | backslash raw => (quoted false true (raw ++ [c]), [])
  | quote double escapes raw =>
      if c = quoteChar double then (quoted double escapes (raw ++ [c]), [])
      else startAfter [.quoted raw] c
  | dollar tag =>
      if c = '$' then (body tag [], [])
      else if isWordChar c then (dollar (tag ++ [c]), [])
      else startAfter [.word ('$' :: tag)] c
  | body tag raw =>
      let closing := '$' :: (tag ++ ['$'])
      if closing <:+ raw ++ [c] then (between, [.quoted (closing ++ raw ++ [c])])
      else (body tag (raw ++ [c]), [])
  | line => if c = '\n' ∨ c = '\r' then (between, []) else (line, [])
  | block depth =>
      if c = '*' then (blockStar depth, [])
      else if c = '/' then (blockSlash depth, [])
      else (block depth, [])
  | blockStar depth =>
      if c = '/' then (if depth = 0 then between else block (depth - 1), [])
      else if c = '*' then (blockStar depth, [])
      else (block depth, [])
  | blockSlash depth =>
      if c = '*' then (block (depth + 1), [])
      else if c = '/' then (blockSlash depth, [])
      else (block depth, [])

/-- The mode behind a text, and the tokens that ended in it. -/
def scan (mode : SqlMode) : Text → SqlMode × List SqlToken
  | [] => (mode, [])
  | c :: rest =>
      let after := mode.next c
      let later := scan after.1 rest
      (later.1, after.2 ++ later.2)

/-- The tokens of a text that a blank may follow. -/
def tokensFrom (mode : SqlMode) (text : Text) : Option (List SqlToken) :=
  (mode.scan text).1.pending.map ((mode.scan text).2 ++ ·)

end SqlMode

/-- The tokens of a whole text, which may end in a line comment. -/
def sqlTokens (text : Text) : Option (List SqlToken) :=
  if (SqlMode.between.scan text).1 = .line then some (SqlMode.between.scan text).2
  else SqlMode.between.tokensFrom text

/-- A text in whose last line a comment stands. -/
def EndsInComment (text : Text) : Prop :=
  (SqlMode.between.scan text).1 = .line

instance (text : Text) : Decidable (EndsInComment text) :=
  inferInstanceAs (Decidable (_ = _))

-----------------------------------------------------------------------------------------
-- Scans of one text after another
-----------------------------------------------------------------------------------------

namespace SqlMode

variable {mode : SqlMode} {c : Char} {first rest : Text} {tokens : List SqlToken}

@[simp] theorem scan_nil : mode.scan [] = (mode, []) := rfl

@[simp] theorem scan_cons
    : mode.scan (c :: rest)
      = (((mode.next c).1.scan rest).1, (mode.next c).2 ++ ((mode.next c).1.scan rest).2) := rfl

@[simp] theorem next_between : between.next c = start c := rfl

theorem scan_append
    : mode.scan (first ++ rest)
      = (((mode.scan first).1.scan rest).1,
        (mode.scan first).2 ++ ((mode.scan first).1.scan rest).2) := by
  induction first generalizing mode with
  | nil => simp
  | cons c first ih => simp [ih]

/-- The characters that end every token before them. -/
def breaks : Text :=
  [' ', ';', '\n', '.']

/-- A character that ends every token starts afresh behind it. -/
theorem next_break {ended : List SqlToken} (breaking : c ∈ breaks)
    (closed : mode.pending = some ended)
    : mode.next c = startAfter ended c := by
  simp only [breaks, List.mem_cons, List.not_mem_nil, or_false] at breaking
  cases mode with
  | between => cases closed; simp [next, startAfter]
  | word letters | operator symbols | dollar tag =>
      cases closed
      rcases breaking with rfl | rfl | rfl | rfl <;>
        simp [next, isWordChar, isOperatorChar, Char.isAlphanum, Char.isAlpha, Char.isUpper,
          Char.isLower, Char.isDigit]
  | quote double escapes raw =>
      cases closed
      have other : c ≠ quoteChar double := by
        rcases breaking with rfl | rfl | rfl | rfl <;> cases double <;> decide
      simp [next, other]
  | _ => simp [pending] at closed

/-- The tokens before such a character, and those behind it. -/
theorem tokensFrom_break (breaking : c ∈ breaks) (reads : mode.tokensFrom first = some tokens)
    : mode.tokensFrom (first ++ c :: rest)
      = (between.tokensFrom (c :: rest)).map (tokens ++ ·) := by
  simp only [tokensFrom, Option.map_eq_some_iff] at reads
  obtain ⟨ended, closed, rfl⟩ := reads
  have behind := next_break breaking closed
  simp only [tokensFrom, scan_append, scan_cons, behind, startAfter, next_between, Option.map_map]
  congr 1
  funext later
  simp

@[simp] theorem tokensFrom_blank
    : between.tokensFrom (' ' :: rest) = between.tokensFrom rest := by
  simp [tokensFrom, start, isBlank]

theorem tokensFrom_symbol (isSymbol : start c = (between, [.symbol c]))
    : between.tokensFrom (c :: rest) = (between.tokensFrom rest).map (.symbol c :: ·) := by
  simp only [tokensFrom, scan_cons, next_between, isSymbol, Option.map_map]
  congr 1

-----------------------------------------------------------------------------------------
-- Semicolons and line ends behind a text
-----------------------------------------------------------------------------------------

/-- The text consists of semicolons and line ends. -/
def Ending (text : Text) : Prop :=
  ∀ c ∈ text, c = ';' ∨ c = '\n'

theorem scan_ending (ending : Ending rest)
    : ∃ ended, between.scan rest = (between, ended) ∧ ∀ token ∈ ended, token = .symbol ';' := by
  induction rest with
  | nil => exact ⟨[], rfl, by simp⟩
  | cons c rest ih =>
      obtain ⟨ended, scanned, all⟩ := ih (fun d member => ending d (List.mem_cons_of_mem _ member))
      rcases ending c List.mem_cons_self with rfl | rfl
      · exact ⟨.symbol ';' :: ended, by simp [start, isBlank, isWordChar, isOperatorChar, scanned],
          by simpa using all⟩
      · exact ⟨ended, by simp [start, isBlank, scanned], all⟩

theorem scan_line_ending (ending : Ending rest)
    : ∃ after ended, line.scan rest = (after, ended) ∧ (after = line ∨ after = between)
      ∧ ∀ token ∈ ended, token = .symbol ';' := by
  induction rest with
  | nil => exact ⟨line, [], rfl, .inl rfl, by simp⟩
  | cons c rest ih =>
      have behind : Ending rest := fun d member => ending d (List.mem_cons_of_mem _ member)
      rcases ending c List.mem_cons_self with rfl | rfl
      · obtain ⟨after, ended, scanned, comment, all⟩ := ih behind
        exact ⟨after, ended, by simp [next, scanned], comment, all⟩
      · obtain ⟨ended, scanned, all⟩ := scan_ending behind
        exact ⟨between, ended, by simp [next, scanned], .inr rfl, all⟩

/-- A comment hides what stands behind it in its line. -/
theorem scan_line_hides (oneLine : ∀ c ∈ rest, c ≠ '\n' ∧ c ≠ '\r')
    : line.scan rest = (line, []) := by
  induction rest with
  | nil => rfl
  | cons c rest ih =>
      obtain ⟨newline, carriage⟩ := oneLine c List.mem_cons_self
      simp [next, newline, carriage, ih (fun d member => oneLine d (List.mem_cons_of_mem _ member))]

/-- Inside of a string, a name or a block comment. -/
def isOpen (mode : SqlMode) : Prop :=
  mode.pending = none ∧ mode ≠ line

/-- Neither of the two characters closes anything. -/
theorem isOpen.next (inside : mode.isOpen) (ending : c = ';' ∨ c = '\n')
    : (mode.next c).1.isOpen := by
  obtain ⟨closed, comment⟩ := inside
  cases mode with
  | between | word letters | operator symbols | quote double escapes raw | dollar tag =>
      simp [pending] at closed
  | line => exact absurd rfl comment
  | quoted double escapes raw =>
      have other : c ≠ quoteChar double ∧ c ≠ '\\' := by
        rcases ending with rfl | rfl <;> cases double <;> decide
      simp [SqlMode.next, other, isOpen, pending]
  | backslash raw => simp [SqlMode.next, isOpen, pending]
  | body tag raw =>
      have other : ¬ '$' :: (tag ++ ['$']) <:+ raw ++ [c] := by
        intro ⟨before, same⟩
        have split : (before ++ '$' :: tag) ++ ['$'] = raw ++ [c] := by simpa using same
        have last := (List.append_inj' split rfl).2
        rcases ending with rfl | rfl <;> simp at last
      simp [SqlMode.next, other, isOpen, pending]
  | block depth | blockStar depth | blockSlash depth =>
      rcases ending with rfl | rfl <;> simp [SqlMode.next, isOpen, pending]

theorem isOpen.scan (inside : mode.isOpen) (ending : Ending rest)
    : (mode.scan rest).1.isOpen := by
  induction rest generalizing mode with
  | nil => exact inside
  | cons c rest ih =>
      exact ih (inside.next (ending c List.mem_cons_self))
        (fun d member => ending d (List.mem_cons_of_mem _ member))

end SqlMode

open SqlMode

theorem sqlTokens_of_tokensFrom {text : Text} {tokens : List SqlToken}
    (reads : between.tokensFrom text = some tokens)
    : sqlTokens text = some tokens ∧ ¬ EndsInComment text := by
  have closed : ¬ EndsInComment text := by
    intro comment
    rw [EndsInComment] at comment
    simp [tokensFrom, comment, pending] at reads
  exact ⟨(if_neg closed).trans reads, closed⟩

/-- The tokens of a text and the semicolons behind it. -/
theorem sqlTokens_ending {text rest : Text} {tokens : List SqlToken}
    (reads : sqlTokens (text ++ rest) = some tokens) (ending : Ending rest)
    : ∃ base ended, tokens = base ++ ended ∧ (∀ token ∈ ended, token = .symbol ';')
      ∧ (EndsInComment text ∧ base = (between.scan text).2
        ∨ ¬ EndsInComment text ∧ between.tokensFrom text = some base) := by
  by_cases inside : (between.scan text).1.isOpen
  · have stays := inside.scan ending
    have closed : (between.scan (text ++ rest)).1.isOpen := by rwa [scan_append]
    simp [sqlTokens, tokensFrom, closed.1, closed.2] at reads
  by_cases comment : EndsInComment text
  · obtain ⟨after, ended, scanned, hidden, all⟩ := scan_line_ending ending
    have whole : between.scan (text ++ rest) = (after, (between.scan text).2 ++ ended) := by
      rw [scan_append, show (between.scan text).1 = line from comment, scanned]
    refine ⟨_, ended, ?_, all, .inl ⟨comment, rfl⟩⟩
    cases hidden with
    | inl stays => simpa [sqlTokens, whole, stays, eq_comm] using reads
    | inr ends => simpa [sqlTokens, tokensFrom, whole, ends, pending, eq_comm] using reads
  · have closed : (between.scan text).1.pending ≠ none := fun open' => inside ⟨open', comment⟩
    obtain ⟨last, isLast⟩ := Option.ne_none_iff_exists'.mp closed
    have base : between.tokensFrom text = some ((between.scan text).2 ++ last) := by
      simp [tokensFrom, isLast]
    cases rest with
    | nil =>
        rw [List.append_nil, (sqlTokens_of_tokensFrom base).1] at reads
        exact ⟨_, [], by simpa using reads.symm, by simp, .inr ⟨comment, base⟩⟩
    | cons c rest =>
        have breaking : c ∈ breaks := by
          rcases ending c List.mem_cons_self with rfl | rfl <;> decide
        obtain ⟨ended, scanned, all⟩ := scan_ending ending
        have whole := @tokensFrom_break _ _ _ rest _ breaking base
        have behind : between.tokensFrom (c :: rest) = some ended := by
          simp [tokensFrom, scanned, pending]
        rw [behind, Option.map_some] at whole
        rw [(sqlTokens_of_tokensFrom whole).1] at reads
        exact ⟨_, ended, (Option.some.inj reads).symm, all, .inr ⟨comment, base⟩⟩

end SpeedTables.Lib
