import Mathlib

/-! Tcl lists as strings: how elements are quoted, and how a list is taken apart again. -/

namespace SpeedTables.Lib

/-- A string of the Tcl interpreter. -/
abbrev Text := List Char

/-- Texts are equal when they are the same characters. -/
instance text_lawfulBEq : LawfulBEq Text :=
  inferInstanceAs (LawfulBEq (List Char))

namespace TclList

def formFeed : Char := Char.ofNat 12

def verticalTab : Char := Char.ofNat 11

/-- Whether a character separates list elements. -/
def isSpace (c : Char) : Bool :=
  c == ' ' || c == '\t' || c == '\n' || c == '\r' || c == verticalTab || c == formFeed

-----------------------------------------------------------------------------------------
-- Formatting
-----------------------------------------------------------------------------------------

/-- How an element is written: as it is, in braces, or with backslashes, before braces too or not. -/
inductive Quoting where
  | bare
  | braces
  | escapes
  | mask
  deriving DecidableEq

/-- Whether an element reads back from braces, inside so many open ones: its braces match, and no
backslash is the last character or before a newline.
-/
def bracesFit : Nat → Text → Bool
  | depth, [] => depth == 0
  | depth, '\\' :: rest =>
      match rest with
      | [] => false
      | '\n' :: _ => false
      | '{' :: rest => bracesFit depth rest
      | '}' :: rest => bracesFit depth rest
      | '\\' :: rest => bracesFit depth rest
      | _ :: rest => bracesFit depth rest
  | depth, '{' :: rest => bracesFit (depth + 1) rest
  | 0, '}' :: _ => false
  | depth + 1, '}' :: rest => bracesFit depth rest
  | depth, _ :: rest => bracesFit depth rest

/-- Characters for which braces are preferred. -/
def prefersBraces (c : Char) : Bool :=
  isSpace c || c == '[' || c == '$' || c == ';' || c == '\\'

/-- Characters for which backslashes are preferred. -/
def prefersMask (c : Char) : Bool :=
  c == ']' || c == '"'

/-- Whether the first character would open a braced or quoted element. -/
def opens (text : Text) : Bool :=
  text.head? == some '{' || text.head? == some '"'

/-- `TclScanElement`. Only the first element of a list is kept from beginning with a hash. -/
def quoting (first : Bool) (text : Text) : Quoting :=
  let hash := first && text.head? == some '#'
  if text = [] then .braces
  else if !bracesFit 0 text then .escapes
  else if opens text || text.any prefersBraces || text.any prefersMask then
    if text.any prefersMask && !(hash || opens text || text.any prefersBraces) then .mask
    else .braces
  else if hash then .braces
  else .bare

/-- The escape sequence of a character. -/
def escapeChar (braces : Bool) (c : Char) : Text :=
  if c == ']' || c == '[' || c == '$' || c == ';' || c == ' ' || c == '\\' || c == '"' then
    ['\\', c]
  else if c == '{' || c == '}' then (if braces then ['\\', c] else [c])
  else if c == formFeed then ['\\', 'f']
  else if c == '\n' then ['\\', 'n']
  else if c == '\r' then ['\\', 'r']
  else if c == '\t' then ['\\', 't']
  else if c == verticalTab then ['\\', 'v']
  else [c]

/-- `TclConvertElement` -/
def formatElement (first : Bool) (text : Text) : Text :=
  match quoting first text with
  | .bare => text
  | .braces => '{' :: text ++ ['}']
  | .mask => text.flatMap (escapeChar false)
  | .escapes =>
      match first, text with
      | true, '#' :: rest => '\\' :: '#' :: rest.flatMap (escapeChar true)
      | _, text => text.flatMap (escapeChar true)

/-- The elements of a list after the first. -/
def formatRest : List Text → Text
  | [] => []
  | text :: rest => ' ' :: formatElement false text ++ formatRest rest

/-- `list` -/
def format : List Text → Text
  | [] => []
  | text :: rest => formatElement true text ++ formatRest rest

-----------------------------------------------------------------------------------------
-- Parsing
-----------------------------------------------------------------------------------------

/-- The value of a digit of a base. -/
def digit (base : Nat) (c : Char) : Option Nat :=
  let value :=
    if '0' ≤ c ∧ c ≤ '9' then c.toNat - 48
    else if 'a' ≤ c ∧ c ≤ 'f' then c.toNat - 87
    else if 'A' ≤ c ∧ c ≤ 'F' then c.toNat - 55
    else base
  if value < base then some value else none

/-- A character given by at most so many digits: its code, and the number of digits. -/
def digits (base : Nat) : Nat → Nat → Text → Nat × Nat
  | 0, code, _ => (code, 0)
  | _, code, [] => (code, 0)
  | limit + 1, code, c :: rest =>
      match digit base c with
      | none => (code, 0)
      | some value =>
          let (code, used) := digits base limit (code * base + value) rest
          (code, used + 1)

/-- A numeric escape after its letter, which stands for itself without a digit. -/
def numeric (letter : Char) (base limit : Nat) (rest : Text) : Char × Nat :=
  let (code, used) := digits base limit 0 rest
  if used = 0 then (letter, 1) else (Char.ofNat code, used + 1)

/-- `TclParseBackslash`: what a backslash and the text after it stand for, and how many characters
of the text it takes.
-/
def backslash : Text → Char × Nat
  | [] => ('\\', 0)
  | 'a' :: _ => (Char.ofNat 7, 1)
  | 'b' :: _ => (Char.ofNat 8, 1)
  | 'f' :: _ => (formFeed, 1)
  | 'n' :: _ => ('\n', 1)
  | 'r' :: _ => ('\r', 1)
  | 't' :: _ => ('\t', 1)
  | 'v' :: _ => (verticalTab, 1)
  | 'x' :: rest => numeric 'x' 16 2 rest
  | 'u' :: rest => numeric 'u' 16 4 rest
  | 'U' :: rest => numeric 'U' 16 8 rest
  | '\n' :: rest => (' ', (rest.takeWhile (fun c => c == ' ' || c == '\t')).length + 1)
  | c :: rest =>
      if (digit 8 c).isSome then
        let (code, used) := digits 8 3 0 (c :: rest)
        (Char.ofNat code, used)
      else (c, 1)

/-- An element without quotes, up to a space: its value, and the rest of the list. The first
argument counts the characters that a backslash has taken.
-/
def parseBare : Nat → Text → Text × Text
  | _, [] => ([], [])
  | taken + 1, _ :: rest => parseBare taken rest
  | 0, c :: rest =>
      if isSpace c then ([], c :: rest)
      else if c = '\\' then
        let (value, used) := backslash rest
        let (word, behind) := parseBare used rest
        (value :: word, behind)
      else
        let (word, behind) := parseBare 0 rest
        (c :: word, behind)

/-- An element in quotes, with what follows the closing one. -/
def parseQuoted : Nat → Text → Option (Text × Text)
  | _, [] => none
  | taken + 1, _ :: rest => parseQuoted taken rest
  | 0, c :: rest =>
      if c = '"' then some ([], rest)
      else if c = '\\' then
        let (value, used) := backslash rest
        (parseQuoted used rest).map fun (word, behind) => (value :: word, behind)
      else (parseQuoted 0 rest).map fun (word, behind) => (c :: word, behind)

/-- An element in braces, inside so many inner ones, with what follows the closing brace. A backslash
keeps the next character from counting.
-/
def parseBraced : Nat → Text → Option (Text × Text)
  | _, [] => none
  | depth, '\\' :: rest =>
      match rest with
      | [] => none
      | c :: rest => (parseBraced depth rest).map fun (word, behind) => ('\\' :: c :: word, behind)
  | depth, '{' :: rest =>
      (parseBraced (depth + 1) rest).map fun (word, behind) => ('{' :: word, behind)
  | 0, '}' :: rest => some ([], rest)
  | depth + 1, '}' :: rest =>
      (parseBraced depth rest).map fun (word, behind) => ('}' :: word, behind)
  | depth, c :: rest => (parseBraced depth rest).map fun (word, behind) => (c :: word, behind)

/-- A closing brace or quote is followed by a space or the end of the list. -/
def closed : Option (Text × Text) → Option (Text × Text)
  | some (word, []) => some (word, [])
  | some (word, c :: rest) => if isSpace c then some (word, c :: rest) else none
  | none => none

/-- `TclFindElement`, from the first character of an element on. -/
def parseElement : Text → Option (Text × Text)
  | '{' :: rest => closed (parseBraced 0 rest)
  | '"' :: rest => closed (parseQuoted 0 rest)
  | text => some (parseBare 0 text)

/-- The elements of a list, of which there are fewer than the first argument. -/
def parseAll : Nat → Text → Option (List Text)
  | 0, _ => none
  | fuel + 1, text =>
      match text.dropWhile isSpace with
      | [] => some []
      | c :: rest =>
          match parseElement (c :: rest) with
          | none => none
          | some (word, behind) => (parseAll fuel behind).map (word :: ·)

/-- The elements of a list, unless a brace or a quote is not closed. -/
def parse (text : Text) : Option (List Text) :=
  parseAll (text.length + 1) text

-----------------------------------------------------------------------------------------
-- Reading back what was written
-----------------------------------------------------------------------------------------

/-- An element ends here: at a space, or at the end of the list. -/
def Ends (text : Text) : Prop :=
  ∀ c ∈ text.head?, isSpace c = true

theorem parseBare_ends {tail : Text} (ends : Ends tail) : parseBare 0 tail = ([], tail) := by
  cases tail with
  | nil => rfl
  | cons c rest =>
      have space := ends c rfl
      simp [parseBare, space]

theorem parseBare_cons {c : Char} {rest : Text} (word : isSpace c = false) (plain : c ≠ '\\')
    : parseBare 0 (c :: rest) = (c :: (parseBare 0 rest).1, (parseBare 0 rest).2) := by
  simp [parseBare, word, plain]

/-- Characters that are no separators and no backslashes stand for themselves. -/
theorem parseBare_plain {text tail : Text} (plain : ∀ c ∈ text, isSpace c = false ∧ c ≠ '\\')
    (ends : Ends tail)
    : parseBare 0 (text ++ tail) = (text, tail) := by
  induction text with
  | nil => exact parseBare_ends ends
  | cons c rest ih =>
      obtain ⟨word, slash⟩ := plain c (by simp)
      have behind := ih fun other member => plain other (by simp [member])
      rw [List.cons_append, parseBare_cons word slash, behind]

/-- An escape sequence reads back as its character. -/
theorem parseBare_escape (braces : Bool) (c : Char) (rest : Text)
    : parseBare 0 (escapeChar braces c ++ rest)
        = (c :: (parseBare 0 rest).1, (parseBare 0 rest).2) := by
  have taken (letter : Char) (value : backslash (letter :: rest) = (c, 1))
      : parseBare 0 ('\\' :: letter :: rest)
          = (c :: (parseBare 0 rest).1, (parseBare 0 rest).2) := by
    have slash : isSpace '\\' = false := by decide
    simp [parseBare, slash, value]
  unfold escapeChar
  split
  next special =>
    simp only [Bool.or_eq_true, beq_iff_eq] at special
    apply taken
    rcases special with (((((rfl | rfl) | rfl) | rfl) | rfl) | rfl) | rfl <;> rfl
  next noSpecial =>
    simp only [Bool.or_eq_true, beq_iff_eq, not_or] at noSpecial
    obtain ⟨⟨⟨⟨⟨⟨-, -⟩, -⟩, -⟩, noBlank⟩, noSlash⟩, -⟩ := noSpecial
    split
    next brace =>
      simp only [Bool.or_eq_true, beq_iff_eq] at brace
      split
      · apply taken
        rcases brace with rfl | rfl <;> rfl
      · rcases brace with rfl | rfl <;> exact parseBare_cons (by decide) (by decide)
    next =>
      split
      next feed =>
        rw [beq_iff_eq.mp feed]
        rw [beq_iff_eq.mp feed] at taken
        exact taken 'f' rfl
      next noFeed =>
        split
        next newline =>
          rw [beq_iff_eq.mp newline]
          rw [beq_iff_eq.mp newline] at taken
          exact taken 'n' rfl
        next noNewline =>
          split
          next ret =>
            rw [beq_iff_eq.mp ret]
            rw [beq_iff_eq.mp ret] at taken
            exact taken 'r' rfl
          next noReturn =>
            split
            next tab =>
              rw [beq_iff_eq.mp tab]
              rw [beq_iff_eq.mp tab] at taken
              exact taken 't' rfl
            next noTab =>
              split
              next vertical =>
                rw [beq_iff_eq.mp vertical]
                rw [beq_iff_eq.mp vertical] at taken
                exact taken 'v' rfl
              next noVertical =>
                simp only [beq_iff_eq] at noFeed noNewline noReturn noTab noVertical
                apply parseBare_cons ?_ noSlash
                simp [isSpace, noBlank, noFeed, noNewline, noReturn, noTab, noVertical]

theorem parseBare_escapes (braces : Bool) (text : Text) {tail : Text} (ends : Ends tail)
    : parseBare 0 (text.flatMap (escapeChar braces) ++ tail) = (text, tail) := by
  induction text with
  | nil => exact parseBare_ends ends
  | cons c rest ih =>
      rw [List.flatMap_cons, List.append_assoc, parseBare_escape, ih]

/-- What fits into braces reads back from them, by induction on the test of the braces. -/
theorem parseBraced_fits {depth : Nat} {text : Text} (fits : bracesFit depth text = true)
    (tail : Text)
    : parseBraced depth (text ++ '}' :: tail) = some (text, tail) := by
  fun_induction bracesFit depth text with
  | case1 depth =>
      obtain rfl : depth = 0 := by simpa using fits
      rfl
  | case2 | case3 => cases fits
  | case4 depth rest ih | case5 depth rest ih | case6 depth rest ih | case7 depth c rest _ _ _ _ ih =>
      simp [parseBraced, ih fits]
  | case8 depth rest ih => simp [parseBraced, ih fits]
  | case9 => cases fits
  | case10 depth rest ih => simp [parseBraced, ih fits]
  | case11 depth c rest noSlash noOpen noClose noBrace ih =>
      rw [List.cons_append, parseBraced, ih fits]
      · rfl
      · exact noSlash
      · exact noOpen
      · exact noClose
      · exact noBrace

theorem closed_ends {word tail : Text} (ends : Ends tail)
    : closed (some (word, tail)) = some (word, tail) := by
  cases tail with
  | nil => rfl
  | cons c rest =>
      have space := ends c rfl
      simp [closed, space]

/-- Whatever opens no braces and no quotes is read without them. -/
theorem parseElement_bare {text : Text} (closes : opens text = false)
    : parseElement text = some (parseBare 0 text) := by
  unfold parseElement
  split
  · simp [opens] at closes
  · simp [opens] at closes
  · rfl

theorem opens_append {text tail : Text} (present : text ≠ [])
    : opens (text ++ tail) = opens text := by
  cases text with
  | nil => exact absurd rfl present
  | cons c rest => rfl

/-- An escape sequence begins with a backslash, or is its character. -/
theorem escapeChar_head (braces : Bool) (c : Char)
    : ∃ first others, escapeChar braces c = first :: others
        ∧ (first = '\\'
          ∨ first = c ∧ c ≠ '"' ∧ (braces = true → c ≠ '{') ∧ isSpace c = false) := by
  unfold escapeChar
  split
  · exact ⟨_, _, rfl, .inl rfl⟩
  next noSpecial =>
    simp only [Bool.or_eq_true, beq_iff_eq, not_or] at noSpecial
    obtain ⟨⟨⟨-, noBlank⟩, -⟩, noQuote⟩ := noSpecial
    split
    next brace =>
      split
      · exact ⟨_, _, rfl, .inl rfl⟩
      next unescaped =>
        refine ⟨_, _, rfl, .inr ⟨rfl, noQuote, fun escaped => absurd escaped unescaped, ?_⟩⟩
        simp only [Bool.or_eq_true, beq_iff_eq] at brace
        rcases brace with rfl | rfl <;> rfl
    next noBrace =>
      repeat' split
      iterate 5 exact ⟨_, _, rfl, .inl rfl⟩
      next noFeed noNewline noReturn noTab noVertical =>
        simp only [beq_iff_eq] at noFeed noNewline noReturn noTab noVertical
        simp only [Bool.or_eq_true, beq_iff_eq, not_or] at noBrace
        refine ⟨_, _, rfl, .inr ⟨rfl, noQuote, fun _ => noBrace.1, ?_⟩⟩
        simp [isSpace, noBlank, noFeed, noNewline, noReturn, noTab, noVertical]

/-- An escaped text opens only with a brace that is not escaped. -/
theorem opens_escapes {braces : Bool} {c : Char} {rest : Text}
    (closes : braces = true ∨ opens (c :: rest) = false)
    : opens ((c :: rest).flatMap (escapeChar braces)) = false := by
  obtain ⟨first, others, same, slash | ⟨rfl, quote, brace, -⟩⟩ := escapeChar_head braces c
  · simp [List.flatMap_cons, same, opens, slash]
  · have brace : first ≠ '{' := by
      rcases closes with escaped | shut
      · exact brace escaped
      · intro here
        simp [opens, here] at shut
    simp [List.flatMap_cons, same, opens, brace, quote]

/-- What a way of quoting says about the text. -/
theorem quoting_cases (first : Bool) (text : Text)
    : (quoting first text = .braces ∧ bracesFit 0 text = true)
      ∨ (quoting first text = .escapes ∧ text ≠ [])
      ∨ (quoting first text = .mask ∧ text ≠ [] ∧ opens text = false
          ∧ (first = true → text.head? ≠ some '#'))
      ∨ (quoting first text = .bare ∧ text ≠ [] ∧ opens text = false
          ∧ (∀ c ∈ text, prefersBraces c = false)
          ∧ (first = true → text.head? ≠ some '#')) := by
  unfold quoting
  dsimp only
  split
  next empty => exact .inl ⟨rfl, by rw [empty]; rfl⟩
  next present =>
    split
    next => exact .inr (.inl ⟨rfl, present⟩)
    next fits =>
      have fits : bracesFit 0 text = true := by simpa using fits
      split
      next =>
        split
        next masked =>
          simp only [Bool.and_eq_true, Bool.not_eq_true', Bool.or_eq_false_iff] at masked
          obtain ⟨-, ⟨noHash, shut⟩, -⟩ := masked
          refine .inr (.inr (.inl ⟨rfl, present, shut, ?_⟩))
          rintro rfl hash
          simp [hash] at noHash
        next => exact .inl ⟨rfl, fits⟩
      next plain =>
        split
        next => exact .inl ⟨rfl, fits⟩
        next noHash =>
          simp only [Bool.or_eq_true, not_or, Bool.not_eq_true, List.any_eq_false] at plain
          refine .inr (.inr (.inr ⟨rfl, present, plain.1.1, ?_, ?_⟩))
          · intro c member
            simpa using plain.1.2 c member
          · rintro rfl hash
            simp [hash] at noHash

theorem word_of_plain {c : Char} (plain : prefersBraces c = false)
    : isSpace c = false ∧ c ≠ '\\' := by
  simp only [prefersBraces, Bool.or_eq_false_iff, beq_eq_false_iff_ne] at plain
  exact ⟨plain.1.1.1.1, plain.2⟩

theorem flatMap_escape_ne_nil {braces : Bool} {text : Text} (present : text ≠ [])
    : text.flatMap (escapeChar braces) ≠ [] := by
  cases text with
  | nil => exact absurd rfl present
  | cons c rest =>
      have parsed := parseBare_escape braces c []
      intro empty
      rw [List.flatMap_cons] at empty
      obtain ⟨none, -⟩ := List.append_eq_nil_iff.mp empty
      rw [none] at parsed
      cases parsed

/-- An escaped text, with its first character escaped or not, reads back. -/
theorem parseElement_escapes {braces : Bool} {text tail : Text} (present : text ≠ [])
    (closes : braces = true ∨ opens text = false) (ends : Ends tail)
    : parseElement (text.flatMap (escapeChar braces) ++ tail) = some (text, tail) := by
  have shut : opens (text.flatMap (escapeChar braces) ++ tail) = false := by
    rw [opens_append (flatMap_escape_ne_nil present)]
    cases text with
    | nil => exact absurd rfl present
    | cons c rest => exact opens_escapes closes
  rw [parseElement_bare shut, parseBare_escapes braces _ ends]

/-- An element reads back from what is written for it, by cases on its quoting. -/
theorem parseElement_format (first : Bool) (text : Text) {tail : Text} (ends : Ends tail)
    : parseElement (formatElement first text ++ tail) = some (text, tail) := by
  unfold formatElement
  rcases quoting_cases first text with
    ⟨braced, fits⟩ | ⟨escaped, present⟩ | ⟨masked, present, shut, -⟩
      | ⟨bare, present, shut, plain, -⟩
  · rw [braced]
    have within := parseBraced_fits fits tail
    show closed (parseBraced 0 (text ++ ['}'] ++ tail)) = _
    rw [List.append_assoc]
    show closed (parseBraced 0 (text ++ '}' :: tail)) = _
    rw [within, closed_ends ends]
  · rw [escaped]
    dsimp only
    split
    next rest =>
      have hash : backslash ('#' :: (rest.flatMap (escapeChar true) ++ tail)) = ('#', 1) := rfl
      have slash : isSpace '\\' = false := by decide
      have behind := parseBare_escapes true rest ends
      show some (parseBare 0 ('\\' :: '#' :: (rest.flatMap (escapeChar true) ++ tail))) = _
      simp [parseBare, slash, hash, behind]
    next => exact parseElement_escapes present (.inl rfl) ends
  · rw [masked]
    exact parseElement_escapes present (.inr shut) ends
  · rw [bare]
    have open' : opens (text ++ tail) = false := by rw [opens_append present, shut]
    rw [parseElement_bare open',
      parseBare_plain (fun c member => word_of_plain (plain c member)) ends]

/-- An element is written with a first character that neither separates elements nor, in front of
a list, is a hash.
-/
theorem formatElement_head (first : Bool) (text : Text)
    : ∃ c rest, formatElement first text = c :: rest ∧ isSpace c = false
        ∧ (first = true → c ≠ '#') := by
  have escaped {braces : Bool} {c : Char} {rest : Text}
      (noHash : first = true → c ≠ '#')
      : ∃ head others, (c :: rest).flatMap (escapeChar braces) = head :: others
          ∧ isSpace head = false ∧ (first = true → head ≠ '#') := by
    obtain ⟨head, others, same, rfl | ⟨rfl, -, -, word⟩⟩ := escapeChar_head braces c
    · exact ⟨_, _, by rw [List.flatMap_cons, same]; rfl, by decide, fun _ => by decide⟩
    · exact ⟨_, _, by rw [List.flatMap_cons, same]; rfl, word, noHash⟩
  unfold formatElement
  rcases quoting_cases first text with
    ⟨braced, -⟩ | ⟨escapes, present⟩ | ⟨masked, present, -, noHash⟩
      | ⟨bare, present, shut, plain, noHash⟩
  · rw [braced]
    exact ⟨_, _, rfl, by decide, fun _ => by decide⟩
  · rw [escapes]
    dsimp only
    split
    next rest => exact ⟨_, _, rfl, by decide, fun _ => by decide⟩
    next noHash =>
      cases text with
      | nil => exact absurd rfl present
      | cons c rest => exact escaped fun isFirst hash => noHash rest isFirst (by rw [hash])
  · rw [masked]
    cases text with
    | nil => exact absurd rfl present
    | cons c rest => exact escaped fun isFirst hash => noHash isFirst (by rw [hash]; rfl)
  · rw [bare]
    cases text with
    | nil => exact absurd rfl present
    | cons c rest =>
        exact ⟨c, rest, rfl, (word_of_plain (plain c (by simp))).1,
          fun isFirst hash => noHash isFirst (by rw [hash]; rfl)⟩

/-- A list that goes on with an element. -/
theorem parseAll_cons {fuel : Nat} {c : Char} {rest word behind : Text}
    (starts : isSpace c = false) (element : parseElement (c :: rest) = some (word, behind))
    : parseAll (fuel + 1) (c :: rest) = (parseAll fuel behind).map (word :: ·) := by
  rw [parseAll, List.dropWhile_cons_of_neg (by simp [starts])]
  simp only [element]

/-- Reading the first element of what was written. -/
theorem parseAll_element (first : Bool) (text : Text) {tail : Text} (ends : Ends tail)
    (fuel : Nat)
    : parseAll (fuel + 1) (formatElement first text ++ tail)
        = (parseAll fuel tail).map (text :: ·) := by
  have element := parseElement_format first text ends
  obtain ⟨c, rest, shape, starts, -⟩ := formatElement_head first text
  rw [shape, List.cons_append] at element ⊢
  exact parseAll_cons starts element

/-- A list never begins with a hash. -/
theorem format_head (text : Text) (texts : List Text)
    : ∃ c rest, format (text :: texts) = c :: rest ∧ c ≠ '#' := by
  obtain ⟨c, rest, shape, -, noHash⟩ := formatElement_head true text
  exact ⟨c, rest ++ formatRest texts, by rw [format, shape]; rfl, noHash rfl⟩

/-- An element is taken from the text in front of what follows it, by induction on the text. -/
theorem length_parseBare (taken : Nat) (text : Text)
    : (parseBare taken text).1.length + (parseBare taken text).2.length ≤ text.length := by
  induction text generalizing taken with
  | nil => simp [parseBare]
  | cons c rest ih =>
      cases taken with
      | succ taken =>
          have shorter := ih taken
          rw [parseBare, List.length_cons]
          omega
      | zero =>
          rw [parseBare, List.length_cons]
          split
          · simp
          · split
            · have shorter := ih (backslash rest).2
              simp only [List.length_cons]
              omega
            · have shorter := ih 0
              simp only [List.length_cons]
              omega

theorem length_parseQuoted {taken : Nat} {text word behind : Text}
    (parsed : parseQuoted taken text = some (word, behind))
    : word.length + behind.length ≤ text.length := by
  induction text generalizing taken word behind with
  | nil => simp [parseQuoted] at parsed
  | cons c rest ih =>
      cases taken with
      | succ taken =>
          have shorter := ih parsed
          rw [List.length_cons]
          omega
      | zero =>
          rw [parseQuoted] at parsed
          split at parsed
          · cases parsed
            simp
          · split at parsed
            · obtain ⟨⟨inner, more⟩, found, same⟩ := Option.map_eq_some_iff.mp parsed
              cases same
              have shorter := ih found
              simp only [List.length_cons]
              omega
            · obtain ⟨⟨inner, more⟩, found, same⟩ := Option.map_eq_some_iff.mp parsed
              cases same
              have shorter := ih found
              simp only [List.length_cons]
              omega

theorem length_parseBraced {depth : Nat} {text word behind : Text}
    (parsed : parseBraced depth text = some (word, behind))
    : word.length + behind.length ≤ text.length := by
  induction depth, text using parseBraced.induct generalizing word behind with
  | case1 depth => simp [parseBraced] at parsed
  | case2 depth => simp [parseBraced] at parsed
  | case3 depth c rest ih =>
      rw [parseBraced] at parsed
      obtain ⟨⟨inner, more⟩, found, same⟩ := Option.map_eq_some_iff.mp parsed
      cases same
      have shorter := ih found
      simp only [List.length_cons]
      omega
  | case4 depth rest ih =>
      rw [parseBraced] at parsed
      obtain ⟨⟨inner, more⟩, found, same⟩ := Option.map_eq_some_iff.mp parsed
      cases same
      have shorter := ih found
      simp only [List.length_cons]
      omega
  | case5 rest =>
      cases parsed
      simp
  | case6 depth rest ih =>
      rw [parseBraced] at parsed
      obtain ⟨⟨inner, more⟩, found, same⟩ := Option.map_eq_some_iff.mp parsed
      cases same
      have shorter := ih found
      simp only [List.length_cons]
      omega
  | case7 depth c rest plain notOpen first later ih =>
      have step : parseBraced depth (c :: rest)
          = (parseBraced depth rest).map fun (word, behind) => (c :: word, behind) := by
        rw [parseBraced.eq_def]
        split <;> simp_all
      rw [step] at parsed
      obtain ⟨⟨inner, more⟩, found, same⟩ := Option.map_eq_some_iff.mp parsed
      cases same
      have shorter := ih found
      simp only [List.length_cons]
      omega

theorem closed_eq {found : Option (Text × Text)} {word behind : Text}
    (ends : closed found = some (word, behind))
    : found = some (word, behind) := by
  match found, ends with
  | some (inner, []), ends => exact ends
  | some (inner, c :: rest), ends =>
      rw [closed] at ends
      split at ends
      · exact ends
      · cases ends

/-- An element is taken from the text in front of what follows it. -/
theorem length_parseElement {text word behind : Text}
    (parsed : parseElement text = some (word, behind))
    : word.length + behind.length ≤ text.length := by
  rw [parseElement.eq_def] at parsed
  split at parsed
  · have shorter := length_parseBraced (closed_eq parsed)
    rw [List.length_cons]
    omega
  · have shorter := length_parseQuoted (closed_eq parsed)
    rw [List.length_cons]
    omega
  · have shorter := length_parseBare 0 text
    rw [Option.some.inj parsed] at shorter
    exact shorter

theorem length_parseAll {fuel : Nat} {text : Text} {words : List Text}
    (parsed : parseAll fuel text = some words)
    : (words.map List.length).sum ≤ text.length := by
  induction fuel generalizing text words with
  | zero => cases parsed
  | succ fuel ih =>
      have dropped := (List.dropWhile_suffix isSpace (l := text)).length_le
      rw [parseAll] at parsed
      split at parsed
      · cases parsed
        exact Nat.zero_le _
      · next c rest begins =>
        rw [begins] at dropped
        split at parsed
        · cases parsed
        · next word behind first =>
          obtain ⟨more, found, rfl⟩ := Option.map_eq_some_iff.mp parsed
          have own := length_parseElement first
          have others := ih found
          simp only [List.map_cons, List.sum_cons]
          omega

/-- The elements of a list are no longer than the list, all together. -/
theorem length_parse {text : Text} {words : List Text} (parsed : parse text = some words)
    : (words.map List.length).sum ≤ text.length :=
  length_parseAll parsed

theorem length_le_of_mem_parse {text word : Text} {words : List Text}
    (parsed : parse text = some words) (inside : word ∈ words)
    : word.length ≤ text.length := by
  have total := length_parse parsed
  obtain ⟨before, after, rfl⟩ := List.append_of_mem inside
  simp only [List.map_append, List.map_cons, List.sum_append, List.sum_cons] at total
  omega

end TclList

end SpeedTables.Lib
