import Mathlib

/-! Glob matching of a whole text of ASCII characters: `*`, `?`, sets in brackets, and a backslash
that quotes the next character. A set that is not closed ends with the pattern.
-/

namespace SpeedTables.Lib

/-- Where a match stands in its pattern: outside of sets, behind a backslash, in a set that the
character of the text is looked up in, at the dash of a range in it, behind that dash, or in the
rest of a set that has the character.
-/
inductive GlobState where
  | plain
  | quoted
  | set (character : UInt8)
  | dash (character low : UInt8)
  | high (character low : UInt8)
  | closing
  deriving DecidableEq

/-- Whether the text matches the rest of a pattern, where characters are compared as folded. -/
def glob (fold : UInt8 → UInt8) : GlobState → (pattern text : List UInt8) → Bool
  | .plain, [], text | .closing, [], text => text.isEmpty
  | .quoted, [], _ | .set _, [], _ | .dash _ _, [], _ | .high _ _, [], _ => false
  | .plain, c :: pattern, text =>
      if c = 42 then text.tails.any (glob fold .plain pattern)
      else
        match text with
        | [] => false
        | character :: rest =>
            if c = 63 then glob fold .plain pattern rest
            else if c = 91 then glob fold (.set (fold character)) pattern rest
            else if c = 92 then glob fold .quoted pattern (character :: rest)
            else fold c == fold character && glob fold .plain pattern rest
  | .quoted, c :: pattern, text =>
      match text with
      | [] => false
      | character :: rest => fold c == fold character && glob fold .plain pattern rest
  | .set character, c :: pattern, text =>
      if c = 93 then false
      else if pattern.head? = some 45 then glob fold (.dash character (fold c)) pattern text
      else glob fold (if fold c = character then .closing else .set character) pattern text
  | .dash character low, _ :: pattern, text => glob fold (.high character low) pattern text
  | .high character low, c :: pattern, text =>
      if (low ≤ character ∧ character ≤ fold c) ∨ (fold c ≤ character ∧ character ≤ low) then
        glob fold .closing pattern text
      else glob fold (.set character) pattern text
  | .closing, c :: pattern, text => glob fold (if c = 93 then .plain else .closing) pattern text

/-- Characters that stand for themselves outside of sets. -/
def Literal (pattern : List UInt8) : Prop :=
  ∀ c ∈ pattern, c ≠ 42 ∧ c ≠ 63 ∧ c ≠ 91 ∧ c ≠ 92

/-- The text begins with a pattern of characters that stand for themselves. -/
def Begins (fold : UInt8 → UInt8) (pattern text : List UInt8) : Prop :=
  pattern.map fold <+: text.map fold

instance (fold : UInt8 → UInt8) (pattern text : List UInt8)
    : Decidable (Begins fold pattern text) :=
  inferInstanceAs (Decidable (pattern.map fold <+: text.map fold))

variable {fold : UInt8 → UInt8} {pattern text : List UInt8}

theorem begins_cons_iff {c : UInt8}
    : Begins fold (c :: pattern) text
        ↔ ∃ character rest, text = character :: rest ∧ fold c = fold character
          ∧ Begins fold pattern rest := by
  cases text with
  | nil => simp [Begins]
  | cons character rest =>
      simp only [Begins, List.map_cons, List.cons_prefix_cons, List.cons.injEq]
      constructor
      · intro ⟨same, within⟩
        exact ⟨character, rest, ⟨rfl, rfl⟩, same, within⟩
      · rintro ⟨_, _, ⟨rfl, rfl⟩, same, within⟩
        exact ⟨same, within⟩

/-- One character that stands for itself. -/
theorem glob_literal {c : UInt8} (literal : c ≠ 42 ∧ c ≠ 63 ∧ c ≠ 91 ∧ c ≠ 92)
    : glob fold .plain (c :: pattern) text = true
        ↔ ∃ character rest, text = character :: rest ∧ fold c = fold character
          ∧ glob fold .plain pattern rest = true := by
  obtain ⟨star, question, bracket, backslash⟩ := literal
  cases text with
  | nil => simp [glob, star]
  | cons character rest =>
      simp only [glob, star, question, bracket, backslash, if_false, Bool.and_eq_true, beq_iff_eq,
        List.cons.injEq]
      constructor
      · intro ⟨same, matched⟩
        exact ⟨character, rest, ⟨rfl, rfl⟩, same, matched⟩
      · rintro ⟨_, _, ⟨rfl, rfl⟩, same, matched⟩
        exact ⟨same, matched⟩

theorem glob_question
    : glob fold .plain (63 :: pattern) text = true
        ↔ ∃ character rest, text = character :: rest ∧ glob fold .plain pattern rest = true := by
  cases text <;> simp [glob]

/-- A bracket looks the next character of the text up in its set. -/
theorem glob_bracket
    : glob fold .plain (91 :: pattern) text = true
        ↔ ∃ character rest, text = character :: rest
          ∧ glob fold (.set (fold character)) pattern rest = true := by
  cases text <;> simp [glob]

/-- A backslash makes the next character of the pattern stand for itself. -/
theorem glob_backslash {c : UInt8}
    : glob fold .plain (92 :: c :: pattern) text = true
        ↔ ∃ character rest, text = character :: rest ∧ fold c = fold character
          ∧ glob fold .plain pattern rest = true := by
  cases text <;> simp [glob]

/-- A star skips characters of the text. -/
theorem glob_skips
    : glob fold .plain (42 :: pattern) text = true
        ↔ ∃ rest, rest <:+ text ∧ glob fold .plain pattern rest = true := by
  have skips : glob fold .plain (42 :: pattern) text
      = text.tails.any (glob fold .plain pattern) := by
    cases text <;> simp only [glob, if_true]
  simp only [skips, List.any_eq_true, List.mem_tails]

/-- A star at the end matches everything. -/
theorem glob_star : glob fold .plain [42] text = true := by
  rw [glob_skips]
  exact ⟨[], List.nil_suffix, rfl⟩

/-- A literal pattern before a star matches the texts that begin with it, by induction on it. -/
theorem glob_prefix (literal : Literal pattern)
    : glob fold .plain (pattern ++ [42]) text = true ↔ Begins fold pattern text := by
  induction pattern generalizing text with
  | nil => simp [glob_star, Begins]
  | cons c pattern ih =>
      rw [List.cons_append, glob_literal (literal c List.mem_cons_self), begins_cons_iff]
      simp only [ih fun c member => literal c (List.mem_cons_of_mem _ member)]

/-- A literal pattern between two stars matches the texts it stands in. -/
theorem glob_infix (literal : Literal pattern)
    : glob fold .plain (42 :: (pattern ++ [42])) text = true
        ↔ pattern.map fold <:+: text.map fold := by
  simp only [glob_skips, glob_prefix literal, List.infix_iff_prefix_suffix]
  constructor
  · intro ⟨rest, suffix, begins⟩
    exact ⟨rest.map fold, begins, suffix.map fold⟩
  · intro ⟨folded, begins, suffix⟩
    refine ⟨text.drop (text.length - folded.length), List.drop_suffix _ _, ?_⟩
    rw [Begins, List.map_drop]
    have cut := List.suffix_iff_eq_drop.mp suffix
    rwa [List.length_map, ← cut] at *

/-- Without a closing bracket, what is left of a set ends the text, by induction on it. -/
theorem glob_unclosed {state : GlobState} (inside : state ≠ .plain ∧ state ≠ .quoted)
    (unclosed : 93 ∉ pattern) (matched : glob fold state pattern text = true)
    : text = [] := by
  induction pattern generalizing state with
  | nil =>
      cases state with
      | closing => exact List.isEmpty_iff.mp matched
      | plain => exact absurd rfl inside.1
      | _ => cases matched
  | cons c pattern ih =>
      have other : c ≠ 93 := fun same => unclosed (same ▸ List.mem_cons_self)
      have rest : 93 ∉ pattern := fun member => unclosed (List.mem_cons_of_mem _ member)
      cases state with
      | plain => exact absurd rfl inside.1
      | quoted => exact absurd rfl inside.2
      | set character =>
          rw [glob, if_neg other] at matched
          split at matched
          · exact ih (by simp) rest matched
          · split at matched <;> exact ih (by simp) rest matched
      | dash character low =>
          rw [glob] at matched
          exact ih (by simp) rest matched
      | high character low =>
          rw [glob] at matched
          split at matched <;> exact ih (by simp) rest matched
      | closing =>
          rw [glob, if_neg other] at matched
          exact ih (by simp) rest matched

/-- A match sees a text through its folded characters only, by induction on the pattern. -/
theorem glob_congr {state : GlobState} {other : List UInt8} (same : text.map fold = other.map fold)
    : glob fold state pattern text = glob fold state pattern other := by
  induction pattern generalizing state text other with
  | nil =>
      have empty : text.isEmpty = other.isEmpty := by
        rw [← @List.isEmpty_map _ _ text fold, same, List.isEmpty_map]
      cases state <;> simp only [glob, empty]
  | cons c pattern ih =>
      -- Behind a star, the same number of characters is left of both texts.
      have skips {text other : List UInt8} (same : text.map fold = other.map fold)
          (matched : glob fold .plain (42 :: pattern) text = true)
          : glob fold .plain (42 :: pattern) other = true := by
        obtain ⟨rest, suffix, found⟩ := glob_skips.mp matched
        rw [List.suffix_iff_eq_drop.mp suffix] at found
        refine glob_skips.mpr ⟨other.drop (text.length - rest.length), List.drop_suffix _ _, ?_⟩
        have rests : (text.drop (text.length - rest.length)).map fold
            = (other.drop (text.length - rest.length)).map fold := by
          simp only [List.map_drop, same]
        rwa [ih rests] at found
      cases state with
      | plain =>
          by_cases star : c = 42
          · subst star
            rw [Bool.eq_iff_iff]
            exact ⟨skips same, skips same.symm⟩
          cases text with
          | nil => rw [List.map_nil, List.nil_eq, List.map_eq_nil_iff] at same; rw [same]
          | cons character rest =>
              cases other with
              | nil => cases same
              | cons _ _ =>
                  obtain ⟨first, behind⟩ := List.cons.inj same
                  simp only [glob, star, if_false, first, ih behind, ih same]
      | quoted =>
          cases text with
          | nil => rw [List.map_nil, List.nil_eq, List.map_eq_nil_iff] at same; rw [same]
          | cons character rest =>
              cases other with
              | nil => cases same
              | cons _ _ =>
                  obtain ⟨first, behind⟩ := List.cons.inj same
                  simp only [glob, first, ih behind]
      | _ => simp only [glob, ih same]

/-- A pattern that quotes every character of a text. -/
def quoteText (text : List UInt8) : List UInt8 :=
  text.flatMap ([92, ·])

/-- It matches the texts that are the same when folded, by induction on the quoted one. -/
theorem glob_quoteText {quoted : List UInt8}
    : glob fold .plain (quoteText quoted) text = true ↔ text.map fold = quoted.map fold := by
  induction quoted generalizing text with
  | nil => simp [quoteText, glob]
  | cons c quoted ih =>
      have split : quoteText (c :: quoted) = 92 :: c :: quoteText quoted := rfl
      rw [split, glob_backslash]
      cases text with
      | nil => simp
      | cons character rest =>
          rw [List.map_cons, List.map_cons, List.cons.injEq, ← ih]
          constructor
          · rintro ⟨_, _, same, folded, matched⟩
            obtain ⟨rfl, rfl⟩ := List.cons.inj same
            exact ⟨folded.symm, matched⟩
          · intro ⟨folded, matched⟩
            exact ⟨character, rest, rfl, folded.symm, matched⟩

end SpeedTables.Lib
