import Mathlib
import SpeedTables.Lib.TclList

/-! `string match`: glob patterns for texts of any characters. A set that is not closed ends with
the pattern.
-/

namespace SpeedTables.Lib

/-- Where a match stands in its pattern: outside of sets, behind a backslash, in a set that a
character is looked up in, at the dash of a range in it, behind that dash, or in the rest of a set
that has the character.
-/
inductive MatchState where
  | plain
  | quoted
  | set (character : Char)
  | dash (character low : Char)
  | high (character low : Char)
  | closing
  deriving DecidableEq

/-- Whether the text matches the rest of a pattern. -/
def matchFrom : MatchState → (pattern text : Text) → Bool
  | .plain, [], text | .closing, [], text => text.isEmpty
  | .quoted, [], _ | .set _, [], _ | .dash _ _, [], _ | .high _ _, [], _ => false
  | .plain, c :: pattern, text =>
      if c = '*' then text.tails.any (matchFrom .plain pattern)
      else
        match text with
        | [] => false
        | character :: rest =>
            if c = '?' then matchFrom .plain pattern rest
            else if c = '[' then matchFrom (.set character) pattern rest
            else if c = '\\' then matchFrom .quoted pattern (character :: rest)
            else c == character && matchFrom .plain pattern rest
  | .quoted, c :: pattern, text =>
      match text with
      | [] => false
      | character :: rest => c == character && matchFrom .plain pattern rest
  | .set character, c :: pattern, text =>
      if c = ']' then false
      else if pattern.head? = some '-' then matchFrom (.dash character c) pattern text
      else matchFrom (if c = character then .closing else .set character) pattern text
  | .dash character low, _ :: pattern, text => matchFrom (.high character low) pattern text
  | .high character low, c :: pattern, text =>
      if (low.val ≤ character.val ∧ character.val ≤ c.val)
          ∨ (c.val ≤ character.val ∧ character.val ≤ low.val) then
        matchFrom .closing pattern text
      else matchFrom (.set character) pattern text
  | .closing, c :: pattern, text => matchFrom (if c = ']' then .plain else .closing) pattern text

/-- `string match` of a whole text. -/
def stringMatch (pattern text : Text) : Bool :=
  matchFrom .plain pattern text

/-- Characters that stand for themselves. -/
def PlainPattern (pattern : Text) : Prop :=
  ∀ c ∈ pattern, c ≠ '*' ∧ c ≠ '?' ∧ c ≠ '[' ∧ c ≠ '\\'

variable {pattern text : Text}

/-- A star skips characters of the text. -/
theorem stringMatch_star
    : stringMatch ('*' :: pattern) text = true
      ↔ ∃ rest, rest <:+ text ∧ stringMatch pattern rest = true := by
  have skips : stringMatch ('*' :: pattern) text = text.tails.any (stringMatch pattern) := by
    simp only [stringMatch, matchFrom, if_true]
    rfl
  simp only [skips, List.any_eq_true, List.mem_tails]

/-- Plain characters before a star are a prefix of the text, by induction on them. -/
theorem stringMatch_prefix (plain : PlainPattern pattern)
    : stringMatch (pattern ++ ['*']) text = true ↔ pattern <+: text := by
  induction pattern generalizing text with
  | nil =>
      simp only [List.nil_append, stringMatch_star, List.nil_prefix, iff_true]
      exact ⟨[], List.nil_suffix, rfl⟩
  | cons c pattern ih =>
      obtain ⟨star, question, bracket, backslash⟩ := plain c List.mem_cons_self
      have rest (tail : Text) := @ih tail (fun d member => plain d (List.mem_cons_of_mem _ member))
      cases text with
      | nil => simp [stringMatch, matchFrom, star]
      | cons character text =>
          rw [List.cons_prefix_cons, ← rest text]
          simp [stringMatch, matchFrom, star, question, bracket, backslash]

/-- Plain characters between two stars stand somewhere in the text. -/
theorem stringMatch_infix (plain : PlainPattern pattern)
    : stringMatch ('*' :: (pattern ++ ['*'])) text = true ↔ pattern <:+: text := by
  simp only [stringMatch_star, stringMatch_prefix plain, List.infix_iff_prefix_suffix]
  exact exists_congr (fun _ => and_comm)

end SpeedTables.Lib
