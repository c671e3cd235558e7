import Mathlib
import SpeedTables.Lib.TclList

/-! Patterns of literal characters and two wildcards, where a backslash quotes the next character:
the glob patterns without sets, with `*` and `?`, and the `LIKE` patterns, with `%` and `_`.
-/

namespace SpeedTables.Lib

/-- An element of a pattern: a character that stands for itself, one character, or any text. -/
inductive Wild where
  | char (c : Char)
  | one
  | many
  deriving DecidableEq

namespace Wild

/-- The elements of a pattern with the given wildcards. A backslash at the end quotes nothing, and
such a pattern matches no text.
-/
def elements (many one : Char) : Text → Option (List Wild)
  | [] => some []
  | ['\\'] => none
  | '\\' :: c :: rest => (elements many one rest).map (.char c :: ·)
  | c :: rest =>
      (elements many one rest).map
        ((if c = many then .many else if c = one then .one else .char c) :: ·)

/-- Whether a text is made of the elements. -/
def fits : List Wild → Text → Bool
  | [], text => text.isEmpty
  | .char c :: rest, text =>
      match text with
      | [] => false
      | d :: tail => c == d && fits rest tail
  | .one :: rest, text =>
      match text with
      | [] => false
      | _ :: tail => fits rest tail
  | .many :: rest, text => text.tails.any (fits rest)

/-- Whether a text matches a pattern. -/
def matching (many one : Char) (pattern text : Text) : Bool :=
  match elements many one pattern with
  | some elements => fits elements text
  | none => false

-----------------------------------------------------------------------------------------
-- The characters that a pattern asks for
-----------------------------------------------------------------------------------------

variable {elements left right : List Wild} {text : Text}

/-- The shortest text that fits, with a given character in the places of `one`. -/
def least (filler : Char) : List Wild → Text
  | [] => []
  | .char c :: rest => c :: least filler rest
  | .one :: rest => filler :: least filler rest
  | .many :: rest => least filler rest

theorem fits_least (filler : Char) : fits elements (least filler elements) = true := by
  induction elements with
  | nil => rfl
  | cons element rest ih =>
      cases element with
      | char c => simp [least, fits, ih]
      | one => exact ih
      | many =>
          rw [fits, List.any_eq_true]
          exact ⟨_, (List.mem_tails _ _).mpr (List.suffix_refl _), ih⟩

theorem count_least {filler c : Char} (apart : c ≠ filler)
    : (least filler elements).count c = elements.count (.char c) := by
  induction elements with
  | nil => rfl
  | cons element rest ih =>
      cases element with
      | char d => by_cases same : d = c <;> simp [least, same, ih]
      | one => simp [least, ih, Ne.symm apart]
      | many => simp [least, ih]

/-- A text that fits has each character as often as it is asked for, by induction on the
elements.
-/
theorem count_le_of_fits (fit : fits elements text = true) (c : Char)
    : elements.count (.char c) ≤ text.count c := by
  induction elements generalizing text with
  | nil => simp
  | cons element rest ih =>
      cases element with
      | char d =>
          cases text with
          | nil => cases fit
          | cons e tail =>
              simp only [fits, Bool.and_eq_true, beq_iff_eq] at fit
              obtain ⟨rfl, fit⟩ := fit
              have below := ih fit
              by_cases same : d = c <;> simp [same] <;> omega
      | one =>
          cases text with
          | nil => cases fit
          | cons e tail =>
              have below := ih fit
              have more := List.count_le_count_cons (a := c) (b := e) (l := tail)
              simp only [List.count_cons, reduceCtorEq, beq_iff_eq, if_false]
              omega
      | many =>
          obtain ⟨tail, suffix, fit⟩ := List.any_eq_true.mp fit
          have below := ih fit
          have more := ((List.mem_tails _ _).mp suffix).sublist.count_le c
          simp only [List.count_cons, reduceCtorEq, beq_iff_eq, if_false]
          omega

/-- Elements that the same texts fit ask for the same characters. -/
theorem count_of_same (same : ∀ text, fits left text = fits right text) (c : Char)
    : left.count (.char c) = right.count (.char c) := by
  have below {left right : List Wild} (same : ∀ text, fits left text = fits right text)
      : right.count (.char c) ≤ left.count (.char c) := by
    obtain ⟨filler, apart⟩ : ∃ filler : Char, c ≠ filler := by
      by_cases isA : c = 'a'
      · exact ⟨'b', by rw [isA]; decide⟩
      · exact ⟨'a', isA⟩
    rw [← @count_least left filler c apart]
    refine count_le_of_fits ?_ c
    rw [← same, fits_least]
  exact Nat.le_antisymm (below fun text => (same text).symm) (below same)

end Wild

end SpeedTables.Lib
