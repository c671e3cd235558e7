import Mathlib

/-! Occurrences of a needle in a text, and the shifts a search that compares backwards may make
without missing one.
-/

namespace SpeedTables.Lib

variable {α : Type*} {needle text : List α}

/-- The needle stands in the text from a position on. -/
def OccursAt (needle text : List α) (position : Nat) : Prop :=
  ∀ i < needle.length, text[position + i]? = needle[i]?

instance [DecidableEq α] (needle text : List α) (position : Nat)
    : Decidable (OccursAt needle text position) :=
  inferInstanceAs (Decidable (∀ i < needle.length, text[position + i]? = needle[i]?))

/-- What a search finds: the first position from which the needle stands, if there is one. -/
def IsFirst (needle text : List α) : Option Nat → Prop
  | some position =>
      OccursAt needle text position ∧ ∀ before < position, ¬ OccursAt needle text before
  | none => ∀ position, ¬ OccursAt needle text position

/-- An occurrence is a prefix of the rest of the text. -/
theorem occursAt_iff_prefix (position : Nat)
    : OccursAt needle text position ↔ needle <+: text.drop position := by
  rw [List.prefix_iff_getElem?]
  refine forall_congr' fun i => forall_congr' fun inside => ?_
  rw [List.getElem?_drop, List.getElem?_eq_getElem inside]

/-- An occurrence of a needle that is not empty ends inside the text. -/
theorem OccursAt.fits {position : Nat} (occurs : OccursAt needle text position)
    (some : needle ≠ [])
    : position + needle.length ≤ text.length := by
  have inside : needle.length - 1 < needle.length := by
    have := List.length_pos_of_ne_nil some
    omega
  have last := occurs (needle.length - 1) inside
  rw [List.getElem?_eq_getElem inside] at last
  have bound := (List.getElem?_eq_some_iff.mp last).1
  omega

/-- A needle occurs somewhere exactly when the text has it as an infix. -/
theorem exists_occursAt_iff_infix : (∃ position, OccursAt needle text position) ↔ needle <:+: text := by
  simp only [ occursAt_iff_prefix]
  constructor
  · intro ⟨position, rest, split⟩
    exact ⟨text.take position, rest, by rw [List.append_assoc, split, List.take_append_drop]⟩
  · intro ⟨before, after, split⟩
    refine ⟨before.length, after, ?_⟩
    rw [← split, List.append_assoc, List.drop_left]

-----------------------------------------------------------------------------------------
-- Shifts
-----------------------------------------------------------------------------------------

/-- A shift puts the needle's own text where its tail behind a position was, and another character
at the position.
-/
structure FitsTail (needle : List α) (position shift : Nat) : Prop where
  tail : ∀ i, position < i → i < needle.length → shift ≤ i → needle[i - shift]? = needle[i]?
  differs : shift ≤ position → needle[position - shift]? ≠ needle[position]?

/-- No position before the last one has the character behind `last`. -/
def LastOf (needle : List α) (character : α) (last : Int) : Prop :=
  -1 ≤ last ∧ ∀ i, i + 1 < needle.length → needle[i]? = some character → (i : Int) ≤ last

/-- What a comparison of the needle with the text at `start` has seen: the tail behind a position
is the same, and the character there another one.
-/
structure Mismatch (needle text : List α) (start position : Nat) (character : α) : Prop where
  inside : position < needle.length
  tail : ∀ i, position < i → i < needle.length → text[start + i]? = needle[i]?
  reads : text[start + position]? = some character
  differs : needle[position]? ≠ some character

variable {start position shift : Nat} {character : α}

theorem Mismatch.not_occursAt (seen : Mismatch needle text start position character)
    : ¬ OccursAt needle text start :=
  fun occurs => seen.differs ((occurs position seen.inside).symm.trans seen.reads)

/-- A later occurrence is a shift that fits the tail. -/
theorem Mismatch.fitsTail (seen : Mismatch needle text start position character)
    (occurs : OccursAt needle text (start + shift))
    : FitsTail needle position shift where
  tail := by
    intro i behind inside reached
    have same := occurs (i - shift) (by omega)
    rw [show start + shift + (i - shift) = start + i by omega, seen.tail i behind inside] at same
    exact same.symm
  differs := by
    intro reached same
    have other := occurs (position - shift) (by have := seen.inside; omega)
    rw [show start + shift + (position - shift) = start + position by omega, seen.reads, same]
      at other
    exact seen.differs other.symm

/-- A later occurrence is behind the last place of the character that was read. -/
theorem Mismatch.last_le (seen : Mismatch needle text start position character) {last : Int}
    (bound : LastOf needle character last) (occurs : OccursAt needle text (start + shift))
    (moves : 0 < shift)
    : (position : Int) - last ≤ shift := by
  by_cases reached : shift ≤ position
  · have inside := seen.inside
    have same := occurs (position - shift) (by omega)
    rw [show start + shift + (position - shift) = start + position by omega, seen.reads] at same
    have listed := bound.2 (position - shift) (by omega) same.symm
    omega
  · have lowest := bound.1
    omega

/-- The larger of two shifts passes no occurrence, where the one is the first that fits the tail
and the other moves the character's last place below the one that was read.
-/
theorem Mismatch.shift_le (seen : Mismatch needle text start position character) {skip : Nat}
    {last : Int} (bound : LastOf needle character last) (whole : skip ≤ needle.length)
    (least : ∀ shift < needle.length, FitsTail needle position shift → skip ≤ shift)
    (occurs : OccursAt needle text (start + shift)) (moves : 0 < shift)
    : max (skip : Int) (position - last) ≤ shift := by
  have before := seen.last_le bound occurs moves
  have after : skip ≤ shift := by
    by_cases within : shift < needle.length
    · exact least shift within (seen.fitsTail occurs)
    · omega
  omega

end SpeedTables.Lib
