import Mathlib
import SpeedTables.Lib.TclList

/-! Tcl operations on strings: replacing every occurrence of a fixed string, cutting at a character,
and splitting.
-/

namespace SpeedTables.Lib

-----------------------------------------------------------------------------------------
-- Replacing
-----------------------------------------------------------------------------------------

/-- Occurrences are replaced from left to right. The first so many characters belong to an
occurrence that is replaced already.
-/
def replaceFrom (pattern new : Text) : Nat → Text → Text
  | _, [] => []
  | skip + 1, _ :: rest => replaceFrom pattern new skip rest
  | 0, c :: rest =>
      if pattern.isPrefixOf (c :: rest) then
        new ++ replaceFrom pattern new (pattern.length - 1) rest
      else c :: replaceFrom pattern new 0 rest

/-- `regsub -all` of a fixed pattern. -/
def replaceAll (pattern new text : Text) : Text :=
  replaceFrom pattern new 0 text

variable {a b c : Char} {new text rest : Text}

@[simp] theorem replaceAll_nil {pattern : Text} : replaceAll pattern new [] = [] := rfl

/-- A pattern of one character is replaced character by character. -/
theorem replaceAll_char
    : replaceAll [a] new text = text.flatMap (fun c => if c = a then new else [c]) := by
  induction text with
  | nil => rfl
  | cons c rest ih =>
      by_cases same : c = a
      · simpa [replaceAll, replaceFrom, same] using ih
      · simpa [replaceAll, replaceFrom, same, Ne.symm same] using ih

@[simp] theorem replaceAll_pair
    : replaceAll [a, b] new (a :: b :: rest) = new ++ replaceAll [a, b] new rest := by
  simp [replaceAll, replaceFrom]

/-- A character that does not begin an occurrence of a pair stays. -/
theorem replaceAll_pair_keep (apart : c = a → rest.head? ≠ some b)
    : replaceAll [a, b] new (c :: rest) = c :: replaceAll [a, b] new rest := by
  have absent : ¬ [a, b].isPrefixOf (c :: rest) = true := by
    cases rest with
    | nil => simp
    | cons d rest =>
        intro begins
        simp only [List.isPrefixOf_cons_cons, Bool.and_eq_true, beq_iff_eq] at begins
        exact apart begins.1.symm (by simp [begins.2.1])
  simp [replaceAll, replaceFrom, absent]

theorem replaceAll_pair_ne (apart : c ≠ a)
    : replaceAll [a, b] new (c :: rest) = c :: replaceAll [a, b] new rest :=
  replaceAll_pair_keep (fun same => absurd same apart)

theorem replaceAll_pair_next {d : Char} (apart : d ≠ b)
    : replaceAll [a, b] new (c :: d :: rest) = c :: replaceAll [a, b] new (d :: rest) :=
  replaceAll_pair_keep (fun _ head => apart (Option.some.inj head))

-----------------------------------------------------------------------------------------
-- Cutting and splitting
-----------------------------------------------------------------------------------------

/-- The text before and after the first such character. -/
def cutAt (separator : Char) (text : Text) : Option (Text × Text) :=
  match text.dropWhile (· ≠ separator) with
  | [] => none
  | _ :: rest => some (text.takeWhile (· ≠ separator), rest)

/-- The text before and after the last such character. -/
def cutAtLast (separator : Char) (text : Text) : Option (Text × Text) :=
  (cutAt separator text.reverse).map (fun parts => (parts.2.reverse, parts.1.reverse))

/-- `split` at a character. -/
def splitAt (separator : Char) (text : Text) : List Text :=
  if text = [] then [] else text.splitOn separator

variable {separator : Char} {left : Text}

theorem takeWhile_until (absent : separator ∉ left)
    : (left ++ separator :: rest).takeWhile (· ≠ separator) = left := by
  rw [List.takeWhile_append_of_pos (by
    intro c member
    simpa using fun same : c = separator => absent (same ▸ member))]
  simp

theorem dropWhile_until (absent : separator ∉ left)
    : (left ++ separator :: rest).dropWhile (· ≠ separator) = separator :: rest := by
  rw [List.dropWhile_append_of_pos (by
    intro c member
    simpa using fun same : c = separator => absent (same ▸ member))]
  simp

theorem cutAt_append (absent : separator ∉ left)
    : cutAt separator (left ++ separator :: rest) = some (left, rest) := by
  rw [cutAt, dropWhile_until absent, takeWhile_until absent]

theorem cutAt_none (absent : separator ∉ text) : cutAt separator text = none := by
  have nothing : text.dropWhile (· ≠ separator) = [] := by
    rw [List.dropWhile_eq_nil_iff]
    intro c member
    simpa using fun same : c = separator => absent (same ▸ member)
  rw [cutAt, nothing]

theorem cutAt_split {right : Text} (cut : cutAt separator text = some (left, right))
    : text = left ++ separator :: right := by
  have parts := List.takeWhile_append_dropWhile (p := (· ≠ separator)) (l := text)
  unfold cutAt at cut
  cases behind : text.dropWhile (· ≠ separator) with
  | nil =>
      rw [behind] at cut
      cases cut
  | cons c rest =>
      have stops := List.head?_dropWhile_not (· ≠ separator) text
      rw [behind] at cut parts stops
      simp only [List.head?_cons, decide_not, Bool.not_eq_false', decide_eq_true_eq] at stops
      simp only [Option.some.injEq, Prod.mk.injEq] at cut
      rw [← parts, cut.1, cut.2, stops]

theorem cutAtLast_split {right : Text} (cut : cutAtLast separator text = some (left, right))
    : text = left ++ separator :: right := by
  obtain ⟨⟨behind, before⟩, reversed, parts⟩ := Option.map_eq_some_iff.mp cut
  cases parts
  rw [← List.reverse_reverse text, cutAt_split reversed]
  simp

theorem cutAtLast_append {right : Text} (absent : separator ∉ right)
    : cutAtLast separator (left ++ separator :: right) = some (left, right) := by
  have reversed : (left ++ separator :: right).reverse
      = right.reverse ++ separator :: left.reverse := by simp
  rw [cutAtLast, reversed, cutAt_append (by simpa using absent)]
  simp

/-- The text before the first separator has none. -/
theorem cutAt_absent {right : Text} (cut : cutAt separator text = some (left, right))
    : separator ∉ left := by
  unfold cutAt at cut
  split at cut
  · cases cut
  · cases cut
    exact fun member => by simpa using List.mem_takeWhile_imp member

theorem absent_of_cutAt (cut : cutAt separator text = none) : separator ∉ text := by
  intro member
  unfold cutAt at cut
  split at cut
  · next nothing =>
      have passes := List.dropWhile_eq_nil_iff.mp nothing separator member
      simp at passes
  · cases cut

theorem cutAtLast_absent {right : Text} (cut : cutAtLast separator text = some (left, right))
    : separator ∉ right := by
  obtain ⟨parts, reversed, same⟩ := Option.map_eq_some_iff.mp cut
  cases same
  exact fun member => cutAt_absent reversed (List.mem_reverse.mp member)

theorem absent_of_cutAtLast (cut : cutAtLast separator text = none) : separator ∉ text :=
  fun member => absent_of_cutAt (Option.map_eq_none_iff.mp cut) (List.mem_reverse.mpr member)

theorem cutAtLast_none (absent : separator ∉ text) : cutAtLast separator text = none := by
  rw [cutAtLast, cutAt_none (by simpa using absent)]
  rfl

/-- Joining makes no character, by induction on the texts. -/
theorem not_mem_intercalate (apart : c ≠ separator) {texts : List Text}
    (absent : ∀ text ∈ texts, c ∉ text)
    : c ∉ [separator].intercalate texts := by
  induction texts with
  | nil => simp
  | cons first rest ih =>
      have head := absent first List.mem_cons_self
      have tail := ih (fun text member => absent text (List.mem_cons_of_mem _ member))
      cases rest with
      | nil => simpa using head
      | cons second rest =>
          rw [List.intercalate_cons_cons]
          simp [head, tail, apart]

/-- Texts that are joined by a character that none of them has are split again. -/
theorem splitAt_intercalate {texts : List Text} (absent : ∀ text ∈ texts, separator ∉ text)
    (nonempty : ∀ text ∈ texts, text ≠ [])
    : splitAt separator ([separator].intercalate texts) = texts := by
  cases texts with
  | nil => rfl
  | cons first rest =>
      have joined : [separator].intercalate (first :: rest) ≠ [] := by
        have head := nonempty first List.mem_cons_self
        cases rest with
        | nil => simpa using head
        | cons second rest => simp [head]
      rw [splitAt, if_neg joined, List.splitOn_intercalate separator absent (by simp)]

theorem splitAt_alone (absent : separator ∉ text) (nonempty : text ≠ [])
    : splitAt separator text = [text] := by
  rw [splitAt, if_neg nonempty, List.splitOn_eq_singleton absent]

/-- A text with a separator has at least two parts. -/
theorem splitAt_several (inside : separator ∈ text) : 2 ≤ (splitAt separator text).length := by
  obtain ⟨left, right, rfl⟩ := List.append_of_mem inside
  have first := List.length_pos_iff.mpr (List.splitOn_ne_nil separator left)
  have second := List.length_pos_iff.mpr (List.splitOn_ne_nil separator right)
  rw [splitAt, if_neg (by simp), List.splitOn_append_cons_self, List.length_append]
  omega

end SpeedTables.Lib
