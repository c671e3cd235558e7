import Mathlib
import SpeedTables.Lib.Occurrences
import SpeedTables.Search.BoyerMoore

/-! The Boyer-Moore search finds the first occurrence of its needle. -/

namespace SpeedTables

open Lib (OccursAt IsFirst FitsTail LastOf Mismatch)

-----------------------------------------------------------------------------------------
-- The position that is found
-----------------------------------------------------------------------------------------

/-- A read of the haystack, as it is compared. -/
def readFolded (nocase : Bool) (haystack : CString) (index : Nat) : Except Fault UInt8 :=
  match haystack[index]? with
  | none => .error .outOfBounds
  | some byte => .ok (folded nocase byte)

/-- The inner loop of `boyer_moore_search`, with its reads of the haystack checked: the position
where the needle differs, and the character that is read there.
-/
def compareNeedle (nocase : Bool) (needle haystack : CString) (hpos : Nat)
    : Nat → Except Fault (Option (Nat × UInt8))
  | 0 => do
      let c ← readFolded nocase haystack hpos
      if needle.getD 0 0 = c then pure none else pure (some (0, c))
  | npos + 1 => do
      let c ← readFolded nocase haystack (npos + 1 + hpos)
      if needle.getD (npos + 1) 0 = c then compareNeedle nocase needle haystack hpos npos
      else pure (some (npos + 1, c))

/-- The outer loop of `boyer_moore_search`, where `hpos` is an `unsigned`. The first argument bounds
the iterations.
-/
def searchLoop (nocase : Bool) (needle haystack : CString)
    : Nat → Nat → Except Fault (Option Nat)
  | 0, _ => .error .endlessLoop
  | fuel + 1, hpos =>
      if hpos ≤ haystack.length - needle.length then
        match compareNeedle nocase needle haystack hpos (needle.length - 1) with
        | .error fault => .error fault
        | .ok none => .ok (some hpos)
        | .ok (some (npos, c)) =>
            let move := max (skipEntry needle npos : Int) (npos - occEntry needle c)
            searchLoop nocase needle haystack fuel ((hpos + move.toNat) % 2 ^ 32)
      else .ok none

/-- `boyer_moore_search` after `boyer_moore_setup`: the position of the match. -/
def searchNeedle (nocase : Bool) (needle haystack : CString) : Except Fault (Option Nat) :=
  let needle := needle.map (folded nocase)
  if haystack.length < needle.length then .ok none
  else searchLoop nocase needle haystack (haystack.length + 1) 0

-----------------------------------------------------------------------------------------
-- The tables
-----------------------------------------------------------------------------------------

variable {needle haystack : CString} {nocase : Bool}

/-- Two stretches of a list are the same when they are so position by position. -/
theorem take_drop_eq_iff {list : CString} (first second length : Nat)
    : (list.drop first).take length = (list.drop second).take length
        ↔ ∀ i < length, list[first + i]? = list[second + i]? := by
  constructor
  · intro same i inside
    have here := congrArg (·[i]?) same
    simpa only [List.getElem?_take, inside, if_true, List.getElem?_drop] using here
  · intro same
    refine List.ext_getElem? fun i => ?_
    simp only [List.getElem?_take, List.getElem?_drop]
    split
    next inside => exact same i inside
    · rfl

/-- `boyermoore_needlematch` tells whether a shift fits the tail behind a position. -/
theorem needleMatch_iff {position shift : Nat} (inside : position < needle.length)
    (within : shift < needle.length)
    : needleMatch needle (needle.length - position - 1) shift = true
        ↔ FitsTail needle position shift := by
  have behind : needle.length - (needle.length - position - 1) = position + 1 := by omega
  have begin : needle.length - shift - (needle.length - position - 1) = position + 1 - shift := by
    omega
  have reads (i : Nat) (short : i < needle.length) : needle[i]? = some (needle.getD i 0) := by
    rw [List.getElem?_eq_getElem short, List.getD_eq_getElem _ _ short]
  simp only [needleMatch, behind, begin, Nat.add_sub_cancel]
  have tails : ((needle.drop (position + 1 + (shift + (needle.length - position - 1)
          - needle.length))).take (needle.length - position - 1
            - (shift + (needle.length - position - 1) - needle.length))
        == (needle.drop (position + 1 - shift)).take (needle.length - position - 1
            - (shift + (needle.length - position - 1) - needle.length))) = true
      ↔ ∀ i, position < i → i < needle.length → shift ≤ i → needle[i - shift]? = needle[i]? := by
    rw [beq_iff_eq, take_drop_eq_iff]
    constructor
    · intro same i above below reached
      have here := same (i - (position + 1 + (shift + (needle.length - position - 1)
        - needle.length))) (by omega)
      rw [show position + 1 + (shift + (needle.length - position - 1) - needle.length)
          + (i - (position + 1 + (shift + (needle.length - position - 1) - needle.length))) = i
          by omega,
        show position + 1 - shift
          + (i - (position + 1 + (shift + (needle.length - position - 1) - needle.length)))
          = i - shift by omega] at here
      exact here.symm
    · intro same i short
      have here := same (position + 1 + (shift + (needle.length - position - 1) - needle.length) + i)
        (by omega) (by omega) (by omega)
      rw [show position + 1 + (shift + (needle.length - position - 1) - needle.length) + i - shift
        = position + 1 - shift + i by omega] at here
      exact here.symm
  constructor
  · intro matched
    split at matched
    · cases matched
    next other =>
      refine ⟨tails.mp matched, fun reached same => other ⟨by omega, ?_⟩⟩
      rw [show position + 1 - shift - 1 = position - shift by omega]
      rw [reads (position - shift) (by omega), reads position inside] at same
      exact Option.some.inj same
  · intro fits
    rw [if_neg]
    · exact tails.mpr fits.tail
    · rintro ⟨reached, same⟩
      rw [show position + 1 - shift - 1 = position - shift by omega] at same
      refine fits.differs (by omega) ?_
      rw [reads (position - shift) (by omega), reads position inside, same]

/-- A `skip` entry moves on, and is the first shift that fits the tail, or the whole needle. -/
theorem skipEntry_spec {position : Nat} (inside : position < needle.length)
    : 0 < skipEntry needle position ∧ skipEntry needle position ≤ needle.length
        ∧ ∀ shift < needle.length, FitsTail needle position shift →
          skipEntry needle position ≤ shift := by
  unfold skipEntry
  rcases found : (List.range needle.length).find?
      (needleMatch needle (needle.length - position - 1)) with _ | skip
  · refine ⟨by simp only [Option.getD_none]; omega, Nat.le_refl _, fun shift within fits => ?_⟩
    have never := List.find?_eq_none.mp found shift (List.mem_range.mpr within)
    exact absurd ((needleMatch_iff inside within).mpr fits) never
  · have within := List.mem_range.mp (List.mem_of_find?_eq_some found)
    have fits := (needleMatch_iff inside within).mp (List.find?_some found)
    refine ⟨?_, Nat.le_of_lt within, fun shift short other => ?_⟩
    · rcases Nat.eq_zero_or_pos skip with rfl | positive
      · exact absurd rfl (fits.differs (Nat.zero_le _))
      · exact positive
    · rw [Option.getD_some]
      by_contra before
      obtain ⟨-, -, first⟩ := List.find?_range_eq_some.mp found
      have not := first shift (by omega)
      rw [(needleMatch_iff inside short).mpr other] at not
      cases not

/-- An `occ` entry is the last place of its character before the last position. -/
theorem occEntry_lastOf (byte : UInt8) : LastOf needle byte (occEntry needle byte) := by
  have entries (list : CString) : ∀ (start : Nat) (found : Int), found < start → -1 ≤ found →
      let last : Int := (list.zipIdx start).foldl
        (fun found entry => if entry.1 = byte then (entry.2 : Int) else found) found
      found ≤ last ∧ ∀ i : Nat, list[i]? = some byte → (start + i : Int) ≤ last := by
    induction list with
    | nil => intro start found _ _; simp
    | cons first rest ih =>
        intro start found low high
        rw [List.zipIdx_cons, List.foldl_cons]
        by_cases same : first = byte
        · rw [if_pos same]
          obtain ⟨above, each⟩ := ih (start + 1) start (by omega) (by omega)
          refine ⟨by dsimp only at above ⊢; omega, fun i here => ?_⟩
          cases i with
          | zero => simpa using above
          | succ i =>
              have there := each i here
              simp only at there ⊢
              omega
        · rw [if_neg same]
          obtain ⟨above, each⟩ := ih (start + 1) found (by omega) high
          refine ⟨above, fun i here => ?_⟩
          cases i with
          | zero =>
              rw [List.getElem?_cons_zero] at here
              exact absurd (Option.some.inj here) same
          | succ i =>
              have there := each i here
              omega
  obtain ⟨above, each⟩ := entries needle.dropLast 0 (-1) (by omega) (by omega)
  refine ⟨above, fun i before here => ?_⟩
  have inside : needle.dropLast[i]? = some byte := by
    rw [List.getElem?_dropLast, if_pos (by omega), here]
  have reached := each i inside
  rwa [Int.natCast_zero, Int.zero_add] at reached

-----------------------------------------------------------------------------------------
-- One comparison
-----------------------------------------------------------------------------------------

/-- The comparison that does not check its reads sees the same, inside the haystack. -/
theorem compareNeedle_eq {hpos : Nat} (npos : Nat) (inside : npos + hpos < haystack.length)
    : compareNeedle nocase needle haystack hpos npos
        = .ok ((compareBackwards nocase needle haystack hpos npos).map fun position =>
          (position, folded nocase (haystack.getD (position + hpos) 0))) := by
  have read {index : Nat} (short : index < haystack.length)
      : readFolded nocase haystack index = .ok (folded nocase (haystack.getD index 0)) := by
    rw [readFolded, List.getElem?_eq_getElem short, List.getD_eq_getElem _ _ short]
  induction npos with
  | zero =>
      have first : hpos < haystack.length := by omega
      simp only [compareNeedle, compareBackwards, read first, bind, Except.bind]
      split
      · rfl
      · rw [Option.map_some, Nat.zero_add]
        rfl
  | succ npos ih =>
      simp only [compareNeedle, compareBackwards, read inside, bind, Except.bind]
      split
      · exact ih (by omega)
      · rfl

/-- Comparing backwards ends at a mismatch, or at an occurrence, by induction on the position. -/
theorem compareBackwards_spec {hpos : Nat} (fits : hpos + needle.length ≤ haystack.length)
    (npos : Nat) (inside : npos < needle.length)
    (tail : ∀ i, npos < i → i < needle.length →
      (haystack.map (folded nocase))[hpos + i]? = needle[i]?)
    : (compareBackwards nocase needle haystack hpos npos = none →
          OccursAt needle (haystack.map (folded nocase)) hpos)
        ∧ ∀ position, compareBackwards nocase needle haystack hpos npos = some position →
          Mismatch needle (haystack.map (folded nocase)) hpos position
            (folded nocase (haystack.getD (position + hpos) 0)) := by
  have reads {i : Nat} (short : i < needle.length)
      : (haystack.map (folded nocase))[hpos + i]?
        = some (folded nocase (haystack.getD (i + hpos) 0)) := by
    rw [List.getElem?_map, Nat.add_comm hpos i, List.getElem?_eq_getElem (by omega),
      List.getD_eq_getElem _ _ (by omega)]
    rfl
  have needles {i : Nat} (short : i < needle.length) : needle[i]? = some (needle.getD i 0) := by
    rw [List.getElem?_eq_getElem short, List.getD_eq_getElem _ _ short]
  have same {i : Nat} (short : i < needle.length)
      (equal : needle.getD i 0 = folded nocase (haystack.getD (i + hpos) 0))
      : (haystack.map (folded nocase))[hpos + i]? = needle[i]? := by
    rw [reads short, needles short, equal]
  have differs {i : Nat} (short : i < needle.length)
      (other : needle.getD i 0 ≠ folded nocase (haystack.getD (i + hpos) 0))
      : needle[i]? ≠ some (folded nocase (haystack.getD (i + hpos) 0)) := by
    rw [needles short]
    exact fun equal => other (Option.some.inj equal)
  induction npos with
  | zero =>
      rw [compareBackwards]
      split
      next equal =>
        refine ⟨fun _ i short => ?_, nofun⟩
        rcases Nat.eq_zero_or_pos i with rfl | later
        · exact same short (by rwa [Nat.zero_add])
        · exact tail i later short
      next other =>
        refine ⟨nofun, fun position stop => ?_⟩
        obtain rfl := Option.some.inj stop
        exact ⟨inside, tail, reads inside, differs inside (by rwa [Nat.zero_add])⟩
  | succ npos ih =>
      rw [compareBackwards]
      split
      next equal =>
        refine ih (by omega) fun i behind short => ?_
        by_cases here : i = npos + 1
        · exact here ▸ same inside equal
        · exact tail i (by omega) short
      next other =>
        refine ⟨nofun, fun position stop => ?_⟩
        obtain rfl := Option.some.inj stop
        exact ⟨inside, tail, reads inside, differs inside other⟩

/-- One round of the outer loop: an occurrence, or a move that passes none and stays within the
needle.
-/
theorem round_spec {hpos : Nat} (some' : needle ≠ [])
    (fits : hpos + needle.length ≤ haystack.length)
    : (compareBackwards nocase needle haystack hpos (needle.length - 1) = none
          ∧ OccursAt needle (haystack.map (folded nocase)) hpos)
        ∨ ∃ position, compareBackwards nocase needle haystack hpos (needle.length - 1) = some position
          ∧ ∃ move : Nat, max (skipEntry needle position : Int)
              (position - occEntry needle (folded nocase (haystack.getD (position + hpos) 0))) = move
          ∧ 0 < move ∧ move ≤ needle.length
          ∧ ∀ before, hpos ≤ before → before < hpos + move →
            ¬ OccursAt needle (haystack.map (folded nocase)) before := by
  have positive := List.length_pos_of_ne_nil some'
  obtain ⟨occurs, differs⟩ := @compareBackwards_spec needle haystack nocase hpos fits
    (needle.length - 1) (by omega) (fun i behind short => absurd short (by omega))
  rcases compared : compareBackwards nocase needle haystack hpos (needle.length - 1)
    with _ | position
  · exact .inl ⟨rfl, occurs compared⟩
  · have seen := differs position compared
    have last := @occEntry_lastOf needle (folded nocase (haystack.getD (position + hpos) 0))
    obtain ⟨moves, whole, least⟩ := skipEntry_spec seen.inside
    have lowest := last.1
    have inside := seen.inside
    refine .inr ⟨position, rfl, (max (skipEntry needle position : Int)
      (position - occEntry needle (folded nocase (haystack.getD (position + hpos) 0)))).toNat,
      by omega, by omega, by omega, fun before above below occurs => ?_⟩
    rcases Nat.eq_or_lt_of_le above with rfl | above
    · exact seen.not_occursAt occurs
    · have later : OccursAt needle (haystack.map (folded nocase)) (hpos + (before - hpos)) := by
        rwa [show hpos + (before - hpos) = before by omega]
      have passed := seen.shift_le last whole least later (by omega)
      omega

-----------------------------------------------------------------------------------------
-- Whole searches
-----------------------------------------------------------------------------------------

/-- Behind the last position where it fits, the needle does not occur. -/
theorem not_occursAt_behind {text : CString} {hpos : Nat} (some' : needle ≠ [])
    (behind : text.length < hpos + needle.length)
    : ∀ position, hpos ≤ position → ¬ OccursAt needle text position := by
  intro position above occurs
  have fits := occurs.fits some'
  omega

/-- The outer loop finds the first occurrence behind those positions that it has passed, by
induction on the iterations. No sum overflows, as a move stays within the haystack.
-/
theorem searchLoop_finds (some' : needle ≠ []) (short : haystack.length < 2 ^ 31)
    (longer : needle.length ≤ haystack.length) (fuel : Nat) {hpos : Nat}
    (enough : haystack.length < hpos + fuel) (reached : hpos ≤ haystack.length)
    (passed : ∀ before < hpos, ¬ OccursAt needle (haystack.map (folded nocase)) before)
    : ∃ result, searchLoop nocase needle haystack fuel hpos = .ok result
        ∧ IsFirst needle (haystack.map (folded nocase)) result := by
  have length : (haystack.map (folded nocase)).length = haystack.length := List.length_map _
  induction fuel generalizing hpos with
  | zero => omega
  | succ fuel ih =>
      rw [searchLoop]
      by_cases within : hpos ≤ haystack.length - needle.length
      · have fits : hpos + needle.length ≤ haystack.length := by omega
        rw [if_pos within, compareNeedle_eq (needle.length - 1)
          (by have := List.length_pos_of_ne_nil some'; omega)]
        rcases @round_spec needle haystack nocase hpos some' fits
          with ⟨compared, occurs⟩ | ⟨position, compared, move, moved, positive, whole, between⟩
        · rw [compared]
          exact ⟨some hpos, rfl, occurs, passed⟩
        · simp only [compared, Option.map_some, moved, Int.toNat_natCast]
          rw [Nat.mod_eq_of_lt (by omega)]
          refine ih (by omega) (by omega) fun before below => ?_
          by_cases old : before < hpos
          · exact passed before old
          · exact between before (by omega) below
      · rw [if_neg within]
        refine ⟨none, rfl, fun position => ?_⟩
        by_cases old : position < hpos
        · exact passed position old
        · exact not_occursAt_behind some' (by rw [length]; omega) position (Nat.le_of_not_lt old)

/-- The search ends inside its haystack, and gives the position of the first occurrence of its
needle, or none if there is no occurrence, up to letter case where it ignores that.
-/
theorem searchNeedle_first (nocase : Bool) {needle haystack : CString} (some' : needle ≠ [])
    (short : haystack.length < 2 ^ 31)
    : ∃ result, searchNeedle nocase needle haystack = .ok result
        ∧ IsFirst (needle.map (folded nocase)) (haystack.map (folded nocase)) result := by
  have some'' : needle.map (folded nocase) ≠ [] := fun empty => some' (List.map_eq_nil_iff.mp empty)
  rw [searchNeedle]
  by_cases longer : haystack.length < (needle.map (folded nocase)).length
  · rw [if_pos longer]
    refine ⟨none, rfl, fun position => ?_⟩
    refine not_occursAt_behind some'' ?_ position (Nat.zero_le _)
    rwa [List.length_map, Nat.zero_add]
  · rw [if_neg longer]
    exact searchLoop_finds some'' short (Nat.le_of_not_lt longer) _ (by omega) (Nat.zero_le _)
      fun before below => absurd below (Nat.not_lt_zero before)

/-- A needle that differs from its place in the haystack by letter case. -/
theorem searchNeedle_first_folded
    : ∃ result, searchNeedle true [65, 98] [97, 97, 66] = .ok result
        ∧ IsFirst ([65, 98].map (folded true)) ([97, 97, 66].map (folded true)) result :=
  searchNeedle_first true (by decide) (by decide)

example : searchNeedle true [65, 98] [97, 97, 66] = .ok (some 1) := by decide

/-- The search that only tells whether there is a match is right as well, whatever the lengths. -/
theorem boyerMooreSearch_finds (nocase : Bool) {needle : CString} (haystack : CString)
    (some' : needle ≠ [])
    : ∃ found, boyerMooreSearch nocase needle haystack = .ok found
        ∧ (found = true
          ↔ needle.map (folded nocase) <:+: haystack.map (folded nocase)) := by
  have some'' : needle.map (folded nocase) ≠ [] := fun empty => some' (List.map_eq_nil_iff.mp empty)
  simp only [boyerMooreSearch, ← Lib.exists_occursAt_iff_infix, if_neg some'']
  generalize needle.map (folded nocase) = needle at some''
  have length : (haystack.map (folded nocase)).length = haystack.length := List.length_map _
  have loop (fuel : Nat) : ∀ hpos, haystack.length < hpos + fuel → hpos ≤ haystack.length →
      needle.length ≤ haystack.length →
      (∀ before < hpos, ¬ OccursAt needle (haystack.map (folded nocase)) before) →
      ∃ found, boyerMooreLoop nocase needle haystack fuel hpos = .ok found
        ∧ (found = true ↔ ∃ position, OccursAt needle (haystack.map (folded nocase)) position) := by
    induction fuel with
    | zero => intro hpos enough reached; omega
    | succ fuel ih =>
        intro hpos enough reached longer passed
        rw [boyerMooreLoop]
        by_cases behind : haystack.length < hpos + needle.length
        · rw [if_pos behind]
          refine ⟨false, rfl, by simp, fun ⟨position, occurs⟩ => ?_⟩
          by_cases old : position < hpos
          · exact absurd occurs (passed position old)
          · exact absurd occurs
              (not_occursAt_behind some'' (by rwa [length]) position (Nat.le_of_not_lt old))
        · rw [if_neg behind]
          rcases @round_spec needle haystack nocase hpos some'' (by omega)
            with ⟨compared, occurs⟩ | ⟨position, compared, move, moved, positive, whole, between⟩
          · rw [compared]
            exact ⟨true, rfl, fun _ => ⟨hpos, occurs⟩, fun _ => rfl⟩
          · simp only [compared, moved, Int.toNat_natCast]
            refine ih (hpos + move) (by omega) (by omega) longer fun before below => ?_
            by_cases old : before < hpos
            · exact passed before old
            · exact between before (by omega) below
  by_cases longer : haystack.length < needle.length
  · rw [if_pos longer]
    refine ⟨false, rfl, by simp, fun ⟨position, occurs⟩ => ?_⟩
    have fits := occurs.fits some''
    omega
  · rw [if_neg longer]
    exact loop (haystack.length + 1) 0 (by omega) (Nat.zero_le _) (by omega)
      fun before below => absurd below (Nat.not_lt_zero before)

end SpeedTables
