import Mathlib
import SpeedTables.Lib.Glob
import SpeedTables.Search.Coverage
import SpeedTables.Search.Needle

/-! Match comparisons against glob matching of the whole value. -/

namespace SpeedTables

open Lib (GlobState glob Begins Literal)

variable {creator : CreatorTable} {host : Host} {nocase : Bool}

-----------------------------------------------------------------------------------------
-- Folding
-----------------------------------------------------------------------------------------

/-- Only a letter is folded to a letter. -/
theorem folded_eq {byte character : UInt8} (same : folded nocase byte = character)
    (below : character < 97)
    : byte = character := by
  cases nocase with
  | false => exact same
  | true =>
      simp only [folded, tolower, if_true] at same
      split at same
      next letter =>
        have bound := byte.toNat_lt
        rw [← same, UInt8.lt_iff_toNat_lt, UInt8.toNat_add] at below
        simp only [UInt8.le_iff_toNat_le, UInt8.reduceToNat] at letter below
        omega
      · exact same

theorem folded_self {character : UInt8} (other : character < 65 ∨ 90 < character)
    : folded nocase character = character := by
  cases nocase with
  | false => rfl
  | true =>
      simp only [folded, tolower, if_true]
      rw [if_neg]
      simp only [UInt8.le_iff_toNat_le, UInt8.lt_iff_toNat_lt, UInt8.reduceToNat] at other ⊢
      omega

-----------------------------------------------------------------------------------------
-- The classification
-----------------------------------------------------------------------------------------

/-- A pattern that is no general one ends with its only star, apart from the first character, which
is not looked at; its other characters stand for themselves.
-/
theorem patternLoop_starred {firstCharIsStar : Bool} {rest : CString}
    (classified : patternLoop firstCharIsStar rest false ≠ .pattern)
    : ∃ inner, rest = inner ++ [42] ∧ Literal inner ∧ 93 ∉ inner
        ∧ patternLoop firstCharIsStar rest false
          = if firstCharIsStar then .unanchored else .anchored := by
  induction rest with
  | nil => cases firstCharIsStar <;> exact absurd rfl classified
  | cons byte rest ih =>
      rw [patternLoop] at classified ⊢
      split at classified
      next star =>
        rw [if_pos star]
        cases rest with
        | cons _ _ => exact absurd rfl classified
        | nil =>
            refine ⟨[], by rw [star]; rfl, fun _ same => (by cases same),
              fun same => (by cases same), ?_⟩
            cases firstCharIsStar <;> rfl
      next noStar =>
        rw [if_neg noStar]
        split at classified
        · exact absurd rfl classified
        next ordinary =>
          rw [if_neg ordinary]
          obtain ⟨inner, rfl, literal, closed, type⟩ := ih classified
          simp only [not_or] at ordinary
          refine ⟨byte :: inner, rfl, fun c member => ?_, fun member => ?_, type⟩
          · rcases List.mem_cons.mp member with rfl | member
            · exact ⟨noStar, ordinary.1, ordinary.2.1, ordinary.2.2.2⟩
            · exact literal c member
          · rcases List.mem_cons.mp member with same | member
            · exact ordinary.2.2.1 same.symm
            · exact closed member

theorem searchMatchPatternCheck_unanchored {pattern : CString}
    (check : searchMatchPatternCheck pattern = .unanchored)
    : ∃ inner, pattern = 42 :: (inner ++ [42]) ∧ Literal inner := by
  cases pattern with
  | nil => cases check
  | cons first rest =>
      rw [searchMatchPatternCheck] at check
      have starred : patternLoop (decide (first = 42)) rest false ≠ .pattern := by
        rw [check]
        nofun
      obtain ⟨inner, rfl, literal, -, type⟩ := patternLoop_starred starred
      rw [type] at check
      by_cases star : first = 42
      · exact ⟨inner, by rw [star], literal⟩
      · simp [star] at check

theorem searchMatchPatternCheck_anchored_cons {first : UInt8} {rest : CString}
    (check : searchMatchPatternCheck (first :: rest) = .anchored)
    : first ≠ 42 ∧ ∃ inner, rest = inner ++ [42] ∧ Literal inner ∧ 93 ∉ inner := by
  rw [searchMatchPatternCheck] at check
  have starred : patternLoop (decide (first = 42)) rest false ≠ .pattern := by
    rw [check]
    nofun
  obtain ⟨inner, rfl, literal, closed, type⟩ := patternLoop_starred starred
  rw [type] at check
  refine ⟨?_, inner, rfl, literal, closed⟩
  rintro rfl
  simp at check

-----------------------------------------------------------------------------------------
-- Anchored matches
-----------------------------------------------------------------------------------------

/-- Comparing up to the star tells whether the value begins with what is before it. -/
theorem anchoredMatch_iff {prefix' value : CString} (noStar : 42 ∉ prefix') (noNul : 0 ∉ prefix')
    : anchoredMatch nocase value (prefix' ++ [42]) = true
        ↔ Begins (folded nocase) prefix' value := by
  induction prefix' generalizing value with
  | nil => simp [anchoredMatch, Begins]
  | cons byte rest ih =>
      have other : byte ≠ 42 := fun same => noStar (same ▸ List.mem_cons_self)
      have behind := fun value => @ih value (fun member => noStar (List.mem_cons_of_mem _ member))
        (fun member => noNul (List.mem_cons_of_mem _ member))
      rw [List.cons_append, anchoredMatch, if_neg other, Lib.begins_cons_iff]
      cases value with
      | nil =>
          have nul : folded nocase 0 ≠ folded nocase byte := by
            intro same
            rw [folded_self (by decide)] at same
            exact noNul (folded_eq same.symm (by decide) ▸ List.mem_cons_self)
          simp [nul]
      | cons character value =>
          by_cases same : folded nocase character = folded nocase byte
          · simp [same, behind]
          · simp [same, Ne.symm same]

/-- Where an anchored comparison does what a glob match does: an empty pattern matches the empty
value only, and a first character that is not looked at is no mark that the value would be read
differently for.
-/
def AnchoredRight (nocase : Bool) (pattern value : CString) : Prop :=
  match pattern with
  | [] => value = []
  | 63 :: rest => ¬ ∃ first tail, value = first :: tail ∧ first ≠ 63
      ∧ Begins (folded nocase) rest.dropLast tail
  | 91 :: rest => ¬ Begins (folded nocase) (91 :: rest.dropLast) value
      ∧ ¬ ∃ byte, value = [byte]
        ∧ glob (folded nocase) (.set (folded nocase byte)) rest [] = true
  | 92 :: rest => ¬ Begins (folded nocase) (92 :: rest.dropLast) value
      ∧ ¬ if rest = [42] then value = [42] else Begins (folded nocase) rest.dropLast value
  | _ => True

/-- Two answers are the same where they are yes together and where they cannot both be yes. -/
theorem agree_iff_neither {left right : Bool} (apart : ¬ (left = true ∧ right = true))
    : left = right ↔ ¬ left = true ∧ ¬ right = true := by
  cases left <;> cases right <;> simp_all

/-- The anchored comparison is the glob match exactly there, by cases of the first character. -/
theorem anchoredMatch_agrees {pattern value : CString}
    (check : searchMatchPatternCheck pattern = .anchored) (noNul : 0 ∉ pattern)
    : anchoredMatch nocase value pattern = glob (folded nocase) .plain pattern value
        ↔ AnchoredRight nocase pattern value := by
  cases pattern with
  | nil =>
      have whole : AnchoredRight nocase [] value ↔ value = [] := Iff.rfl
      rw [whole, Bool.eq_iff_iff]
      simp [anchoredMatch, glob]
  | cons first rest =>
      obtain ⟨noStar, inner, rfl, literal, closed⟩ := searchMatchPatternCheck_anchored_cons check
      have noStars : 42 ∉ first :: inner := by
        intro member
        rcases List.mem_cons.mp member with same | member
        · exact noStar same.symm
        · exact (literal 42 member).1 rfl
      have noNuls : 0 ∉ first :: inner :=
        fun member => noNul (List.mem_append_left [42] member)
      have begins := @anchoredMatch_iff nocase (first :: inner) value noStars noNuls
      rw [List.cons_append] at begins
      unfold AnchoredRight
      split
      next empty => cases empty
      next tail same =>
        obtain ⟨rfl, rfl⟩ := List.cons.inj same
        rw [List.dropLast_concat, Bool.eq_iff_iff, begins, Lib.begins_cons_iff]
        have matched := @Lib.glob_question (folded nocase) (inner ++ [42]) value
        simp only [Lib.glob_prefix literal] at matched
        rw [matched]
        constructor
        · rintro together ⟨character, tail, rfl, other, within⟩
          obtain ⟨_, _, split, question, -⟩ := together.mpr ⟨character, tail, rfl, within⟩
          obtain ⟨rfl, rfl⟩ := List.cons.inj split
          rw [folded_self (by decide)] at question
          exact other (folded_eq question.symm (by decide))
        · intro alone
          constructor
          · rintro ⟨character, tail, rfl, -, within⟩
            exact ⟨character, tail, rfl, within⟩
          · rintro ⟨character, tail, rfl, within⟩
            refine ⟨character, tail, rfl, ?_, within⟩
            by_contra other
            refine alone ⟨character, tail, rfl, ?_, within⟩
            rintro rfl
            exact other rfl
      next tail same =>
        obtain ⟨rfl, rfl⟩ := List.cons.inj same
        have matched : glob (folded nocase) .plain (91 :: (inner ++ [42])) value = true
            ↔ ∃ byte, value = [byte]
              ∧ glob (folded nocase) (.set (folded nocase byte)) (inner ++ [42]) [] = true := by
          rw [Lib.glob_bracket]
          constructor
          · rintro ⟨character, rest, rfl, found⟩
            have unclosed : 93 ∉ inner ++ [42] := by simp [closed]
            obtain rfl := Lib.glob_unclosed (by simp) unclosed found
            exact ⟨character, rfl, found⟩
          · rintro ⟨byte, one, found⟩
            exact ⟨byte, [], one, found⟩
        rw [List.dropLast_concat, agree_iff_neither, begins, matched]
        rw [begins, matched]
        rintro ⟨within, byte, rfl, found⟩
        -- A value of one character leaves nothing behind the bracket but the star.
        obtain ⟨_, _, split, bracket, within⟩ := Lib.begins_cons_iff.mp within
        obtain ⟨rfl, rfl⟩ := List.cons.inj split
        obtain rfl : inner = [] := by simpa [Begins] using within
        have star : folded nocase 42 ≠ folded nocase byte := by
          rw [← bracket, folded_self (by decide), folded_self (by decide)]
          decide
        simp [glob, star] at found
      next tail same =>
        obtain ⟨rfl, rfl⟩ := List.cons.inj same
        have matched : glob (folded nocase) .plain (92 :: (inner ++ [42])) value = true
            ↔ if inner ++ [42] = [42] then value = [42]
              else Begins (folded nocase) (inner ++ [42]).dropLast value := by
          cases inner with
          | nil =>
              rw [List.nil_append, if_pos rfl, Lib.glob_backslash]
              constructor
              · rintro ⟨character, rest, rfl, star, ended⟩
                rw [folded_self (by decide)] at star
                obtain rfl := folded_eq star.symm (by decide)
                rw [List.isEmpty_iff.mp ended]
              · rintro rfl
                exact ⟨42, [], rfl, rfl, rfl⟩
          | cons c inner =>
              have short : ¬ c :: inner ++ [42] = [42] := by simp
              rw [if_neg short, List.dropLast_concat, List.cons_append, Lib.glob_backslash,
                Lib.begins_cons_iff]
              simp only [Lib.glob_prefix fun c member => literal c (List.mem_cons_of_mem _ member)]
        rw [agree_iff_neither, begins, matched]
        · rw [List.dropLast_concat]
        rw [begins, matched]
        rintro ⟨within, other⟩
        obtain ⟨character, rest, rfl, mark, within⟩ := Lib.begins_cons_iff.mp within
        rw [folded_self (by decide)] at mark
        obtain rfl := folded_eq mark.symm (by decide)
        split at other
        · exact absurd (List.cons.inj other).1 (by decide)
        next more =>
          rw [List.dropLast_concat] at other
          cases inner with
          | nil => exact more rfl
          | cons c inner =>
              obtain ⟨_, _, split, letter, -⟩ := Lib.begins_cons_iff.mp other
              obtain ⟨rfl, rfl⟩ := List.cons.inj split
              rw [@folded_self nocase 92 (by decide)] at letter
              exact (literal c List.mem_cons_self).2.2.2 (folded_eq letter (by decide))
      next noEmpty noQuestion noBracket noBackslash =>
        have all : Literal (first :: inner) := by
          intro c member
          rcases List.mem_cons.mp member with rfl | member
          · refine ⟨noStar, ?_, ?_, ?_⟩ <;> rintro rfl
            · exact noQuestion _ rfl
            · exact noBracket _ rfl
            · exact noBackslash _ rfl
          · exact literal c member
        rw [Bool.eq_iff_iff, begins, ← List.cons_append, Lib.glob_prefix all]
        exact iff_true_intro Iff.rfl

-----------------------------------------------------------------------------------------
-- Matches of rows
-----------------------------------------------------------------------------------------

def Ascii (text : CString) : Prop :=
  ∀ byte ∈ text, 0 < byte ∧ byte < 128

/-- `Tcl_StringCaseMatch` is glob matching, for ASCII text. -/
def Host.Globs (host : Host) : Prop :=
  ∀ text pattern nocase, Ascii text → Ascii pattern →
    host.stringCaseMatch text pattern nocase = glob (folded nocase) .plain pattern text

/-- The field of the row is not null, and has a string for its value. -/
def Row.HasText (row : Row creator) (field : creator.Field) (value : CString) : Prop :=
  if field = creator.keyField then row.key = some value
  else row.nullIn field = false
    ∧ (creator.type field = .varstring → (row.cells field).stringPointer = some value)

/-- When a match comparison is a glob match of the whole value: the field's comparison knows
matches, the pattern has been stored where it is read, it is not two stars, and it is compared with
an anchor only where that is the same.
-/
structure MatchesAsGlob (field : creator.Field) (nocase : Bool) (pattern value : CString)
    : Prop where
  implemented : creator.type field ≠ .fixedstring
  stored : searchMatchPatternCheck pattern = .unanchored ∨ nullFor field pattern = false
  needle : pattern ≠ [42, 42]
  anchor : searchMatchPatternCheck pattern = .anchored → AnchoredRight nocase pattern value

/-- String fields take every value. -/
theorem searchRow_string {field : creator.Field} (string : matchable (creator.type field) = true)
    (obj : Obj)
    : ∃ row1, searchRow host field obj = .ok row1 := by
  have outcome (info : FieldInfo) (isNull : Bool) (cell : Cell info.type)
      (string : matchable info.type = true)
      : cellSetType host info isNull info.type info.default cell obj = .same
        ∨ ∃ flagged allocates stored,
            cellSetType host info isNull info.type info.default cell obj
              = .assign flagged allocates stored := by
    obtain ⟨name, type, notnull, indexed, unique, length, default⟩ := info
    cases type <;> simp only [matchable, Bool.false_eq_true] at string
    · simp only [cellSetType, fixedstringSet, standardSet]
      repeat' split
      all_goals simp
    · simp only [cellSetType, varstringSet, standardSet]
      repeat' split
      all_goals simp_all
    · simp [cellSetType]
  unfold searchRow setPrivate
  by_cases isKey : field = creator.keyField
  · exact ⟨{ creator.init with key := some obj }, by simp [isKey]⟩
  · rw [if_neg isKey]
    rcases outcome (creator.fields field) (creator.objIsNull obj) (creator.init.cells field) string
      with same | ⟨flagged, allocates, stored, assigns⟩
    · exact ⟨creator.init, by simp [cellSet, same]⟩
    · exact ⟨creator.init.setCell field stored, by simp [cellSet, assigns]⟩

/-- The comparison of a value with a pattern that has been stored, by its class. -/
theorem matches_agrees (globs : host.Globs) {term : MatchTerm} {value : CString}
    (check : term.type = searchMatchPatternCheck term.word) (asciiPattern : Ascii term.word)
    (asciiValue : Ascii value)
    : term.matches host (some value) (some term.word)
          = .ok (glob (folded term.nocase) .plain term.word value)
        ↔ term.word ≠ [42, 42]
          ∧ (searchMatchPatternCheck term.word = .anchored →
            AnchoredRight term.nocase term.word value) := by
  have noNul : 0 ∉ term.word := fun member => absurd (asciiPattern 0 member).1 (by decide)
  have twoStars : searchMatchPatternCheck [42, 42] = .unanchored := by decide
  unfold MatchTerm.matches
  cases type : term.type with
  | pattern =>
      have pattern : searchMatchPatternCheck term.word = .pattern := check.symm.trans type
      have other : term.word ≠ [42, 42] := by
        intro same
        rw [same, twoStars] at pattern
        cases pattern
      simp [globs value term.word term.nocase asciiValue asciiPattern, pattern, other]
  | anchored =>
      have anchored : searchMatchPatternCheck term.word = .anchored := check.symm.trans type
      have other : term.word ≠ [42, 42] := by
        intro same
        rw [same, twoStars] at anchored
        cases anchored
      simp [Except.ok.injEq, anchoredMatch_agrees anchored noNul, anchored, other]
  | unanchored =>
      have unanchored : searchMatchPatternCheck term.word = .unanchored := check.symm.trans type
      obtain ⟨inner, word, literal⟩ := searchMatchPatternCheck_unanchored unanchored
      have needle : (term.word.drop 1).dropLast = inner := by
        rw [word, List.drop_one, List.tail_cons, List.dropLast_concat]
      simp only [needle, Option.getD_some, unanchored, reduceCtorEq, false_imp_iff, and_true]
      rcases List.eq_nil_or_concat inner with rfl | ⟨before, last, rfl⟩
      · simp [boyerMooreSearch, word]
      · have some' : before.concat last ≠ [] := by simp
        obtain ⟨found, search, occurs⟩ := boyerMooreSearch_finds term.nocase value some'
        have same : found = glob (folded term.nocase) .plain term.word value := by
          rw [Bool.eq_iff_iff, occurs, word, Lib.glob_infix literal]
        have other : term.word ≠ [42, 42] := by
          rw [word]
          cases before <;> simp
        rw [search, same]
        exact iff_of_true rfl other

theorem keepsText_ok {term : MatchTerm} {text pattern : Option CString} {found : Bool}
    : term.keepsText host text pattern = .ok (found == term.keeps)
        ↔ term.matches host text pattern = .ok found := by
  unfold MatchTerm.keepsText
  cases term.matches host text pattern with
  | error fault => simp
  | ok matched => cases matched <;> cases found <;> cases term.keeps <;> simp

/-- A match comparison keeps the rows whose value is a glob match of the pattern, or the others for
a negated term, exactly when it matches as glob matching does.
-/
theorem match_isGlob (globs : host.Globs) (word : CString) {field : creator.Field}
    {row : Row creator} {pattern value : CString} (keeps nocase : Bool)
    (string : matchable (creator.type field) = true) (text : row.HasText field value)
    (asciiPattern : Ascii pattern) (asciiValue : Ascii value)
    : ∃ term, parseTerm host field word (.matching keeps nocase) [pattern] = .ok term
        ∧ (Component.test host { field := field, term := term } row
            = .ok (glob (folded nocase) .plain pattern value == keeps)
          ↔ MatchesAsGlob field nocase pattern value) := by
  obtain ⟨row1, made⟩ := @searchRow_string creator host field string pattern
  have parses : parseTerm host field word (.matching keeps nocase) [pattern]
      = .ok (.matching ⟨keeps, nocase, searchMatchPatternCheck pattern, pattern⟩ row1) := by
    simp [parseTerm, string, made]
  refine ⟨_, parses, ?_⟩
  let term : MatchTerm := ⟨keeps, nocase, searchMatchPatternCheck pattern, pattern⟩
  have agrees := @matches_agrees host globs term value rfl asciiPattern asciiValue
  have tested {answer : Except Fault Bool}
      : orStop answer = .ok (glob (folded nocase) .plain pattern value == keeps)
        ↔ answer = .ok (glob (folded nocase) .plain pattern value == keeps) := by
    cases answer <;> simp [orStop]
  simp only [Component.test, fieldTest, tested]
  by_cases isKey : field = creator.keyField
  · subst isKey
    have key : row.keyString = value := by
      rw [Row.HasText, if_pos rfl] at text
      rw [Row.keyString, text, Option.getD_some]
    have notNull : nullFor creator.keyField pattern = false := by
      simp [nullFor, creator.keyField_notnull]
    have type : creator.type creator.keyField = .key := (creator.keyField_iff _).mpr rfl
    simp only [creator.keyField_notnull, Bool.not_true, Bool.false_and, Bool.false_eq_true,
      if_false, if_true, key, searchRow_key made]
    rw [keepsText_ok, agrees]
    constructor
    · rintro ⟨needle, anchor⟩
      exact ⟨by simp [type], .inr notNull, needle, anchor⟩
    · exact fun right => ⟨right.needle, right.anchor⟩
  · rw [Row.HasText, if_neg isKey] at text
    obtain ⟨notNull, pointer⟩ := text
    rw [Row.nullIn] at notNull
    simp only [notNull, Bool.false_eq_true, if_false, isKey, matchField, matchText_eq]
    by_cases varstring : creator.type field = .varstring
    · have stored := (searchRow_ok made).2.2 varstring
      simp only [varstring, if_true, pointer varstring, stored]
      rw [keepsText_ok]
      by_cases null : nullFor field pattern = true
      · by_cases unanchored : searchMatchPatternCheck pattern = .unanchored
        · have unread : term.matches host (some value) none
              = term.matches host (some value) (some pattern) := by
            simp only [MatchTerm.matches, term, unanchored]
          rw [if_pos null, unread, agrees]
          constructor
          · rintro ⟨needle, anchor⟩
            exact ⟨by simp [varstring], .inl unanchored, needle, anchor⟩
          · exact fun right => ⟨right.needle, right.anchor⟩
        · have fails : term.matches host (some value) none = .error .nullPointer := by
            simp only [MatchTerm.matches, term]
            cases type : searchMatchPatternCheck pattern with
            | unanchored => exact absurd type unanchored
            | anchored => rfl
            | pattern => rfl
          rw [if_pos null, fails]
          refine iff_of_false (fun same => by cases same) fun right => ?_
          rcases right.stored with other | other
          · exact unanchored other
          · rw [null] at other
            cases other
      · rw [Bool.not_eq_true] at null
        rw [null, if_neg Bool.false_ne_true, agrees]
        constructor
        · rintro ⟨needle, anchor⟩
          exact ⟨by simp [varstring], .inr null, needle, anchor⟩
        · exact fun right => ⟨right.needle, right.anchor⟩
    · have fixedstring : creator.type field = .fixedstring := by
        have key : creator.type field ≠ .key := fun type => isKey ((creator.keyField_iff _).mp type)
        revert string varstring key
        cases creator.type field <;> simp [matchable]
      simp only [varstring, if_false]
      exact iff_of_false (fun same => by cases same) fun right => right.implemented fixedstring

/-- A host whose string matches are glob matches. -/
def globHost : Host :=
  { sampleHost with
    stringCaseMatch := fun text pattern nocase => glob (folded nocase) .plain pattern text }

/-- An anchored pattern on the key. -/
theorem match_isGlob_key
    : ∃ term, parseTerm globHost sampleCreator.keyField [] (.matching true true) [[65, 42]]
          = .ok term
        ∧ (Component.test globHost { field := sampleCreator.keyField, term := term }
              { sampleCreator.init with key := some [97, 98] }
            = .ok (glob (folded true) .plain [65, 42] [97, 98] == true)
          ↔ MatchesAsGlob sampleCreator.keyField true [65, 42] [97, 98]) := by
  have globs : globHost.Globs := fun _ _ _ _ _ => rfl
  exact match_isGlob globs [] true true (by decide) (by simp [Row.HasText]) (by simp [Ascii])
    (by simp [Ascii])

/-- A question mark before a star is compared as a question mark, though it matches any
character.
-/
theorem match_question
    : (parseTerm globHost sampleCreator.keyField [] (.matching true true) [[63, 42]]).toOption.map
          (fun term =>
            (Component.test globHost { field := sampleCreator.keyField, term := term }
              { sampleCreator.init with key := some [97, 98] }).toOption)
        = some (some false)
      ∧ glob (folded true) .plain [63, 42] [97, 98] = true := by
  decide

end SpeedTables
