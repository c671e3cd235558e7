import SpeedTables.Lib.TclString
import SpeedTables.Lib.Wildcard

/-! Glob patterns as `LIKE` patterns: what `quote_glob` makes of them, and when both mean the same. -/

namespace SpeedTables.Stapi

open Lib (Text Wild replaceAll)

-----------------------------------------------------------------------------------------
-- The substitutions
-----------------------------------------------------------------------------------------

/-- The first substitution, which puts a backslash before each wildcard of `LIKE`. -/
def escapeWildcards (pattern : Text) : Text :=
  pattern.flatMap (fun c => if c = '%' ∨ c = '_' then ['\\', c] else [c])

/-- The substitutions up to the one that turns the marks of escaped stars into stars. -/
def quoteStars (pattern : Text) : Text :=
  let pattern := escapeWildcards pattern
  let pattern := replaceAll ['@'] ['@', '%'] pattern
  let pattern := replaceAll ['\\', '*'] ['@', '_'] pattern
  let pattern := replaceAll ['*'] ['%'] pattern
  replaceAll ['@', '_'] ['*'] pattern

/-- The other substitutions. -/
def quoteQuestions (pattern : Text) : Text :=
  let pattern := replaceAll ['\\', '?'] ['@', '_'] pattern
  let pattern := replaceAll ['?'] ['_'] pattern
  let pattern := replaceAll ['@', '_'] ['?'] pattern
  replaceAll ['@', '%'] ['@'] pattern

/-- The `LIKE` pattern for a glob pattern. -/
def likePattern (pattern : Text) : Text :=
  quoteQuestions (quoteStars pattern)

/-- `quote_glob` -/
def quoteGlob (pgQuote : Text → Text) (pattern : Text) : Text :=
  pgQuote (likePattern pattern)

/-- A text matches a glob pattern without sets. -/
def glob : (pattern text : Text) → Bool :=
  Wild.matching '*' '?'

/-- A text matches a `LIKE` pattern with the backslash as escape character. -/
def like : (pattern text : Text) → Bool :=
  Wild.matching '%' '_'

-----------------------------------------------------------------------------------------
-- The pattern one character at a time
-----------------------------------------------------------------------------------------

section Stars

variable {c : Char} {rest : Text}

theorem escapeWildcards_head (head : (escapeWildcards rest).head? = some '*')
    : rest.head? = some '*' := by
  cases rest with
  | nil => cases head
  | cons d rest =>
      rw [escapeWildcards, List.flatMap_cons] at head
      split at head
      · simp at head
      · simpa using head

@[simp] theorem quoteStars_nil : quoteStars [] = [] := rfl

theorem quoteStars_escapedStar : quoteStars ('\\' :: '*' :: rest) = '*' :: quoteStars rest := by
  simp [quoteStars, escapeWildcards, Lib.replaceAll_char]

theorem quoteStars_star : quoteStars ('*' :: rest) = '%' :: quoteStars rest := by
  simp [quoteStars, escapeWildcards, Lib.replaceAll_char, Lib.replaceAll_pair_ne]

theorem quoteStars_wildcard (wildcard : c = '%' ∨ c = '_')
    : quoteStars (c :: rest) = '\\' :: c :: quoteStars rest := by
  rcases wildcard with rfl | rfl <;>
    simp [quoteStars, escapeWildcards, Lib.replaceAll_char, Lib.replaceAll_pair_ne,
    Lib.replaceAll_pair_next]

theorem quoteStars_at : quoteStars ('@' :: rest) = '@' :: '%' :: quoteStars rest := by
  simp [quoteStars, escapeWildcards, Lib.replaceAll_char, Lib.replaceAll_pair_ne,
    Lib.replaceAll_pair_next]

/-- Every other character stays, also a backslash that is not before a star. -/
theorem quoteStars_other (plain : c ≠ '%' ∧ c ≠ '_' ∧ c ≠ '@' ∧ c ≠ '*')
    (noEscape : c = '\\' → rest.head? ≠ some '*')
    : quoteStars (c :: rest) = c :: quoteStars rest := by
  obtain ⟨notPercent, notUnderscore, notAt, notStar⟩ := plain
  have escaped : escapeWildcards (c :: rest) = c :: escapeWildcards rest := by
    simp [escapeWildcards, notPercent, notUnderscore]
  have marked : replaceAll ['@'] ['@', '%'] (c :: escapeWildcards rest)
      = c :: replaceAll ['@'] ['@', '%'] (escapeWildcards rest) := by
    simp [Lib.replaceAll_char, notAt]
  have kept : replaceAll ['\\', '*'] ['@', '_']
        (c :: replaceAll ['@'] ['@', '%'] (escapeWildcards rest))
      = c :: replaceAll ['\\', '*'] ['@', '_']
          (replaceAll ['@'] ['@', '%'] (escapeWildcards rest)) := by
    refine Lib.replaceAll_pair_keep (fun backslash head => noEscape backslash ?_)
    refine escapeWildcards_head ?_
    cases after : escapeWildcards rest with
    | nil => simp [after] at head
    | cons d tail =>
        by_cases isAt : d = '@'
        · simp [after, Lib.replaceAll_char, isAt] at head
        · simpa [after, Lib.replaceAll_char, isAt] using head
  simp only [quoteStars, escaped, marked, kept]
  simp [Lib.replaceAll_char, notStar, Lib.replaceAll_pair_ne, notAt]

theorem quoteStars_head (head : (quoteStars rest).head? = some '?') : rest.head? = some '?' := by
  cases rest with
  | nil => cases head
  | cons c tail =>
      by_cases wildcard : c = '%' ∨ c = '_'
      · simp [quoteStars_wildcard wildcard] at head
      · obtain ⟨notPercent, notUnderscore⟩ := not_or.mp wildcard
        by_cases isAt : c = '@'
        · simp [isAt, quoteStars_at] at head
        · by_cases isStar : c = '*'
          · simp [isStar, quoteStars_star] at head
          · by_cases escape : c = '\\' ∧ tail.head? = some '*'
            · obtain ⟨rfl, star⟩ := escape
              obtain ⟨tail, rfl⟩ := List.head?_eq_some_iff.mp star
              simp [quoteStars_escapedStar] at head
            · rw [quoteStars_other ⟨notPercent, notUnderscore, isAt, isStar⟩
                (fun same star => escape ⟨same, star⟩)] at head
              simpa using head

end Stars

section Questions

variable {c : Char} {rest : Text}

theorem quoteQuestions_escapedQuestion
    : quoteQuestions ('\\' :: '?' :: rest) = '?' :: quoteQuestions rest := by
  simp [quoteQuestions, Lib.replaceAll_char, Lib.replaceAll_pair_ne]

theorem quoteQuestions_question : quoteQuestions ('?' :: rest) = '_' :: quoteQuestions rest := by
  simp [quoteQuestions, Lib.replaceAll_char, Lib.replaceAll_pair_ne]

theorem quoteQuestions_at : quoteQuestions ('@' :: '%' :: rest) = '@' :: quoteQuestions rest := by
  simp [quoteQuestions, Lib.replaceAll_char, Lib.replaceAll_pair_ne, Lib.replaceAll_pair_next]

theorem quoteQuestions_other (notQuestion : c ≠ '?') (notAt : c ≠ '@')
    (noEscape : c = '\\' → rest.head? ≠ some '?')
    : quoteQuestions (c :: rest) = c :: quoteQuestions rest := by
  simp only [quoteQuestions, Lib.replaceAll_pair_keep noEscape]
  simp [Lib.replaceAll_char, notQuestion, Lib.replaceAll_pair_ne, notAt]

end Questions

section Patterns

variable {c : Char} {rest : Text}

@[simp] theorem likePattern_nil : likePattern [] = [] := rfl

theorem likePattern_escapedStar : likePattern ('\\' :: '*' :: rest) = '*' :: likePattern rest := by
  simp [likePattern, quoteStars_escapedStar, quoteQuestions_other]

theorem likePattern_escapedQuestion
    : likePattern ('\\' :: '?' :: rest) = '?' :: likePattern rest := by
  have notStar : ('?' :: rest).head? ≠ some '*' := by simp
  rw [likePattern, quoteStars_other (by decide) (fun _ => notStar),
    quoteStars_other (by decide) (fun same => absurd same (by decide)),
    quoteQuestions_escapedQuestion]
  rfl

theorem likePattern_star : likePattern ('*' :: rest) = '%' :: likePattern rest := by
  simp [likePattern, quoteStars_star, quoteQuestions_other]

theorem likePattern_question : likePattern ('?' :: rest) = '_' :: likePattern rest := by
  simp [likePattern, quoteStars_other, quoteQuestions_question]

theorem likePattern_wildcard (wildcard : c = '%' ∨ c = '_')
    : likePattern (c :: rest) = '\\' :: c :: likePattern rest := by
  have apart : c ≠ '?' ∧ c ≠ '@' ∧ c ≠ '\\' := by
    rcases wildcard with rfl | rfl <;> decide
  have notQuestion : (c :: quoteStars rest).head? ≠ some '?' := by simpa using apart.1
  rw [likePattern, quoteStars_wildcard wildcard,
    quoteQuestions_other (by decide) (by decide) (fun _ => notQuestion),
    quoteQuestions_other apart.1 apart.2.1 (fun same => absurd same apart.2.2)]
  rfl

/-- Every other character stays, also a backslash that is not before a star or a question mark. -/
theorem likePattern_other (plain : c ≠ '%' ∧ c ≠ '_' ∧ c ≠ '*' ∧ c ≠ '?')
    (noEscape : c = '\\' → rest.head? ≠ some '*' ∧ rest.head? ≠ some '?')
    : likePattern (c :: rest) = c :: likePattern rest := by
  obtain ⟨notPercent, notUnderscore, notStar, notQuestion⟩ := plain
  by_cases isAt : c = '@'
  · rw [isAt, likePattern, quoteStars_at, quoteQuestions_at]
    rfl
  · rw [likePattern, quoteStars_other ⟨notPercent, notUnderscore, isAt, notStar⟩
      (fun same => (noEscape same).1), quoteQuestions_other notQuestion isAt
      (fun same head => (noEscape same).2 (quoteStars_head head))]
    rfl

end Patterns

-----------------------------------------------------------------------------------------
-- Patterns that keep their meaning
-----------------------------------------------------------------------------------------

/-- No backslash that quotes the next character is before a wildcard of `LIKE`, and no quoted
backslash is before a wildcard of the glob pattern.
-/
def wellQuoted : Text → Bool
  | [] => true
  | ['\\'] => true
  | '\\' :: '\\' :: rest =>
      rest.head? != some '*' && rest.head? != some '?' && wellQuoted rest
  | '\\' :: c :: rest => c != '%' && c != '_' && wellQuoted rest
  | _ :: rest => wellQuoted rest

/-- The pattern ends with a backslash that quotes nothing. -/
def dangles : Text → Bool
  | [] => false
  | ['\\'] => true
  | '\\' :: _ :: rest => dangles rest
  | _ :: rest => dangles rest

open Lib.Wild (elements)

/-- How many more wildcards of glob patterns than of `LIKE` patterns an element asks for. -/
def Weight : Wild → Int
  | .char c => if c = '*' ∨ c = '?' then 1 else if c = '%' ∨ c = '_' then -1 else 0
  | _ => 0

/-- What the two patterns ask for: the same if the glob pattern is well quoted, and otherwise the
`LIKE` pattern asks for more wildcards of glob patterns.
-/
inductive Readings (pattern : Text) : Prop where
  | dangling (ends : dangles pattern = true)
    (likeNone : elements '%' '_' (likePattern pattern) = none)
    (globNone : elements '*' '?' pattern = none)
  | read (likes globs : List Wild) (ends : dangles pattern = false)
    (likeRead : elements '%' '_' (likePattern pattern) = some likes)
    (globRead : elements '*' '?' pattern = some globs)
    (same : wellQuoted pattern = true → likes = globs)
    (heavier : (globs.map Weight).sum ≤ (likes.map Weight).sum)
    (apart : wellQuoted pattern = false → (globs.map Weight).sum < (likes.map Weight).sum)

/-- Both patterns begin with the same elements. -/
theorem Readings.keep {pattern rest : Text} (first : Wild) (readings : Readings rest)
    (ends : dangles pattern = dangles rest)
    (likeReads : elements '%' '_' (likePattern pattern)
      = (elements '%' '_' (likePattern rest)).map (first :: ·))
    (globReads : elements '*' '?' pattern = (elements '*' '?' rest).map (first :: ·))
    (quoted : wellQuoted pattern = wellQuoted rest)
    : Readings pattern := by
  cases readings with
  | dangling endsRest likeNone globNone =>
      exact .dangling (ends.trans endsRest) (by rw [likeReads, likeNone]; rfl)
        (by rw [globReads, globNone]; rfl)
  | read likes globs endsRest likeRead globRead same heavier apart =>
      refine .read (first :: likes) (first :: globs) (ends.trans endsRest)
        (by rw [likeReads, likeRead]; rfl) (by rw [globReads, globRead]; rfl) ?_ ?_ ?_
      · intro good
        rw [same (quoted ▸ good)]
      · simpa using heavier
      · intro bad
        simpa using apart (quoted ▸ bad)

/-- The `LIKE` pattern begins with heavier elements. -/
theorem Readings.differ {pattern rest : Text} (likeFirst globFirst : List Wild)
    (readings : Readings rest) (ends : dangles pattern = dangles rest)
    (likeReads : elements '%' '_' (likePattern pattern)
      = (elements '%' '_' (likePattern rest)).map (likeFirst ++ ·))
    (globReads : elements '*' '?' pattern = (elements '*' '?' rest).map (globFirst ++ ·))
    (misquoted : wellQuoted pattern = false)
    (heavier : (globFirst.map Weight).sum < (likeFirst.map Weight).sum)
    : Readings pattern := by
  cases readings with
  | dangling endsRest likeNone globNone =>
      exact .dangling (ends.trans endsRest) (by rw [likeReads, likeNone]; rfl)
        (by rw [globReads, globNone]; rfl)
  | read likes globs endsRest likeRead globRead same heavierRest apart =>
      have more : ((globFirst ++ globs).map Weight).sum < ((likeFirst ++ likes).map Weight).sum := by
        simp only [List.map_append, List.sum_append]
        omega
      refine .read (likeFirst ++ likes) (globFirst ++ globs) (ends.trans endsRest)
        (by rw [likeReads, likeRead]; rfl) (by rw [globReads, globRead]; rfl) ?_
        (Int.le_of_lt more) (fun _ => more)
      intro good
      rw [misquoted] at good
      cases good

/-- A quoted backslash, with what is behind it. -/
theorem Readings.backslash {rest : Text}
    (shorter : ∀ tail : Text, tail.length ≤ rest.length → Readings tail)
    : Readings ('\\' :: '\\' :: rest) := by
  by_cases star : rest.head? = some '*'
  · obtain ⟨tail, rfl⟩ := List.head?_eq_some_iff.mp star
    refine (shorter tail (by simp)).differ [.char '*'] [.char '\\', .many] rfl ?_ ?_
      (by simp [wellQuoted]) (by decide)
    · rw [likePattern_other (by decide) (by simp), likePattern_escapedStar]
      rfl
    · simp [elements, Function.comp_def]
  by_cases question : rest.head? = some '?'
  · obtain ⟨tail, rfl⟩ := List.head?_eq_some_iff.mp question
    refine (shorter tail (by simp)).differ [.char '?'] [.char '\\', .one] rfl ?_ ?_
      (by simp [wellQuoted]) (by decide)
    · rw [likePattern_other (by decide) (by simp), likePattern_escapedQuestion]
      rfl
    · simp [elements, Function.comp_def]
  · refine (shorter rest le_rfl).keep (.char '\\') rfl ?_ rfl (by simp [wellQuoted, star, question])
    rw [likePattern_other (by decide) (by simp),
      likePattern_other (by decide) (fun _ => ⟨star, question⟩)]
    rfl

/-- A quoted character other than a backslash. -/
theorem Readings.quoted {c : Char} {rest : Text} (notBackslash : c ≠ '\\')
    (readings : Readings rest)
    : Readings ('\\' :: c :: rest) := by
  by_cases star : c = '*'
  · subst star
    refine readings.keep (.char '*') rfl ?_ rfl (by simp [wellQuoted])
    rw [likePattern_escapedStar]
    simp [elements]
  by_cases question : c = '?'
  · subst question
    refine readings.keep (.char '?') rfl ?_ rfl (by simp [wellQuoted])
    rw [likePattern_escapedQuestion]
    simp [elements]
  have noEscape : (c :: rest).head? ≠ some '*' ∧ (c :: rest).head? ≠ some '?' := by
    simp [star, question]
  by_cases percent : c = '%'
  · subst percent
    refine readings.differ [.char '\\', .many] [.char '%'] rfl ?_ (by simp [elements])
      (by simp [wellQuoted]) (by decide)
    rw [likePattern_other (by decide) (fun _ => noEscape), likePattern_wildcard (.inl rfl)]
    simp [elements, Function.comp_def]
  by_cases underscore : c = '_'
  · subst underscore
    refine readings.differ [.char '\\', .one] [.char '_'] rfl ?_ (by simp [elements])
      (by simp [wellQuoted]) (by decide)
    rw [likePattern_other (by decide) (fun _ => noEscape), likePattern_wildcard (.inr rfl)]
    simp [elements, Function.comp_def]
  · refine readings.keep (.char c) rfl ?_ (by simp [elements])
      (by simp [wellQuoted, percent, underscore])
    rw [likePattern_other (by decide) (fun _ => noEscape),
      likePattern_other ⟨percent, underscore, star, question⟩
        (fun same => absurd same notBackslash)]
    simp [elements]

/-- A character behind no backslash. -/
theorem Readings.unquoted {c : Char} {rest : Text} (notBackslash : c ≠ '\\')
    (readings : Readings rest)
    : Readings (c :: rest) := by
  have ends : dangles (c :: rest) = dangles rest := by simp [dangles, notBackslash]
  have quoted : wellQuoted (c :: rest) = wellQuoted rest := by simp [wellQuoted, notBackslash]
  by_cases star : c = '*'
  · subst star
    refine readings.keep .many ends ?_ (by simp [elements]) quoted
    rw [likePattern_star]
    simp [elements]
  by_cases question : c = '?'
  · subst question
    refine readings.keep .one ends ?_ (by simp [elements]) quoted
    rw [likePattern_question]
    simp [elements]
  by_cases wildcard : c = '%' ∨ c = '_'
  · refine readings.keep (.char c) ends ?_ (by simp [elements, notBackslash, star, question]) quoted
    rw [likePattern_wildcard wildcard]
    simp [elements]
  · obtain ⟨percent, underscore⟩ := not_or.mp wildcard
    refine readings.keep (.char c) ends ?_ (by simp [elements, notBackslash, star, question]) quoted
    rw [likePattern_other ⟨percent, underscore, star, question⟩
      (fun same => absurd same notBackslash)]
    simp [elements, notBackslash, percent, underscore]

/-- The patterns read one element after the other, by induction on the length. -/
theorem readings (pattern : Text) : Readings pattern := by
  induction length : pattern.length using Nat.strong_induction_on generalizing pattern with
  | _ size ih =>
      cases pattern with
      | nil => exact .read [] [] rfl rfl rfl (fun _ => rfl) (Int.le_refl _) (fun bad => nomatch bad)
      | cons c rest =>
          simp only [List.length_cons] at length
          by_cases escape : c = '\\'
          · subst escape
            cases rest with
            | nil => exact .dangling rfl (by decide) rfl
            | cons d rest =>
                simp only [List.length_cons] at length
                have shorter : ∀ tail : Text, tail.length ≤ rest.length → Readings tail :=
                  fun tail short => ih tail.length (by omega) tail rfl
                by_cases backslash : d = '\\'
                · exact backslash ▸ .backslash shorter
                · exact .quoted backslash (shorter rest (Nat.le_refl _))
          · exact .unquoted escape (ih rest.length (by omega) rest rfl)

theorem sum_weight (elements : List Wild)
    : (elements.map Weight).sum
      = elements.count (.char '*') + elements.count (.char '?')
        - (elements.count (.char '%') + elements.count (.char '_')) := by
  induction elements with
  | nil => rfl
  | cons element rest ih =>
      rw [List.map_cons, List.sum_cons, ih]
      cases element with
      | char c =>
          by_cases star : c = '*'
          · simp [Weight, star]
            omega
          by_cases question : c = '?'
          · simp [Weight, question]
            omega
          by_cases percent : c = '%'
          · simp [Weight, percent]
            omega
          by_cases underscore : c = '_'
          · simp [Weight, underscore]
            omega
          · simp [Weight, star, question, percent, underscore]
      | one => simp [Weight]
      | many => simp [Weight]

/-- The `LIKE` pattern matches the texts that the glob pattern matches exactly if the glob pattern
is well quoted, or matches nothing because it ends with a backslash that quotes nothing.
-/
theorem quoteGlob_iff (pgQuote value : Text → Text)
    (faithful : ∀ text, value (pgQuote text) = text) (pattern : Text)
    : (∀ text, like (value (quoteGlob pgQuote pattern)) text = glob pattern text)
      ↔ dangles pattern = true ∨ wellQuoted pattern = true := by
  rw [quoteGlob, faithful]
  unfold like glob Wild.matching
  cases readings pattern with
  | dangling ends likeNone globNone => simp [ends, likeNone, globNone]
  | read likes globs ends likeRead globRead same heavier apart =>
      simp only [ends, likeRead, globRead, Bool.false_eq_true, false_or]
      constructor
      · intro fits
        by_contra misquoted
        have lighter := apart (by simpa using misquoted)
        simp only [sum_weight, Lib.Wild.count_of_same fits] at lighter
        omega
      · intro good text
        rw [same good]

/-- An apostrophe. -/
def apostrophe : Char := Char.ofNat 39

/-- An SQL literal of a text. -/
def sqlLiteral (text : Text) : Text :=
  apostrophe :: text.flatMap (fun c => if c = apostrophe then [c, c] else [c]) ++ [apostrophe]

/-- A text with every second one of its doubled apostrophes. -/
def undouble : Text → Text
  | [] => []
  | c :: rest =>
      if c = apostrophe then
        match rest with
        | _ :: tail => c :: undouble tail
        | [] => [c]
      else c :: undouble rest

/-- The text that an SQL literal stands for. -/
def literalValue (literal : Text) : Text :=
  undouble literal.tail.dropLast

theorem literalValue_sqlLiteral (text : Text) : literalValue (sqlLiteral text) = text := by
  have inner : undouble (text.flatMap (fun c => if c = apostrophe then [c, c] else [c])) = text := by
    induction text with
    | nil => rfl
    | cons c rest ih =>
        by_cases same : c = apostrophe
        · simp [undouble, same, ih]
        · rw [List.flatMap_cons, if_neg same, List.singleton_append, undouble.eq_def]
          simp only [if_neg same, ih]
  simpa [literalValue, sqlLiteral] using inner

/-- A pattern with every kind of element. -/
def mixedPattern : Text := ['a', '_', '*', '\\', '*', '@', '?', '%', '\\', 'b']

/-- The mixed pattern keeps its meaning. -/
theorem quoteGlob_iff_mixed
    : wellQuoted mixedPattern = true
      ∧ ∀ text, like (literalValue (quoteGlob sqlLiteral mixedPattern)) text
        = glob mixedPattern text :=
  ⟨by decide,
    (quoteGlob_iff sqlLiteral literalValue literalValue_sqlLiteral _).mpr (.inr (by decide))⟩

/-- A star behind a quoted backslash becomes a star that stands for itself. -/
theorem quoteGlob_quotedBackslash
    : ¬ ∀ (pgQuote value : Text → Text), (∀ text, value (pgQuote text) = text) →
        ∀ pattern text, like (value (quoteGlob pgQuote pattern)) text = glob pattern text := by
  intro claim
  have same := claim sqlLiteral literalValue literalValue_sqlLiteral ['\\', '\\', '*'] ['\\', 'x']
  exact absurd same (by decide)

end SpeedTables.Stapi
