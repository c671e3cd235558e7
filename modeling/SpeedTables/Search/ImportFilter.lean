import SpeedTables.Search.PatternMatch
import SpeedTables.Table.Import

/-! The lines an import with a pattern loads, against the lines whose key matches the pattern. -/

namespace SpeedTables

open Lib (quoteText)

variable {creator : CreatorTable} {host : Host} {fold : CString → CString}

-----------------------------------------------------------------------------------------
-- Keys of lines
-----------------------------------------------------------------------------------------

/-- What matching without case tells apart: texts that are the same when folded match the same
patterns, every text has a pattern that only it matches, up to folding, and no other text folds to
the empty one.
-/
structure Host.MatchesFolded (host : Host) (fold : CString → CString) : Prop where
  same : ∀ {text other : CString} (pattern : CString), fold text = fold other →
    host.stringCaseMatch text pattern true = host.stringCaseMatch other pattern true
  quotes : ∀ text, ∃ pattern, ∀ other,
    host.stringCaseMatch other pattern true = true ↔ fold other = fold text
  empty : ∀ {text}, fold text = fold [] → text = []

namespace ImportOptions

/-- The import with `-glob`. -/
def withPattern (options : ImportOptions creator) (pattern : CString) : ImportOptions creator :=
  { options with pattern := some pattern }

variable {options : ImportOptions creator} {line : CString} {table : CTable creator}

/-- The key that a line is stored under in a table. -/
def storedKey (options : ImportOptions creator) (line : CString) (table : CTable creator)
    : Option CString :=
  match lineKey options.lineOptions line table with
  | .ok key _ => some key
  | .error _ _ => none

/-- Whether the key of a line matches a pattern. -/
def keyMatches (host : Host) (options : ImportOptions creator) (pattern line : CString)
    (table : CTable creator) : Bool :=
  (options.storedKey line table).any (host.stringCaseMatch · pattern true)

/-- Whether an import takes a line into consideration at all. -/
def reads (host : Host) (options : ImportOptions creator) (line : CString) : Bool :=
  !options.endsInput host line && !options.skips host line

/-- The line up to the end of its key column is, up to folding, the dequoted text of that column,
or the automatic number of the row.
-/
def PatternSeesKey (fold : CString → CString) (options : ImportOptions creator) (line : CString)
    (table : CTable creator) : Prop :=
  ∃ text key, options.patternText line = some text ∧ fold text = fold key
    ∧ match options.keyColumn with
      | none => key = decimalSigned table.autoRowNumber
      | some column => tabsepKey options.lineOptions column line = .ok key

theorem storedKey_column {column : Nat} (isKey : options.keyColumn = some column)
    : options.storedKey line table = (tabsepKey options.lineOptions column line).toOption := by
  have same : options.lineOptions.keyColumn = some column := isKey
  simp only [storedKey, lineKey, same, inspect]
  cases tabsepKey options.lineOptions column line <;> rfl

theorem storedKey_automatic (noKey : options.keyColumn = none)
    : options.storedKey line table = some (decimalSigned table.autoRowNumber) := by
  have same : options.lineOptions.keyColumn = none := noKey
  simp only [storedKey, lineKey, same]
  rfl

/-- The condition is about the key the line is stored under. -/
theorem patternSeesKey_iff
    : options.PatternSeesKey fold line table
        ↔ ∃ text key, options.patternText line = some text
          ∧ options.storedKey line table = some key ∧ fold text = fold key := by
  unfold PatternSeesKey
  cases isKey : options.keyColumn with
  | none =>
      rw [storedKey_automatic isKey]
      constructor
      · rintro ⟨text, key, seen, same, rfl⟩
        exact ⟨text, _, seen, rfl, same⟩
      · rintro ⟨text, key, seen, stored, same⟩
        exact ⟨text, key, seen, same, (Option.some.inj stored).symm⟩
  | some column =>
      rw [storedKey_column isKey]
      constructor
      · intro ⟨text, key, seen, same, stored⟩
        exact ⟨text, key, seen, by rw [stored]; rfl, same⟩
      · intro ⟨text, key, seen, stored, same⟩
        cases read : tabsepKey options.lineOptions column line with
        | error fault =>
            rw [read] at stored
            cases stored
        | ok other =>
            rw [read] at stored
            exact ⟨text, key, seen, same, read.trans (congrArg Except.ok (Option.some.inj stored))⟩

/-- A line without a key column is stored under the empty key. -/
theorem storedKey_missing (missing : options.patternText line = none)
    : options.storedKey line table = some [] := by
  rw [patternText, Option.map_eq_none_iff] at missing
  cases isKey : options.keyColumn with
  | none =>
      rw [isKey, Option.getD_none, skipColumns] at missing
      cases missing
  | some column =>
      rw [isKey, Option.getD_some] at missing
      have skipped : skipColumns options.lineOptions.separator column line = none := missing
      rw [storedKey_column isKey, tabsepKey, skipped]
      rfl

-----------------------------------------------------------------------------------------
-- One line
-----------------------------------------------------------------------------------------

/-- Where the pattern sees the key, it decides as the key does. -/
theorem passesPattern_eq (matches' : host.MatchesFolded fold) {pattern : CString}
    (sees : options.PatternSeesKey fold line table)
    : (options.withPattern pattern).passesPattern host line
        = options.keyMatches host pattern line table := by
  obtain ⟨text, key, seen, stored, same⟩ := patternSeesKey_iff.mp sees
  have shown : (options.withPattern pattern).patternText line = some text := seen
  rw [passesPattern, shown, keyMatches, stored, Option.any_some]
  exact matches'.same pattern same

/-- Where it does not, some pattern is decided otherwise: one that only the key or only the text
matches, or one the empty key does not match.
-/
theorem passesPattern_ne (matches' : host.MatchesFolded fold)
    (other : ¬ options.PatternSeesKey fold line table)
    : ∃ pattern, (options.withPattern pattern).passesPattern host line
        ≠ options.keyMatches host pattern line table := by
  rw [patternSeesKey_iff] at other
  have same (pattern : CString)
      : (options.withPattern pattern).patternText line = options.patternText line := rfl
  cases seen : options.patternText line with
  | none =>
      obtain ⟨pattern, only⟩ := matches'.quotes [65]
      have fails : host.stringCaseMatch [] pattern true = false := by
        rw [← Bool.not_eq_true, only]
        intro folded
        cases matches'.empty folded.symm
      refine ⟨pattern, ?_⟩
      rw [passesPattern, same, seen, keyMatches, storedKey_missing seen, Option.any_some, fails]
      exact Bool.noConfusion
  | some text =>
      cases stored : options.storedKey line table with
      | none =>
          obtain ⟨pattern, only⟩ := matches'.quotes text
          refine ⟨pattern, ?_⟩
          rw [passesPattern, same, seen, keyMatches, stored, Option.any_none]
          exact ne_of_eq_of_ne ((only text).mpr rfl) (by decide)
      | some key =>
          obtain ⟨pattern, only⟩ := matches'.quotes key
          have fails : host.stringCaseMatch text pattern true ≠ true :=
            fun matched => other ⟨text, key, seen, stored, (only text).mp matched⟩
          refine ⟨pattern, ?_⟩
          rw [passesPattern, same, seen, keyMatches, stored, Option.any_some, (only key).mpr rfl]
          exact fails

/-- A line the import reads is decided first when it comes first. -/
theorem linesRead_self (read : options.reads host line = true)
    : (line, table) ∈ linesRead host options [line] table := by
  rw [reads, Bool.and_eq_true, Bool.not_eq_true', Bool.not_eq_true'] at read
  rw [linesRead, if_neg (by rw [read.1]; simp), if_neg (by rw [read.2]; simp)]
  exact List.mem_cons_self

/-- Only lines that are neither skipped nor end the input are decided, by induction on the lines. -/
theorem reads_of_linesRead {lines : List CString} {start : CTable creator}
    (member : (line, table) ∈ linesRead host options lines start)
    : options.reads host line = true := by
  induction lines generalizing start with
  | nil => cases member
  | cons first rest ih =>
      rw [linesRead] at member
      split at member
      · cases member
      next going =>
        split at member
        · exact ih member
        next kept =>
          rcases List.mem_cons.mp member with here | later
          · rw [Bool.not_eq_true] at going kept
            rw [(Prod.mk.inj here).1, reads, going, kept]
            rfl
          · split at later
            · split at later
              · exact ih later
              · cases later
            · exact ih later

end ImportOptions

-----------------------------------------------------------------------------------------
-- Imports
-----------------------------------------------------------------------------------------

/-- An import loads exactly the lines whose key matches the pattern where its pattern sees the keys
of all the lines it reads, and decides a line as its key does, whatever the pattern and the input,
exactly where the pattern sees the key.
-/
theorem import_loadsMatching (matches' : host.MatchesFolded fold) (options : ImportOptions creator)
    : (∀ (pattern : CString) (record : Nat) (lines : List CString) (start : CTable creator),
        (∀ entry ∈ linesRead host (options.withPattern pattern) lines start,
          options.PatternSeesKey fold entry.1 entry.2) →
        importLines host (options.withPattern pattern) record lines start
          = loadLines host options.lineOptions record
            (((linesRead host (options.withPattern pattern) lines start).filter
              (fun entry => options.keyMatches host pattern entry.1 entry.2)).map Prod.fst) start)
      ∧ ∀ (line : CString) (table : CTable creator),
        (∀ (pattern : CString) (lines : List CString) (start : CTable creator),
          (line, table) ∈ linesRead host (options.withPattern pattern) lines start →
          (options.withPattern pattern).passesPattern host line
            = options.keyMatches host pattern line table)
        ↔ (options.reads host line = true → options.PatternSeesKey fold line table) := by
  refine ⟨fun pattern record lines start sees => ?_, fun line table => ⟨?_, ?_⟩⟩
  · have same : (linesRead host (options.withPattern pattern) lines start).filter
          ((options.withPattern pattern).passesPattern host ∘ Prod.fst)
        = (linesRead host (options.withPattern pattern) lines start).filter
          (fun entry => options.keyMatches host pattern entry.1 entry.2) :=
      List.filter_congr fun entry member =>
        ImportOptions.passesPattern_eq matches' (sees entry member)
    rw [importLines_loads, List.filter_map, same]
    rfl
  · intro right read
    by_contra other
    obtain ⟨pattern, wrong⟩ := ImportOptions.passesPattern_ne matches' other
    have decided := @ImportOptions.linesRead_self creator host (options.withPattern pattern) line
      table read
    exact wrong (right pattern [line] table decided)
  · intro sees pattern lines start member
    have read : (options.withPattern pattern).reads host line = true :=
      ImportOptions.reads_of_linesRead member
    exact ImportOptions.passesPattern_eq matches' (sees read)

/-- Glob matching sees the folded characters of a text. -/
theorem globHost_matchesFolded : globHost.MatchesFolded (List.map (folded true)) where
  same _ same := Lib.glob_congr same
  quotes text := ⟨quoteText text, fun _ => Lib.glob_quoteText⟩
  empty same := List.map_eq_nil_iff.mp same

/-- Lines of a string and a key. -/
def keySecond : ImportOptions sampleCreator where
  fieldNums := [some (3 : Fin 6), some (0 : Fin 6)]
  pattern := some [107]
  noKeys := false
  separator := [9]
  skip := none
  term := none
  withNulls := false
  quoteType := .none
  nullString := none
  dirty := false

/-- Lines whose first column is the key are loaded as their keys match. -/
theorem import_loadsMatching_keySecond
    : (∀ (pattern : CString) (record : Nat) (lines : List CString)
          (start : CTable sampleCreator),
        (∀ entry ∈ linesRead globHost (keySecond.withPattern pattern) lines start,
          keySecond.PatternSeesKey (List.map (folded true)) entry.1 entry.2) →
        importLines globHost (keySecond.withPattern pattern) record lines start
          = loadLines globHost keySecond.lineOptions record
            (((linesRead globHost (keySecond.withPattern pattern) lines start).filter
              (fun entry => keySecond.keyMatches globHost pattern entry.1 entry.2)).map Prod.fst)
            start)
      ∧ ∀ (line : CString) (table : CTable sampleCreator),
        (∀ (pattern : CString) (lines : List CString) (start : CTable sampleCreator),
          (line, table) ∈ linesRead globHost (keySecond.withPattern pattern) lines start →
          (keySecond.withPattern pattern).passesPattern globHost line
            = keySecond.keyMatches globHost pattern line table)
        ↔ (keySecond.reads globHost line = true →
          keySecond.PatternSeesKey (List.map (folded true)) line table) :=
  import_loadsMatching globHost_matchesFolded keySecond

/-- A line of the text `x` and the key `k` is not loaded with the pattern `k`, though its key
matches.
-/
theorem import_keySecond_skipped
    : keySecond.keyMatches globHost [107] [120, 9, 107] (sampleTable []) = true
      ∧ (match importTabsep globHost (keySecond.withPattern [107]) [[120, 9, 107]]
            (sampleTable []) with
        | .ok (.done none) after => after.llHead.isEmpty && after.count == 0
        | _ => false) = true := by
  decide +kernel

end SpeedTables
