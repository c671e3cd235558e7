import SpeedTables.Table.Commands

/-! The lines `read_tabsep` takes from its channel, and those of them it loads. -/

namespace SpeedTables

variable {creator : CreatorTable}

-----------------------------------------------------------------------------------------
-- Options
-----------------------------------------------------------------------------------------

/-- The arguments of `import_tabsep`, after the field names of a title line have been read.
`fieldNums` has no number for a field that is to be ignored.
-/
structure ImportOptions (creator : CreatorTable) where
  fieldNums : List (Option creator.Field)
  pattern : Option CString
  noKeys : Bool
  separator : CString
  skip : Option CString
  term : Option CString
  withNulls : Bool
  quoteType : QuoteType
  nullString : Option CString
  dirty : Bool

namespace ImportOptions

/-- The column of the key: that of the last key field among the fields, or else the first one. -/
def keyColumn (options : ImportOptions creator) : Option Nat :=
  let numbered := options.fieldNums.zipIdx.reverse
  match numbered.find? (fun entry => entry.1 == some creator.keyField) with
  | some (_, column) => some column
  | none => if options.noKeys then none else some 0

/-- The fields after the key fields have been moved out of the list, which gets shorter by one
however many they are.
-/
def fieldIds (options : ImportOptions creator) : List (Option creator.Field) :=
  let kept := options.fieldNums.filter (· != some creator.keyField)
  if kept.length = options.fieldNums.length then kept
  else (kept ++ options.fieldNums.drop kept.length).take (options.fieldNums.length - 1)

/-- What the lines are read with. -/
def lineOptions (options : ImportOptions creator) : TabsepOptions creator where
  fieldIds := options.fieldIds
  keyColumn := options.keyColumn
  separator := options.separator
  nullString :=
    match options.nullString with
    | some nullString => some nullString
    | none => if options.withNulls then some creator.nullValue else none
  quoteType := options.quoteType
  dirty := options.dirty

/-- Whether a line ends the input: it is empty, or matches the terminator. -/
def endsInput (host : Host) (options : ImportOptions creator) (line : CString) : Bool :=
  line.isEmpty
    || options.term.any (fun term => !term.isEmpty && host.stringCaseMatch line term true)

/-- Whether a line is skipped. -/
def skips (host : Host) (options : ImportOptions creator) (line : CString) : Bool :=
  options.skip.any (host.stringCaseMatch line · false)

/-- The text that is matched with the pattern: the line, cut at the end of its key column. -/
def patternText (options : ImportOptions creator) (line : CString) : Option CString :=
  (skipColumns options.separator (options.keyColumn.getD 0) line).map (fun key =>
    match strstr options.separator key with
    | some (before, _) => line.take (line.length - key.length + before.length)
    | none => line)

/-- Whether a line is loaded. A line without a key column is not matched. -/
def passesPattern (host : Host) (options : ImportOptions creator) (line : CString) : Bool :=
  match options.pattern, options.patternText line with
  | some pattern, some text => host.stringCaseMatch text pattern true
  | _, _ => true

end ImportOptions

-----------------------------------------------------------------------------------------
-- The import
-----------------------------------------------------------------------------------------

/-- How an import ends: with the last automatic key, when keys are automatic, or at a record that
could not be loaded.
-/
inductive ImportEnd where
  | done (lastKey : Option CString)
  | failed (cause : TclError) (record : Nat)

/-- The interpreter result of an import. -/
def ImportEnd.message (library : TclError → String) (text : CString → String) : ImportEnd → String
  | .done lastKey => (lastKey.map text).getD ""
  | .failed cause record =>
      cause.message library text ++ " while reading line " ++ toString record ++ " of input"

/-- Load a line, and keep the error that stops it. -/
def loadLine (host : Host) (options : TabsepOptions creator) (line : CString)
    : TableM creator (Option TclError) :=
  onTclError (do setFromTabsep host options line; pure none) (fun error => pure (some error))

/-- The loop of `import_tabsep` over the lines of its channel, from a record on. Its result is the
error that ended it.
-/
def importLines (host : Host) (options : ImportOptions creator)
    : Nat → List CString → TableM creator (Option (TclError × Nat))
  | _, [] => pure none
  | record, line :: rest =>
      if options.endsInput host line then pure none
      else if options.skips host line then importLines host options record rest
      else if options.passesPattern host line then do
        match ← loadLine host options.lineOptions line with
        | some error => pure (some (error, record))
        | none => importLines host options (record + 1) rest
      else importLines host options record rest

/-- `import_tabsep` -/
def importTabsep (host : Host) (options : ImportOptions creator) (lines : List CString)
    : TableM creator ImportEnd := do
  match ← importLines host options 1 lines with
  | some (cause, record) => pure (.failed cause record)
  | none =>
      let table ← get
      let last := (table.autoRowNumber + 2 ^ 32 - 1) % 2 ^ 32
      pure (.done (if options.noKeys then some (decimalSigned last) else none))

-----------------------------------------------------------------------------------------
-- The lines of an import
-----------------------------------------------------------------------------------------

/-- The lines an import takes from its channel and neither skips nor ends with, each with the table
it is taken in.
-/
def linesRead (host : Host) (options : ImportOptions creator)
    : List CString → CTable creator → List (CString × CTable creator)
  | [], _ => []
  | line :: rest, table =>
      if options.endsInput host line then []
      else if options.skips host line then linesRead host options rest table
      else
        (line, table) ::
          if options.passesPattern host line then
            match loadLine host options.lineOptions line table with
            | .ok none next => linesRead host options rest next
            | _ => []
          else linesRead host options rest table

/-- Load all of some lines, up to the first that fails. -/
def loadLines (host : Host) (options : TabsepOptions creator)
    : Nat → List CString → TableM creator (Option (TclError × Nat))
  | _, [] => pure none
  | record, line :: rest => do
      match ← loadLine host options line with
      | some error => pure (some (error, record))
      | none => loadLines host options (record + 1) rest

/-- An import loads the lines that pass the pattern and no others, by induction on the lines of the
channel.
-/
theorem importLines_loads (host : Host) (options : ImportOptions creator) (record : Nat)
    (lines : List CString) (table : CTable creator)
    : importLines host options record lines table
        = loadLines host options.lineOptions record
          (((linesRead host options lines table).map Prod.fst).filter (options.passesPattern host))
          table := by
  induction lines generalizing record table with
  | nil => rfl
  | cons line rest ih =>
      rw [importLines, linesRead]
      by_cases ended : options.endsInput host line = true
      · rw [if_pos ended, if_pos ended]
        rfl
      rw [if_neg ended, if_neg ended]
      by_cases skipped : options.skips host line = true
      · rw [if_pos skipped, if_pos skipped]
        exact ih record table
      rw [if_neg skipped, if_neg skipped]
      by_cases passes : options.passesPattern host line = true
      · rw [if_pos passes, if_pos passes, List.map_cons, List.filter_cons_of_pos passes, loadLines]
        simp only [bind, EStateM.bind]
        cases loadLine host options.lineOptions line table with
        | error stop next => rfl
        | ok failed next =>
            cases failed with
            | some error => rfl
            | none => exact ih (record + 1) next
      · rw [if_neg passes, if_neg passes, List.map_cons, List.filter_cons_of_neg passes]
        exact ih record table

end SpeedTables
