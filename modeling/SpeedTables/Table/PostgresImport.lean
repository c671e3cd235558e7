import SpeedTables.Table.NullColumns

/-! `import_postgres_result`: the tuples of a query result become rows of the table. -/

namespace SpeedTables.PostgresImport

open Lib

variable {creator : CreatorTable}

-----------------------------------------------------------------------------------------
-- Results of libpq
-----------------------------------------------------------------------------------------

/-- A tuple of a query result, `none` for an SQL NULL. -/
abbrev PgTuple := List (Option CString)

/-- `PQgetvalue`: an SQL NULL is an empty string, not a NULL pointer. -/
def pqGetvalue (tuple : PgTuple) (column : Nat) : Option CString :=
  some ((tuple[column]?.join).getD [])

/-- `PQgetisnull` -/
def pqGetisnull (tuple : PgTuple) (column : Nat) : Bool :=
  (tuple[column]?.join).isNone

/-- The options of an import, and the names of the result's columns. -/
structure PgOptions where
  fieldNames : List CString
  noKeys : Bool
  nocomplain : Bool
  dirty : Bool

/-- The columns of a result: that of the key, and those that are imported with their fields. -/
structure PgColumns (creator : CreatorTable) where
  keyColumn : Option Nat
  fieldList : List (Nat × Option creator.Field)

namespace PgOptions

variable (options : PgOptions)

/-- The first column to be imported: the first of all is the default key column. -/
def firstColumn : Nat := if options.noKeys then 0 else 1

/-- The field of a column, or none at all for a column that is to be ignored. -/
def columnField (creator : CreatorTable) (column : CString × Nat)
    : Except TclError (Nat × Option creator.Field) :=
  match creator.fieldNumber column.1 with
  | some field => .ok (column.2, some field)
  | none => if options.nocomplain then .ok (column.2, none) else .error (.badField column.1)

/-- The columns that are found when the first result arrives. The last column of the key field is
that of the key.
-/
def columns (creator : CreatorTable) : Except TclError (PgColumns creator) := do
  let fieldList ←
    (options.fieldNames.zipIdx.drop options.firstColumn).mapM (options.columnField creator)
  let named := fieldList.reverse.find? (fun entry => entry.2 == some creator.keyField)
  let keyColumn :=
    match named with
    | some (column, _) => some column
    | none => if options.noKeys then none else some 0
  pure { keyColumn := keyColumn, fieldList := fieldList }

end PgOptions

-----------------------------------------------------------------------------------------
-- The import
-----------------------------------------------------------------------------------------

/-- Where an import fails. Tcl panics where a value is written into an object that others hold. -/
inductive PgFailure where
  | matching (cause : TclError)
  | saving (cause : TclError)
  | settingNull (cause : TclError)
  | setting (cause : TclError)
  | indexing (cause : TclError)
  | tclPanic

/-- How an import ends: with the last automatic key, when keys are automatic, or with an error. -/
inductive PgEnd where
  | done (key : Option CString)
  | failed (failure : PgFailure)

/-- Run an action, and keep the error that it ends with. -/
def attempt {α : Type} (wrap : TclError → PgFailure) (action : TableM creator α)
    : TableM creator (Except PgFailure α) :=
  onTclError (do let a ← action; pure (.ok a)) (fun error => pure (.error (wrap error)))

/-- The next action, unless one before has failed. -/
def andThen {α β : Type} (action : TableM creator (Except PgFailure α))
    (next : α → TableM creator (Except PgFailure β)) : TableM creator (Except PgFailure β) := do
  match ← action with
  | .error failure => pure (.error failure)
  | .ok a => next a

/-- The cells that hold the object `utilityObj`, into which each value is written. -/
abbrev Holders (creator : CreatorTable) := List (RowId × creator.Field)

/-- `Tcl_SetStringObj` of an object that cells of tclobj fields hold changes their value. -/
def overwrite (holders : Holders creator) (value : CString) : TableM creator Unit :=
  holders.forM fun (id, field) =>
    if isObj : creator.type field = .tclobj then
      putCell field id
        (cast (congrArg Cell isObj.symm)
          ({ value := some value, isNull := false } : Cell .tclobj))
    else pure ()

/-- The cells that hold the object behind a `set`: a tclobj field holds it itself. -/
def holdersAfter (holders : Holders creator) (id : RowId) (field : creator.Field)
    (value : CString) : Holders creator :=
  if creator.type field = .tclobj then
    let others := holders.filter (· ≠ (id, field))
    if !(creator.fields field).notnull && creator.objIsNull value then others
    else others ++ [(id, field)]
  else holders

/-- How the key of a tuple is taken, and how a column is stored in the field of a row. -/
structure ImportRules (creator : CreatorTable) where
  key : Option Nat → PgTuple → TableM creator CString
  set : Holders creator → IndexCtl → RowId → PgTuple → Nat → creator.Field →
    TableM creator (Except PgFailure (Holders creator))

/-- The key of a tuple, or the next automatic one. -/
def tupleKey (keyColumn : Option Nat) (tuple : PgTuple) : TableM creator CString :=
  match keyColumn with
  | none => nextAutoKey decimalSigned
  | some column => pure ((pqGetvalue tuple column).getD [])

/-- A `set` whose result is not looked at. -/
def setUnchecked (host : Host) (ctl : IndexCtl) (id : RowId) (field : creator.Field)
    (value : CString) : TableM creator Unit :=
  onTclError (setField host ctl id field value) (fun _ => pure ())

/-- The body of the loop over the fields. -/
def setColumn (host : Host) (holders : Holders creator) (ctl : IndexCtl) (id : RowId)
    (tuple : PgTuple) (column : Nat) (field : creator.Field)
    : TableM creator (Except PgFailure (Holders creator)) :=
  match pqGetvalue tuple column with
  | some value =>
      if 2 ≤ holders.length then pure (.error .tclPanic)
      else do
        overwrite holders value
        setUnchecked host ctl id field value
        pure (.ok (holdersAfter holders id field value))
  | none =>
      if pqGetisnull tuple column then
        attempt .settingNull (do setNull host id field; pure holders)
      else do
        setUnchecked host ctl id field []
        pure (.ok holders)

section

variable (host : Host) (rules : ImportRules creator)

/-- The loop over the fields: all but the key column and those that are to be ignored. -/
def setColumns (keyColumn : Option Nat) (ctl : IndexCtl) (id : RowId) (tuple : PgTuple)
    : Holders creator → List (Nat × Option creator.Field) →
      TableM creator (Except PgFailure (Holders creator))
  | holders, [] => pure (.ok holders)
  | holders, (_, none) :: rest => setColumns keyColumn ctl id tuple holders rest
  | holders, (column, some field) :: rest =>
      if keyColumn = some column then setColumns keyColumn ctl id tuple holders rest
      else
        andThen (rules.set holders ctl id tuple column field) fun holders =>
          setColumns keyColumn ctl id tuple holders rest

/-- The row of a tuple's key. -/
def saveRow (keyColumn : Option Nat) (tuple : PgTuple)
    : TableM creator (Except PgFailure (CString × RowId × IndexCtl)) :=
  attempt .saving (do
    let key ← rules.key keyColumn tuple
    let row ← findOrCreate host key
    pure (key, row))

/-- The end of a row, which is dirty on request. -/
def endRow (dirty : Bool) (ctl : IndexCtl) (id : RowId) : TableM creator Unit := do
  if dirty then setDirty id else pure ()
  finishRow host ctl id

/-- The body of the loop over the tuples, with the key. -/
def importTuple (dirty : Bool) (columns : PgColumns creator) (holders : Holders creator)
    (tuple : PgTuple) : TableM creator (Except PgFailure (Holders creator × CString)) :=
  andThen (saveRow host rules columns.keyColumn tuple) fun (key, id, ctl) =>
    andThen (setColumns rules columns.keyColumn ctl id tuple holders columns.fieldList)
      fun holders =>
        attempt .indexing (do endRow host dirty ctl id; pure (holders, key))

/-- The loop over the tuples, with the last key. -/
def importTuples (dirty : Bool) (columns : PgColumns creator)
    : Holders creator → Option CString → List PgTuple →
      TableM creator (Except PgFailure (Option CString))
  | _, last, [] => pure (.ok last)
  | holders, _, tuple :: rest =>
      andThen (importTuple host rules dirty columns holders tuple) fun (holders, key) =>
        importTuples dirty columns holders (some key) rest

/-- `import_postgres_result`, by the rules. -/
def importWith (options : PgOptions) (tuples : List PgTuple) : TableM creator PgEnd :=
  match options.columns creator with
  | .error cause => pure (.failed (.matching cause))
  | .ok columns => do
      match ← importTuples host rules options.dirty columns [] none tuples with
      | .error failure => pure (.failed failure)
      | .ok last => pure (.done (if options.noKeys then last else none))

end

/-- `import_postgres_result` -/
def importPostgresResult (host : Host) (options : PgOptions) (tuples : List PgTuple)
    : TableM creator PgEnd :=
  importWith host { key := tupleKey, set := setColumn host } options tuples

-----------------------------------------------------------------------------------------
-- What an import is for
-----------------------------------------------------------------------------------------

/-- The key of a tuple, which is no SQL NULL. -/
def ownKey (keyColumn : Option Nat) (tuple : PgTuple) : TableM creator CString :=
  match keyColumn with
  | none => nextAutoKey decimalSigned
  | some column =>
      match tuple[column]?.join with
      | some key => pure key
      | none => fail (.nullNonNull (creator.fields creator.keyField).name)

/-- A null is set as the null value of the table is, in a field that takes nulls. -/
def nullField (host : Host) (ctl : IndexCtl) (id : RowId) (field : creator.Field)
    : TableM creator Unit :=
  if field = creator.keyField ∨ (creator.fields field).notnull = true then
    fail (.nullNonNull (creator.fields field).name)
  else setField host ctl id field creator.nullValue

/-- A value is set, an SQL NULL makes the field null, and an error ends the import. -/
def setOrNull (host : Host) (holders : Holders creator) (ctl : IndexCtl) (id : RowId)
    (tuple : PgTuple) (column : Nat) (field : creator.Field)
    : TableM creator (Except PgFailure (Holders creator)) :=
  match tuple[column]?.join with
  | some value => attempt .setting (do setField host ctl id field value; pure holders)
  | none => attempt .settingNull (do nullField host ctl id field; pure holders)

/-- The import that sets each value and nulls each SQL NULL, or ends with an error. -/
def importAllOrError (host : Host) (options : PgOptions) (tuples : List PgTuple)
    : TableM creator PgEnd :=
  importWith host { key := ownKey, set := setOrNull host } options tuples

/-- An SQL NULL is for a field that takes nulls, of a table whose null value is the empty string. -/
def NullFits (tuple : PgTuple) (column : Nat) (field : creator.Field) : Prop :=
  tuple[column]?.join = none →
    field ≠ creator.keyField ∧ (creator.fields field).notnull = false ∧ creator.nullValue = []

/-- Each column is accepted by its field where it is set, and is not for a tclobj field. -/
def ColumnsAccepted (host : Host) (keyColumn : Option Nat) (ctl : IndexCtl) (id : RowId)
    (tuple : PgTuple) : List (Nat × Option creator.Field) → CTable creator → Prop
  | [], _ => True
  | (_, none) :: rest, table => ColumnsAccepted host keyColumn ctl id tuple rest table
  | (column, some field) :: rest, table =>
      if keyColumn = some column then ColumnsAccepted host keyColumn ctl id tuple rest table
      else
        NullFits tuple column field
        ∧ creator.type field ≠ .tclobj
        ∧ (∀ error after, setField host ctl id field ((tuple[column]?.join).getD []) table
          ≠ .error (.tcl error) after)
        ∧ ∀ after, setField host ctl id field ((tuple[column]?.join).getD []) table = .ok () after →
            ColumnsAccepted host keyColumn ctl id tuple rest after

/-- The rules of the import as it is. -/
def codeRules (host : Host) : ImportRules creator :=
  { key := tupleKey, set := setColumn host }

/-- Each tuple is accepted where it is imported: its key is no SQL NULL, and its columns fit. -/
def TuplesAccepted (host : Host) (dirty : Bool) (columns : PgColumns creator)
    : List PgTuple → CTable creator → Prop
  | [], _ => True
  | tuple :: rest, table =>
      (∀ column, columns.keyColumn = some column → tuple[column]?.join ≠ none)
      ∧ (∀ key id ctl saved,
          saveRow host (codeRules host) columns.keyColumn tuple table
            = .ok (.ok (key, id, ctl)) saved →
          ColumnsAccepted host columns.keyColumn ctl id tuple columns.fieldList saved)
      ∧ ∀ holders key after,
          importTuple host (codeRules host) dirty columns [] tuple table
            = .ok (.ok (holders, key)) after →
          TuplesAccepted host dirty columns rest after

/-- The tuples are accepted by the columns of the import, if these are known. -/
def Accepted (host : Host) (options : PgOptions) (tuples : List PgTuple) (table : CTable creator)
    : Prop :=
  ∀ columns, options.columns creator = .ok columns →
    TuplesAccepted host options.dirty columns tuples table

-----------------------------------------------------------------------------------------
-- The import as it is
-----------------------------------------------------------------------------------------

/-- The rules of the import as it is meant. -/
def meantRules (host : Host) : ImportRules creator :=
  { key := ownKey, set := setOrNull host }

variable {host : Host} {tuple : PgTuple} {table : CTable creator}

/-- A null that is set leaves the field of its row null. -/
theorem nullField_null {ctl : IndexCtl} {id : RowId} {field : creator.Field} {row : Row creator}
    (found : table.rows id = some row)
    : wp (nullField host ctl id field)
        (fun _ after => ∃ now, after.rows id = some now ∧ (now.cells field).isNull = true)
        (fun _ _ => True) table := by
  rw [nullField]
  split
  · trivial
  next takes =>
    have notKey : field ≠ creator.keyField := fun isKey => takes (.inl isKey)
    have nullable : (creator.fields field).notnull = false :=
      Bool.eq_false_iff.mpr fun notnull => takes (.inr notnull)
    refine wp_mono (setField_leaves notKey found) ?_ (fun _ _ _ => trivial)
    intro _ after ⟨now, there, leaves⟩
    refine ⟨now, there, ?_⟩
    rw [cellSet_null nullable leaves]
    exact decide_eq_true rfl

/-- An attempt has the value of its action, whatever it computes before. -/
theorem attempt_value {α : Type} {wrap : TclError → PgFailure} {action : TableM creator Unit}
    {value ended : α} {after : CTable creator}
    (ends : attempt wrap (do action; pure value) table = .ok (.ok ended) after)
    : ended = value ∧ action table = .ok () after := by
  simp only [attempt, onTclError, bind, EStateM.bind, pure, EStateM.pure] at ends
  cases ran : action table with
  | ok _ later =>
      rw [ran] at ends
      cases ends
      exact ⟨rfl, rfl⟩
  | error stop later =>
      rw [ran] at ends
      cases stop <;> cases ends

/-- A `set` that is not refused needs no check. -/
theorem setUnchecked_eq {ctl : IndexCtl} {id : RowId} {field : creator.Field} {text : CString}
    {wrap : TclError → PgFailure} {α : Type} (value : α)
    (accepted : ∀ error after, setField host ctl id field text table ≠ .error (.tcl error) after)
    : (do setUnchecked host ctl id field text; pure (.ok value)
        : TableM creator (Except PgFailure α)) table
      = attempt wrap (do setField host ctl id field text; pure value) table := by
  simp only [attempt, setUnchecked, onTclError, bind, EStateM.bind, pure, EStateM.pure]
  cases stored : setField host ctl id field text table with
  | ok _ after => rfl
  | error stop after =>
      cases stop with
      | tcl error => exact absurd stored (accepted error after)
      | fault fault => rfl

/-- Without a tclobj field, no cell holds the object of the values. -/
theorem setColumn_plain {ctl : IndexCtl} {id : RowId} {column : Nat} {field : creator.Field}
    (plain : creator.type field ≠ .tclobj)
    : setColumn host [] ctl id tuple column field = (do
        setUnchecked host ctl id field ((tuple[column]?.join).getD [])
        pure (.ok [])) := by
  have unheld (value : CString) : holdersAfter [] id field value = [] := by
    rw [holdersAfter, if_neg plain]
  simp only [setColumn, pqGetvalue, unheld]
  rfl

/-- A column that is accepted is stored as it is meant, and its object is not kept. -/
theorem setColumn_eq {ctl : IndexCtl} {id : RowId} {column : Nat} {field : creator.Field}
    (fits : NullFits tuple column field) (plain : creator.type field ≠ .tclobj)
    (accepted : ∀ error after, setField host ctl id field ((tuple[column]?.join).getD []) table
      ≠ .error (.tcl error) after)
    : setColumn host [] ctl id tuple column field table
        = setOrNull host [] ctl id tuple column field table
      ∧ ∀ holders after,
          setColumn host [] ctl id tuple column field table = .ok (.ok holders) after →
          holders = []
          ∧ setField host ctl id field ((tuple[column]?.join).getD []) table = .ok () after := by
  have checked (wrap : TclError → PgFailure) :=
    @setUnchecked_eq creator host table ctl id field _ wrap (Holders creator) [] accepted
  rw [setColumn_plain plain]
  refine ⟨?_, fun holders after ends => ?_⟩
  · rw [setOrNull]
    cases value : tuple[column]?.join with
    | some text =>
        rw [value] at checked
        exact checked .setting
    | none =>
        obtain ⟨notKey, takesNull, empty⟩ := fits value
        have nulls : nullField host ctl id field = setField host ctl id field [] := by
          rw [nullField, if_neg (by simp [notKey, takesNull]), empty]
        rw [value] at checked
        simp only [nulls]
        exact checked .settingNull
  · rw [checked .setting] at ends
    exact attempt_value ends

/-- Columns that are accepted are stored as they are meant, by induction on them. -/
theorem setColumns_eq {keyColumn : Option Nat} {ctl : IndexCtl} {id : RowId}
    {fieldList : List (Nat × Option creator.Field)}
    (accepted : ColumnsAccepted host keyColumn ctl id tuple fieldList table)
    : setColumns (codeRules host) keyColumn ctl id tuple [] fieldList table
        = setColumns (meantRules host) keyColumn ctl id tuple [] fieldList table
      ∧ ∀ holders after, setColumns (codeRules host) keyColumn ctl id tuple [] fieldList table
          = .ok (.ok holders) after → holders = [] := by
  induction fieldList generalizing table with
  | nil => exact ⟨rfl, fun holders after same => by cases same; rfl⟩
  | cons entry rest ih =>
      obtain ⟨column, field⟩ := entry
      cases field with
      | none => exact ih accepted
      | some field =>
          rw [ColumnsAccepted] at accepted
          rw [setColumns, setColumns]
          by_cases isKey : keyColumn = some column
          · rw [if_pos isKey] at accepted ⊢
            rw [if_pos isKey]
            exact ih accepted
          · rw [if_neg isKey] at accepted ⊢
            rw [if_neg isKey]
            obtain ⟨fits, plain, sets, follows⟩ := accepted
            obtain ⟨same, stored⟩ := setColumn_eq fits plain sets
            have codeSet : (codeRules host).set [] ctl id tuple column field table
                = setColumn host [] ctl id tuple column field table := rfl
            have meantSet : (meantRules host).set [] ctl id tuple column field table
                = setColumn host [] ctl id tuple column field table := same.symm
            simp only [andThen, bind, EStateM.bind, codeSet, meantSet]
            cases ran : setColumn host [] ctl id tuple column field table with
            | error stop after => exact ⟨rfl, nofun⟩
            | ok result after =>
                cases result with
                | error failure => exact ⟨rfl, nofun⟩
                | ok holders =>
                    obtain ⟨rfl, set⟩ := stored holders after ran
                    exact ih (follows after set)

/-- A tuple that is accepted is imported as it is meant. -/
theorem importTuple_eq {dirty : Bool} {columns : PgColumns creator}
    (named : ∀ column, columns.keyColumn = some column → tuple[column]?.join ≠ none)
    (accepted : ∀ key id ctl saved,
      saveRow host (codeRules host) columns.keyColumn tuple table = .ok (.ok (key, id, ctl)) saved →
      ColumnsAccepted host columns.keyColumn ctl id tuple columns.fieldList saved)
    : importTuple host (codeRules host) dirty columns [] tuple table
        = importTuple host (meantRules host) dirty columns [] tuple table
      ∧ ∀ holders key after, importTuple host (codeRules host) dirty columns [] tuple table
          = .ok (.ok (holders, key)) after → holders = [] := by
  have keys : @tupleKey creator columns.keyColumn tuple = ownKey columns.keyColumn tuple := by
    cases column : columns.keyColumn with
    | none => rfl
    | some number =>
        cases value : tuple[number]?.join with
        | none => exact absurd value (named number column)
        | some key => simp [tupleKey, ownKey, pqGetvalue, value]
  have rows : saveRow host (codeRules host) columns.keyColumn tuple table
      = saveRow host (meantRules host) columns.keyColumn tuple table := by
    simp only [saveRow, codeRules, meantRules, keys]
  simp only [importTuple, andThen, bind, EStateM.bind, ← rows]
  cases saved : saveRow host (codeRules host) columns.keyColumn tuple table with
  | error stop after => exact ⟨rfl, nofun⟩
  | ok result after =>
      cases result with
      | error cause => exact ⟨rfl, nofun⟩
      | ok row =>
          obtain ⟨key, id, ctl⟩ := row
          obtain ⟨stored, unheld⟩ := setColumns_eq (accepted key id ctl after saved)
          simp only [EStateM.bind, ← stored]
          cases ran : setColumns (codeRules host) columns.keyColumn ctl id tuple []
              columns.fieldList after with
          | error stop later => exact ⟨trivial, nofun⟩
          | ok result later =>
              cases result with
              | error failure => exact ⟨trivial, nofun⟩
              | ok holders =>
                  obtain rfl := unheld holders later ran
                  refine ⟨trivial, fun holders key final ends => ?_⟩
                  exact (Prod.ext_iff.1 (attempt_value ends).1).1

/-- The loop over tuples that are accepted, by induction on them. -/
theorem importTuples_eq {dirty : Bool} {columns : PgColumns creator} {last : Option CString}
    {tuples : List PgTuple} (accepted : TuplesAccepted host dirty columns tuples table)
    : importTuples host (codeRules host) dirty columns [] last tuples table
      = importTuples host (meantRules host) dirty columns [] last tuples table := by
  induction tuples generalizing last table with
  | nil => rfl
  | cons tuple rest ih =>
      obtain ⟨named, fits, follows⟩ := accepted
      obtain ⟨same, unheld⟩ := @importTuple_eq creator host tuple table dirty columns named fits
      rw [importTuples, importTuples]
      simp only [andThen, bind, EStateM.bind, ← same]
      cases ran : importTuple host (codeRules host) dirty columns [] tuple table with
      | error stop after => rfl
      | ok result after =>
          cases result with
          | error failure => rfl
          | ok ends =>
              obtain ⟨holders, key⟩ := ends
              obtain rfl := unheld holders key after ran
              exact ih (follows [] key after ran)

/-- An import whose tuples are accepted does what it is for: it sets each value and nulls each SQL
NULL, or ends with the same error.
-/
theorem import_setsAll (host : Host) (options : PgOptions) (tuples : List PgTuple)
    (table : CTable creator) (accepted : Accepted host options tuples table)
    : importPostgresResult host options tuples table
      = importAllOrError host options tuples table := by
  change importWith host (codeRules host) options tuples table
    = importWith host (meantRules host) options tuples table
  rw [importWith, importWith]
  cases known : options.columns creator with
  | error cause => rfl
  | ok columns =>
      have same := @importTuples_eq creator host table options.dirty columns none tuples
        (accepted columns known)
      simp only [bind, EStateM.bind, same]

/-- A result with a key column and the number of the sample table. -/
def sampleOptions : PgOptions where
  fieldNames := [[107], [110]]
  noKeys := false
  nocomplain := false
  dirty := false

/-- Whether the number of a saved row takes the empty string without an error of Tcl. -/
def numberTakesEmpty (made : Except PgFailure (CString × RowId × IndexCtl))
    (saved : CTable sampleCreator) : Bool :=
  match made with
  | .error _ => false
  | .ok (_, id, ctl) =>
      !endsInError (fun _ => true) (setField sampleHost ctl id (1 : Fin 6) [] saved)

/-- An SQL NULL becomes a null of the number. -/
theorem import_setsAll_null
    : importPostgresResult sampleHost sampleOptions [[some [97], none]]
        (CTable.empty sampleCreator false false)
      = importAllOrError sampleHost sampleOptions [[some [97], none]]
          (CTable.empty sampleCreator false false) := by
  refine import_setsAll sampleHost sampleOptions [[some [97], none]] _ ?_
  intro columns known
  obtain rfl : { keyColumn := some 0, fieldList := [(1, some (1 : Fin 6))] } = columns :=
    Except.ok.inj known
  refine ⟨?_, ?_, fun _ _ _ _ => trivial⟩
  · intro column isKey
    obtain rfl := Option.some.inj isKey
    exact fun absent => by cases absent
  · intro key id ctl saved made
    have outcome : endsWell numberTakesEmpty (saveRow sampleHost (codeRules sampleHost)
        (some 0) [some [97], none] (CTable.empty sampleCreator false false)) = true := by
      decide +kernel
    rw [made] at outcome
    have apart : (1 : Fin 6) ≠ 0 := by decide
    refine ⟨fun _ => ⟨apart, rfl, rfl⟩, by decide, ?_, fun _ _ => trivial⟩
    intro error after failed
    have failed : setField sampleHost ctl id (1 : Fin 6) [] saved = .error (.tcl error) after :=
      failed
    simp only [endsWell, numberTakesEmpty, failed] at outcome
    cases outcome

/-- Whether an import ends without an error. -/
def endsDone (result : EStateM.Result Stop (CTable sampleCreator) PgEnd) : Bool :=
  match result with
  | .ok (.done _) _ => true
  | _ => false

/-- A value that is no number is dropped, and the import is done. -/
theorem import_dropsValue
    : ¬ ∀ (host : Host) (options : PgOptions) (tuples : List PgTuple)
        (table after : CTable sampleCreator) (last : Option CString),
        importPostgresResult host options tuples table = .ok (.done last) after →
        importAllOrError host options tuples table = .ok (.done last) after := by
  intro claim
  have outcome : endsDone (importPostgresResult sampleHost sampleOptions
        [[some [97], some [120]]] (CTable.empty sampleCreator false false)) = true
      ∧ endsDone (importAllOrError sampleHost sampleOptions
        [[some [97], some [120]]] (CTable.empty sampleCreator false false)) = false := by
    decide +kernel
  obtain ⟨done, fails⟩ := outcome
  cases ran : importPostgresResult sampleHost sampleOptions [[some [97], some [120]]]
      (CTable.empty sampleCreator false false) with
  | error stop after =>
      rw [ran] at done
      cases done
  | ok ending after =>
      cases ending with
      | failed failure =>
          rw [ran] at done
          cases done
      | done last =>
          rw [claim _ _ _ _ _ _ ran] at fails
          cases fails

end SpeedTables.PostgresImport
