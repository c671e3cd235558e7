import SpeedTables.Lib.TclString

/-! The composite key of a row: in the SQL of the client, in the SQL of the server, and in the
wrapper that `::stapi::extend` puts around a table.
-/

namespace SpeedTables.Stapi

open Lib (Text splitAt)

-----------------------------------------------------------------------------------------
-- Key expressions
-----------------------------------------------------------------------------------------

/-- An element of a key expression: a column, of a named table or not, made text or not, or the SQL
code that a parameter of the URI gives for it.
-/
inductive KeyElement where
  | column (table : Option Text) (name : Text) (asText : Bool)
  | given (sql : Text)

/-- The text of an element. -/
def KeyElement.text : KeyElement → Text
  | .column table name asText =>
      let sql :=
        match table with
        | some table => table ++ ['.'] ++ name
        | none => name
      if asText then "TEXT(".toList ++ sql ++ [')'] else sql
  | .given sql => sql

/-- The SQL of a key: one element, as it is written, or the elements that each `coalesce` has as its
first argument, of texts that are joined by colons.
-/
inductive KeySql where
  | plain (element : KeyElement) (written : Text)
  | joined (arguments : List (List KeyElement))

/-- The text of a key expression. -/
def KeySql.text : KeySql → Text
  | .plain _ written => written
  | .joined arguments =>
      "||':'||".toList.intercalate (arguments.map (fun list =>
        "coalesce(".toList ++ Lib.TclList.format (list.map KeyElement.text) ++ ",'')".toList))

/-- A row: the values of its columns as SQL returns them, what `TEXT` makes of the value of a
column, and the values of SQL code.
-/
structure KeyRow where
  values : Text → Option Text
  asText : Text → Text → Text
  given : Text → Option Text

/-- The value of an element. -/
def KeyElement.value (row : KeyRow) : KeyElement → Option Text
  | .column _ name asText =>
      if asText then (row.values name).map (row.asText name) else row.values name
  | .given sql => row.given sql

/-- The one element of a list. SQL does not read two elements one after the other. -/
def single : List KeyElement → Option KeyElement
  | [element] => some element
  | _ => none

/-- The key that SQL computes, `none` for a syntax error. NULL is returned as an empty text. -/
def KeySql.evaluate (row : KeyRow) : KeySql → Option Text
  | .plain element written =>
      if written = element.text then some ((element.value row).getD []) else none
  | .joined arguments =>
      (arguments.mapM single).map (fun elements =>
        [':'].intercalate (elements.map (fun element => (element.value row).getD [])))

-----------------------------------------------------------------------------------------
-- The client
-----------------------------------------------------------------------------------------

/-- The characters between the names in `_keys`. -/
def separates (c : Char) : Bool :=
  c == '+' || c == ':' || c == ' '

/-- `regsub -all {[+: ]+}` with a colon. The flag tells that a run of separators is under way. -/
def squeeze : Bool → Text → Text
  | _, [] => []
  | inRun, c :: rest =>
      if separates c then (if inRun then squeeze true rest else ':' :: squeeze true rest)
      else c :: squeeze false rest

/-- The name of a type of texts. -/
def varchar : Text := "varchar".toList

/-- The elements that `connect_pgsql` collects for the names of `_keys`. -/
def clientElement (vars field2type : Text → Option Text) (field : Text) : KeyElement :=
  match vars field with
  | some sql => .given sql
  | none =>
      let type := (field2type field).getD varchar
      .column none field (type ≠ varchar ∧ type ≠ "text".toList)

/-- What `connect_pgsql` makes of `_keys`. Its loop over the elements is `foreach element $list`, but
puts `$list` into each `coalesce`.
-/
def clientKeySql (vars field2type : Text → Option Text) (keysParam : Text) : Option KeySql :=
  match splitAt ':' (squeeze false keysParam) with
  | [] => none
  | [key] => some (.plain (.column none key false) key)
  | keys =>
      let list := keys.map (clientElement vars field2type)
      some (.joined (list.map (fun _ => list)))

-----------------------------------------------------------------------------------------
-- The server
-----------------------------------------------------------------------------------------

/-- The element that `from_table` makes of a key, `none` for a key that is no column. -/
def serverElement (toLower : Text → Text) (types : Text → Option Text) (table : Option Text)
    (key : Text) : Option KeyElement :=
  (types key).map (fun type => .column table key (toLower type ≠ varchar))

/-- What `from_table` makes of its keys. A single key is the list of its element, as a string. -/
def serverKeySql (toLower : Text → Text) (types : Text → Option Text) (table : Option Text)
    (keys : List Text) : Option KeySql :=
  (keys.mapM (serverElement toLower types table)).bind (fun elements =>
    match elements with
    | [] => none
    | [element] => some (.plain element (Lib.TclList.format [element.text]))
    | elements => some (.joined (elements.map ([·]))))

-----------------------------------------------------------------------------------------
-- The wrapper
-----------------------------------------------------------------------------------------

/-- `makekey` on the values of the columns. It does not declare the array `separator` of its
namespace, so that two values or more have no separator.
-/
def makekey (keyfields : List Text) (k : Text → Option Text) : Option Text :=
  let separator : Option Text := none
  match keyfields.mapM k with
  | none => none
  | some [] => if (k "_key".toList).isSome then k [] else none
  | some [value] => some value
  | some values =>
      match separator with
      | none => none
      | some separator =>
          if separator = "list".toList then some (Lib.TclList.format values)
          else some (separator.intercalate values)

-----------------------------------------------------------------------------------------
-- When the three keys are the same
-----------------------------------------------------------------------------------------

/-- A name that is one key for the client. -/
def Plain (name : Text) : Prop :=
  name ≠ [] ∧ ∀ c ∈ name, separates c = false

/-- The three generators give the same key. -/
def KeysAgree (vars field2type types : Text → Option Text) (toLower : Text → Text)
    (table : Option Text) (keys : List Text) (row : KeyRow) : Prop :=
  ∃ key, (clientKeySql vars field2type ([':'].intercalate keys)).bind (KeySql.evaluate row)
      = some key
    ∧ (serverKeySql toLower types table keys).bind (KeySql.evaluate row) = some key
    ∧ makekey keys (fun name => some ((row.values name).getD [])) = some key

/-- With all columns given, only a single key makes a key. -/
theorem makekey_iff {keys : List Text} {values : Text → Text} {key : Text} (nonempty : keys ≠ [])
    : makekey keys (fun name => some (values name)) = some key
      ↔ ∃ name, keys = [name] ∧ values name = key := by
  have read : keys.mapM (fun name => some (values name)) = some (keys.map values) := by
    clear nonempty
    induction keys with
    | nil => rfl
    | cons name rest ih => simp [List.mapM_cons, ih]
  rw [makekey, read]
  match keys, nonempty with
  | [name], _ => simp
  | first :: second :: rest, _ => simp

/-- A text without separators stays, and every other text gets a colon. -/
theorem squeeze_iff {text : Text}
    : ':' ∉ squeeze false text ↔ ∀ c ∈ text, separates c = false := by
  induction text with
  | nil => simp [squeeze]
  | cons c rest ih =>
      cases isSeparator : separates c with
      | true => simp [squeeze, isSeparator]
      | false =>
          have notColon : c ≠ ':' := by
            intro same
            rw [same] at isSeparator
            exact absurd isSeparator (by decide)
          simp [squeeze, isSeparator, ih, Ne.symm notColon]

theorem squeeze_plain {text : Text} (plain : ∀ c ∈ text, separates c = false)
    : squeeze false text = text := by
  induction text with
  | nil => rfl
  | cons c rest ih =>
      rw [squeeze, plain c List.mem_cons_self]
      simp [ih (fun d member => plain d (List.mem_cons_of_mem _ member))]

/-- A list in each `coalesce` is read only if it has one element. -/
theorem evaluate_lists {list : List KeyElement} {row : KeyRow} (several : list.length ≠ 1)
    (nonempty : list ≠ [])
    : (KeySql.joined (list.map (fun _ => list))).evaluate row = none := by
  have notSingle : single list = none := by
    unfold single
    split
    · exact absurd rfl several
    · rfl
  cases list with
  | nil => exact absurd rfl nonempty
  | cons first rest => simp [KeySql.evaluate, List.mapM_cons, notSingle]

/-- The client has a key exactly for a single plain name. -/
theorem clientKeySql_iff {vars field2type : Text → Option Text} {keysParam key : Text}
    {row : KeyRow}
    : (clientKeySql vars field2type keysParam).bind (KeySql.evaluate row) = some key
      ↔ Plain keysParam ∧ (row.values keysParam).getD [] = key := by
  by_cases empty : keysParam = []
  · simp [empty, clientKeySql, squeeze, splitAt, Plain]
  by_cases plain : ∀ c ∈ keysParam, separates c = false
  · have noColon : ':' ∉ keysParam := by
      rw [← squeeze_plain plain]
      exact squeeze_iff.mpr plain
    have one : splitAt ':' (squeeze false keysParam) = [keysParam] := by
      rw [squeeze_plain plain, Lib.splitAt_alone noColon empty]
    have isPlain : Plain keysParam := ⟨empty, plain⟩
    simp [clientKeySql, one, KeySql.evaluate, KeyElement.text, KeyElement.value, isPlain]
  · have notPlain : ¬ Plain keysParam := fun isPlain => plain isPlain.2
    have colon : ':' ∈ squeeze false keysParam := not_not.mp (plain ∘ squeeze_iff.mp)
    have several := Lib.splitAt_several colon
    simp only [notPlain, false_and, iff_false]
    unfold clientKeySql
    split
    · simp
    · rename_i one
      simp [one] at several
    · rename_i keys _ _
      rw [Option.bind_some, evaluate_lists]
      · simp
      · rw [List.length_map]
        omega
      · intro none
        rw [List.map_eq_nil_iff] at none
        rw [none] at several
        simp at several

/-- The element of the server for a key of a type. -/
def typedElement (toLower : Text → Text) (table : Option Text) (name type : Text) : KeyElement :=
  .column table name (toLower type ≠ varchar)

theorem serverKeySql_single {toLower : Text → Text} {types : Text → Option Text}
    {table : Option Text} {name type : Text} (known : types name = some type)
    : serverKeySql toLower types table [name]
      = some (.plain (typedElement toLower table name type)
        (Lib.TclList.format [(typedElement toLower table name type).text])) := by
  have element : serverElement toLower types table name
      = some (typedElement toLower table name type) := by
    rw [serverElement, known]
    rfl
  rw [serverKeySql, List.mapM_cons, element]
  rfl

/-- For one key, the server has a key if its SQL is not quoted as a list element. -/
theorem serverKeySql_iff {toLower : Text → Text} {types : Text → Option Text} {table : Option Text}
    {name type key : Text} {row : KeyRow} (known : types name = some type)
    : (serverKeySql toLower types table [name]).bind (KeySql.evaluate row) = some key
      ↔ Lib.TclList.format [(typedElement toLower table name type).text]
          = (typedElement toLower table name type).text
        ∧ ((typedElement toLower table name type).value row).getD [] = key := by
  rw [serverKeySql_single known, Option.bind_some, KeySql.evaluate]
  split
  · rename_i written
    simp only [Option.some.injEq, written, true_and]
  · rename_i quoted
    simp only [reduceCtorEq, quoted, false_and]

/-- The value that the server's SQL returns for a key is the one of the column. -/
def SameText (toLower : Text → Text) (type name : Text) (row : KeyRow) : Prop :=
  toLower type = varchar ∨ ∀ value, row.values name = some value →
    row.asText name value = value

theorem typedElement_value_iff {toLower : Text → Text} {table : Option Text} {name type : Text}
    {row : KeyRow}
    : ((typedElement toLower table name type).value row).getD [] = (row.values name).getD []
      ↔ SameText toLower type name row := by
  unfold typedElement SameText KeyElement.value
  by_cases isVarchar : toLower type = varchar
  · simp [isVarchar]
  · cases found : row.values name <;> simp [isVarchar, found]

/-- The three keys are the same exactly for a single key with a plain name, which the server's SQL
writes as it is and reads as it is.
-/
theorem keysAgree_iff (vars field2type types : Text → Option Text) (toLower : Text → Text)
    (table : Option Text) (keys : List Text) (row : KeyRow) (nonempty : keys ≠ [])
    (known : ∀ name ∈ keys, (types name).isSome)
    : KeysAgree vars field2type types toLower table keys row
      ↔ ∃ name type, keys = [name] ∧ types name = some type ∧ Plain name
        ∧ Lib.TclList.format [(typedElement toLower table name type).text]
          = (typedElement toLower table name type).text
        ∧ SameText toLower type name row := by
  unfold KeysAgree
  simp only [clientKeySql_iff, makekey_iff nonempty]
  constructor
  · intro ⟨key, client, server, name, single, value⟩
    subst single
    obtain ⟨type, isType⟩ := Option.isSome_iff_exists.mp (known name List.mem_cons_self)
    obtain ⟨written, same⟩ := (serverKeySql_iff isType).mp server
    rw [List.intercalate_singleton] at client
    exact ⟨name, type, rfl, isType, client.1, written,
      typedElement_value_iff.mp (same.trans value.symm)⟩
  · intro ⟨name, type, single, isType, plain, written, same⟩
    subst single
    rw [List.intercalate_singleton]
    exact ⟨(row.values name).getD [], ⟨plain, rfl⟩,
      (serverKeySql_iff isType).mpr ⟨written, typedElement_value_iff.mpr same⟩, name, rfl, rfl⟩

/-- A row with the text `a:b` in every column. -/
def colonRow : KeyRow where
  values _ := some ['a', ':', 'b']
  asText _ value := value
  given _ := none

/-- A single key of a type other than varchar. -/
theorem keysAgree_iff_single
    : KeysAgree (fun _ => none) (fun _ => none) (fun _ => some "text".toList) (List.map Char.toLower)
        none [['i', 'd']] colonRow :=
  (keysAgree_iff _ _ _ _ _ _ _ (by decide) (by simp)).mpr
    ⟨['i', 'd'], "text".toList, rfl, rfl, ⟨by decide, by simp [separates]⟩, by decide +kernel,
      .inr fun value found => rfl⟩

/-- Two keys are in no way the same key. -/
theorem keysAgree_two
    : ¬ ∀ (vars field2type types : Text → Option Text) (toLower : Text → Text)
        (table : Option Text) (keys : List Text) (row : KeyRow),
        keys ≠ [] → (∀ name ∈ keys, (types name).isSome) →
        KeysAgree vars field2type types toLower table keys row := by
  intro claim
  obtain ⟨key, -, -, made⟩ := claim (fun _ => none) (fun _ => none)
    (fun _ => some varchar) id none [['a'], ['b']] colonRow (by decide) (by simp)
  have noSeparator : makekey [['a'], ['b']] (fun name => some ((colonRow.values name).getD []))
      = none := by decide +kernel
  rw [noSeparator] at made
  cases made

end SpeedTables.Stapi
