import Mathlib
import SpeedTables.Lib.PercentCode

/-! The URIs of SQL tables: how `make_sql_uri` writes them, and how they are taken apart. -/

namespace SpeedTables.Stapi

open Lib (Text replaceAll cutAt splitAt)
open Lib.PercentCode

-----------------------------------------------------------------------------------------
-- Escaping
-----------------------------------------------------------------------------------------

/-- The characters that `uri_esc` always escapes. -/
def alwaysEscaped : Text :=
  ['%', '"', Char.ofNat 39, '<', '>', ' ']

/-- `uri_esc`, without the command of Rivet: one `regsub` for each character to escape. -/
def uriEsc (string extra : Text) : Text :=
  (alwaysEscaped ++ extra).foldl (fun string c => replaceAll [c] (code c) string) string

/-- The characters that `subst` evaluates, as `uri_unesc` lists them. -/
def evaluated : Text := ['\\', '\\', '$', '[']

/-- The first substitutions of `uri_unesc`, after which only the `format` commands that it writes
itself have a meaning for `subst`.
-/
def uriInert (string : Text) : Text :=
  evaluated.foldl (fun string c => replaceAll [c] (code c) string) string

/-- `uri_unesc`, without the command of Rivet: `subst` evaluates a `format` command for each
code.
-/
def uriUnesc (string : Text) : Text :=
  decode (uriInert string)

-----------------------------------------------------------------------------------------
-- Writing
-----------------------------------------------------------------------------------------

/-- The local variables of `make_sql_uri`. The lists are unset while they are empty. -/
structure UriParts where
  cols : List Text
  host : Option Text
  user : Option Text
  pass : Option Text
  db : Option Text
  params : List Text

def UriParts.initial : UriParts where
  cols := []
  host := none
  user := none
  pass := none
  db := none
  params := []

/-- The separators of the address. -/
def addressExtra : Text := ['@', '/', ':']

/-- The separators of the path. -/
def pathExtra : Text := ['/', '?']

/-- The `switch` over the options. Its patterns are compared as they are written, so that `-*` and
`*` stand for the options of these names only. The result is `none` where a value is no list.
-/
def UriParts.readOption (parts : UriParts) (opt val : Text) : Option UriParts :=
  if opt = ['c', 'o', 'l', 's'] then
    (Lib.TclList.parse val).map (fun columns =>
      { parts with cols := parts.cols ++ columns.map (uriEsc · pathExtra) })
  else if opt = ['h', 'o', 's', 't'] then some { parts with host := some (uriEsc val addressExtra) }
  else if opt = ['u', 's', 'e', 'r'] then some { parts with user := some (uriEsc val addressExtra) }
  else if opt = ['p', 'a', 's', 's'] then some { parts with pass := some (uriEsc val addressExtra) }
  else if opt = ['d', 'b'] then some { parts with db := some (uriEsc val addressExtra) }
  else if opt = ['k', 'e', 'y', 's'] then
    (Lib.TclList.parse val).map (fun keys =>
      { parts with
        params := parts.params
          ++ [uriEsc (['_', 'k', 'e', 'y', 's', '='] ++ [':'].intercalate keys) ['&']] })
  else if opt = ['k', 'e', 'y'] then
    some { parts with params := parts.params ++ [uriEsc (['_', 'k', 'e', 'y', '='] ++ val) ['&']] }
  else if opt = ['-', '*'] then
    some { parts with
      params := parts.params ++ [uriEsc opt.tail ['&', '='] ++ '=' :: uriEsc val ['&']] }
  else if opt = ['*'] then
    some { parts with
      params := parts.params ++ [uriEsc opt ['&', '='] ++ '=' :: uriEsc val ['&']] }
  else some parts

/-- The loop over the arguments. An option without a value has an empty one. -/
def UriParts.readArgs : List Text → UriParts → Option UriParts
  | [], parts => some parts
  | ['-' :: opt], parts => parts.readOption opt []
  | ('-' :: opt) :: val :: args, parts => (parts.readOption opt val).bind (readArgs args)
  | arg :: args, parts => readArgs args { parts with cols := parts.cols ++ [uriEsc arg pathExtra] }

/-- The address of the URI. -/
def UriParts.address (parts : UriParts) : Text :=
  let login :=
    match parts.user with
    | some user =>
        user
          ++ (match parts.pass with
            | some pass => ':' :: pass
            | none => [])
          ++ ['@']
    | none => []
  let host :=
    match parts.host with
    | some host => host ++ [':']
    | none => []
  login ++ host ++ parts.db.getD []

/-- The table, its columns and the parameters. -/
def UriParts.path (parts : UriParts) (table : Text) : Text :=
  let columns := if parts.cols = [] then [] else '/' :: ['/'].intercalate parts.cols
  let params := if parts.params = [] then [] else '?' :: ['&'].intercalate parts.params
  uriEsc table pathExtra ++ columns ++ params

/-- `make_sql_uri` -/
def makeSqlUri (table : Text) (args : List Text) : Option Text :=
  (UriParts.initial.readArgs args).map (fun parts =>
    ['s', 'q', 'l', ':', '/', '/'] ++ parts.address ++ '/' :: parts.path table)

-----------------------------------------------------------------------------------------
-- Taking apart
-----------------------------------------------------------------------------------------

/-- The pattern of `connect`: the method, the address and the path. -/
def connectUri (uri : Text) : Option (Text × Text × Text) :=
  match cutAt ':' uri with
  | some (method, '/' :: '/' :: rest) =>
      if method = [] then none
      else some (method, rest.takeWhile (· ≠ '/'),
        (rest.dropWhile (· ≠ '/')).dropWhile (· = '/'))
  | _ => none

/-- The second pattern of `connect_pgsql`: the table and the path of its columns. Without a slash
after its name, a leading slash ends an empty name.
-/
def splitPath (table : Text) : Text × Text :=
  let named := table.dropWhile (· = '/')
  match cutAt '/' named with
  | some (name, path) => (name, path)
  | none => if table.head? = some '/' then ([], named) else (table, [])

/-- What `connect_pgsql` finds in its path. The arrays are given by the assignments to them. -/
structure SqlSource where
  table : Text
  rawFields : List Text
  field2type : List (Text × Text)
  vars : List (Text × Text)

/-- A field of the path, with its type. -/
def readField (field : Text) : Text × Option Text :=
  match cutAt ':' (uriUnesc field) with
  | some (name, type) => (name, some type)
  | none => (uriUnesc field, none)

/-- A parameter of the path. -/
def readParam (param : Text) : Text × Text :=
  match cutAt '=' param with
  | some (name, val) => (uriUnesc name, uriUnesc val)
  | none => (uriUnesc param, [])

/-- The part of `connect_pgsql` that takes the path apart. The columns of a table come from the
database.
-/
def connectPgsql (getColumns : Text → List (Text × Text)) (table : Text) : SqlSource :=
  let (table, params) := (cutAt '?' table).getD (table, [])
  let (table, path) := splitPath table
  let table := uriUnesc table
  let fields := (splitAt '/' path).map readField
  { table := table
    rawFields :=
      if fields = [] then (getColumns table).map Prod.fst else fields.map Prod.fst
    field2type :=
      getColumns table ++ fields.filterMap (fun field => field.2.map (fun type => (field.1, type)))
    vars := (splitAt '&' params).map readParam }

/-- `connect` with a URI for which `connect_pgsql` is registered. -/
def connectSql (getColumns : Text → List (Text × Text)) (uri : Text) : Option SqlSource :=
  match connectUri uri with
  | some (method, _, path) =>
      if method = ['s', 'q', 'l'] then some (connectPgsql getColumns path) else none
  | none => none

-----------------------------------------------------------------------------------------
-- What is escaped and read back
-----------------------------------------------------------------------------------------

/-- The characters that are escaped with some extra ones. -/
def escapes (extra : Text) (c : Char) : Bool :=
  c == '%' || (alwaysEscaped.tail ++ extra).contains c

variable {string extra : Text}

theorem always_separable : ∀ c ∈ alwaysEscaped.tail, Separable c := separable_of_all rfl

theorem evaluated_separable : ∀ c ∈ evaluated, Separable c := separable_of_all rfl

theorem pathExtra_separable : ∀ c ∈ pathExtra, Separable c := separable_of_all rfl

theorem escapes_small (separable : ∀ c ∈ extra, Separable c) {c : Char}
    (escaped : escapes extra c = true)
    : c.toNat < 256 := by
  simp only [escapes, Bool.or_eq_true, beq_iff_eq, List.contains_iff_mem, List.mem_append]
    at escaped
  rcases escaped with same | always | more
  · rw [same]
    decide
  · exact (always_separable c always).2.2
  · exact (separable c more).2.2

/-- The substitutions of `uri_esc` together escape each special character once. -/
theorem uriEsc_eq (separable : ∀ c ∈ extra, Separable c)
    : uriEsc string extra = escape (escapes extra) string := by
  have first : replaceAll ['%'] (code '%') string = escape (· == '%') string := by
    simp only [Lib.replaceAll_char, escape, beq_iff_eq]
    refine List.flatMap_congr (fun c _ => ?_)
    split
    · rename_i same
      rw [same]
    · rfl
  have rest : ∀ c ∈ alwaysEscaped.tail ++ extra, Separable c := by
    intro c member
    cases List.mem_append.mp member with
    | inl early => exact always_separable c early
    | inr late => exact separable c late
  have percent : ∀ c : Char, (c == '%') = true → c.toNat < 256 := by
    intro c same
    rw [beq_iff_eq.mp same]
    decide
  have parts : alwaysEscaped ++ extra = '%' :: (alwaysEscaped.tail ++ extra) := rfl
  rw [uriEsc, parts, List.foldl_cons, first, foldl_escape rest percent]
  rfl

theorem uriInert_eq : uriInert string = escape evaluated.contains string := by
  have nothing : ∀ c : Char, false = true → c.toNat < 256 := by simp
  have result : evaluated.foldl (fun text c => replaceAll [c] (code c) text)
      (escape (fun _ => false) string) = _ := foldl_escape evaluated_separable nothing
  simp only [Bool.false_or, escape_nothing] at result
  exact result

/-- The characters with a meaning for `subst` are all escaped before it. -/
theorem uriInert_inert {c : Char} (special : c ∈ evaluated) : c ∉ uriInert string := by
  rw [uriInert_eq]
  refine not_mem_escape (evaluated_separable c special) (by simpa using special) ?_
  intro d escaped
  exact (evaluated_separable d (by simpa using escaped)).2.2

/-- What `uri_esc` escapes reads back. -/
theorem uriUnesc_uriEsc (separable : ∀ c ∈ extra, Separable c)
    : uriUnesc (uriEsc string extra) = string := by
  rw [uriUnesc, uriInert_eq, decode_escaped (by
    intro c escaped
    exact evaluated_separable c (by simpa using escaped)), uriEsc_eq separable]
  exact decode_escape rfl (fun c => escapes_small separable)

theorem not_mem_uriEsc (separable : ∀ c ∈ extra, Separable c) {c : Char} (isExtra : c ∈ extra)
    : c ∉ uriEsc string extra := by
  rw [uriEsc_eq separable]
  refine not_mem_escape (separable c isExtra) ?_ (fun d => escapes_small separable)
  simp [escapes, isExtra]

theorem uriEsc_ne_nil (separable : ∀ c ∈ extra, Separable c) (nonempty : string ≠ [])
    : uriEsc string extra ≠ [] := by
  rw [uriEsc_eq separable]
  exact escape_ne_nil nonempty

-----------------------------------------------------------------------------------------
-- Arguments
-----------------------------------------------------------------------------------------

/-- An argument of `make_sql_uri`: a column, or an option with its value. -/
inductive UriArgument where
  | column (name : Text)
  | option (name value : Text)

/-- The words of an argument. -/
def UriArgument.words : UriArgument → List Text
  | .column name => [name]
  | .option name value => ['-' :: name, value]

/-- A column that does not look like an option, or an option without a second dash. -/
def UriArgument.Proper : UriArgument → Prop
  | .column name | .option name _ => name.head? ≠ some '-'

/-- The options with a place in the address. -/
def addressOptions : List Text :=
  [['h', 'o', 's', 't'], ['u', 's', 'e', 'r'], ['p', 'a', 's', 's'], ['d', 'b']]

/-- The options with a place of their own in the URI. -/
def placedOptions : List Text :=
  ['c', 'o', 'l', 's'] :: ['k', 'e', 'y', 's'] :: ['k', 'e', 'y'] :: addressOptions

/-- The columns that an argument gives. -/
def UriArgument.columns : UriArgument → List Text
  | .column name => [name]
  | .option name value =>
      if name = ['c', 'o', 'l', 's'] then (Lib.TclList.parse value).getD [] else []

/-- The parameters that an argument gives: the keys are `_keys` and `_key`, and an option without
a place of its own is the parameter of its name.
-/
def UriArgument.parameters : UriArgument → List (Text × Text)
  | .column _ => []
  | .option name value =>
      if name = ['k', 'e', 'y', 's'] then
        [(['_', 'k', 'e', 'y', 's'], [':'].intercalate ((Lib.TclList.parse value).getD []))]
      else if name = ['k', 'e', 'y'] then [(['_', 'k', 'e', 'y'], value)]
      else if name ∈ placedOptions then []
      else [(name, value)]

/-- Whether the parameters of an argument are written. -/
def UriArgument.Written : UriArgument → Prop
  | .column _ => True
  | .option name _ => name ∈ placedOptions ∨ name = ['*']

instance (argument : UriArgument) : Decidable argument.Written :=
  match argument with
  | .column _ => inferInstanceAs (Decidable True)
  | .option _ _ => inferInstanceAs (Decidable (_ ∨ _))

/-- The text of a parameter in the URI. -/
def writeParam (name value : Text) : Text :=
  uriEsc name ['&', '='] ++ '=' :: uriEsc value ['&']

/-- No part of the address has a slash. -/
structure UriParts.Clean (parts : UriParts) : Prop where
  host : ∀ text ∈ parts.host, '/' ∉ text
  user : ∀ text ∈ parts.user, '/' ∉ text
  pass : ∀ text ∈ parts.pass, '/' ∉ text
  db : ∀ text ∈ parts.db, '/' ∉ text

/-- What the arguments between two states of the variables add to them. -/
structure Reads (parts after : UriParts) (arguments : List UriArgument) : Prop where
  cols : after.cols = parts.cols ++ (arguments.flatMap UriArgument.columns).map (uriEsc · pathExtra)
  params
    : after.params
      = parts.params
        ++ ((arguments.filter (fun argument => argument.Written)).flatMap
          UriArgument.parameters).map (fun param => writeParam param.1 param.2)
  clean : parts.Clean → after.Clean

theorem Reads.nil (parts : UriParts) : Reads parts parts [] :=
  ⟨by simp, by simp, id⟩

theorem Reads.trans {parts middle after : UriParts} {early late : List UriArgument}
    (first : Reads parts middle early) (second : Reads middle after late)
    : Reads parts after (early ++ late) where
  cols := by simp [second.cols, first.cols]
  params := by simp [second.params, first.params]
  clean := second.clean ∘ first.clean

theorem uriEsc_append {left : Text} (separable : ∀ c ∈ extra, Separable c)
    : uriEsc (left ++ string) extra = uriEsc left extra ++ uriEsc string extra := by
  simp only [uriEsc_eq separable, escape, List.flatMap_append]

/-- The names of the keys are written without a code. -/
theorem writeParam_keys (value : Text)
    : uriEsc (['_', 'k', 'e', 'y', 's', '='] ++ value) ['&']
      = writeParam ['_', 'k', 'e', 'y', 's'] value := by
  rw [uriEsc_append (separable_of_all rfl)]
  rfl

theorem writeParam_key (value : Text)
    : uriEsc (['_', 'k', 'e', 'y', '='] ++ value) ['&'] = writeParam ['_', 'k', 'e', 'y'] value := by
  rw [uriEsc_append (separable_of_all rfl)]
  rfl

theorem uriEsc_noSlash (value : Text) : ∀ text ∈ some (uriEsc value addressExtra), '/' ∉ text := by
  intro text isText
  cases isText
  exact not_mem_uriEsc (separable_of_all rfl) (by decide)

/-- A place in the address adds no column and no parameter. -/
theorem Reads.placed {parts after : UriParts} {opt val : Text} (place : opt ∈ addressOptions)
    (cols : after.cols = parts.cols) (params : after.params = parts.params)
    (clean : parts.Clean → after.Clean)
    : Reads parts after [.option opt val] := by
  have known : opt ∈ placedOptions := by simp [placedOptions, place]
  have others : ∀ name ∈ addressOptions,
      name ≠ ['c', 'o', 'l', 's'] ∧ name ≠ ['k', 'e', 'y', 's'] ∧ name ≠ ['k', 'e', 'y'] := by
    decide
  obtain ⟨notCols, notKeys, notKey⟩ := others opt place
  refine ⟨?_, ?_, clean⟩
  · simp [UriArgument.columns, notCols, cols]
  · simp [UriArgument.parameters, UriArgument.Written, known, notKeys, notKey, params]

/-- An option that writes its parameter, or that is dropped without one. -/
theorem Reads.parameter {parts after : UriParts} {opt val : Text}
    (notCols : opt ≠ ['c', 'o', 'l', 's']) (cols : after.cols = parts.cols)
    (params : after.params = parts.params
      ++ (if (UriArgument.option opt val).Written then
          ((UriArgument.option opt val).parameters).map
            (fun param => writeParam param.1 param.2)
        else []))
    (clean : parts.Clean → after.Clean)
    : Reads parts after [.option opt val] := by
  refine ⟨?_, ?_, clean⟩
  · simp [UriArgument.columns, notCols, cols]
  · rw [params]
    by_cases written : (UriArgument.option opt val).Written <;> simp [written]

/-- What an option adds, by the cases of the `switch`. -/
theorem UriParts.readOption_reads {parts after : UriParts} {opt val : Text}
    (proper : opt.head? ≠ some '-') (reads : parts.readOption opt val = some after)
    : Reads parts after [.option opt val] := by
  unfold UriParts.readOption at reads
  split at reads
  · obtain ⟨columns, parsed, rfl⟩ := Option.map_eq_some_iff.mp reads
    subst opt
    exact ⟨by simp [UriArgument.columns, parsed],
      by simp [UriArgument.parameters, UriArgument.Written, placedOptions, addressOptions],
      fun clean => ⟨clean.host, clean.user, clean.pass, clean.db⟩⟩
  rename_i notCols
  split at reads
  · rename_i name
    cases reads
    exact .placed (by simp [name, addressOptions]) rfl rfl
      (fun clean => ⟨uriEsc_noSlash val, clean.user, clean.pass, clean.db⟩)
  split at reads
  · rename_i name
    cases reads
    exact .placed (by simp [name, addressOptions]) rfl rfl
      (fun clean => ⟨clean.host, uriEsc_noSlash val, clean.pass, clean.db⟩)
  split at reads
  · rename_i name
    cases reads
    exact .placed (by simp [name, addressOptions]) rfl rfl
      (fun clean => ⟨clean.host, clean.user, uriEsc_noSlash val, clean.db⟩)
  split at reads
  · rename_i name
    cases reads
    exact .placed (by simp [name, addressOptions]) rfl rfl
      (fun clean => ⟨clean.host, clean.user, clean.pass, uriEsc_noSlash val⟩)
  split at reads
  · rename_i name
    obtain ⟨keys, parsed, rfl⟩ := Option.map_eq_some_iff.mp reads
    refine .parameter notCols rfl ?_ (fun clean => ⟨clean.host, clean.user, clean.pass, clean.db⟩)
    subst opt
    simp [UriArgument.parameters, UriArgument.Written, placedOptions, parsed, ← writeParam_keys]
  split at reads
  · cases reads
    refine .parameter notCols rfl ?_ (fun clean => ⟨clean.host, clean.user, clean.pass, clean.db⟩)
    subst opt
    simp [UriArgument.parameters, UriArgument.Written, placedOptions, ← writeParam_key]
  split at reads
  · subst opt
    exact absurd rfl proper
  split at reads
  · cases reads
    refine .parameter notCols rfl ?_ (fun clean => ⟨clean.host, clean.user, clean.pass, clean.db⟩)
    subst opt
    simp [UriArgument.parameters, UriArgument.Written, placedOptions, addressOptions, writeParam]
  · rename_i notHost notUser notPass notDb notKeys notKey _ notStar
    cases reads
    refine .parameter notCols rfl ?_ id
    simp [UriArgument.Written, placedOptions, addressOptions, notCols, notHost, notUser, notPass,
      notDb, notKeys, notKey, notStar]

/-- What all arguments add, by induction on them. -/
theorem UriParts.readArgs_reads {parts after : UriParts} {arguments : List UriArgument}
    (proper : ∀ argument ∈ arguments, argument.Proper)
    (reads : readArgs (arguments.flatMap UriArgument.words) parts = some after)
    : Reads parts after arguments := by
  induction arguments generalizing parts with
  | nil =>
      cases reads
      exact .nil _
  | cons argument rest ih =>
      have properRest : ∀ argument ∈ rest, argument.Proper :=
        fun argument member => proper argument (List.mem_cons_of_mem _ member)
      have properFirst := proper argument List.mem_cons_self
      cases argument with
      | column name =>
          have first : Reads parts { parts with cols := parts.cols ++ [uriEsc name pathExtra] }
              [.column name] :=
            ⟨by simp [UriArgument.columns], by simp [UriArgument.parameters],
              fun clean => ⟨clean.host, clean.user, clean.pass, clean.db⟩⟩
          refine first.trans (ih properRest ?_)
          rw [← reads, List.flatMap_cons]
          cases name with
          | nil => rfl
          | cons c name =>
              have plain : c ≠ '-' := fun same => properFirst (by simp [same])
              simp [UriArgument.words, readArgs, plain]
      | option opt val =>
          obtain ⟨middle, readFirst, readRest⟩ := Option.bind_eq_some_iff.mp reads
          exact (readOption_reads properFirst readFirst).trans (ih properRest readRest)

-----------------------------------------------------------------------------------------
-- The URI taken apart
-----------------------------------------------------------------------------------------

theorem UriParts.Clean.address {parts : UriParts} (clean : parts.Clean)
    : '/' ∉ parts.address := by
  obtain ⟨cols, host, user, pass, db, params⟩ := parts
  obtain ⟨hostClean, userClean, passClean, dbClean⟩ := clean
  simp only [Option.mem_def] at hostClean userClean passClean dbClean
  unfold UriParts.address
  cases user <;> cases pass <;> cases host <;> cases db <;> simp_all

/-- Taking the URI apart gives its path back, which begins with the name of the table. -/
theorem connectUri_path {parts : UriParts} (clean : parts.Clean) {table : Text} (named : table ≠ [])
    : connectUri (['s', 'q', 'l', ':', '/', '/'] ++ parts.address ++ '/' :: parts.path table)
      = some (['s', 'q', 'l'], parts.address, parts.path table) := by
  have start : ∃ c rest, parts.path table = c :: rest ∧ c ≠ '/' := by
    cases escaped : uriEsc table pathExtra with
    | nil => exact absurd escaped (uriEsc_ne_nil pathExtra_separable named)
    | cons c rest =>
        refine ⟨c, _, by simp only [UriParts.path, escaped]; rfl, ?_⟩
        have absent : '/' ∉ uriEsc table pathExtra := not_mem_uriEsc pathExtra_separable (by decide)
        intro same
        exact absent (by simp [escaped, same])
  obtain ⟨c, rest, path, notSlash⟩ := start
  have method : cutAt ':' (['s', 'q', 'l', ':', '/', '/'] ++ parts.address
      ++ '/' :: parts.path table)
      = some (['s', 'q', 'l'], '/' :: '/' :: (parts.address ++ '/' :: parts.path table)) := by
    have absent : ':' ∉ ['s', 'q', 'l'] := by decide
    rw [← Lib.cutAt_append absent]
    simp
  simp only [connectUri, method]
  rw [Lib.takeWhile_until clean.address, Lib.dropWhile_until clean.address, path]
  simp [notSlash]

/-- A written parameter reads back. -/
theorem readParam_writeParam (name value : Text)
    : readParam (writeParam name value) = (name, value) := by
  have absent : '=' ∉ uriEsc name ['&', '='] := not_mem_uriEsc (separable_of_all rfl) (by decide)
  rw [readParam, writeParam, Lib.cutAt_append absent]
  exact congrArg₂ Prod.mk (uriUnesc_uriEsc (separable_of_all rfl))
    (uriUnesc_uriEsc (separable_of_all rfl))

theorem writeParam_separate (name value : Text)
    : '&' ∉ writeParam name value ∧ writeParam name value ≠ [] := by
  have first : '&' ∉ uriEsc name ['&', '='] := not_mem_uriEsc (separable_of_all rfl) (by decide)
  have second : '&' ∉ uriEsc value ['&'] := not_mem_uriEsc (separable_of_all rfl) (by decide)
  exact ⟨by simp [writeParam, first, second], by simp [writeParam]⟩

/-- A column reads back under its name, without a type. -/
theorem readField_uriEsc {name : Text} (untyped : ':' ∉ name)
    : readField (uriEsc name pathExtra) = (name, none) := by
  rw [readField, uriUnesc_uriEsc pathExtra_separable, Lib.cutAt_none untyped]

theorem dropWhile_named {name path : Text} (absent : '/' ∉ name) (nonempty : name ≠ [])
    : (name ++ path).dropWhile (· = '/') = name ++ path := by
  obtain ⟨c, rest, rfl⟩ := List.exists_cons_of_ne_nil nonempty
  have notSlash : c ≠ '/' := fun same => absent (by simp [same])
  simp [notSlash]

theorem splitPath_columns {name path : Text} (absent : '/' ∉ name) (nonempty : name ≠ [])
    : splitPath (name ++ '/' :: path) = (name, path) := by
  unfold splitPath
  simp only [dropWhile_named absent nonempty, Lib.cutAt_append absent]

theorem splitPath_alone {name : Text} (absent : '/' ∉ name) (nonempty : name ≠ [])
    : splitPath name = (name, []) := by
  have same : name.dropWhile (· = '/') = name := by
    have alone := @dropWhile_named name [] absent nonempty
    rwa [List.append_nil] at alone
  have notSlash : name.head? ≠ some '/' := fun head => absent (List.mem_of_head? head)
  unfold splitPath
  simp only [same, Lib.cutAt_none absent, if_neg notSlash]

/-- The table and the columns of a path. -/
theorem splitPath_path {cols : List Text} {name : Text} (absent : '/' ∉ name) (nonempty : name ≠ [])
    : splitPath (name ++ (if cols = [] then [] else '/' :: ['/'].intercalate cols))
      = (name, ['/'].intercalate cols) := by
  by_cases none : cols = []
  · rw [if_pos none, none, List.append_nil, splitPath_alone absent nonempty]
    rfl
  · rw [if_neg none, splitPath_columns absent nonempty]

/-- The front of a path and its parameters. -/
theorem cutAt_params {params : List Text} {front : Text} (absent : '?' ∉ front)
    : (cutAt '?' (front ++ (if params = [] then [] else '?' :: ['&'].intercalate params))).getD
        (front ++ (if params = [] then [] else '?' :: ['&'].intercalate params), [])
      = (front, ['&'].intercalate params) := by
  by_cases none : params = []
  · rw [if_pos none, none, List.append_nil, Lib.cutAt_none absent]
    rfl
  · rw [if_neg none, Lib.cutAt_append absent]
    rfl

/-- What `connect_pgsql` finds in the path that `make_sql_uri` writes. -/
theorem connectPgsql_path (getColumns : Text → List (Text × Text)) {parts : UriParts}
    {table : Text} {columns : List Text} {params : List (Text × Text)} (named : table ≠ [])
    (cols : parts.cols = columns.map (uriEsc · pathExtra))
    (namedColumns : ∀ name ∈ columns, name ≠ [] ∧ ':' ∉ name)
    (written : parts.params = params.map (fun param => writeParam param.1 param.2))
    : (connectPgsql getColumns (parts.path table)).table = table
      ∧ (connectPgsql getColumns (parts.path table)).rawFields
        = (if columns = [] then (getColumns table).map Prod.fst else columns)
      ∧ (connectPgsql getColumns (parts.path table)).vars = params := by
  have noSlash {string : Text} : '/' ∉ uriEsc string pathExtra := not_mem_uriEsc pathExtra_separable (by decide)
  have noQuestion {string : Text} : '?' ∉ uriEsc string pathExtra :=
    not_mem_uriEsc pathExtra_separable (by decide)
  have columnsNoQuestion : '?' ∉ ['/'].intercalate parts.cols := by
    refine Lib.not_mem_intercalate (by decide) (fun text member => ?_)
    obtain ⟨name, -, rfl⟩ := List.mem_map.mp (cols ▸ member)
    exact noQuestion
  have front : '?' ∉ uriEsc table pathExtra
      ++ (if parts.cols = [] then [] else '/' :: ['/'].intercalate parts.cols) := by
    split
    · simpa using noQuestion
    · simp [noQuestion, columnsNoQuestion]
  have fields : (splitAt '/' (['/'].intercalate parts.cols)).map readField
      = columns.map (fun name => (name, none)) := by
    rw [Lib.splitAt_intercalate, cols, List.map_map]
    · exact List.map_congr_left (fun name member => readField_uriEsc (namedColumns name member).2)
    · intro text member
      obtain ⟨name, -, rfl⟩ := List.mem_map.mp (cols ▸ member)
      exact noSlash
    · intro text member
      obtain ⟨name, inside, rfl⟩ := List.mem_map.mp (cols ▸ member)
      exact uriEsc_ne_nil pathExtra_separable (namedColumns name inside).1
  have vars : (splitAt '&' (['&'].intercalate parts.params)).map readParam = params := by
    rw [Lib.splitAt_intercalate, written, List.map_map]
    · conv_rhs => rw [← List.map_id params]
      exact List.map_congr_left (fun param _ => readParam_writeParam param.1 param.2)
    · intro text member
      obtain ⟨param, -, rfl⟩ := List.mem_map.mp (written ▸ member)
      exact (writeParam_separate param.1 param.2).1
    · intro text member
      obtain ⟨param, -, rfl⟩ := List.mem_map.mp (written ▸ member)
      exact (writeParam_separate param.1 param.2).2
  have name := uriEsc_ne_nil pathExtra_separable named
  simp only [connectPgsql, UriParts.path, cutAt_params front, splitPath_path noSlash name, fields,
    vars, uriUnesc_uriEsc pathExtra_separable]
  exact ⟨trivial, by simp [Function.comp_def], trivial⟩

-----------------------------------------------------------------------------------------
-- The parameters that come back
-----------------------------------------------------------------------------------------

/-- An argument that is not written loses its parameter. -/
theorem UriArgument.parameters_lost {argument : UriArgument} (lost : ¬ argument.Written)
    : 0 < argument.parameters.length := by
  cases argument with
  | column name => exact absurd trivial lost
  | option name value =>
      obtain ⟨notPlaced, -⟩ := not_or.mp lost
      have notKeys : name ≠ ['k', 'e', 'y', 's'] :=
        fun same => notPlaced (by simp [same, placedOptions])
      have notKey : name ≠ ['k', 'e', 'y'] :=
        fun same => notPlaced (by simp [same, placedOptions])
      simp [parameters, notKeys, notKey, notPlaced]

/-- The written arguments give all parameters only if every argument is written. -/
theorem written_parameters_iff (arguments : List UriArgument)
    : (arguments.filter (fun argument => argument.Written)).flatMap UriArgument.parameters
        = arguments.flatMap UriArgument.parameters
      ↔ ∀ argument ∈ arguments, argument.Written := by
  constructor
  · intro same
    induction arguments with
    | nil => simp
    | cons argument rest ih =>
        have shorter := ((List.filter_sublist (p := fun argument : UriArgument =>
          decide argument.Written) (l := rest)).flatMap UriArgument.parameters).length_le
        by_cases written : argument.Written
        · rw [List.filter_cons_of_pos (by simpa using written), List.flatMap_cons,
            List.flatMap_cons] at same
          simp only [List.mem_cons, forall_eq_or_imp]
          exact ⟨written, ih (List.append_cancel_left same)⟩
        · have lengths := congrArg List.length same
          rw [List.filter_cons_of_neg (by simpa using written), List.flatMap_cons,
            List.length_append] at lengths
          have lost := UriArgument.parameters_lost written
          omega
  · intro written
    rw [List.filter_eq_self.mpr (fun argument member => by simpa using written argument member)]

/-- The table, the columns and the parameters are the ones given. A path without columns stands for
all columns that the table has.
-/
structure SqlSource.Matches (source : SqlSource) (getColumns : Text → List (Text × Text))
    (table : Text) (arguments : List UriArgument) : Prop where
  sameTable : source.table = table
  sameColumns
    : source.rawFields
      = (if arguments.flatMap UriArgument.columns = [] then (getColumns table).map Prod.fst
        else arguments.flatMap UriArgument.columns)
  sameParameters : source.vars = arguments.flatMap UriArgument.parameters

/-- A URI gives back what it was made of exactly if the only parameter without a place of its own
is the one named `*`.
-/
theorem sqlUri_roundTrip_iff (getColumns : Text → List (Text × Text)) (table uri : Text)
    (arguments : List UriArgument) (named : table ≠ [])
    (namedColumns : ∀ name ∈ arguments.flatMap UriArgument.columns, name ≠ [] ∧ ':' ∉ name)
    (proper : ∀ argument ∈ arguments, argument.Proper)
    (built : makeSqlUri table (arguments.flatMap UriArgument.words) = some uri)
    : (∃ source, connectSql getColumns uri = some source
        ∧ source.Matches getColumns table arguments)
      ↔ ∀ argument ∈ arguments, argument.Written := by
  obtain ⟨parts, reads, rfl⟩ := Option.map_eq_some_iff.mp built
  have given := UriParts.readArgs_reads proper reads
  have clean := given.clean ⟨by simp [UriParts.initial], by simp [UriParts.initial],
    by simp [UriParts.initial], by simp [UriParts.initial]⟩
  obtain ⟨sameTable, sameColumns, vars⟩ :=
    connectPgsql_path getColumns named given.cols namedColumns given.params
  simp only [connectSql, connectUri_path clean named, if_true, Option.some.injEq, exists_eq_left']
  rw [← written_parameters_iff, ← vars]
  exact ⟨fun same => same.sameParameters, fun same => ⟨sameTable, sameColumns, same⟩⟩

/-- A table with a space in its name, two columns and a key. -/
def keyedArguments : List UriArgument :=
  [.column ['i', 'd'], .option ['c', 'o', 'l', 's'] ['n', ' ', '{', 'a', ' ', 'b', '}'],
    .option ['k', 'e', 'y'] ['n', '&', '%']]

/-- Columns and a key with characters to escape come back. -/
theorem sqlUri_roundTrip_iff_key
    : ∃ uri source, makeSqlUri ['m', ' ', 't'] (keyedArguments.flatMap UriArgument.words) = some uri
        ∧ connectSql (fun _ => []) uri = some source
        ∧ source.Matches (fun _ => []) ['m', ' ', 't'] keyedArguments := by
  have built : (makeSqlUri ['m', ' ', 't'] (keyedArguments.flatMap UriArgument.words)).isSome
      = true := by decide +kernel
  obtain ⟨uri, built⟩ := Option.isSome_iff_exists.mp built
  obtain ⟨source, found, same⟩ := (sqlUri_roundTrip_iff (fun _ => []) ['m', ' ', 't'] uri
    keyedArguments (by decide) (by decide +kernel) (by simp [keyedArguments, UriArgument.Proper])
    built).mpr (by decide)
  exact ⟨uri, source, built, found, same⟩

/-- A parameter `n` with the value `v` is not in the URI. -/
theorem sqlUri_parameterDropped
    : ¬ ∀ (getColumns : Text → List (Text × Text)) (table uri : Text) (arguments : List UriArgument),
        table ≠ [] →
        (∀ name ∈ arguments.flatMap UriArgument.columns, name ≠ [] ∧ ':' ∉ name) →
        (∀ argument ∈ arguments, argument.Proper) →
        makeSqlUri table (arguments.flatMap UriArgument.words) = some uri →
        ∃ source, connectSql getColumns uri = some source
          ∧ source.Matches getColumns table arguments := by
  intro claim
  obtain ⟨source, found, same⟩ := claim (fun _ => []) ['t'] ['s', 'q', 'l', ':', '/', '/', '/', 't']
    [.option ['n'] ['v']] (by decide) (by decide) (by simp [UriArgument.Proper])
    (by decide +kernel)
  have vars : (connectSql (fun _ => []) ['s', 'q', 'l', ':', '/', '/', '/', 't']).map
      SqlSource.vars = some [] := by decide +kernel
  have lost := same.sameParameters
  rw [found, Option.map_some, lost] at vars
  exact absurd vars (by decide)

end SpeedTables.Stapi
