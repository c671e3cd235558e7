import SpeedTables.Table.Commands

/-! A small table definition and a host, on which the results are tried. -/

namespace SpeedTables

/-- The six fields are written as their numbers. -/
instance sampleField_neZero : NeZero 6 :=
  ⟨by decide⟩

/-- The fields `k`, `n`, `b`, `s`, `o` and `_dirty`: a key, a unique int, a boolean, a string
and an object.
-/
def sampleFields : Fin 6 → FieldInfo
  | 0 => { name := [107], type := .key, notnull := true, indexed := true, unique := false,
           length := 0, default := none }
  | 1 => { name := [110], type := .int, notnull := false, indexed := true, unique := true,
           length := 0, default := none }
  | 2 => { name := [98], type := .boolean, notnull := false, indexed := true, unique := false,
           length := 0, default := none }
  | 3 => { name := [115], type := .varstring, notnull := false, indexed := true,
           unique := false, length := 0, default := none }
  | 4 => { name := [111], type := .tclobj, notnull := false, indexed := true, unique := false,
           length := 0, default := none }
  | 5 => { name := [95, 100, 105, 114, 116, 121], type := .boolean, notnull := true,
           indexed := false, unique := false, length := 0, default := some false }

def sampleCreator : CreatorTable where
  nFields := 6
  fields := sampleFields
  keyField := 0
  keyField_iff := by decide
  keyField_notnull := by decide
  default_notnull := by decide
  names_injective := by decide
  dirtyField := 5
  dirtyField_boolean := by decide
  dirtyField_unindexed := by decide
  nullValue := []

/-- The digit that a one-character string stands for. -/
def digitValue : Obj → Option Int
  | [byte] => if 48 ≤ byte ∧ byte ≤ 57 then some (byte.toNat - 48 : Nat) else none
  | _ => none

/-- The words of a Tcl list without quoting other than braces. `word` collects the present
word, if there is one, and `depth` counts its open braces.
-/
def listWords : (depth : Nat) → (word : Option CString) → CString → List Obj
  | _, word, [] => word.toList
  | 0, word, 32 :: rest => word.toList ++ listWords 0 none rest
  | 0, none, 123 :: rest => listWords 1 (some []) rest
  | 1, word, 125 :: rest => word.toList ++ listWords 0 none rest
  | depth, word, byte :: rest =>
      let deeper := if byte = 123 then depth + 1 else if byte = 125 then depth - 1 else depth
      listWords deeper (some (word.getD [] ++ [byte])) rest

/-- A host that reads one-digit numbers and simple lists. -/
def sampleHost : Host where
  getBoolean obj := (digitValue obj).map (· ≠ 0)
  getInt := digitValue
  getLong := digitValue
  getWide := digitValue
  getDouble obj := (digitValue obj).map (fun value => ((value : ℚ) : WithTop ℚ))
  toFloat := id
  addDouble value amount := value + ((amount : ℚ) : WithTop ℚ)
  addFloat value amount := value + ((amount : ℚ) : WithTop ℚ)
  inetAton _ := none
  etherAton _ := none
  listElements obj := some (listWords 0 none obj)
  format _ _ := []
  stringCaseMatch text pattern _ := text = pattern
  uninitialized type := Storage.zero 0 type
  zeroBits _ := 0
  shmalloc _ := true
  freeMemoryLow _ := false

/-- The table after some commands, the last of which may have failed. -/
def CTable.afterAll {creator : CreatorTable} (table : CTable creator)
    (commands : List (TableM creator Unit)) : CTable creator :=
  match commands.forM id table with
  | .ok _ after => after
  | .error _ after => after

/-- A private table of the sample definition, after some commands. -/
def sampleTable (commands : List (TableM sampleCreator Unit)) : CTable sampleCreator :=
  (CTable.empty sampleCreator false false).afterAll commands

/-- Whether a command ends without an error, with what is right. -/
def endsWell {creator : CreatorTable} {α : Type} (right : α → CTable creator → Bool)
    (result : EStateM.Result Stop (CTable creator) α) : Bool :=
  match result with
  | .ok value after => right value after
  | .error _ _ => false

theorem endsWell_iff {creator : CreatorTable} {α : Type} {right : α → CTable creator → Bool}
    {result : EStateM.Result Stop (CTable creator) α}
    : endsWell right result = true
      ↔ ∃ value after, result = .ok value after ∧ right value after = true := by
  cases result <;> simp [endsWell]

/-- Whether a command ends with an error of Tcl, and the table is right. -/
def endsInError {creator : CreatorTable} {α : Type} (right : CTable creator → Bool)
    (result : EStateM.Result Stop (CTable creator) α) : Bool :=
  match result with
  | .error (.tcl _) after => right after
  | _ => false

theorem endsInError_iff {creator : CreatorTable} {α : Type} {right : CTable creator → Bool}
    {result : EStateM.Result Stop (CTable creator) α}
    : endsInError right result = true
      ↔ ∃ error after, result = .error (.tcl error) after ∧ right after = true := by
  cases result with
  | ok value after => simp [endsInError]
  | error stop after => cases stop <;> simp [endsInError]

end SpeedTables
