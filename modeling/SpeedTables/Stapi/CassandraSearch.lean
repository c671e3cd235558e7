import SpeedTables.Stapi.CassandraKey
import SpeedTables.Stapi.SqlSearch

/-! The `WHERE` clause of a search on a Cassandra table, and what its components say of a row. -/

namespace SpeedTables.Stapi

open Lib

-----------------------------------------------------------------------------------------
-- Components and conditions
-----------------------------------------------------------------------------------------

/-- The comparing operators of a search. `<>` is another word for `!=`. -/
inductive CqlOp where
  | compare (op : SqlCompare)
  | range
  deriving DecidableEq

/-- A tuple of the compare list: `foreach {op col v1 v2} $tuple break`. -/
structure CqlComponent where
  op : CqlOp
  col : Text
  v1 : Text
  v2 : Text
  deriving DecidableEq

/-- A condition on one column, or on a tuple of columns. The literals are values with the types that
they are quoted for.
-/
structure CqlCondition where
  token : Bool
  columns : List Text
  op : SqlCompare
  literals : List (Text × Text)
  deriving DecidableEq

def CqlCondition.text (quote : Text → Text → Text) (condition : CqlCondition) : Text :=
  let side (texts : List Text) : Text :=
    match texts with
    | [text] => text
    | _ => ['('] ++ [','].intercalate texts ++ [')']
  let token (text : Text) : Text :=
    if condition.token then "TOKEN(".toList ++ text ++ [')'] else text
  token (side condition.columns) ++ [' '] ++ condition.op.text ++ [' ']
    ++ token (side (condition.literals.map (fun literal => quote literal.1 literal.2)))

/-- The conditions of the `switch` over the operators. -/
def CqlOp.conditions (token : Bool) (columns : List Text) (q1 q2 : List (Text × Text))
    : CqlOp → List CqlCondition
  | .compare op => [{ token := token, columns := columns, op := op, literals := q1 }]
  | .range =>
      [{ token := token, columns := columns, op := .ge, literals := q1 },
        { token := token, columns := columns, op := .lt, literals := q2 }]

/-- What the body of the loop does with a tuple: it appends others to the work list, or conditions
to `pwhere` or `iwhere`.
-/
inductive CqlStep where
  | pushed (tuples : List CqlComponent)
  | appended (key : Bool) (conditions : List CqlCondition)

namespace CassandraTable

variable (table : CassandraTable)

/-- Values quoted for the types of their columns. -/
def literals (pairs : List (Text × Text)) : Option (List (Text × Text)) :=
  pairs.mapM (fun pair => (table.types pair.2).map (pair.1, ·))

/-- A partition key is compared, so that the columns of partition keys become tokens. -/
def tokenize (tuples : List CqlComponent) : Bool :=
  tuples.any fun tuple =>
    [CqlOp.compare .lt, .compare .le, .compare .gt, .compare .ge].contains tuple.op
      && (tuple.col == "_pkey".toList || tuple.col == "_key".toList
        || table.partitionKeys.any (stringMatch tuple.col))

/-- `lsearch $col $partition_keys`: the words of the column are searched for the partition keys. -/
def partitionColumn (col : Text) : Option Bool :=
  (TclList.parse col).map (·.any (stringMatch (TclList.format table.partitionKeys)))

/-- Whether the column of a tuple becomes a token. -/
def token (tokenize : Bool) (col : Text) : Option Bool :=
  if tokenize then table.partitionColumn col else some false

/-- The conditions of a tuple on columns, with the values of both sides. -/
def append (tokenize : Bool) (tuple : CqlComponent) (columns : List Text)
    (left right : List (Text × Text)) : Option CqlStep := do
  let q1 ← table.literals left
  let q2 ← table.literals right
  let token ← table.token tokenize tuple.col
  some (.appended (table.keyfields.contains tuple.col) (tuple.op.conditions token columns q1 q2))

/-- The disassembled values of a key, to be put on the work list. -/
def push (tuple : CqlComponent) (columns : List Text) : CqlStep :=
  .pushed ((zipPadded3 (splitAny table.keysep tuple.v1) (splitAny table.keysep tuple.v2)
    columns).map fun round => { tuple with col := round.2.2, v1 := round.1, v2 := round.2.1 })

/-- The body of the loop over the work list. -/
def cqlStep (tokenize : Bool) (tuple : CqlComponent) : Option CqlStep :=
  let single := table.keyfields.headD []
  if tuple.col = "_ckey".toList then
    if table.keyfields.length = 1 then
      table.append tokenize tuple [single] [(tuple.v1, single)] [(tuple.v2, single)]
    else
      table.append tokenize tuple table.keyfields
        (zipPadded (splitAny table.keysep tuple.v1) table.keyfields)
        (zipPadded (splitAny table.keysep tuple.v2) table.keyfields)
  else if tuple.col = "_pkey".toList then
    if table.keyfields.length = 1 then
      table.append tokenize tuple [single] [(tuple.v1, single)] [(tuple.v2, single)]
    else some (table.push tuple table.partitionKeys)
  else if tuple.col = "_key".toList then
    if table.keyfields.length = 1 then
      table.append tokenize tuple [single] [(tuple.v1, single)] [(tuple.v2, single)]
    else some (table.push tuple table.keyfields)
  else table.append tokenize tuple [tuple.col] [(tuple.v1, tuple.col)] [(tuple.v2, tuple.col)]

/-- `while {[llength $tuples]}`, for so many rounds. -/
def whereLoop (tokenize : Bool)
    : Nat → (tuples : List CqlComponent) → (pwhere iwhere : List CqlCondition)
      → Option (List CqlCondition)
  | _, [], pwhere, iwhere => some (pwhere ++ iwhere)
  | 0, _ :: _, _, _ => none
  | rounds + 1, tuple :: tuples, pwhere, iwhere =>
      match table.cqlStep tokenize tuple with
      | none => none
      | some (.pushed more) => whereLoop tokenize rounds (tuples ++ more) pwhere iwhere
      | some (.appended true conditions) =>
          whereLoop tokenize rounds tuples (pwhere ++ conditions) iwhere
      | some (.appended false conditions) =>
          whereLoop tokenize rounds tuples pwhere (iwhere ++ conditions)

/-- `search_to_cql`: the conditions of the compare list. -/
def searchCql (rounds : Nat) (tuples : List CqlComponent) : Option (List CqlCondition) :=
  table.whereLoop (table.tokenize tuples) rounds tuples [] []

end CassandraTable

-----------------------------------------------------------------------------------------
-- Rows
-----------------------------------------------------------------------------------------

/-- The order of a row's columns beside literals, the first difference deciding. A shorter tuple is
less. `compare` orders the values of a type. A column without a value has no order.
-/
def tupleOrder (compare : Text → Text → Text → Ordering) (row : Text → Option Text)
    : (columns : List Text) → (literals : List (Text × Text)) → Option Ordering
  | [], [] => some .eq
  | [], _ :: _ => some .lt
  | _ :: _, [] => some .gt
  | column :: columns, (literal, type) :: literals => do
      let value ← row column
      let rest ← tupleOrder compare row columns literals
      some ((compare type value literal).then rest)

/-- A row meets a condition. -/
def CqlCondition.Accepts (compare : Text → Text → Text → Ordering) (row : Text → Option Text)
    (condition : CqlCondition) : Prop :=
  (tupleOrder compare row condition.columns condition.literals).any condition.op.holds = true

instance {compare : Text → Text → Text → Ordering} {row : Text → Option Text}
    {condition : CqlCondition} : Decidable (condition.Accepts compare row) :=
  inferInstanceAs (Decidable (_ = true))

/-- What an operator says of the orders beside its two values. -/
def CqlOp.Accepts (left right : Option Ordering) : CqlOp → Prop
  | .compare op => left.any op.holds = true
  | .range => left.any SqlCompare.ge.holds = true ∧ right.any SqlCompare.lt.holds = true

instance {left right : Option Ordering} : (op : CqlOp) → Decidable (op.Accepts left right)
  | .compare _ => inferInstanceAs (Decidable (_ = true))
  | .range => inferInstanceAs (Decidable (_ = true ∧ _ = true))

namespace CassandraTable

variable (table : CassandraTable)

/-- The columns that a pseudo-column stands for. -/
def pseudoColumns (col : Text) : Option (List Text) :=
  if col = "_ckey".toList then some table.clusterKeys
  else if col = "_pkey".toList then some table.partitionKeys
  else if col = "_key".toList then some table.keyfields
  else none

/-- The values of a key. The key of one column is its value. -/
def keyParts (columns : List Text) (key : Text) : List Text :=
  match columns with
  | [_] => [key]
  | _ => splitAny table.keysep key

/-- Values with the types of the columns. -/
def typed : (columns values : List Text) → List (Text × Text)
  | _, [] => []
  | columns, value :: values =>
      (value, (columns.head?.bind table.types).getD []) :: typed columns.tail values

/-- The order of a row's columns beside a key of them. -/
def keyOrder (compare : Text → Text → Text → Ordering) (row : Text → Option Text)
    (columns : List Text) (key : Text) : Option Ordering :=
  tupleOrder compare row columns (table.typed columns (table.keyParts columns key))

/-- A row satisfies a component. -/
def Satisfies (compare : Text → Text → Text → Ordering) (row : Text → Option Text)
    (component : CqlComponent) : Prop :=
  let columns := (table.pseudoColumns component.col).getD [component.col]
  component.op.Accepts (table.keyOrder compare row columns component.v1)
    (table.keyOrder compare row columns component.v2)

instance {compare : Text → Text → Text → Ordering} {row : Text → Option Text}
    {component : CqlComponent} : Decidable (table.Satisfies compare row component) :=
  inferInstanceAs (Decidable (CqlOp.Accepts _ _ component.op))

/-- A component is on an ordinary column, on a key of one column, or asks for a whole key with a
value for each of its columns. It is not on the clustering columns.
-/
def Whole (component : CqlComponent) : Prop :=
  component.col ≠ "_ckey".toList
  ∧ ∀ columns, table.pseudoColumns component.col = some columns →
      columns.length = 1
      ∨ component.op = .compare .eq
        ∧ (splitAny table.keysep component.v1).length = columns.length

/-- The columns have names, other than those of the pseudo-columns. -/
def Named : Prop :=
  ∀ name ∈ [[], "_ckey".toList, "_pkey".toList, "_key".toList], table.types name = none

variable {table : CassandraTable} {compare : Text → Text → Text → Ordering}
  {row : Text → Option Text} {tuple : CqlComponent}

/-- The conditions of an operator say what the operator says. -/
theorem conditions_accepts (op : CqlOp) (token : Bool) (columns : List Text)
    (q1 q2 : List (Text × Text))
    : (∀ condition ∈ op.conditions token columns q1 q2, condition.Accepts compare row)
      ↔ op.Accepts (tupleOrder compare row columns q1) (tupleOrder compare row columns q2) := by
  cases op with
  | compare op => simp [CqlOp.conditions, CqlOp.Accepts, CqlCondition.Accepts]
  | range => simp [CqlOp.conditions, CqlOp.Accepts, CqlCondition.Accepts]

/-- A step that appends writes the conditions of its literals. -/
theorem append_eq {tokenize : Bool} {columns : List Text} {left right : List (Text × Text)}
    {step : CqlStep} (done : table.append tokenize tuple columns left right = some step)
    : ∃ q1 q2 token, table.literals left = some q1 ∧ table.literals right = some q2
        ∧ step = .appended (table.keyfields.contains tuple.col)
            (tuple.op.conditions token columns q1 q2) := by
  obtain ⟨q1, first, done⟩ := Option.bind_eq_some_iff.mp done
  obtain ⟨q2, second, done⟩ := Option.bind_eq_some_iff.mp done
  obtain ⟨token, _, done⟩ := Option.bind_eq_some_iff.mp done
  exact ⟨q1, q2, token, first, second, (Option.some.inj done).symm⟩

theorem literals_single {column value : Text} {q : List (Text × Text)}
    (quoted : table.literals [(value, column)] = some q)
    : q = table.typed [column] [value] := by
  rw [literals, List.mapM_cons] at quoted
  cases found : table.types column with
  | none =>
      rw [found] at quoted
      cases quoted
  | some type =>
      rw [found] at quoted
      obtain rfl := Option.some.inj quoted
      simp [typed, found]

/-- The conditions of a single column compare it with the values as they are. -/
theorem append_single {tokenize : Bool} {column : Text} {step : CqlStep}
    (done : table.append tokenize tuple [column] [(tuple.v1, column)] [(tuple.v2, column)]
      = some step)
    : ∃ key conditions, step = .appended key conditions
        ∧ ((∀ condition ∈ conditions, condition.Accepts compare row)
          ↔ tuple.op.Accepts (table.keyOrder compare row [column] tuple.v1)
              (table.keyOrder compare row [column] tuple.v2)) := by
  obtain ⟨q1, q2, token, first, second, rfl⟩ := append_eq done
  refine ⟨_, _, rfl, ?_⟩
  rw [conditions_accepts, literals_single first, literals_single second]
  rfl

theorem keyParts_several {columns : List Text} {key : Text} (several : columns.length ≠ 1)
    : table.keyParts columns key = splitAny table.keysep key := by
  match columns, several with
  | [], _ => rfl
  | [_], several => exact absurd rfl several
  | _ :: _ :: _, _ => rfl

/-- The columns of a key are not pseudo-columns, since they have types. -/
theorem pseudoColumns_of_typed (named : table.Named) {column : Text}
    (typed : (table.types column).isSome = true)
    : table.pseudoColumns column = none := by
  have other : ∀ name ∈ [[], "_ckey".toList, "_pkey".toList, "_key".toList], column ≠ name := by
    rintro name inside rfl
    rw [named column inside] at typed
    cases typed
  rw [pseudoColumns, if_neg (other _ (by simp)), if_neg (other _ (by simp)),
    if_neg (other _ (by simp))]

/-- Each column equals its value if and only if the columns equal the key, by induction on the
values.
-/
theorem equals_iff (firsts seconds columns : List Text) (whole : firsts.length = columns.length)
    (short : seconds.length ≤ columns.length)
    : (∀ round ∈ zipPadded3 firsts seconds columns,
        (tupleOrder compare row [round.2.2] (table.typed [round.2.2] [round.1])).any
          SqlCompare.eq.holds = true)
      ↔ (tupleOrder compare row columns (table.typed columns firsts)).any SqlCompare.eq.holds
          = true := by
  induction firsts generalizing seconds columns with
  | nil =>
      obtain rfl := List.length_eq_zero_iff.mp whole.symm
      obtain rfl := List.length_eq_zero_iff.mp (Nat.le_zero.mp short)
      simp [zipPadded3, zipPadded, typed, tupleOrder, SqlCompare.holds]
  | cons first firsts ih =>
      cases columns with
      | nil => cases whole
      | cons column columns =>
          have rest := ih seconds.tail columns (by simpa using whole)
            (by simp only [List.length_cons] at short; rw [List.length_tail]; omega)
          rw [zipPadded3, List.forall_mem_cons, List.tail_cons, rest]
          simp only [typed, List.headD_cons, List.head?_cons, List.tail_cons, tupleOrder]
          cases row column with
          | none => simp
          | some value =>
              cases tupleOrder compare row columns (table.typed columns firsts) with
              | none => simp
              | some ordering => simp [SqlCompare.holds]

/-- What a step means for the row. The tuples that are pushed are translated in their turn. -/
def StepMeans (table : CassandraTable) (compare : Text → Text → Text → Ordering)
    (row : Text → Option Text) (tokenize : Bool) (tuple : CqlComponent) : CqlStep → Prop
  | .appended _ conditions =>
      (∀ condition ∈ conditions, condition.Accepts compare row)
        ↔ table.Satisfies compare row tuple
  | .pushed more =>
      (∀ other ∈ more, (table.cqlStep tokenize other).isSome = true) →
        (∀ other ∈ more, table.Whole other)
        ∧ ((∀ other ∈ more, table.Satisfies compare row other)
          ↔ table.Satisfies compare row tuple)

/-- An ordinary column without a type is not translated. -/
theorem typed_of_step {tokenize : Bool} (ordinary : table.pseudoColumns tuple.col = none)
    (done : (table.cqlStep tokenize tuple).isSome = true)
    : (table.types tuple.col).isSome = true := by
  rw [pseudoColumns] at ordinary
  split at ordinary
  · cases ordinary
  · next first =>
    split at ordinary
    · cases ordinary
    · next second =>
      split at ordinary
      · cases ordinary
      · next third =>
        obtain ⟨step, done⟩ := Option.isSome_iff_exists.mp done
        rw [cqlStep, if_neg first, if_neg second, if_neg third] at done
        obtain ⟨q1, q2, token, quoted, _⟩ := append_eq done
        rw [literals, List.mapM_cons] at quoted
        cases found : table.types tuple.col with
        | none =>
            rw [found] at quoted
            cases quoted
        | some type => rfl

/-- The disassembled values mean the key that they are of. -/
theorem push_means (named : table.Named) {tokenize : Bool} {columns : List Text}
    (typed : ∀ column ∈ columns, (table.types column).isSome = true)
    (whole : columns.length = 1
      ∨ tuple.op = .compare .eq ∧ (splitAny table.keysep tuple.v1).length = columns.length)
    (of : table.pseudoColumns tuple.col = some columns)
    : table.StepMeans compare row tokenize tuple (table.push tuple columns) := by
  intro translated
  have ordinary : ∀ round ∈ zipPadded3 (splitAny table.keysep tuple.v1)
      (splitAny table.keysep tuple.v2) columns,
      table.pseudoColumns round.2.2 = none ∧ round.2.2 ≠ [] := by
    intro round inside
    have done := translated _ (List.mem_map_of_mem inside)
    obtain member | empty := zipPadded3_third inside
    · refine ⟨pseudoColumns_of_typed named (typed _ member), fun empty => ?_⟩
      have present := typed _ member
      rw [empty, named [] (by simp)] at present
      cases present
    · have plain : table.pseudoColumns round.2.2 = none := by
        rw [empty]
        rfl
      have present := @typed_of_step table
        { tuple with col := round.2.2, v1 := round.1, v2 := round.2.1 } tokenize plain done
      rw [empty, named [] (by simp)] at present
      cases present
  obtain ⟨firsts, seconds⟩ := length_le_of_zipPadded3 fun round inside => (ordinary round inside).2
  have meaning : table.Satisfies compare row tuple
      ↔ tuple.op.Accepts (table.keyOrder compare row columns tuple.v1)
          (table.keyOrder compare row columns tuple.v2) := by
    rw [Satisfies, of, Option.getD_some]
  have separate : ∀ round ∈ zipPadded3 (splitAny table.keysep tuple.v1)
      (splitAny table.keysep tuple.v2) columns,
      (table.Satisfies compare row { tuple with col := round.2.2, v1 := round.1, v2 := round.2.1 }
        ↔ tuple.op.Accepts (table.keyOrder compare row [round.2.2] round.1)
            (table.keyOrder compare row [round.2.2] round.2.1)) := by
    intro round inside
    rw [Satisfies, (ordinary round inside).1, Option.getD_none]
  constructor
  · intro other inside
    obtain ⟨round, member, rfl⟩ := List.mem_map.mp inside
    obtain ⟨plain, _⟩ := ordinary round member
    refine ⟨?_, fun more pseudo => ?_⟩
    · intro same
      have same : round.2.2 = "_ckey".toList := same
      rw [same] at plain
      cases plain
    · rw [plain] at pseudo
      cases pseudo
  · rw [meaning, List.forall_mem_map]
    refine (forall_congr' fun round => forall_congr' fun inside => separate round inside).trans ?_
    by_cases single : columns.length = 1
    · -- one column has one round, with the values as they are
      obtain ⟨column, rfl⟩ := List.length_eq_one_iff.mp single
      rw [zipPadded3_single column firsts seconds, splitAny_headD firsts, splitAny_headD seconds]
      exact List.forall_mem_singleton
    · obtain ⟨equal, complete⟩ := whole.resolve_left single
      have rounds := @equals_iff table compare row _ _ columns complete seconds
      rw [equal, CqlOp.Accepts, keyOrder, keyParts_several single]
      exact rounds

/-- A step means what its tuple means. -/
theorem cqlStep_means (named : table.Named) {tokenize : Bool} {step : CqlStep}
    (whole : table.Whole tuple) (done : table.cqlStep tokenize tuple = some step)
    : table.StepMeans compare row tokenize tuple step := by
  have first : tuple.col ≠ "_ckey".toList := whole.1
  have partitioned : table.keyfields.length = 1 → table.partitionKeys = table.keyfields := by
    intro one
    have present := List.length_pos_iff.mpr table.partitionKeys_present
    rw [keyfields, List.length_append] at one
    have empty : table.clusterKeys = [] := List.length_eq_zero_iff.mp (by omega)
    rw [keyfields, empty, List.append_nil]
  have single : ∀ columns, table.pseudoColumns tuple.col = some columns →
      columns = table.keyfields → table.keyfields.length = 1 →
      table.append tokenize tuple [table.keyfields.headD []]
          [(tuple.v1, table.keyfields.headD [])] [(tuple.v2, table.keyfields.headD [])]
        = some step →
      table.StepMeans compare row tokenize tuple step := by
    intro columns pseudo same one done
    obtain ⟨column, only⟩ := List.length_eq_one_iff.mp one
    rw [only, List.headD_cons] at done
    obtain ⟨key, conditions, rfl, accepts⟩ := @append_single table compare row _ _ _ _ done
    rw [StepMeans, accepts, Satisfies, pseudo, Option.getD_some, same, only]
  rw [cqlStep, if_neg first] at done
  split at done
  · next second =>
    have pseudo : table.pseudoColumns tuple.col = some table.partitionKeys := by
      rw [pseudoColumns, if_neg first, if_pos second]
    split at done
    · next one => exact single _ pseudo (partitioned one) one done
    · obtain rfl := Option.some.inj done
      refine push_means named (fun column inside => ?_) (whole.2 _ pseudo) pseudo
      exact table.types_present column (List.mem_append_left _ inside)
  · next second =>
    split at done
    · next third =>
      have pseudo : table.pseudoColumns tuple.col = some table.keyfields := by
        rw [pseudoColumns, if_neg first, if_neg second, if_pos third]
      split at done
      · next one => exact single _ pseudo rfl one done
      · obtain rfl := Option.some.inj done
        exact push_means named table.types_present (whole.2 _ pseudo) pseudo
    · next third =>
      have plain : table.pseudoColumns tuple.col = none := by
        rw [pseudoColumns, if_neg first, if_neg second, if_neg third]
      obtain ⟨key, conditions, rfl, accepts⟩ := @append_single table compare row _ _ _ _ done
      rw [StepMeans, accepts, Satisfies, plain, Option.getD_none]

/-- The loop ends only if each tuple of the work list can be translated. -/
theorem whereLoop_translated {tokenize : Bool} {rounds : Nat} {tuples : List CqlComponent}
    {pwhere iwhere conditions : List CqlCondition}
    (done : table.whereLoop tokenize rounds tuples pwhere iwhere = some conditions)
    : ∀ tuple ∈ tuples, (table.cqlStep tokenize tuple).isSome = true := by
  induction rounds generalizing tuples pwhere iwhere with
  | zero =>
      cases tuples with
      | nil => exact List.forall_mem_nil _
      | cons tuple tuples => cases done
  | succ rounds ih =>
      cases tuples with
      | nil => exact List.forall_mem_nil _
      | cons tuple tuples =>
          rw [List.forall_mem_cons]
          rw [whereLoop] at done
          split at done
          · cases done
          · next more step =>
            exact ⟨by rw [step]; rfl, fun other inside =>
              ih done other (List.mem_append_left more inside)⟩
          · next step => exact ⟨by rw [step]; rfl, ih done⟩
          · next step => exact ⟨by rw [step]; rfl, ih done⟩

/-- The conditions that the loop ends with are those it had and those of the work list. -/
theorem whereLoop_means (named : table.Named) {tokenize : Bool} {rounds : Nat}
    {tuples : List CqlComponent} {pwhere iwhere conditions : List CqlCondition}
    (whole : ∀ tuple ∈ tuples, table.Whole tuple)
    (done : table.whereLoop tokenize rounds tuples pwhere iwhere = some conditions)
    : (∀ condition ∈ conditions, condition.Accepts compare row)
      ↔ (∀ condition ∈ pwhere ++ iwhere, condition.Accepts compare row)
        ∧ ∀ tuple ∈ tuples, table.Satisfies compare row tuple := by
  induction rounds generalizing tuples pwhere iwhere with
  | zero =>
      cases tuples with
      | nil =>
          obtain rfl := Option.some.inj done
          simp
      | cons tuple tuples => cases done
  | succ rounds ih =>
      cases tuples with
      | nil =>
          obtain rfl := Option.some.inj done
          simp
      | cons tuple tuples =>
          obtain ⟨own, others⟩ := List.forall_mem_cons.mp whole
          rw [List.forall_mem_cons]
          rw [whereLoop] at done
          split at done
          · cases done
          · next more step =>
            have means := @cqlStep_means table compare row tuple named _ _ own step
            obtain ⟨wholes, same⟩ := means fun other inside =>
              whereLoop_translated done other (List.mem_append_right tuples inside)
            rw [ih (List.forall_mem_append.mpr ⟨others, wholes⟩) done, ← same]
            simp only [List.forall_mem_append]
            tauto
          · next added step =>
            have means := @cqlStep_means table compare row tuple named _ _ own step
            rw [StepMeans] at means
            rw [ih others done, ← means]
            simp only [List.forall_mem_append]
            tauto
          · next added step =>
            have means := @cqlStep_means table compare row tuple named _ _ own step
            rw [StepMeans] at means
            rw [ih others done, ← means]
            simp only [List.forall_mem_append]
            tauto

/-- A search whose components are whole has the conditions that exactly the rows meet which satisfy
every component.
-/
theorem searchCql_accepts (table : CassandraTable) (compare : Text → Text → Text → Ordering)
    (row : Text → Option Text) (rounds : Nat) (tuples : List CqlComponent)
    (conditions : List CqlCondition) (named : table.Named)
    (whole : ∀ tuple ∈ tuples, table.Whole tuple)
    (translated : table.searchCql rounds tuples = some conditions)
    : (∀ condition ∈ conditions, condition.Accepts compare row)
      ↔ ∀ tuple ∈ tuples, table.Satisfies compare row tuple := by
  rw [whereLoop_means named whole translated]
  simp

/-- The order of texts, whatever their type. -/
def textOrder (_ value literal : Text) : Ordering := compareOfLessAndEq value literal

theorem searchCql_flight
    : (∀ condition ∈ [CqlCondition.mk false ["day".toList] .eq [("monday".toList, "text".toList)],
          CqlCondition.mk false ["ident".toList] .eq [("UAL1".toList, "text".toList)],
          CqlCondition.mk false ["gate".toList] .lt [("9".toList, "text".toList)]],
        condition.Accepts textOrder (flight "monday" "UAL1"))
      ↔ ∀ tuple ∈ [CqlComponent.mk (.compare .lt) "gate".toList "9".toList [],
            CqlComponent.mk (.compare .eq) "_key".toList "monday:UAL1".toList []],
          flights.Satisfies textOrder (flight "monday" "UAL1") tuple := by
  refine searchCql_accepts flights textOrder (flight "monday" "UAL1") 4 _ _
    (by unfold Named; decide +kernel) ?_ (by decide +kernel)
  intro tuple inside
  obtain rfl | rfl := by simpa only [List.mem_cons, List.not_mem_nil, or_false] using inside
  · refine ⟨by decide, fun columns pseudo => ?_⟩
    have plain : flights.pseudoColumns "gate".toList = none := by decide
    rw [plain] at pseudo
    cases pseudo
  · refine ⟨by decide, fun columns pseudo => .inr ?_⟩
    have two : flights.pseudoColumns "_key".toList = some ["day".toList, "ident".toList] := rfl
    obtain rfl := Option.some.inj (two.symm.trans pseudo)
    decide +kernel

/-- All flights but one: the other flights of its day are left out too. -/
theorem searchCql_ne
    : ¬ ∀ (table : CassandraTable) (compare : Text → Text → Text → Ordering)
        (row : Text → Option Text) (rounds : Nat) (tuples : List CqlComponent)
        (conditions : List CqlCondition), table.Named
        → table.searchCql rounds tuples = some conditions
        → ((∀ condition ∈ conditions, condition.Accepts compare row)
          ↔ ∀ tuple ∈ tuples, table.Satisfies compare row tuple) := by
  intro claim
  have same := claim flights textOrder (flight "monday" "UAL2") 3
    [{ op := .compare .ne, col := "_key".toList, v1 := "monday:UAL1".toList, v2 := [] }]
    [{ token := false, columns := ["day".toList], op := .ne,
       literals := [("monday".toList, "text".toList)] },
      { token := false, columns := ["ident".toList], op := .ne,
        literals := [("UAL1".toList, "text".toList)] }]
    (by unfold Named; decide +kernel) (by decide +kernel)
  revert same
  decide +kernel

end CassandraTable

end SpeedTables.Stapi
