import SpeedTables.Table.RowBlocks

/-! Whole runs on any number of tables of one type release every block once, to where it is from. -/

namespace SpeedTables.Allocation

open Lib (BlockHistory)

variable {type : RowType} {process process' : Process type} {owner owner' : Owners} {row : Nat}
variable {place : Region} {home : Home}

-----------------------------------------------------------------------------------------
-- New tables
-----------------------------------------------------------------------------------------

section NewTables

variable {table : CTable type} {t : Nat}

/-- A block is allocated that is never released. -/
theorem Consistent.allocateConstant (consistent : Consistent process owner) (place : Region)
    (text : CString)
    : Consistent (process.allocateText place text)
        (Function.update owner process.history.next (some (.constant, place))) := by
  have owned := consistent.blocks.owned
  have beside : Beside process (process.allocateText place text) process.history.next :=
    ⟨fun _ _ => rfl, rfl, fun _ => id⟩
  refine ⟨consistent.blocks.around beside (.gain owned.fresh nofun)
    (owned.allocate (Owner.constant, place)) (.inl rfl) fun home place has => ?_,
    consistent.lists.same rfl (fun _ => .rfl) rfl rfl rfl fun block home _ has =>
      owned.still has (Owner.constant, place)⟩
  rw [Function.update_self] at has
  cases has

/-- Several blocks are allocated that are never released, by induction on them. -/
theorem Consistent.allocateConstants (consistent : Consistent process owner) (place : Region)
    (texts : List CString)
    : ∃ owner', Consistent
        (texts.foldl (fun process text => process.allocateText place text) process) owner'
      ∧ (texts.foldl (fun process text => process.allocateText place text) process).tables
          = process.tables
      ∧ (∀ block held, owner block = some held → owner' block = some held)
      ∧ ∀ i, i < texts.length → owner' (process.history.next + i) = some (.constant, place) := by
  induction texts generalizing process owner with
  | nil =>
      exact ⟨owner, consistent, rfl, fun _ _ => id, fun i few => absurd few (Nat.not_lt_zero i)⟩
  | cons text rest ih =>
      obtain ⟨owner', after, tables, kept, constant⟩ :=
        ih (consistent.allocateConstant place text)
      have owned := consistent.blocks.owned
      refine ⟨owner', after, tables, fun block held has => kept _ _ (owned.still has _), ?_⟩
      intro i few
      cases i with
      | zero => exact kept _ _ (Function.update_self ..)
      | succ i =>
          have next := constant i (Nat.lt_of_succ_lt_succ few)
          rwa [show (process.allocateText place text).history.next = process.history.next + 1
            from rfl, Nat.add_assoc, Nat.add_comm 1 i] at next

/-- A table without rows is added. -/
theorem Consistent.addTable (consistent : Consistent process owner)
    (absent : process.tables t = none)
    (null : ∀ key, table.nullKeyValue = some key → ∃ origin, owner key = some (.constant, origin))
    (defaults : ∀ field, ∃ origin, owner (table.defaultStrings field) = some (.constant, origin))
    : Consistent (process.addTable t table) owner := by
  have ⟨blocks, lists⟩ := consistent
  have others {t' : Nat} {other : CTable type} (has : process.tables t' = some other)
      : (process.addTable t table).tables t' = some other := by
    have unequal : t' ≠ t := by
      rintro rfl
      rw [absent] at has
      cases has
    rw [Process.addTable]
    exact (Function.update_of_ne unequal ..).trans has
  have old {t' : Nat} {other : CTable type}
      (has : (process.addTable t table).tables t' = some other)
      : other = table ∨ process.tables t' = some other := by
    change Function.update process.tables t (some table) t' = some other at has
    by_cases same : t' = t
    · subst same
      rw [Function.update_self] at has
      exact .inl (Option.some.inj has).symm
    · rw [Function.update_of_ne same] at has
      exact .inr has
  refine ⟨⟨blocks.owned, fun row home place has => ?_, fun t' other has => ?_,
    fun t' other has => ?_, blocks.base, blocks.program⟩, fun t' row listed => ?_, fun t' => ?_,
    fun t' => ?_, lists.comparisons, lists.once, lists.saved, lists.savedShared⟩
  · have fits := blocks.rows row home place has
    refine ⟨?_, fits.strings⟩
    have key := fits.key
    cases home with
    | listed t' =>
        obtain ⟨⟨other, found, rest⟩, key⟩ := key
        exact ⟨⟨other, others found, rest⟩, key⟩
    | comparison t' =>
        obtain ⟨⟨other, found⟩, key⟩ := key
        exact ⟨⟨other, others found⟩, key⟩
    | saved => exact key
  · rcases old has with rfl | has
    · exact null
    · exact blocks.nullKeys t' other has
  · rcases old has with rfl | has
    · exact defaults
    · exact blocks.defaults t' other has
  · change row ∈ Function.update process.llHead t [] t' at listed
    by_cases same : t' = t
    · subst same
      rw [Function.update_self] at listed
      cases listed
    · rw [Function.update_of_ne same] at listed
      exact lists.listed t' row listed
  · change (Function.update process.llHead t [] t').Nodup
    by_cases same : t' = t
    · subst same
      rw [Function.update_self]
      exact List.nodup_nil
    · rw [Function.update_of_ne same]
      exact lists.apart t'
  · change (Function.update process.keyTable t [] t').Perm (Function.update process.llHead t [] t')
    by_cases same : t' = t
    · subst same
      rw [Function.update_self, Function.update_self]
    · rw [Function.update_of_ne same, Function.update_of_ne same]
      exact lists.linked t'

/-- A table gets a null key value and default strings of its own. -/
theorem Consistent.addShared (consistent : Consistent process owner)
    (absent : process.tables t = none) (share : Nat) (shareType : ShareType) (sharePanic : Bool)
    : ∃ owner', Consistent ((process.allocateDefaults share).addTable t
        (Process.sharedTable type shareType sharePanic process.history.next)) owner' := by
  have allocated : process.allocateDefaults share
      = ([] :: (List.finRange type.strings).map fun field => (type.default field).getD []).foldl
          (fun process text => process.allocateText (.share share) text) process := by
    rw [List.foldl_cons, List.foldl_map]
    rfl
  obtain ⟨owner', after, tables, -, constant⟩ := consistent.allocateConstants (.share share)
    ([] :: (List.finRange type.strings).map fun field => (type.default field).getD [])
  rw [← allocated] at after tables
  refine ⟨owner', after.addTable (tables ▸ absent) (fun key isNull => ?_) fun field => ?_⟩
  · cases isNull
    exact ⟨_, constant 0 (Nat.succ_pos _)⟩
  · refine ⟨_, Eq.trans ?_ (constant (1 + field) ?_)⟩
    · rw [← Nat.add_assoc]
      rfl
    · simp only [List.length_cons, List.length_map, List.length_finRange]
      omega

end NewTables

-----------------------------------------------------------------------------------------
-- Runs
-----------------------------------------------------------------------------------------

namespace Process

/-- The action is proper, if it is on a table that exists. -/
def ProperStep (process : Process type) (action : Action type) : Prop :=
  ∀ table, process.tables action.table = some table → process.Proper action.table table action

/-- Every action is proper in the state it is taken in. -/
def ProperRun : Process type → List (Action type) → Prop
  | _, [] => True
  | process, action :: rest =>
      process.ProperStep action
        ∧ ∀ process', process.step action = some process' → process'.ProperRun rest

end Process

section Runs

variable {action : Action type} {t : Nat} {table : CTable type}

theorem Consistent.act (consistent : Consistent process owner)
    (found : process.tables t = some table) (proper : process.Proper t table action)
    (result : process.act t table action = some process')
    : ∃ owner', Consistent process' owner' := by
  cases action with
  | createPrivate _ => cases result
  | createMaster _ _ _ => cases result
  | createReader _ _ _ => cases result
  | findOrCreate _ key roomForRow roomForKey =>
      simp only [Process.act] at result
      split at result
      · cases result
      · next notReader =>
          obtain ⟨⟨found?, after⟩, done, rfl⟩ := Option.map_eq_some_iff.mp result
          exact consistent.findOrCreate found (Bool.eq_false_iff.mpr notReader) proper done
  | setKey _ row value indexCtl room =>
      simp only [Process.act] at result
      split at result
      · next settable =>
          obtain ⟨⟨failed, after⟩, done, rfl⟩ := Option.map_eq_some_iff.mp result
          cases indexCtl with
          | privateRow =>
              have member : (t, row) ∈ process.comparisons := by
                simpa [Process.settable] using settable
              exact consistent.setComparisonKey found (consistent.lists.comparisons _ member) proper
                done
          | normal => exact consistent.setKeyField found (.inl rfl) proper done
          | new => exact consistent.setKeyField found (.inr rfl) proper done
          | destroyShared => cases settable
          | fastDelete => cases settable
      · cases result
  | setString _ row field value indexCtl room =>
      simp only [Process.act] at result
      split at result
      · next settable =>
          obtain ⟨⟨failed, after⟩, done, rfl⟩ := Option.map_eq_some_iff.mp result
          rcases proper with rfl | listed
          · have member : (t, row) ∈ process.comparisons := by
              simpa [Process.settable] using settable
            exact consistent.setStringField (consistent.lists.comparisons _ member) nofun rfl done
          · obtain ⟨-, -, -, here, -⟩ := consistent.ownKey found listed
            have turn : table.placeOf indexCtl = table.place := by
              rw [CTable.placeOf, if_neg]
              rintro rfl
              have member : (t, row) ∈ process.comparisons := by
                simpa [Process.settable] using settable
              have has := consistent.lists.comparisons _ member
              rw [here] at has
              cases has
            exact consistent.setStringField here nofun turn done
      · cases result
  | delete _ key =>
      simp only [Process.act] at result
      split at result
      · cases result
      · next notReader =>
          split at result
          · cases result
            exact ⟨owner, consistent⟩
          · next row there =>
              have linked : row ∈ process.keyTable t := List.mem_of_find?_eq_some there
              exact consistent.deleteRow found (Bool.eq_false_iff.mpr notReader)
                ((consistent.lists.linked t).mem_iff.mp linked) result
  | searchDelete _ row =>
      simp only [Process.act] at result
      split at result
      · cases result
      · next notReader =>
          exact consistent.deleteRow found (Bool.eq_false_iff.mpr notReader) proper result
  | reset _ =>
      cases result
      exact consistent.reset found
  | makeComparison _ =>
      cases result
      exact consistent.makeComparison found
  | deleteComparison _ row =>
      simp only [Process.act] at result
      split at result
      · next member =>
          obtain ⟨after, done, rfl⟩ := Option.map_eq_some_iff.mp result
          exact consistent.deleteComparison member proper done
      · cases result

/-- A proper action keeps the process consistent. -/
theorem Consistent.step (consistent : Consistent process owner)
    (proper : process.ProperStep action) (result : process.step action = some process')
    : ∃ owner', Consistent process' owner' := by
  have onTable (uses : Process.makesTable action = false)
      : ∃ owner', Consistent process' owner' := by
    obtain ⟨table, found, done⟩ := Process.step_onTable uses result
    exact consistent.act found (proper table found) done
  cases action with
  | createPrivate t =>
      rw [Process.step] at result
      split at result
      · cases result
      · next absent =>
          cases result
          exact ⟨owner, consistent.addTable (Option.not_isSome_iff_eq_none.mp absent)
            (fun row same => by cases same) fun field => ⟨_, consistent.blocks.program field⟩⟩
  | createMaster t share sharePanic =>
      rw [Process.step] at result
      split at result
      · cases result
      · next absent =>
          cases result
          exact consistent.addShared (Option.not_isSome_iff_eq_none.mp absent) share _ _
  | createReader t share master =>
      rw [Process.step] at result
      split at result
      · cases result
      · next absent =>
          have absent := Option.not_isSome_iff_eq_none.mp absent
          cases master with
          | none =>
              cases result
              exact consistent.addShared absent share _ _
          | some m =>
              simp only [Process.createReader] at result
              split at result
              · cases result
              · next table found =>
                  split at result
                  · cases result
                    exact ⟨owner, consistent.addTable absent
                      (consistent.blocks.nullKeys m table found)
                      (consistent.blocks.defaults m table found)⟩
                  · cases result
  | findOrCreate t key roomForRow roomForKey => exact onTable rfl
  | setKey t row value indexCtl room => exact onTable rfl
  | setString t row field value indexCtl room => exact onTable rfl
  | delete t key => exact onTable rfl
  | searchDelete t row => exact onTable rfl
  | reset t => exact onTable rfl
  | makeComparison t => exact onTable rfl
  | deleteComparison t row => exact onTable rfl

/-- At the start the default strings of the program are constants, and nothing else has an owner. -/
theorem Consistent.new (type : RowType)
    : Consistent (Process.new type)
        fun block => if block < type.strings then some (.constant, .program) else none := by
  have constant {block : Nat} {held : Owner × Region}
      (has : (if block < type.strings then some (Owner.constant, Region.program) else none)
        = some held)
      : block < type.strings ∧ held = (.constant, .program) := by
    split at has
    · next inside => exact ⟨inside, (Option.some.inj has).symm⟩
    · cases has
  refine ⟨⟨⟨⟨List.nodup_nil, nofun⟩, fun block held has => (constant has).1, fun block held has =>
    ?_, fun block gone => ?_⟩, fun row home place has => ?_, nofun, nofun, nofun, fun field => ?_⟩,
    fun t row listed => ?_, fun t => List.nodup_nil, fun t => .refl _, nofun, List.nodup_nil,
    nofun, nofun⟩
  · rw [(constant has).2]
    rfl
  · cases gone
  · cases (constant has).2
  · rw [if_pos field.isLt]
  · cases listed

/-- A run of proper actions keeps the process consistent, by induction on the actions. -/
theorem Consistent.run {actions : List (Action type)} (consistent : Consistent process owner)
    (proper : process.ProperRun actions) (result : process.run actions = some process')
    : ∃ owner', Consistent process' owner' := by
  induction actions generalizing process owner with
  | nil =>
      cases result
      exact ⟨owner, consistent⟩
  | cons action rest ih =>
      obtain ⟨state, first, last⟩ := Option.bind_eq_some_iff.mp result
      obtain ⟨owner', here⟩ := consistent.step proper.1 first
      exact ih here (proper.2 state first) last

/-- A type that has only a key. -/
def keyType : RowType where
  strings := 0
  notnull := fun _ => false
  default := fun _ => none
  nullValue := []

end Runs

end SpeedTables.Allocation
