import SpeedTables.Search.WalkRuns

/-! The walk that a search chooses, and the rows that pass the component it is chosen for. -/

namespace SpeedTables

open Lib Std

variable {creator : CreatorTable} {host : Host}

-----------------------------------------------------------------------------------------
-- What the choice of a walk comes to
-----------------------------------------------------------------------------------------

/-- The `=` on the key that the choice ends at, with its number, and the values of the last `in`
that was a candidate before it.
-/
def lookupChosen (table : CTable creator) (previous : List (Option creator.Field))
    (sortField : Option creator.Field)
    : List (Nat × Component creator) → List Obj → Option (Nat × Row creator × List Obj)
  | [], _ => none
  | (index, component) :: rest, values =>
      match component.term with
      | .compare .eq row1 =>
          if component.field = creator.keyField then some (index, row1, values)
          else lookupChosen table previous sortField rest values
      | .inList listed =>
          if component.field = creator.keyField then none
          else if (usable table previous sortField component).isSome then
            lookupChosen table previous sortField rest listed
          else lookupChosen table previous sortField rest values
      | _ => lookupChosen table previous sortField rest values

/-- A choice comes to nothing, to an index to walk, or to the key or the keys to look up. -/
inductive PlanEnds (host : Host) (table : CTable creator)
    (lookup : Option (Nat × Row creator × List Obj)) (entries : List (Nat × Component creator))
    (plan after : Plan creator) : Prop where
  | stays (none : lookup = none) (same : after = plan)
  | skips {entry : Nat × Component creator} {skip : SkipList RowId} (none : lookup = none)
      (member : entry ∈ entries) (chain : table.skipLists entry.2.field = some skip)
      (walks : after.walkType = .skip) (searched : after.alreadySearched = some entry.1)
      (list : after.skipList = some { field := entry.2.field, head := skip.head })
      (number : after.skipField = entry.2.field.val)
      (unordered : ∀ values, entry.2.term = .inList values → after.inOrderWalk = false)
      (chose : after.Chose host entry.2)
  | finds {index : Nat} {row1 : Row creator} {values : List Obj}
      (chosen : lookup = some (index, row1, values))
      (member : (index, { field := creator.keyField, term := .compare .eq row1 }) ∈ entries)
      (walks : after.walkType = .hashEq) (searched : after.alreadySearched = some index)
      (key : after.key = some row1.keyString) (list : after.inListObj = values)
  | findsAll {index : Nat} {values : List Obj} (none : lookup = none)
      (member : (index, { field := creator.keyField, term := .inList values }) ∈ entries)
      (walks : after.walkType = .hashIn) (searched : after.alreadySearched = some index)
      (key : after.key = plan.key) (list : after.inListObj = values)

section Choice

variable {table : CTable creator} {previous : List (Option creator.Field)}
  {sortField : Option creator.Field} {plan after : Plan creator}

/-- A choice among more components, or from a plan with the same key, comes to the same. -/
theorem PlanEnds.earlier {lookup : Option (Nat × Row creator × List Obj)}
    {entries : List (Nat × Component creator)} {entry : Nat × Component creator}
    (ends : PlanEnds host table lookup entries plan after)
    : PlanEnds host table lookup (entry :: entries) plan after := by
  cases ends with
  | stays none same => exact .stays none same
  | skips none member chain walks searched list number unordered chose =>
      exact .skips none (List.mem_cons_of_mem _ member) chain walks searched list number unordered
        chose
  | finds chosen member walks searched key list =>
      exact .finds chosen (List.mem_cons_of_mem _ member) walks searched key list
  | findsAll none member walks searched key list =>
      exact .findsAll none (List.mem_cons_of_mem _ member) walks searched key list

/-- A component is an `=`, an `in`, or leaves the lookups alone. -/
theorem Term.lookup_cases (term : Term creator)
    : (∃ row1, term = .compare .eq row1) ∨ (∃ values, term = .inList values)
      ∨ ((∀ row1, term ≠ .compare .eq row1) ∧ ∀ values, term ≠ .inList values) := by
  cases term with
  | compare op row1 => cases op <;> simp
  | inList values => simp
  | _ => simp

/-- A candidate for a skip-list walk sets the values of its own `in` only, and no key. -/
theorem takeSkip_lists {head : NodeId} {index : Nat} {component : Component creator}
    (takes : plan.takeSkip host head index component = .ok after)
    : after.walkType = .skip ∧ after.alreadySearched = some index
      ∧ after.skipList = some { field := component.field, head := head }
      ∧ after.key = plan.key ∧ after.skipField = component.field.val
      ∧ (∀ values, component.term = .inList values → after.inOrderWalk = false)
      ∧ (∀ values, component.term = .inList values → after.inListObj = values)
      ∧ ((∀ values, component.term ≠ .inList values) → after.inListObj = plan.inListObj) := by
  unfold Plan.takeSkip at takes
  dsimp only at takes
  split at takes
  · next values term =>
      split at takes
      · cases takes
      · cases takes
        refine ⟨rfl, rfl, rfl, rfl, rfl, fun _ _ => rfl, fun listed same => ?_,
          fun others => absurd term (others values)⟩
        cases term.symm.trans same
        rfl
  · next notList =>
      cases takes
      exact ⟨rfl, rfl, rfl, rfl, rfl, fun values same => absurd same (notList values),
        fun values same => absurd same (notList values), fun _ => rfl⟩

theorem usable_chain {component : Component creator} {skip : SkipList RowId}
    (found : usable table previous sortField component = some skip)
    : table.skipLists component.field = some skip := by
  unfold usable at found
  dsimp only at found
  split_ifs at found <;> exact found

/-- The choice among the components, by induction on the loop. -/
theorem planLoop_ends {entries : List (Nat × Component creator)}
    (plans : planLoop host table previous sortField entries plan = .ok after)
    : PlanEnds host table (lookupChosen table previous sortField entries plan.inListObj) entries
        plan after := by
  induction entries generalizing plan with
  | nil =>
      cases plans
      exact .stays rfl rfl
  | cons entry rest ih =>
      obtain ⟨index, ⟨field, term⟩⟩ := entry
      rw [planLoop] at plans
      dsimp only at plans
      split at plans
      · next taken found =>
          cases plans
          split at found
          · next isKey =>
              subst isKey
              unfold Plan.takeHash at found
              split at found
              · next row1 =>
                  cases found
                  exact .finds (by simp [lookupChosen]) List.mem_cons_self rfl rfl rfl rfl
              · next values =>
                  cases found
                  exact .findsAll (by simp [lookupChosen]) List.mem_cons_self rfl rfl rfl rfl
              · cases found
          · cases found
      · next unfound =>
          -- No `=` and no `in` on the key.
          have other : field = creator.keyField →
              (∀ row1, term ≠ .compare .eq row1) ∧ ∀ values, term ≠ .inList values := by
            intro isKey
            rw [if_pos isKey] at unfound
            constructor
            · rintro row1 rfl
              cases unfound
            · rintro values rfl
              cases unfound
          have notEqual (row1 : Row creator) (same : term = .compare .eq row1)
              : field ≠ creator.keyField := fun isKey => (other isKey).1 row1 same
          have notIn (values : List Obj) (same : term = .inList values)
              : field ≠ creator.keyField := fun isKey => (other isKey).2 values same
          split at plans
          · next unusable =>
              have same : lookupChosen table previous sortField ((index, ⟨field, term⟩) :: rest)
                    plan.inListObj
                  = lookupChosen table previous sortField rest plan.inListObj := by
                rcases term.lookup_cases with ⟨row1, rfl⟩ | ⟨values, rfl⟩ | ⟨noEqual, noIn⟩
                · simp [lookupChosen, notEqual row1 rfl]
                · simp [lookupChosen, notIn values rfl, unusable]
                · rw [lookupChosen]
                  split
                  · next row1 isEqual => exact absurd isEqual (noEqual row1)
                  · next values isIn => exact absurd isIn (noIn values)
                  · rfl
              rw [same]
              exact (ih plans).earlier
          · next skip usable =>
              split at plans
              · cases plans
              · next taken takes =>
                  obtain ⟨walks, searched, list, key, number, unordered, own, others⟩ :=
                    takeSkip_lists takes
                  have same : lookupChosen table previous sortField
                        ((index, ⟨field, term⟩) :: rest) plan.inListObj
                      = lookupChosen table previous sortField rest taken.inListObj := by
                    rcases term.lookup_cases with ⟨row1, rfl⟩ | ⟨values, rfl⟩ | ⟨noEqual, noIn⟩
                    · rw [others fun values same => by cases same]
                      simp [lookupChosen, notEqual row1 rfl]
                    · rw [own values rfl]
                      simp [lookupChosen, notIn values rfl, usable]
                    · rw [others noIn, lookupChosen]
                      split
                      · next row1 isEqual => exact absurd isEqual (noEqual row1)
                      · next values isIn => exact absurd isIn (noIn values)
                      · rfl
                  have chose := takeSkip_chose takes (usable_scored usable)
                  rw [same]
                  cases ih plans with
                  | stays none same =>
                      subst same
                      exact .skips none List.mem_cons_self (usable_chain usable) walks searched list
                        number unordered chose
                  | skips none member chain walks searched list number unordered chose =>
                      exact .skips none (List.mem_cons_of_mem _ member) chain walks searched list
                        number unordered chose
                  | finds chosen member walks searched key list =>
                      exact .finds chosen (List.mem_cons_of_mem _ member) walks searched key list
                  | findsAll none member walks searched same list =>
                      exact .findsAll none (List.mem_cons_of_mem _ member) walks searched
                        (same.trans key) list

end Choice

-----------------------------------------------------------------------------------------
-- Components and the walks chosen for them
-----------------------------------------------------------------------------------------

/-- The tests of a row pass when each of them does that the walk leaves, by induction on the
components.
-/
theorem searchCompare_iff {already : Option Nat} {row : Row creator}
    {components : List (Component creator)} {start : Nat}
    : searchCompare host already row start components = .ok true
      ↔ ∀ other component, components[other]? = some component →
        already ≠ some (start + other) → component.test host row = .ok true := by
  induction components generalizing start with
  | nil => exact iff_of_true rfl fun other component found => by cases found
  | cons first rest ih =>
      have shifted : (∀ other component, (first :: rest)[other]? = some component →
            already ≠ some (start + other) → component.test host row = .ok true)
          ↔ (already ≠ some start → first.test host row = .ok true)
            ∧ ∀ other component, rest[other]? = some component →
              already ≠ some (start + 1 + other) → component.test host row = .ok true := by
        constructor
        · intro all
          refine ⟨fun tested => all 0 first rfl tested, fun other component found tested => ?_⟩
          refine all (other + 1) component found ?_
          rwa [Nat.add_comm other, ← Nat.add_assoc]
        · rintro ⟨now, later⟩ other component found tested
          cases other with
          | zero =>
              cases found
              exact now tested
          | succ other =>
              refine later other component found ?_
              rwa [Nat.add_assoc, Nat.add_comm 1]
      rw [shifted, searchCompare]
      split
      · next skipped => rw [ih, skipped]; simp
      · next tested =>
          split
          · next stop stops => simp [stops, tested]
          · next fails => simp [fails, tested]
          · next passes => rw [ih]; simp [passes]

section Choices

variable {plan : Plan creator} {component : Component creator} {row : Row creator}

/-- A row walk comes to the rows that pass its component. -/
theorem Plan.Chose.rows_iff (chose : plan.Chose host component)
    (rows : (skipTypes component.term).next = .row) {passes : Bool}
    (evaluates : component.test host row = .ok passes)
    : passes = true
      ↔ plan.passesOver component.field row = false ∧ plan.past component.field row = false := by
  obtain ⟨field, term⟩ := component
  obtain ⟨-, start, stop, -, row1, row2, -, -⟩ := chose
  dsimp only at *
  have swapped (left right : Row creator)
      : creator.compareFunction field left right
        = (creator.compareFunction field right left).swap := OrientedCmp.eq_swap
  cases term with
  | compare op value =>
      simp only [Component.test] at evaluates
      split at evaluates
      · cases evaluates
      · next ordering compared =>
          cases evaluates
          obtain rfl := compareRows_eq compared
          cases op <;> simp only [skipTypes, reduceCtorEq] at rows start stop <;>
            simp only [Plan.passesOver, Plan.past, start, stop, row1, Term.row1, Option.any_some,
              CompareOp.holds, swapped value row] <;>
            cases creator.compareFunction field row value <;> decide
  | range low high =>
      simp only [Component.test] at evaluates
      simp only [skipTypes] at start stop
      have row2 := row2 fun values same => by cases same
      simp only [Plan.passesOver, Plan.past, start, stop, row1, row2, Term.row1, Term.row2,
        Option.any_some, swapped low row]
      split at evaluates
      · cases evaluates
      · next compared =>
          cases evaluates
          rw [← compareRows_eq compared]
          simp
      · next ordering notLess compared =>
          obtain rfl := compareRows_eq compared
          split at evaluates
          · cases evaluates
          · next ordering compared =>
              cases evaluates
              obtain rfl := compareRows_eq compared
              have above : creator.compareFunction field row low ≠ .lt := notLess
              revert above
              cases creator.compareFunction field row low <;>
                cases creator.compareFunction field row high <;> decide
  | matching term value =>
      obtain ⟨keeps, nocase, type, word⟩ := term
      cases keeps <;> cases nocase <;> cases rows
  | isFalse => cases rows
  | isTrue => cases rows
  | isNull => cases rows
  | notNull => cases rows
  | inList values => cases rows

/-- An `in` comparison that ends finds an equal row if there is one, by induction on its list. -/
theorem equalsAny_iff {field : creator.Field} {rows : List (Row creator)} {passes : Bool}
    (evaluates : equalsAny field row rows = .ok passes)
    : passes = true ↔ ∃ value ∈ rows, creator.compareFunction field value row = .eq := by
  induction rows with
  | nil =>
      cases evaluates
      simp
  | cons value rest ih =>
      rw [equalsAny] at evaluates
      split at evaluates
      · cases evaluates
      · next compared =>
          cases evaluates
          have same : creator.compareFunction field value row = .eq :=
            OrientedCmp.eq_symm (compareRows_eq compared).symm
          exact iff_of_true rfl ⟨value, List.mem_cons_self, same⟩
      · next ordering apart compared =>
          rw [ih evaluates]
          constructor
          · rintro ⟨other, member, same⟩
            exact ⟨other, List.mem_cons_of_mem _ member, same⟩
          · rintro ⟨other, member, same⟩
            rcases List.mem_cons.mp member with rfl | member
            · refine absurd (compareRows_eq compared) fun equal => apart ?_
              rw [equal, OrientedCmp.eq_symm same]
            · exact ⟨other, member, same⟩

/-- A walk over values comes to the rows that pass its component. -/
theorem Plan.Chose.values_iff (chose : plan.Chose host component) {values : List Obj}
    (isIn : component.term = .inList values) {passes : Bool}
    (evaluates : component.test host row = .ok passes)
    : passes = true
      ↔ ∃ value ∈ plan.inListRows,
        creator.compareFunction component.field value row = .eq := by
  have made := chose.values values isIn
  rw [Component.test, isIn] at evaluates
  dsimp only at evaluates
  rw [made] at evaluates
  dsimp only at evaluates
  cases compared : equalsAny component.field row plan.inListRows with
  | error fault =>
      rw [compared] at evaluates
      cases evaluates
  | ok passed =>
      rw [compared] at evaluates
      cases evaluates
      exact equalsAny_iff compared

theorem compareString_eq_iff {left right : CString}
    : compareString left right = .eq ↔ left = right := by
  constructor
  · intro same
    have texts : strcmp left right = .eq := by
      simp only [compareString, compareLex, Ordering.then_eq_eq] at same
      exact same.2
    exact compare_eq_iff_eq.mp texts
  · rintro rfl
    exact ReflCmp.compare_self

/-- The `=` on the key passes the row with the key. -/
theorem keyEqual_iff {row1 : Row creator} {passes : Bool}
    (evaluates : Component.test host ⟨creator.keyField, .compare .eq row1⟩ row = .ok passes)
    : passes = true ↔ row.keyString = row1.keyString := by
  simp only [Component.test] at evaluates
  split at evaluates
  · cases evaluates
  · next ordering compared =>
      cases evaluates
      obtain rfl := compareRows_eq compared
      simp [CompareOp.holds, CreatorTable.compareFunction, compareString_eq_iff]

/-- The `in` on the key passes the rows with the keys. -/
theorem keyIn_iff {values : List Obj} {passes : Bool}
    (evaluates : Component.test host ⟨creator.keyField, .inList values⟩ row = .ok passes)
    : passes = true ↔ row.keyString ∈ values := by
  simp only [Component.test] at evaluates
  cases made : createInRows host creator.keyField values with
  | error stop =>
      rw [made] at evaluates
      cases evaluates
  | ok rows =>
      rw [made] at evaluates
      dsimp only at evaluates
      have keys : rows.map Row.keyString = values := by
        clear evaluates
        induction values generalizing rows with
        | nil =>
            cases made
            rfl
        | cons value rest ih =>
            obtain ⟨first, others, one, more, rfl⟩ := mapM_cons_ok made
            rw [List.map_cons, searchRow_key one, ih others more]
      cases compared : equalsAny creator.keyField row rows with
      | error fault =>
          rw [compared] at evaluates
          cases evaluates
      | ok passed =>
          rw [compared] at evaluates
          cases evaluates
          rw [equalsAny_iff compared, ← keys, List.mem_map]
          simp only [CreatorTable.compareFunction, if_true, compareString_eq_iff]

end Choices

end SpeedTables
