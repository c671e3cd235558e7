import SpeedTables.Search.Planner
import SpeedTables.Table.Sample

/-! Which component drives the walk of an index: the scores, and the last candidate tried. -/

namespace SpeedTables

variable {creator : CreatorTable}

-----------------------------------------------------------------------------------------
-- Tables with and without a hash
-----------------------------------------------------------------------------------------

/-- The loop over the components with the flag `canUseHash`, which a shared reader clears:
the hash is in the memory of the master.
-/
def planLoopWith (canUseHash : Bool) (host : Host) (table : CTable creator)
    (previous : List (Option creator.Field)) (sortField : Option creator.Field)
    : List (Nat × Component creator) → Plan creator → Except Stop (Plan creator)
  | [], plan => .ok plan
  | (index, component) :: rest, plan =>
      let hashed :=
        if component.field = creator.keyField ∧ canUseHash then
          plan.takeHash index component.term
        else none
      match hashed with
      | some plan => .ok plan
      | none =>
          match usable table previous sortField component with
          | none => planLoopWith canUseHash host table previous sortField rest plan
          | some skip =>
              match plan.takeSkip host skip.head index component with
              | .error stop => .error stop
              | .ok plan => planLoopWith canUseHash host table previous sortField rest plan

/-- The planning part of `ctable_PerformSearch` with the flag `canUseHash`. -/
def SearchRequest.planWith (request : SearchRequest creator) (canUseHash : Bool) (host : Host)
    (table : CTable creator) (previous : List (Option creator.Field))
    : Except Stop (Plan creator) :=
  planLoopWith canUseHash host table previous request.sortField request.tryOrder Plan.initial

/-- A table that is no shared reader plans with its hash. -/
theorem planLoopWith_true {host : Host} {table : CTable creator}
    {previous : List (Option creator.Field)} {sortField : Option creator.Field}
    (entries : List (Nat × Component creator)) (plan : Plan creator)
    : planLoopWith true host table previous sortField entries plan
      = planLoop host table previous sortField entries plan := by
  induction entries generalizing plan with
  | nil => rfl
  | cons entry rest ih =>
      obtain ⟨index, component⟩ := entry
      simp only [planLoopWith, and_true, ih]
      rfl

theorem planWith_true {host : Host} {table : CTable creator}
    {previous : List (Option creator.Field)} (request : SearchRequest creator)
    : request.planWith true host table previous = request.plan host table previous :=
  planLoopWith_true _ _

-----------------------------------------------------------------------------------------
-- The last usable component
-----------------------------------------------------------------------------------------

/-- Whether a component is taken as a hash lookup. -/
def Component.usesHash (component : Component creator) (canUseHash : Bool) : Prop :=
  component.field = creator.keyField ∧ canUseHash ∧
    ((∃ row1, component.term = .compare .eq row1) ∨ ∃ values, component.term = .inList values)

/-- The score of a component: the one of its kind, and `SORT_SCORE` for the sort field. -/
def Component.score (component : Component creator) (sortField : Option creator.Field) : Int :=
  let score := (skipTypes component.term).score
  if sortField = some component.field then score + 1 else score

/-- The component of the greatest number in the order of the loop that can drive a walk. -/
def SearchRequest.lastUsable (request : SearchRequest creator) (table : CTable creator)
    (previous : List (Option creator.Field)) : Option (Nat × Component creator) :=
  (request.tryOrder.filter
    (fun entry => (usable table previous request.sortField entry.2).isSome)).getLast?

theorem takeHash_none {component : Component creator} {canUseHash : Bool}
    (noHash : ¬ component.usesHash canUseHash) (plan : Plan creator) (index : Nat)
    : (if component.field = creator.keyField ∧ canUseHash then
        plan.takeHash index component.term
      else none) = none := by
  split
  · rename_i hashes
    unfold Plan.takeHash
    split
    · rename_i row1 term
      exact absurd ⟨hashes.1, hashes.2, Or.inl ⟨row1, term⟩⟩ noHash
    · rename_i values term
      exact absurd ⟨hashes.1, hashes.2, Or.inr ⟨values, term⟩⟩ noHash
    · rfl
  · rfl

theorem takeSkip_index {plan after : Plan creator} {host : Host} {head : NodeId} {index : Nat}
    {component : Component creator}
    (takes : plan.takeSkip host head index component = .ok after)
    : after.alreadySearched = some index := by
  unfold Plan.takeSkip at takes
  dsimp only at takes
  split at takes
  · split at takes
    · cases takes
    · cases takes
      rfl
  · cases takes
    rfl

/-- Each usable component replaces the one before, so that the last one stays. The induction is
on the components still to try.
-/
theorem planLoopWith_last {canUseHash : Bool} {host : Host} {table : CTable creator}
    {previous : List (Option creator.Field)} {sortField : Option creator.Field}
    {entries : List (Nat × Component creator)} {plan after : Plan creator}
    (noHash : ∀ entry ∈ entries, ¬ entry.2.usesHash canUseHash)
    (planned : planLoopWith canUseHash host table previous sortField entries plan = .ok after)
    : after.alreadySearched
      = ((entries.filter
          (fun entry => (usable table previous sortField entry.2).isSome)).getLast?.map
          Prod.fst).or plan.alreadySearched := by
  induction entries generalizing plan with
  | nil =>
      cases planned
      rfl
  | cons entry rest ih =>
      obtain ⟨index, component⟩ := entry
      have rest_noHash : ∀ entry ∈ rest, ¬ entry.2.usesHash canUseHash :=
        fun entry member => noHash entry (List.mem_cons_of_mem _ member)
      have notHashed := takeHash_none (noHash _ List.mem_cons_self) plan index
      rw [planLoopWith] at planned
      simp only [notHashed] at planned
      cases found : usable table previous sortField component with
      | none =>
          simp only [found] at planned
          simp only [List.filter_cons, found, Option.isSome_none]
          exact ih rest_noHash planned
      | some skip =>
          simp only [found] at planned
          cases takes : plan.takeSkip host skip.head index component with
          | error stop => simp [takes] at planned
          | ok taken =>
              simp only [takes] at planned
              have last := ih rest_noHash planned
              rw [takeSkip_index takes] at last
              simp only [List.filter_cons, found, Option.isSome_some, if_true,
                List.getLast?_cons, Option.map_some, Option.some_or]
              rw [last]
              cases (rest.filter _).getLast? <;> rfl

-----------------------------------------------------------------------------------------
-- The chosen component
-----------------------------------------------------------------------------------------

/-- The chosen component has the greatest score of all usable ones. -/
def SearchRequest.ChoosesBest (request : SearchRequest creator) (table : CTable creator)
    (previous : List (Option creator.Field)) (plan : Plan creator) : Prop :=
  ∀ index, plan.alreadySearched = some index → ∃ chosen, request.components[index]? = some chosen
    ∧ (usable table previous request.sortField chosen).isSome
    ∧ ∀ other ∈ request.components, (usable table previous request.sortField other).isSome
        → other.score request.sortField ≤ chosen.score request.sortField

/-- The last usable component has a score no other usable one exceeds. -/
def SearchRequest.LastBest (request : SearchRequest creator) (table : CTable creator)
    (previous : List (Option creator.Field)) : Prop :=
  ∀ last, request.lastUsable table previous = some last →
    ∀ other ∈ request.components, (usable table previous request.sortField other).isSome
      → other.score request.sortField ≤ last.2.score request.sortField

/-- Without a hash lookup the plan is driven by a component of the greatest score exactly if the
last usable component has it.
-/
theorem choosesBest_iff {canUseHash : Bool} {host : Host} {table : CTable creator}
    {previous : List (Option creator.Field)} {request : SearchRequest creator}
    {plan : Plan creator}
    (noHash : ∀ component ∈ request.components, ¬ component.usesHash canUseHash)
    (planned : request.planWith canUseHash host table previous = .ok plan)
    : request.ChoosesBest table previous plan ↔ request.LastBest table previous := by
  have tried : ∀ entry ∈ request.tryOrder, ¬ entry.2.usesHash canUseHash :=
    fun entry member => noHash entry.2 (List.mem_of_getElem? (tryOrder_getElem member))
  have chosen := planLoopWith_last tried planned
  rw [show (Plan.initial : Plan creator).alreadySearched = none from rfl, Option.or_none] at chosen
  constructor
  · intro best last isLast
    have index : plan.alreadySearched = some last.1 := by
      rw [chosen]
      exact congrArg (Option.map Prod.fst) isLast
    obtain ⟨component, found, -, greatest⟩ := best last.1 index
    have lastTried := List.mem_of_mem_filter (List.mem_of_getLast? isLast)
    cases found.symm.trans (tryOrder_getElem lastTried)
    exact greatest
  · intro greatest index isIndex
    rw [chosen] at isIndex
    obtain ⟨last, isLast, rfl⟩ := Option.map_eq_some_iff.mp isIndex
    obtain ⟨lastTried, lastUsable⟩ := List.mem_filter.mp (List.mem_of_getLast? isLast)
    exact ⟨last.2, tryOrder_getElem lastTried, lastUsable, greatest last isLast⟩

/-- A table with one row and with indexes on the numbers and on the booleans. -/
def indexedFields : CTable sampleCreator :=
  sampleTable [setCommand sampleHost [[97], [110], [49]], createIndex sampleHost (1 : Fin 6) 8,
    createIndex sampleHost (2 : Fin 6) 8]

/-- A search by some components and any index. -/
def indexedSearch (components : List (Component sampleCreator)) : SearchRequest sampleCreator where
  components := components
  filters := []
  glob := none
  sort := []
  offset := 0
  limit := 0
  action := .none
  transaction := .none
  buffer := none
  index := .any
  transaction_acts := by decide
  cursor_iff := by simp

/-- The number is 1. -/
def isOne : Component sampleCreator where
  field := (1 : Fin 6)
  term := .compare .eq
    (sampleCreator.init.setCell (1 : Fin 6) { value := (1 : Int), isNull := false })

/-- The boolean is above false. -/
def aboveFalse : Component sampleCreator where
  field := (2 : Fin 6)
  term := .compare .gt
    (sampleCreator.init.setCell (2 : Fin 6) { value := false, isNull := false })

/-- Neither component is about the key. -/
theorem indexedSearch_noHash {components : List (Component sampleCreator)}
    (known : components ⊆ [aboveFalse, isOne])
    : ∀ component ∈ (indexedSearch components).components, ¬ component.usesHash true := by
  intro component member uses
  have unkeyed : ∀ field ∈ [aboveFalse, isOne].map Component.field,
      field ≠ sampleCreator.keyField := by decide
  exact unkeyed component.field (List.mem_map_of_mem (known member)) uses.1

/-- With the equality written last the number drives the walk. -/
theorem choosesBest_iff_equalityLast
    : ∃ plan, (indexedSearch [aboveFalse, isOne]).planWith true sampleHost indexedFields []
          = .ok plan
        ∧ (indexedSearch [aboveFalse, isOne]).ChoosesBest indexedFields [] plan := by
  have planned : ((indexedSearch [aboveFalse, isOne]).planWith true sampleHost indexedFields
      []).isOk = true := by decide +kernel
  have last : ((indexedSearch [aboveFalse, isOne]).lastUsable indexedFields []).map Prod.fst
      = some 1 := by decide +kernel
  cases plans : (indexedSearch [aboveFalse, isOne]).planWith true sampleHost indexedFields [] with
  | error stop => simp [plans, Except.isOk, Except.toBool] at planned
  | ok plan =>
      refine ⟨plan, rfl, (choosesBest_iff (indexedSearch_noHash (List.Subset.refl _)) plans).mpr ?_⟩
      intro entry isLast other member _
      obtain ⟨index, component⟩ := entry
      have second : index = 1 := by simpa [isLast] using last
      have tried := List.mem_of_mem_filter (List.mem_of_getLast? isLast)
      have found := tryOrder_getElem tried
      rw [second] at found
      cases found
      have scores : ∀ other ∈ [aboveFalse, isOne].map (Component.score · none),
          other ≤ isOne.score none := by decide
      exact scores _ (List.mem_map_of_mem member)

/-- With the equality written first the boolean drives the walk, at a score of 1 below 6. -/
theorem choosesBest_laterWins
    : ¬ ∀ (creator : CreatorTable) (host : Host) (table : CTable creator)
        (request : SearchRequest creator) (canUseHash : Bool) (plan : Plan creator),
        (∀ component ∈ request.components, ¬ component.usesHash canUseHash) →
        request.planWith canUseHash host table table.searches = .ok plan →
        request.ChoosesBest table table.searches plan := by
  intro claim
  have planned : (match (indexedSearch [isOne, aboveFalse]).planWith true sampleHost indexedFields
      indexedFields.searches with
      | .ok plan => plan.alreadySearched == some 1
      | .error _ => false) = true := by decide +kernel
  split at planned
  · next plan plans =>
      have best := claim sampleCreator sampleHost indexedFields
        (indexedSearch [isOne, aboveFalse]) true plan (indexedSearch_noHash (by simp)) plans
      obtain ⟨chosen, found, -, greatest⟩ := best 1 (by simpa using planned)
      cases found
      have usableOne : (usable indexedFields indexedFields.searches none isOne).isSome = true := by
        decide +kernel
      have scores := greatest isOne List.mem_cons_self usableOne
      exact absurd scores (by decide)
  · cases planned

end SpeedTables
