import SpeedTables.Search.BestIndex
import SpeedTables.Search.SortOrder
import SpeedTables.Search.WalkChoice

/-! What a search makes of the rows that its walk comes to: which it accepts, in which order, and
how often.
-/

namespace SpeedTables

open Lib Std

variable {creator : CreatorTable} {host : Host}

-----------------------------------------------------------------------------------------
-- Walks on a small table
-----------------------------------------------------------------------------------------

/-- After events that succeed, bypass no index and give no new row another key, the keys agree and
the indexes are in order, unless the table is gone.
-/
theorem Session.run_sound {sharedMaster sharePanic : Bool} {events : List (Event creator)}
    {final : Session creator}
    (ran : (Session.new creator sharedMaster sharePanic).run host Option.isNone events = some final)
    (sequential
      : (Session.new creator sharedMaster sharePanic).Along host Session.Sequential events)
    (maintains
      : (Session.new creator sharedMaster sharePanic).Along host (Session.Maintains host) events)
    (keeps : (Session.new creator sharedMaster sharePanic).Along host
      (Session.Safe host (fun call => ¬ call.RekeysNew) (fun _ => True)) events)
    (living : final.table.destroyed = false)
    : final.table.KeyedRows ∧ final.table.Indexed := by
  have succeeds {error : Option TclError} (accepted : Option.isNone error = true) : error = none :=
    Option.isNone_iff_eq_none.mp accepted
  have keys := Session.InOrder.run (keyInvariant host) trivial
    (fun error accepted => .inl (succeeds accepted))
    (Session.InOrder.ended (.inl (CTable.KeyedRows.empty creator sharedMaster sharePanic))) ran
    sequential keeps
  have indexes := Session.InOrder.run (indexInvariant host) (by decide)
    (fun error accepted => .inl (succeeds accepted))
    (Session.InOrder.ended (.inl (CTable.Indexed.empty creator sharedMaster sharePanic))) ran
    sequential maintains
  constructor
  · rcases keys.idle with keyed | gone
    · exact keyed
    · cases living.symm.trans gone.1
  · rcases indexes.idle with indexed | gone
    · exact indexed
    · cases living.symm.trans gone.1

/-- An index on the field `n` and two rows. -/
def walkedCommands : List (Command sampleCreator) :=
  [.indexCreate [[110]], .set [[97], [110], [49]], .set [[99], [110], [48]]]

def walkedRun : Option (Session sampleCreator) :=
  (Session.new sampleCreator false false).run sampleHost Option.isNone
    (walkedCommands.map .command)

/-- They set no field but `n`. -/
theorem walkedRun_sound {final : Session sampleCreator} (ran : walkedRun = some final)
    (living : final.table.destroyed = false)
    : final.table.KeyedRows ∧ final.table.Indexed := by
  have plain {value : UInt8} (unknown : sampleCreator.fieldNumber [value] = none)
      (nocomplain : Bool) (rest elements : List Obj)
      (options : takeOptions false [[110], [value]] = .ok (nocomplain, rest))
      (pairs : evenKeyValueList sampleHost rest = .ok elements)
      : ∀ name ∈ elements, ∀ field, sampleCreator.fieldNumber name = some field →
          field = (1 : Fin 6) := by
    intro name inside field number
    cases options
    have list : evenKeyValueList sampleHost [[110], [value]] = .ok [[110], [value]] := by
      simp [evenKeyValueList, keyValueList]
    cases list.symm.trans pairs
    rcases List.mem_pair.mp inside with rfl | rfl
    · have known : sampleCreator.fieldNumber [110] = some (1 : Fin 6) := rfl
      exact (Option.some.inj (known.symm.trans number)).symm
    · cases unknown.symm.trans number
  have notKey : (1 : Fin 6) ≠ sampleCreator.keyField := show (1 : Fin 6) ≠ 0 by decide
  refine Session.run_sound ran (commands_sequential walkedCommands rfl) (commands_safe ?_)
    (commands_safe ?_) living
  · have maintains (key : UInt8) {value : UInt8}
        (unknown : sampleCreator.fieldNumber [value] = none) (table : CTable sampleCreator)
        : (Command.set [[key], [110], [value]]).Maintains sampleHost table := by
      refine Command.set_maintains fun nocomplain rest elements options pairs name inside field
        number => ?_
      obtain rfl := plain unknown nocomplain rest elements options pairs name inside field number
      exact ⟨notKey, rfl⟩
    intro command member table
    simp only [walkedCommands, List.mem_cons, List.not_mem_nil, or_false] at member
    rcases member with rfl | rfl | rfl
    · rintro fieldObj depthObj ⟨⟩
    · exact maintains 97 (by decide) table
    · exact maintains 99 (by decide) table
  · have keeps (key : UInt8) {value : UInt8}
        (unknown : sampleCreator.fieldNumber [value] = none) (table : CTable sampleCreator)
        : (Command.set [[key], [110], [value]]).KeepsKeys sampleHost table := by
      intro call member rekeys
      obtain ⟨obj, keyed, -⟩ := rekeys.rekeys
      obtain ⟨nocomplain, rest, elements, options, pairs, name, inside, field, obj, number,
        write⟩ := setCommandCalls_names member
      obtain rfl := plain unknown nocomplain rest elements options pairs name inside field number
      cases write.symm.trans keyed
    intro command member table
    simp only [walkedCommands, List.mem_cons, List.not_mem_nil, or_false] at member
    rcases member with rfl | rfl | rfl
    · exact fun _ _ _ _ _ => trivial
    · exact keeps 97 (by decide) table
    · exact keeps 99 (by decide) table

/-- A plan for the table and the walk of it, as they are computed. -/
theorem walkedRun_walks {request : SearchRequest sampleCreator}
    {right : CTable sampleCreator → Plan sampleCreator → List RowId × WalkResult → Bool}
    (computed : walkedRun.any (fun final => !final.table.destroyed
      && (request.plan sampleHost final.table final.table.searches).toOption.any (fun plan =>
        (runWalk plan 9 .start final.table).any (right final.table plan))) = true)
    : ∃ table plan visited last, table.Keyed ∧ table.Indexed
        ∧ request.plan sampleHost table table.searches = .ok plan
        ∧ Walks plan .start table visited last ∧ right table plan (visited, last) = true := by
  obtain ⟨final, ran, found⟩ := (Option.any_eq_true _ _).mp computed
  rw [Bool.and_eq_true, Bool.not_eq_true'] at found
  obtain ⟨keyed, indexed⟩ := walkedRun_sound ran found.1
  obtain ⟨plan, planned, goes⟩ := (Option.any_eq_true _ _).mp found.2
  obtain ⟨⟨visited, last⟩, runs, holds⟩ := (Option.any_eq_true _ _).mp goes
  refine ⟨final.table, plan, visited, last, keyed.1, indexed, ?_, runWalk_walks runs, holds⟩
  cases plans : request.plan sampleHost final.table final.table.searches with
  | error stop =>
      rw [plans] at planned
      cases planned
  | ok other =>
      rw [plans] at planned
      cases planned
      rfl

/-- The number is at most 1. -/
def upToOne : Component sampleCreator where
  field := (1 : Fin 6)
  term := .compare .le
    (sampleCreator.init.setCell (1 : Fin 6) { value := (1 : Int), isNull := false })

/-- The number is one of those listed. -/
def numberIn (values : List Obj) : Component sampleCreator where
  field := (1 : Fin 6)
  term := .inList values

def evaluatesAll (components : List (Component sampleCreator)) (table : CTable sampleCreator)
    : Bool :=
  table.llHead.all (fun id => components.all (fun component =>
    (component.test sampleHost (table.rowAt id)).toOption.isSome))

theorem evaluatesAll_iff {components : List (Component sampleCreator)}
    {table : CTable sampleCreator} (all : evaluatesAll components table = true)
    : ∀ id ∈ table.llHead, ∀ component ∈ components,
        ∃ passes, component.test sampleHost (table.rowAt id) = .ok passes := by
  intro id listed component member
  have passes := List.all_eq_true.mp (List.all_eq_true.mp all id listed) component member
  cases tested : component.test sampleHost (table.rowAt id) with
  | ok passes => exact ⟨passes, rfl⟩
  | error stop =>
      rw [tested] at passes
      cases passes

-----------------------------------------------------------------------------------------
-- The rows that a search accepts
-----------------------------------------------------------------------------------------

/-- The keys that a lookup by `=` tries besides its own are of no row that passes all components but
the `=`.
-/
def SearchRequest.SparesLeftovers (host : Host) (table : CTable creator)
    (request : SearchRequest creator) : Prop :=
  ∀ index row1 values,
    lookupChosen table table.searches request.sortField request.tryOrder []
        = some (index, row1, values) →
      ∀ id ∈ table.llHead, (table.rowAt id).keyString ∈ values →
        (∀ other component, request.components[other]? = some component → other ≠ index →
          component.test host (table.rowAt id) = .ok true) →
        (table.rowAt id).keyString = row1.keyString

/-- Whether a walk comes to a row, and its tests pass the row. -/
def SearchRequest.Accepts (host : Host) (table : CTable creator) (request : SearchRequest creator)
    (plan : Plan creator) (visited : List RowId) (id : RowId) : Prop :=
  id ∈ visited
    ∧ searchCompare host plan.alreadySearched (table.rowAt id) 0 request.components = .ok true

/-- Whether a row of the table passes every component. -/
def SearchRequest.Matches (host : Host) (table : CTable creator) (request : SearchRequest creator)
    (id : RowId) : Prop :=
  id ∈ table.llHead
    ∧ ∀ component ∈ request.components, component.test host (table.rowAt id) = .ok true

section Acceptance

variable {table : CTable creator} {request : SearchRequest creator} {plan : Plan creator}
  {visited : List RowId}

/-- A row passes every component when it passes the searched one and all others. -/
theorem forall_components {component : Component creator} {index : Nat} {row : Row creator}
    (found : request.components[index]? = some component)
    : (∀ component ∈ request.components, component.test host row = .ok true)
      ↔ component.test host row = .ok true
        ∧ ∀ other component, request.components[other]? = some component → other ≠ index →
          component.test host row = .ok true := by
  constructor
  · intro all
    exact ⟨all component (List.mem_of_getElem? found),
      fun other component member _ => all component (List.mem_of_getElem? member)⟩
  · rintro ⟨here, others⟩ component member
    obtain ⟨other, inside⟩ := List.mem_iff_getElem?.mp member
    by_cases same : other = index
    · subst same
      cases found.symm.trans inside
      exact here
    · exact others other component inside same

/-- The tests that a walk leaves are those of the other components. -/
theorem searchCompare_others {index : Nat} {row : Row creator}
    (searched : plan.alreadySearched = some index)
    : searchCompare host plan.alreadySearched row 0 request.components = .ok true
      ↔ ∀ other component, request.components[other]? = some component → other ≠ index →
        component.test host row = .ok true := by
  rw [searchCompare_iff, searched]
  simp only [Nat.zero_add, ne_eq, Option.some.injEq, eq_comm]

/-- A walk that comes to the rows that pass its component accepts the rows that match. -/
theorem accepts_of_visits {component : Component creator} {index : Nat}
    (found : request.components[index]? = some component)
    (searched : plan.alreadySearched = some index)
    (visits : ∀ id, id ∈ visited
      ↔ id ∈ table.llHead ∧ component.test host (table.rowAt id) = .ok true)
    (id : RowId)
    : request.Accepts host table plan visited id ↔ request.Matches host table id := by
  rw [SearchRequest.Accepts, SearchRequest.Matches, visits, searchCompare_others searched,
    forall_components found, and_assoc]

/-- Whether a component's test passes a row. -/
def Component.passes (host : Host) (component : Component creator) (row : Row creator) : Bool :=
  (component.test host row).toOption == some true

theorem Component.passes_iff {component : Component creator} {row : Row creator}
    : component.passes host row = true ↔ component.test host row = .ok true := by
  unfold Component.passes
  cases component.test host row with
  | ok passes => simp [Except.toOption]
  | error stop => simp [Except.toOption]

/-- Which rows a lookup finds under a key. -/
theorem CTable.Keyed.found_iff (keyed : table.Keyed) (key : CString) (id : RowId)
    : table.found key = some id ↔ id ∈ table.llHead ∧ (table.rowAt id).keyString = key := by
  obtain ⟨found, looked, isFound⟩ := keyed.findHashEntry_eq key
  rw [CTable.found, looked]
  constructor
  · rintro rfl
    obtain ⟨listed, isKey⟩ := (isFound id).mp rfl
    exact ⟨listed, Option.some.inj ((keyed.read listed).2.symm.trans isKey)⟩
  · rintro ⟨listed, rfl⟩
    rw [(isFound id).mpr ⟨listed, (keyed.read listed).2⟩]
    rfl

/-- A hash walk visits the rows under the keys that it looks up. -/
theorem Walks.hashed {last : WalkResult} (walks : Walks plan .start table visited last)
    (hashes : plan.walkType = .hashEq ∨ plan.walkType = .hashIn) (keyed : table.Keyed) (id : RowId)
    : id ∈ visited ↔ id ∈ table.llHead ∧ (table.rowAt id).keyString ∈ plan.probeList := by
  obtain ⟨rfl, -⟩ := @Walks.probed creator plan .start table visited 0 last walks hashes rfl
  rw [List.drop_zero, List.mem_filterMap]
  simp only [keyed.found_iff]
  constructor
  · rintro ⟨key, member, listed, rfl⟩
    exact ⟨listed, member⟩
  · rintro ⟨listed, member⟩
    exact ⟨_, member, listed, rfl⟩

/-- An index that is in order and complete holds the rows of the table. -/
theorem CTable.Indexed.mem_entries_iff (indexed : table.Indexed) {field : creator.Field}
    {skip : SkipList RowId} (chain : table.skipLists field = some skip) (id : RowId)
    : id ∈ entries skip.nodes ↔ id ∈ table.llHead := by
  obtain ⟨-, wf⟩ := (indexed.index field).wf skip chain
  constructor
  · exact wf.members id
  · intro listed
    exact (wf.mem_entries_iff listed).mpr
      (indexed.complete field id listed not_false (by simp [chain]))

/-- A walk from value to value is for an `in`. -/
theorem Term.isIn_of_next {term : Term creator} (next : (skipTypes term).next = .inList)
    : ∃ values, term = .inList values := by
  cases term with
  | compare op row1 => cases op <;> cases next
  | matching term row1 =>
      obtain ⟨keeps, nocase, type, word⟩ := term
      cases keeps <;> cases nocase <;> cases next
  | inList values => exact ⟨values, rfl⟩
  | _ => cases next

/-- A candidate is walked from row to row or from value to value. -/
theorem Plan.Chose.next_cases {component : Component creator} (chose : plan.Chose host component)
    : (skipTypes component.term).next = .row ∨ (skipTypes component.term).next = .inList := by
  have scored := chose.scored
  cases next : (skipTypes component.term).next with
  | row => exact .inl rfl
  | inList => exact .inr rfl
  | «match» => exact absurd next scored.2
  | none =>
      exfalso
      revert next scored
      cases component.term with
      | compare op row1 => cases op <;> simp [skipTypes]
      | matching term row1 =>
          obtain ⟨keeps, nocase, type, word⟩ := term
          cases keeps <;> cases nocase <;> simp [skipTypes]
      | _ => simp [skipTypes]

/-- A complete walk from value to value has come to every row that is equal to one of them. -/
theorem mem_flatMap_foundValues {field : creator.Field} {skip : SkipList RowId}
    {values : List (Row creator)} {id : RowId}
    : id ∈ (table.foundValues field skip values).flatMap (table.equalRows field skip)
      ↔ id ∈ entries skip.nodes
        ∧ ∃ value ∈ values, creator.compareFunction field value (table.rowAt id) = .eq := by
  simp only [CTable.foundValues, List.mem_flatMap, List.mem_filter, CTable.equalRows, bne_iff_ne]
  constructor
  · rintro ⟨value, ⟨member, -⟩, inside, same⟩
    exact ⟨inside, value, member, by simpa using same⟩
  · rintro ⟨inside, value, member, same⟩
    refine ⟨value, ⟨member, ?_⟩, inside, by simpa using same⟩
    exact List.ne_nil_of_mem (List.mem_filter.mpr ⟨inside, by simpa using same⟩)

/-- The same of a lookup that is chosen while the outer searches walk the indexes `previous`. -/
def SearchRequest.SparesLeftoversIn (host : Host) (table : CTable creator)
    (previous : List (Option creator.Field)) (request : SearchRequest creator) : Prop :=
  ∀ index row1 values,
    lookupChosen table previous request.sortField request.tryOrder [] = some (index, row1, values) →
      ∀ id ∈ table.llHead, (table.rowAt id).keyString ∈ values →
        (∀ other component, request.components[other]? = some component → other ≠ index →
          component.test host (table.rowAt id) = .ok true) →
        (table.rowAt id).keyString = row1.keyString

/-- A complete walk for a plan comes to the rows that match, and to those that its lookup by `=`
leaves over, by cases on the choice of the plan.
-/
theorem SearchRequest.accepts_iff {previous : List (Option creator.Field)} (keyed : table.Keyed)
    (indexed : table.Indexed)
    (evaluates : ∀ id ∈ table.llHead, ∀ component ∈ request.components,
      ∃ passes, component.test host (table.rowAt id) = .ok passes)
    (planned : request.plan host table previous = .ok plan)
    (walks : Walks plan .start table visited .complete)
    : (∀ id, request.Accepts host table plan visited id ↔ request.Matches host table id)
      ↔ request.SparesLeftoversIn host table previous := by
  have tested {component : Component creator} {index : Nat}
      (found : request.components[index]? = some component) {id : RowId}
      (listed : id ∈ table.llHead)
      : ∃ passes, component.test host (table.rowAt id) = .ok passes :=
    evaluates id listed component (List.mem_of_getElem? found)
  have spares
      (none : lookupChosen table previous request.sortField request.tryOrder [] = none)
      : request.SparesLeftoversIn host table previous := by
    intro index row1 values chosen
    cases none.symm.trans chosen
  cases planLoop_ends planned with
  | stays none same =>
      refine iff_of_true (fun id => ?_) (spares none)
      subst same
      obtain ⟨rfl, -⟩ := walks.all rfl keyed.nodup
      rw [SearchRequest.Accepts, SearchRequest.Matches, searchCompare_iff]
      refine and_congr_right fun _ => ⟨fun all component member => ?_,
        fun all other component found _ => all component (List.mem_of_getElem? found)⟩
      obtain ⟨other, inside⟩ := List.mem_iff_getElem?.mp member
      exact all other component inside fun same => by cases same
  | @skips entry skip none member chain skips searched list number unordered chose =>
      refine iff_of_true ?_ (spares none)
      have found := tryOrder_getElem member
      refine accepts_of_visits found searched fun id => ?_
      obtain ⟨-, wf⟩ := (indexed.index entry.2.field).wf skip chain
      have inIndex := indexed.mem_entries_iff chain id
      rcases chose.next_cases with next | next
      · obtain ⟨rfl, -⟩ := walks.rows skips list wf chain (chose.next.trans next) keyed
        rw [List.mem_filter, inIndex]
        refine and_congr_right fun listed => ?_
        obtain ⟨passes, evaluates⟩ := tested found listed
        rw [Bool.and_eq_true, Bool.not_eq_true', Bool.not_eq_true', ← chose.rows_iff next evaluates,
          evaluates]
        simp
      · obtain ⟨values, isIn⟩ := Term.isIn_of_next next
        have noEnd : plan.skipEnd = .none := by rw [chose.stop, isIn]; rfl
        obtain ⟨rfl, ends⟩ := walks.values skips list wf chain (chose.next.trans next) noEnd
          keyed.count rfl
        have within : (table.foundValues entry.2.field skip plan.inListRows).length
            ≤ table.llHead.length + 1 := by
          by_contra beyond
          rw [if_pos (by omega)] at ends
          cases ends
        rw [List.take_of_length_le within, mem_flatMap_foundValues, inIndex]
        refine and_congr_right fun listed => ?_
        obtain ⟨passes, evaluates⟩ := tested found listed
        rw [← chose.values_iff isIn evaluates, evaluates]
        simp
  | @finds index row1 values chosen member hashes searched key list =>
      have found := tryOrder_getElem member
      have tests {id : RowId} (listed : id ∈ table.llHead)
          : Component.test host ⟨creator.keyField, .compare .eq row1⟩ (table.rowAt id) = .ok true
            ↔ (table.rowAt id).keyString = row1.keyString := by
        obtain ⟨passes, evaluates⟩ := tested found listed
        rw [← keyEqual_iff evaluates, evaluates]
        simp
      have accepts (id : RowId) : request.Accepts host table plan visited id
          ↔ (id ∈ table.llHead ∧ ((table.rowAt id).keyString = row1.keyString
            ∨ (table.rowAt id).keyString ∈ values))
            ∧ ∀ other component, request.components[other]? = some component → other ≠ index →
              component.test host (table.rowAt id) = .ok true := by
        rw [SearchRequest.Accepts, walks.hashed (.inl hashes) keyed, searchCompare_others searched,
          Plan.probeList, key, list]
        simp only [Option.toList_some, List.singleton_append, List.mem_cons]
      have matches' (id : RowId) : request.Matches host table id
          ↔ id ∈ table.llHead ∧ (table.rowAt id).keyString = row1.keyString
            ∧ ∀ other component, request.components[other]? = some component → other ≠ index →
              component.test host (table.rowAt id) = .ok true := by
        rw [SearchRequest.Matches, forall_components found]
        exact and_congr_right fun listed => and_congr_left' (tests listed)
      constructor
      · intro same other row' values' chosen' id listed inside others
        cases chosen.symm.trans chosen'
        exact ((matches' id).mp ((same id).mp ((accepts id).mpr
          ⟨⟨listed, .inr inside⟩, others⟩))).2.1
      · intro spared id
        rw [accepts, matches']
        constructor
        · rintro ⟨⟨listed, isKey | inside⟩, others⟩
          · exact ⟨listed, isKey, others⟩
          · exact ⟨listed, spared index row1 values chosen id listed inside others, others⟩
        · rintro ⟨listed, isKey, others⟩
          exact ⟨⟨listed, .inl isKey⟩, others⟩
  | @findsAll index values none member hashes searched key list =>
      refine iff_of_true ?_ (spares none)
      have found := tryOrder_getElem member
      refine accepts_of_visits found searched fun id => ?_
      have noKey : plan.key = Option.none := key
      rw [walks.hashed (.inr hashes) keyed, Plan.probeList, noKey, list]
      simp only [Option.toList_none, List.nil_append]
      refine and_congr_right fun listed => ?_
      obtain ⟨passes, evaluates⟩ := tested found listed
      rw [← keyIn_iff evaluates, evaluates]
      simp

/-- A search accepts the rows that match exactly when its lookup by `=` leaves no row over that
other values than the key lead to.
-/
theorem search_accepts_iff (host : Host) (table : CTable creator) (request : SearchRequest creator)
    (plan : Plan creator) (visited : List RowId) (keyed : table.Keyed) (indexed : table.Indexed)
    (evaluates : ∀ id ∈ table.llHead, ∀ component ∈ request.components,
      ∃ passes, component.test host (table.rowAt id) = .ok passes)
    (planned : request.plan host table table.searches = .ok plan)
    (walks : Walks plan .start table visited .complete)
    : (∀ id, request.Accepts host table plan visited id ↔ request.Matches host table id)
      ↔ request.SparesLeftovers host table :=
  SearchRequest.accepts_iff keyed indexed evaluates planned walks

/-- The numbers up to 1, through their index. -/
theorem search_accepts_upToOne
    : ∃ table plan visited, (∃ id, (indexedSearch [upToOne]).Matches sampleHost table id)
        ∧ ((∀ id, (indexedSearch [upToOne]).Accepts sampleHost table plan visited id
              ↔ (indexedSearch [upToOne]).Matches sampleHost table id)
            ↔ (indexedSearch [upToOne]).SparesLeftovers sampleHost table) := by
  obtain ⟨table, plan, visited, last, keyed, indexed, planned, walks, holds⟩ :=
    @walkedRun_walks (indexedSearch [upToOne])
      (fun table _ walked => evaluatesAll [upToOne] table && (walked == ([1, 0], .complete)
        && (table.llHead.contains 1 && upToOne.passes sampleHost (table.rowAt 1))))
      (by decide +kernel)
  simp only [Bool.and_eq_true, beq_iff_eq, Prod.mk.injEq, List.contains_iff_mem] at holds
  obtain ⟨evaluates, ⟨rfl, rfl⟩, listed, passes⟩ := holds
  refine ⟨table, plan, [1, 0], ⟨1, listed, ?_⟩, search_accepts_iff sampleHost table _ plan [1, 0]
    keyed indexed (evaluatesAll_iff evaluates) planned walks⟩
  intro component member
  rw [List.mem_singleton.mp member]
  exact Component.passes_iff.mp passes

-----------------------------------------------------------------------------------------
-- The order of a walk
-----------------------------------------------------------------------------------------

/-- The rows of an index ascend. -/
theorem CTable.IndexWf.entries_ascend {field : creator.Field} {skip : SkipList RowId}
    (wf : table.IndexWf field skip)
    : (entries skip.nodes).Pairwise (fun left right =>
        creator.compareFunction field (table.rowAt left) (table.rowAt right) ≠ .gt) := by
  rw [entries, List.pairwise_flatMap]
  refine ⟨fun n member => ?_, wf.ordered.ascending.imp fun above a inLeft b inRight same => ?_⟩
  · refine List.pairwise_of_forall_mem_list fun a inside b holds same => ?_
    cases (wf.ordered.equal n member a inside b holds).symm.trans same
  · cases (above a inLeft b inRight).symm.trans same

/-- A walk over an index from row to row comes to the rows that pass its component, each once and
in the order of the index, and never fails to end.
-/
theorem indexWalk_visits (host : Host) (table : CTable creator) (request : SearchRequest creator)
    (plan : Plan creator) (visited : List RowId) (last : WalkResult) (keyed : table.Keyed)
    (indexed : table.Indexed)
    (evaluates : ∀ id ∈ table.llHead, ∀ component ∈ request.components,
      ∃ passes, component.test host (table.rowAt id) = .ok passes)
    (planned : request.plan host table table.searches = .ok plan)
    (skips : plan.walkType = .skip) (rows : plan.skipNext = .row)
    (walks : Walks plan .start table visited last)
    : ∃ index component skip, request.components[index]? = some component
        ∧ plan.alreadySearched = some index
        ∧ table.skipLists component.field = some skip
        ∧ visited
          = (entries skip.nodes).filter (fun id => component.passes host (table.rowAt id))
        ∧ visited.Nodup
        ∧ visited.Pairwise (fun left right =>
          creator.compareFunction component.field (table.rowAt left) (table.rowAt right) ≠ .gt)
        ∧ last = .complete := by
  cases planLoop_ends planned with
  | stays none same =>
      subst same
      cases skips
  | finds chosen member hashes => cases hashes.symm.trans skips
  | findsAll none member hashes => cases hashes.symm.trans skips
  | @skips entry skip none member chain skips searched list number unordered chose =>
      have found := tryOrder_getElem member
      obtain ⟨-, wf⟩ := (indexed.index entry.2.field).wf skip chain
      obtain ⟨all, complete⟩ := walks.rows skips list wf chain rows keyed
      have passing : visited
          = (entries skip.nodes).filter (fun id => entry.2.passes host (table.rowAt id)) := by
        rw [all]
        refine List.filter_congr fun id inside => ?_
        have listed := (indexed.mem_entries_iff chain id).mp inside
        obtain ⟨passes, evaluates⟩ := evaluates id listed entry.2 (List.mem_of_getElem? found)
        rw [Bool.eq_iff_iff, Component.passes_iff, Bool.and_eq_true, Bool.not_eq_true',
          Bool.not_eq_true', ← chose.rows_iff (chose.next.symm.trans rows) evaluates, evaluates]
        simp
      refine ⟨entry.1, entry.2, skip, found, searched, chain, passing, ?_, ?_, complete⟩
      · rw [passing]
        exact wf.ordered.entries_nodup.filter _
      · rw [passing]
        exact wf.entries_ascend.filter _

theorem indexWalk_visits_upToOne
    : ∃ table plan, Walks plan .start table [1, 0] .complete
        ∧ ∃ index component skip, (indexedSearch [upToOne]).components[index]? = some component
          ∧ plan.alreadySearched = some index
          ∧ table.skipLists component.field = some skip
          ∧ [1, 0] = (entries skip.nodes).filter (fun id =>
            component.passes sampleHost (table.rowAt id))
          ∧ [1, 0].Nodup
          ∧ [1, 0].Pairwise (fun left right => sampleCreator.compareFunction component.field
            (table.rowAt left) (table.rowAt right) ≠ .gt)
          ∧ WalkResult.complete = .complete := by
  obtain ⟨table, plan, visited, last, keyed, indexed, planned, walks, holds⟩ :=
    @walkedRun_walks (indexedSearch [upToOne])
      (fun table plan walked => evaluatesAll [upToOne] table && (walked == ([1, 0], .complete)
        && (plan.walkType == .skip && plan.skipNext == .row)))
      (by decide +kernel)
  simp only [Bool.and_eq_true, beq_iff_eq, Prod.mk.injEq] at holds
  obtain ⟨evaluates, ⟨rfl, rfl⟩, skips, rows⟩ := holds
  exact ⟨table, plan, walks, indexWalk_visits sampleHost table _ plan [1, 0] .complete keyed indexed
    (evaluatesAll_iff evaluates) planned skips rows walks⟩

/-- The rows that a search accepts, in the order that its walk comes to them. -/
def SearchRequest.accepted (host : Host) (table : CTable creator) (request : SearchRequest creator)
    (plan : Plan creator) (visited : List RowId) : List RowId :=
  visited.filter (fun id =>
    (searchCompare host plan.alreadySearched (table.rowAt id) 0 request.components).toOption
      == some true)

/-- Two cells of the sort field that sort as in its index. -/
theorem sortCompareField_eq {field : creator.Field} {left right : Row creator}
    (alike : (creator.fields field).SortsAlike (left.cells field) (right.cells field))
    : sortCompareField field left right = creator.compareFunction field left right := by
  by_cases isKey : field = creator.keyField
  · simp [CreatorTable.compareFunction, sortCompareField, isKey]
  · obtain ⟨-, -, same⟩ := (cells_agree_iff _ _ _).mpr alike
    rw [sortCompareField_cell isKey, CreatorTable.compareFunction, if_neg isKey]
    exact same.symm

/-- A sort on one field compares its cells one way or the other. -/
theorem sortCompare_single {field : creator.Field} {descending : Bool} {left right : Row creator}
    : sortCompare [(field, descending)] left right
      = if descending then (sortCompareField field left right).swap
        else sortCompareField field left right := by
  rw [sortCompare]
  split
  · next ordering equal =>
      rw [sortCompare]
      exact equal.symm
  · rfl

/-- The rows of a walk that the sort is left out for ascend, by cases on the choice of the plan: it
passes over rows of the index, but changes no order.
-/
theorem SearchRequest.accepted_ascend {previous : List (Option creator.Field)} {last : WalkResult}
    {field : creator.Field} {descending : Bool} (keyed : table.Keyed) (indexed : table.Indexed)
    (alike : ∀ a ∈ table.llHead, ∀ b ∈ table.llHead, (creator.fields field).SortsAlike
      ((table.rowAt a).cells field) ((table.rowAt b).cells field))
    (planned : request.plan host table previous = .ok plan)
    (skips : plan.walkType = .skip) (sorts : request.sort = [(field, descending)])
    (drops : request.remainingSort plan = [])
    (walks : Walks plan .start table visited last)
    : (request.accepted host table plan visited).Pairwise (fun left right =>
        sortCompareField field (table.rowAt left) (table.rowAt right) ≠ .gt) := by
  rw [SearchRequest.remainingSort, sorts] at drops
  dsimp only at drops
  split at drops
  · next dropped =>
      rw [Bool.and_eq_true, beq_iff_eq] at dropped
      obtain ⟨inOrder, isField⟩ := dropped
      cases planLoop_ends planned with
      | stays none same =>
          subst same
          cases skips
      | finds chosen member hashes => cases hashes.symm.trans skips
      | findsAll none member hashes => cases hashes.symm.trans skips
      | @skips entry skip none member chain skips searched list number unordered chose =>
          obtain ⟨-, wf⟩ := (indexed.index entry.2.field).wf skip chain
          have walked : field = entry.2.field := Fin.ext (isField.trans number)
          rcases chose.next_cases with next | next
          · obtain ⟨all, -⟩ := walks.rows skips list wf chain (chose.next.trans next) keyed
            generalize isAccepted : request.accepted host table plan visited = accepted
            have sub : accepted.Sublist (entries skip.nodes) := by
              rw [← isAccepted, SearchRequest.accepted, all]
              exact List.filter_sublist.trans List.filter_sublist
            have listed {id : RowId} (inside : id ∈ accepted) : id ∈ table.llHead :=
              (indexed.mem_entries_iff chain id).mp (sub.subset inside)
            refine (wf.entries_ascend.sublist sub).imp_of_mem fun inLeft inRight ascends => ?_
            rw [sortCompareField_eq (alike _ (listed inLeft) _ (listed inRight)), walked]
            exact ascends
          · obtain ⟨values, isIn⟩ := Term.isIn_of_next next
            cases inOrder.symm.trans (unordered values isIn)
  · cases drops

/-- When a search leaves out its sort because it walks the index of the sort field, its rows are in
the order of the sort exactly if that ascends, or if they are all equal in the field: a descending
sort is left out as well.
-/
theorem droppedSort_ordered_iff (host : Host) (table : CTable creator)
    (request : SearchRequest creator) (plan : Plan creator) (visited : List RowId)
    (last : WalkResult) (field : creator.Field) (descending : Bool) (keyed : table.Keyed)
    (indexed : table.Indexed)
    (alike : ∀ a ∈ table.llHead, ∀ b ∈ table.llHead, (creator.fields field).SortsAlike
      ((table.rowAt a).cells field) ((table.rowAt b).cells field))
    (planned : request.plan host table table.searches = .ok plan)
    (skips : plan.walkType = .skip) (sorts : request.sort = [(field, descending)])
    (drops : request.remainingSort plan = [])
    (walks : Walks plan .start table visited last)
    : (request.accepted host table plan visited).Pairwise (fun left right =>
        sortCompare request.sort (table.rowAt left) (table.rowAt right) ≠ .gt)
      ↔ descending = false
        ∨ ∀ a ∈ request.accepted host table plan visited,
          ∀ b ∈ request.accepted host table plan visited,
            sortCompareField field (table.rowAt a) (table.rowAt b) = .eq := by
  have sorted := SearchRequest.accepted_ascend keyed indexed alike planned skips sorts drops walks
  rw [sorts]
  simp only [sortCompare_single]
  cases descending with
  | false => exact iff_of_true (by simpa using sorted) (.inl rfl)
  | true =>
      simp only [if_true, reduceCtorEq, false_or, ne_eq, Ordering.swap_eq_gt]
      constructor
      · intro falls
        have level := falls.and sorted
        have equal : (request.accepted host table plan visited).Pairwise (fun left right =>
            sortCompareField field (table.rowAt left) (table.rowAt right) = .eq) := by
          refine level.imp fun both => ?_
          obtain ⟨notLess, notGreater⟩ := both
          cases order : sortCompareField field (table.rowAt _) (table.rowAt _) with
          | lt => exact absurd order notLess
          | eq => rfl
          | gt => exact absurd order notGreater
        intro a inside b holds
        exact equal.forall_of_forall_of_flip (fun _ _ => ReflCmp.compare_self)
          (equal.imp fun same => OrientedCmp.eq_symm same) inside holds
      · intro level
        refine List.pairwise_of_forall_mem_list fun a inside b holds less => ?_
        cases (level a inside b holds).symm.trans less

/-- A descending sort is left out as well: the rows come in ascending order. -/
theorem droppedSort_ordered_descending
    : ∃ table plan,
        ({ indexedSearch [upToOne] with sort := [((1 : Fin 6), true)] } : SearchRequest
          sampleCreator).accepted sampleHost table plan [1, 0] = [1, 0]
        ∧ (([1, 0] : List RowId).Pairwise (fun left right =>
            sortCompare [((1 : Fin 6), true)] (table.rowAt left) (table.rowAt right) ≠ .gt)
          ↔ true = false ∨ ∀ a ∈ ([1, 0] : List RowId), ∀ b ∈ ([1, 0] : List RowId),
            @sortCompareField sampleCreator (1 : Fin 6) (table.rowAt a) (table.rowAt b) = .eq) := by
  obtain ⟨table, plan, visited, last, keyed, indexed, planned, walks, holds⟩ :=
    @walkedRun_walks { indexedSearch [upToOne] with sort := [((1 : Fin 6), true)] }
      (fun table plan walked => walked == ([1, 0], .complete) && (plan.walkType == .skip
        && (({ indexedSearch [upToOne] with sort := [((1 : Fin 6), true)] } : SearchRequest
            sampleCreator).remainingSort plan == []
          && ({ indexedSearch [upToOne] with sort := [((1 : Fin 6), true)] } : SearchRequest
            sampleCreator).accepted sampleHost table plan [1, 0] == [1, 0])))
      (by decide +kernel)
  simp only [Bool.and_eq_true, beq_iff_eq, Prod.mk.injEq] at holds
  obtain ⟨⟨rfl, rfl⟩, skips, drops, all⟩ := holds
  have ordered := droppedSort_ordered_iff sampleHost table _ plan [1, 0] .complete (1 : Fin 6) true
    keyed indexed (fun _ _ _ _ => trivial) planned skips rfl drops walks
  rw [all] at ordered
  exact ⟨table, plan, all, ordered⟩

-----------------------------------------------------------------------------------------
-- The number of visits
-----------------------------------------------------------------------------------------

/-- The values that a row of the table is equal to. -/
def CTable.valuesFound (table : CTable creator) (field : creator.Field)
    (values : List (Row creator)) : List (Row creator) :=
  values.filter (fun value => table.llHead.any (fun id =>
    creator.compareFunction field value (table.rowAt id) == .eq))

theorem CTable.Indexed.foundValues_eq (indexed : table.Indexed) {field : creator.Field}
    {skip : SkipList RowId} (chain : table.skipLists field = some skip)
    (values : List (Row creator))
    : table.foundValues field skip values = table.valuesFound field values := by
  refine List.filter_congr fun value _ => ?_
  rw [Bool.eq_iff_iff, bne_iff_ne, List.any_eq_true, CTable.equalRows, ne_eq,
    List.filter_eq_nil_iff]
  simp only [indexed.mem_entries_iff chain, not_forall, not_not]
  constructor
  · rintro ⟨id, listed, same⟩
    exact ⟨id, listed, same⟩
  · rintro ⟨id, listed, same⟩
    exact ⟨id, listed, same⟩

/-- A walk fails to end in its loop exactly if it goes over the values of an `in`, and a row is
equal to more of them, counted as often as they are listed, than the table has rows.
-/
theorem walk_endless_iff (host : Host) (table : CTable creator) (request : SearchRequest creator)
    (plan : Plan creator) (visited : List RowId) (last : WalkResult) (keyed : table.Keyed)
    (indexed : table.Indexed) (planned : request.plan host table table.searches = .ok plan)
    (walks : Walks plan .start table visited last)
    : last = .endless
      ↔ ∃ walked, plan.walkType = .skip ∧ plan.skipList = some walked ∧ plan.skipNext = .inList
        ∧ table.llHead.length < (table.valuesFound walked.field plan.inListRows).length := by
  have hashed (hashes : plan.walkType = .hashEq ∨ plan.walkType = .hashIn)
      : last = .endless ↔ ∃ walked, plan.walkType = .skip ∧ plan.skipList = some walked
        ∧ plan.skipNext = .inList
        ∧ table.llHead.length < (table.valuesFound walked.field plan.inListRows).length := by
    obtain ⟨-, rfl⟩ := @Walks.probed creator plan .start table visited 0 last walks hashes rfl
    refine iff_of_false (fun same => by cases same) ?_
    rintro ⟨walked, skips, -⟩
    rcases hashes with hash | hash <;> cases hash.symm.trans skips
  cases planLoop_ends planned with
  | stays none same =>
      subst same
      obtain ⟨-, rfl⟩ := walks.all rfl keyed.nodup
      refine iff_of_false (fun same => by cases same) ?_
      rintro ⟨walked, skips, -⟩
      cases skips
  | finds chosen member hashes => exact hashed (.inl hashes)
  | findsAll none member hashes => exact hashed (.inr hashes)
  | @skips entry skip none member chain skips searched list number unordered chose =>
      obtain ⟨-, wf⟩ := (indexed.index entry.2.field).wf skip chain
      rcases chose.next_cases with next | next
      · have rows : plan.skipNext = .row := chose.next.trans next
        obtain ⟨-, rfl⟩ := walks.rows skips list wf chain rows keyed
        refine iff_of_false (fun same => by cases same) ?_
        rintro ⟨walked, -, -, isIn, -⟩
        cases rows.symm.trans isIn
      · obtain ⟨values, isIn⟩ := Term.isIn_of_next next
        have noEnd : plan.skipEnd = .none := by rw [chose.stop, isIn]; rfl
        have inList : plan.skipNext = .inList := chose.next.trans next
        obtain ⟨-, ends⟩ := walks.values skips list wf chain inList noEnd keyed.count rfl
        rw [indexed.foundValues_eq chain] at ends
        rw [ends]
        constructor
        · intro endless
          split at endless
          · next more => exact ⟨_, skips, list, inList, more⟩
          · cases endless
        · rintro ⟨walked, -, same, -, more⟩
          cases list.symm.trans same
          exact if_pos more

/-- Two rows, and an `in` that finds three values. -/
theorem walk_endless_repeated
    : ∃ (table : CTable sampleCreator) (plan : Plan sampleCreator) (last : WalkResult),
        last = .endless
        ∧ (last = .endless ↔ ∃ walked, plan.walkType = .skip ∧ plan.skipList = some walked
          ∧ plan.skipNext = .inList
          ∧ table.llHead.length < (table.valuesFound walked.field plan.inListRows).length) := by
  obtain ⟨table, plan, visited, last, keyed, indexed, planned, walks, holds⟩ :=
    @walkedRun_walks (indexedSearch [numberIn [[48], [49], [48]]])
      (fun _ _ walked => walked.2 == .endless) (by decide +kernel)
  exact ⟨table, plan, last, beq_iff_eq.mp holds,
    walk_endless_iff sampleHost table _ plan visited last keyed indexed planned walks⟩

/-- How often a complete walk comes to a row. -/
def Plan.visits (plan : Plan creator) (row : Row creator) : Nat :=
  match plan.walkType, plan.skipList with
  | .default, _ => 1
  | .hashEq, _ => plan.probeList.count row.keyString
  | .hashIn, _ => plan.probeList.count row.keyString
  | .skip, some walked =>
      if plan.skipNext = .inList then
        plan.inListRows.countP (fun value => creator.compareFunction walked.field value row == .eq)
      else if plan.passesOver walked.field row || plan.past walked.field row then 0
      else 1
  | .skip, none => 0

/-- The walk over values comes to a row for each value that it is equal to, by induction on the
values.
-/
theorem count_flatMap_foundValues {field : creator.Field} {skip : SkipList RowId} {id : RowId}
    (wf : table.IndexWf field skip) (inside : id ∈ entries skip.nodes) (values : List (Row creator))
    : ((table.foundValues field skip values).flatMap (table.equalRows field skip)).count id
      = values.countP (fun value =>
          creator.compareFunction field value (table.rowAt id) == .eq) := by
  induction values with
  | nil => rfl
  | cons value rest ih =>
      by_cases same : creator.compareFunction field value (table.rowAt id) = .eq
      · have member : id ∈ table.equalRows field skip value :=
          List.mem_filter.mpr ⟨inside, by simpa using same⟩
        have once : (table.equalRows field skip value).count id = 1 :=
          List.count_eq_one_of_mem (wf.ordered.entries_nodup.filter _) member
        rw [CTable.foundValues_cons_some (List.ne_nil_of_mem member), List.flatMap_cons,
          List.count_append, once, ih, List.countP_cons_of_pos (by simpa using same), Nat.add_comm]
      · have absent : (table.equalRows field skip value).count id = 0 := by
          refine List.count_eq_zero.mpr fun member => same ?_
          simpa using (List.mem_filter.mp member).2
        rw [List.countP_cons_of_neg (by simpa using same), ← ih]
        by_cases none : table.equalRows field skip value = []
        · rw [CTable.foundValues_cons_none none]
        · rw [CTable.foundValues_cons_some none, List.flatMap_cons, List.count_append, absent,
            Nat.zero_add]

/-- The same of a plan that is made while the outer searches walk the indexes `previous`, by cases
on the choice of the plan.
-/
theorem SearchRequest.visits_eq {previous : List (Option creator.Field)} (keyed : table.Keyed)
    (indexed : table.Indexed) (planned : request.plan host table previous = .ok plan)
    (walks : Walks plan .start table visited .complete)
    : ∀ id ∈ table.llHead, visited.count id = plan.visits (table.rowAt id) := by
  intro id listed
  have hashed (hashes : plan.walkType = .hashEq ∨ plan.walkType = .hashIn)
      : visited.count id = plan.probeList.count (table.rowAt id).keyString := by
    obtain ⟨rfl, -⟩ := @Walks.probed creator plan .start table visited 0 .complete walks hashes rfl
    rw [List.drop_zero, List.count, List.countP_filterMap, List.count]
    refine List.countP_congr fun key _ => ?_
    have isFound := keyed.found_iff key id
    cases found : table.found key with
    | none =>
        refine iff_of_false (by simp) fun same => ?_
        cases found.symm.trans (isFound.mpr ⟨listed, (beq_iff_eq.mp same).symm⟩)
    | some other =>
        rw [found, Option.some.injEq] at isFound
        rw [Option.map_some, Option.getD_some, beq_iff_eq, beq_iff_eq, isFound]
        exact ⟨fun both => both.2.symm, fun same => ⟨listed, same.symm⟩⟩
  cases planLoop_ends planned with
  | stays none same =>
      subst same
      obtain ⟨rfl, -⟩ := walks.all rfl keyed.nodup
      exact List.count_eq_one_of_mem keyed.nodup listed
  | finds chosen member hashes =>
      rw [hashed (.inl hashes), Plan.visits, hashes]
  | findsAll none member hashes =>
      rw [hashed (.inr hashes), Plan.visits, hashes]
  | @skips entry skip none member chain skips searched list number unordered chose =>
      obtain ⟨-, wf⟩ := (indexed.index entry.2.field).wf skip chain
      have inside := (indexed.mem_entries_iff chain id).mpr listed
      rcases chose.next_cases with next | next
      · have rows : plan.skipNext = .row := chose.next.trans next
        obtain ⟨rfl, -⟩ := walks.rows skips list wf chain rows keyed
        simp only [Plan.visits, skips, list, rows, reduceCtorEq, if_false]
        split
        · next out =>
            refine List.count_eq_zero.mpr fun member => ?_
            have stays := (List.mem_filter.mp member).2
            simp only [Bool.and_eq_true, Bool.not_eq_true'] at stays
            simp [stays.1, stays.2] at out
        · next stays =>
            refine List.count_eq_one_of_mem (wf.ordered.entries_nodup.filter _) ?_
            refine List.mem_filter.mpr ⟨inside, ?_⟩
            simpa using stays
      · obtain ⟨values, isIn⟩ := Term.isIn_of_next next
        have noEnd : plan.skipEnd = .none := by rw [chose.stop, isIn]; rfl
        have inList : plan.skipNext = .inList := chose.next.trans next
        obtain ⟨rfl, ends⟩ := walks.values skips list wf chain inList noEnd keyed.count rfl
        have within : (table.foundValues entry.2.field skip plan.inListRows).length
            ≤ table.llHead.length + 1 := by
          by_contra beyond
          rw [if_pos (by omega)] at ends
          cases ends
        rw [List.take_of_length_le within, count_flatMap_foundValues wf inside]
        simp only [Plan.visits, skips, list, inList, if_true]

/-- A complete walk comes to every row of the table as often as its plan says: once if it walks the
rows or a range, and for every key or value of the row that is listed if it looks them up.
-/
theorem visited_count (host : Host) (table : CTable creator) (request : SearchRequest creator)
    (plan : Plan creator) (visited : List RowId) (keyed : table.Keyed) (indexed : table.Indexed)
    (planned : request.plan host table table.searches = .ok plan)
    (walks : Walks plan .start table visited .complete)
    : ∀ id ∈ table.llHead, visited.count id = plan.visits (table.rowAt id) :=
  SearchRequest.visits_eq keyed indexed planned walks

/-- A number that is listed twice. -/
theorem visited_count_twice
    : ∃ (table : CTable sampleCreator) (plan : Plan sampleCreator),
        Walks plan .start table [1, 1] .complete
        ∧ ∀ id ∈ table.llHead, ([1, 1] : List RowId).count id = plan.visits (table.rowAt id) := by
  obtain ⟨table, plan, visited, last, keyed, indexed, planned, walks, holds⟩ :=
    @walkedRun_walks (indexedSearch [numberIn [[48], [48]]])
      (fun _ _ walked => walked == ([1, 1], .complete)) (by decide +kernel)
  obtain ⟨rfl, rfl⟩ := Prod.mk.inj (beq_iff_eq.mp holds)
  exact ⟨table, plan, walks,
    visited_count sampleHost table _ plan [1, 1] keyed indexed planned walks⟩

end Acceptance

end SpeedTables
