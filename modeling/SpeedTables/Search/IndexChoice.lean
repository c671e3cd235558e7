import SpeedTables.Search.QuicksortRows
import SpeedTables.Search.WholeSearches

/-! What the indexes of a table change in the rows that a search takes, and in their order. -/

namespace SpeedTables

open Lib

variable {creator : CreatorTable} {host : Host}

/-- A search has a plan for a table in order and has walked to its end: every test returns, and no
lookup leaves a row over.
-/
structure SearchRequest.WalkedWhole (host : Host) (request : SearchRequest creator)
    (table : CTable creator) (plan : Plan creator) (visited : List RowId) : Prop where
  keyed : table.KeyedRows
  indexed : table.Indexed
  evaluates : ∀ id ∈ table.llHead, ∀ component ∈ request.components,
    ∃ passes, component.test host (table.rowAt id) = .ok passes
  spares : request.SparesLeftovers host table
  planned : request.plan host table table.searches = .ok plan
  walks : Walks plan .start { table with searches := plan.searchField :: table.searches } visited
    .complete

section Choice

variable {table other : CTable creator} {request : SearchRequest creator}
  {plan plan' : Plan creator} {visited visited' : List RowId}

-----------------------------------------------------------------------------------------
-- The rows
-----------------------------------------------------------------------------------------

/-- The rows that match are those of the records, not of the indexes. -/
theorem CTable.SameRecords.matches_iff (same : table.SameRecords other) (id : RowId)
    : request.Matches host other id ↔ request.Matches host table id := by
  rw [SearchRequest.Matches, SearchRequest.Matches, same.llHead, same.rowAt]

/-- Two walks accept the same rows if they come to every row that matches equally often. -/
theorem SearchRequest.WalkedWhole.perm_iff (walked : request.WalkedWhole host table plan visited)
    (walked' : request.WalkedWhole host other plan' visited') (same : table.SameRecords other)
    : (request.accepted host table plan visited).Perm (request.accepted host other plan' visited')
      ↔ ∀ id, request.Matches host table id →
          plan.visits (table.rowAt id) = plan'.visits (table.rowAt id) := by
  have count := SearchRequest.count_accepted_eq walked.keyed walked.indexed walked.evaluates
    walked.spares walked.planned walked.walks
  have count' := SearchRequest.count_accepted_eq walked'.keyed walked'.indexed walked'.evaluates
    walked'.spares walked'.planned walked'.walks
  simp only [same.matches_iff, same.rowAt] at count'
  rw [List.perm_iff_count]
  constructor
  · intro counts id matched
    rw [← (count id).1 matched, ← (count' id).1 matched, counts id]
  · intro visits id
    by_cases matched : request.Matches host table id
    · rw [(count id).1 matched, (count' id).1 matched, visits id matched]
    · rw [(count id).2 matched, (count' id).2 matched]

/-- Two tables that have the same rows and any indexes: a search accepts the same rows in both, in
some order, if and only if its walks come to every row that matches equally often.
-/
theorem search_indexes_agree (host : Host) (table other : CTable creator)
    (request : SearchRequest creator) (plan plan' : Plan creator) (visited visited' : List RowId)
    (same : table.SameRecords other) (walked : request.WalkedWhole host table plan visited)
    (walked' : request.WalkedWhole host other plan' visited')
    : (request.accepted host table plan visited).Perm (request.accepted host other plan' visited')
      ↔ ∀ id, request.Matches host table id →
          plan.visits (table.rowAt id) = plan'.visits (table.rowAt id) :=
  walked.perm_iff walked' same

-----------------------------------------------------------------------------------------
-- The order
-----------------------------------------------------------------------------------------

/-- The rows of a search in the order in which it takes them: sorted, if a sort remains. -/
def SearchRequest.ordered (host : Host) (table : CTable creator) (request : SearchRequest creator)
    (plan : Plan creator) (visited : List RowId) : List RowId :=
  let accepted := request.accepted host table plan visited
  if request.remainingSort plan = [] then accepted
  else table.sortRows (request.remainingSort plan) accepted

/-- A search sorts its rows, or leaves out an ascending sort for a walk of an index that agrees with
it.
-/
def SearchRequest.KeepsSort (table : CTable creator) (request : SearchRequest creator)
    (plan : Plan creator) : Prop :=
  request.remainingSort plan = request.sort
    ∨ plan.walkType = .skip ∧ request.remainingSort plan = []
      ∧ ∃ field, request.sort = [(field, false)]
        ∧ ∀ a ∈ table.llHead, ∀ b ∈ table.llHead, (creator.fields field).SortsAlike
          ((table.rowAt a).cells field) ((table.rowAt b).cells field)

/-- Such a search takes its rows in the order of its sort. -/
theorem SearchRequest.WalkedWhole.sorted (walked : request.WalkedWhole host table plan visited)
    (keeps : request.KeepsSort table plan)
    : Sorted (fun left right => sortCompare request.sort (table.rowAt left) (table.rowAt right))
        (request.ordered host table plan visited) := by
  have trans : Std.TransCmp
      (fun left right => sortCompare request.sort (table.rowAt left) (table.rowAt right)) :=
    transCmp_comap (sortCompare request.sort) table.rowAt
  rw [SearchRequest.ordered]
  rcases keeps with kept | ⟨skips, dropped, field, sorts, alike⟩
  · rw [kept]
    by_cases unsorted : request.sort = []
    · rw [if_pos unsorted, unsorted]
      exact List.pairwise_of_forall fun _ _ same => by cases same
    · rw [if_neg unsorted]
      have accepts := (SearchRequest.mem_accepted_iff walked.keyed walked.indexed walked.evaluates
        walked.planned walked.walks).mpr walked.spares
      refine sorted_mergeSort fun left inLeft right inRight => ?_
      have leftRow := (walked.keyed.1.read ((accepts left).mp inLeft).1).1
      have rightRow := (walked.keyed.1.read ((accepts right).mp inRight).1).1
      rw [leftRow, rightRow]
  · rw [if_pos dropped]
    have replanned : request.plan host
        { table with searches := plan.searchField :: table.searches } table.searches
        = .ok plan := by
      rw [← walked.planned]
      exact planLoop_aside
    have ascends := @SearchRequest.accepted_ascend creator host
      { table with searches := plan.searchField :: table.searches } request plan visited
      table.searches .complete field false
      ((keyInvariant host).aside table _ table.cursors table.memoryTests walked.keyed).1
      ((indexInvariant host).aside table _ table.cursors table.memoryTests walked.indexed) alike
      replanned skips sorts dropped walked.walks
    rw [sorts]
    unfold Sorted
    simp only [sortCompare_single]
    exact ascends

end Choice

-----------------------------------------------------------------------------------------
-- A search with and without an index
-----------------------------------------------------------------------------------------

/-- Whether a search without a lookup has a plan that is right and walks to its end. -/
def walksWhole (request : SearchRequest sampleCreator) (right : Plan sampleCreator → Bool)
    (table : CTable sampleCreator) : Bool :=
  evaluatesAll request.components table
    && (lookupChosen table table.searches request.sortField request.tryOrder []).isNone
    && (request.plan sampleHost table table.searches).toOption.any (fun plan => right plan
      && (runWalk plan 9 .start { table with searches := plan.searchField :: table.searches }).any
        (fun walked => walked.2 == .complete))

theorem walksWhole_spec {request : SearchRequest sampleCreator} {right : Plan sampleCreator → Bool}
    {table : CTable sampleCreator} (whole : walksWhole request right table = true)
    (keyed : table.KeyedRows) (indexed : table.Indexed)
    : ∃ plan visited, right plan = true
        ∧ request.WalkedWhole sampleHost table plan visited := by
  simp only [walksWhole, Bool.and_eq_true] at whole
  obtain ⟨⟨evaluates, noLookup⟩, plans⟩ := whole
  obtain ⟨plan, planned, holds⟩ := (Option.any_eq_true _ _).mp plans
  obtain ⟨isRight, goes⟩ := Bool.and_eq_true_iff.mp holds
  obtain ⟨⟨visited, last⟩, runs, complete⟩ := (Option.any_eq_true _ _).mp goes
  obtain rfl : last = .complete := beq_iff_eq.mp complete
  refine ⟨plan, visited, isRight, keyed, indexed, evaluatesAll_iff evaluates, ?_, ?_,
    runWalk_walks runs⟩
  · intro index row1 values chosen
    rw [chosen] at noLookup
    cases noLookup
  · cases result : request.plan sampleHost table table.searches with
    | error stop =>
        rw [result] at planned
        cases planned
    | ok other =>
        rw [result] at planned
        cases planned
        rfl

/-- The search walks the index on `n`, and the row list when the index is gone. -/
theorem walkedRun_dropped {request : SearchRequest sampleCreator}
    {right right' : CTable sampleCreator → Plan sampleCreator → Bool}
    (computed : walkedRun.any (fun final => !final.table.destroyed
      && walksWhole request (right final.table) final.table
      && walksWhole request (right' final.table) (final.table.dropIndex (1 : Fin 6))) = true)
    : ∃ table other plan plan' visited visited', table.SameRecords other
        ∧ right table plan = true ∧ right' table plan' = true
        ∧ request.WalkedWhole sampleHost table plan visited
        ∧ request.WalkedWhole sampleHost other plan' visited' := by
  obtain ⟨final, ran, holds⟩ := (Option.any_eq_true _ _).mp computed
  simp only [Bool.and_eq_true, Bool.not_eq_true'] at holds
  obtain ⟨⟨living, whole⟩, dropped⟩ := holds
  obtain ⟨keyed, indexed⟩ := walkedRun_sound ran living
  obtain ⟨plan, visited, isRight, walked⟩ := walksWhole_spec whole keyed indexed
  obtain ⟨plan', visited', isRight', walked'⟩ := walksWhole_spec dropped
    ((keyInvariant sampleHost).drop final.table (1 : Fin 6) keyed)
    ((indexInvariant sampleHost).drop final.table (1 : Fin 6) indexed)
  exact ⟨final.table, final.table.dropIndex (1 : Fin 6), plan, plan', visited, visited',
    final.table.dropIndex_sameRecords (1 : Fin 6), isRight, isRight', walked, walked'⟩

theorem search_indexes_agree_dropped
    : ∃ (table other : CTable sampleCreator) (plan plan' : Plan sampleCreator)
        (visited visited' : List RowId), plan.walkType = .skip ∧ plan'.walkType = .default
        ∧ (((indexedSearch [upToOne]).accepted sampleHost table plan visited).Perm
            ((indexedSearch [upToOne]).accepted sampleHost other plan' visited')
          ↔ ∀ id, (indexedSearch [upToOne]).Matches sampleHost table id →
              plan.visits (table.rowAt id) = plan'.visits (table.rowAt id)) := by
  obtain ⟨table, other, plan, plan', visited, visited', same, skips, rows, walked, walked'⟩ :=
    @walkedRun_dropped (indexedSearch [upToOne]) (fun _ plan => plan.walkType == .skip)
      (fun _ plan => plan.walkType == .default) (by decide +kernel)
  exact ⟨table, other, plan, plan', visited, visited', beq_iff_eq.mp skips, beq_iff_eq.mp rows,
    search_indexes_agree sampleHost table other _ plan plan' visited visited' same walked walked'⟩

end SpeedTables
