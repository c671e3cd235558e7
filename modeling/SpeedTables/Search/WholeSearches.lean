import SpeedTables.Search.RecordRuns
import SpeedTables.Search.WalkedRows

/-! Whole searches that end in a transaction: what `-delete` and `-update` make of the data of the
table.
-/

namespace SpeedTables

open Lib

variable {creator : CreatorTable} {host : Host}

-----------------------------------------------------------------------------------------
-- Searches to their end
-----------------------------------------------------------------------------------------

/-- The steps of a search from a state to its end, without code bodies. -/
inductive SearchFrame.Finishes (host : Host)
    : SearchFrame creator → CTable creator → SearchResult → CTable creator → Prop where
  | ends {frame : SearchFrame creator} {table after : CTable creator} {result : SearchResult}
      {record : SearchRecord}
      (step : frame.advance host table = .ok (.finished result record) after)
      : Finishes host frame table result after
  | next {frame later : SearchFrame creator} {table middle after : CTable creator}
      {result : SearchResult} (step : frame.advance host table = .ok (.next later) middle)
      (rest : Finishes host later middle result after)
      : Finishes host frame table result after

/-- A search of a table, from its start to its end. -/
inductive SearchRequest.Finishes (request : SearchRequest creator) (host : Host)
    (table : CTable creator) : SearchResult → CTable creator → Prop where
  | early {result : SearchResult} {record : SearchRecord} {after : CTable creator}
      (starts : startSearch host request table = .ok (.finished result record) after)
      : Finishes request host table result after
  | late {frame : SearchFrame creator} {middle after : CTable creator} {result : SearchResult}
      (starts : startSearch host request table = .ok (.next frame) middle)
      (runs : frame.Finishes host middle result after)
      : Finishes request host table result after

/-- The steps of a search to its end, as they are computed. -/
def SearchFrame.runToEnd (host : Host)
    : Nat → SearchFrame creator → CTable creator → Option (SearchResult × CTable creator)
  | 0, _, _ => none
  | fuel + 1, frame, table =>
      match frame.advance host table with
      | .ok (.finished result _) after => some (result, after)
      | .ok (.next later) middle => later.runToEnd host fuel middle
      | _ => none

def SearchRequest.runToEnd (request : SearchRequest creator) (host : Host) (fuel : Nat)
    (table : CTable creator) : Option (SearchResult × CTable creator) :=
  match startSearch host request table with
  | .ok (.finished result _) after => some (result, after)
  | .ok (.next frame) middle => frame.runToEnd host fuel middle
  | _ => none

theorem SearchFrame.runToEnd_finishes {fuel : Nat} {frame : SearchFrame creator}
    {table : CTable creator} {ended : SearchResult × CTable creator}
    (runs : frame.runToEnd host fuel table = some ended)
    : frame.Finishes host table ended.1 ended.2 := by
  induction fuel generalizing frame table with
  | zero => cases runs
  | succ fuel ih =>
      rw [SearchFrame.runToEnd] at runs
      split at runs
      · next step =>
          cases runs
          exact .ends step
      · next step => exact .next step (ih runs)
      · cases runs

theorem SearchRequest.runToEnd_finishes {request : SearchRequest creator} {fuel : Nat}
    {table : CTable creator} {ended : SearchResult × CTable creator}
    (runs : request.runToEnd host fuel table = some ended)
    : request.Finishes host table ended.1 ended.2 := by
  rw [SearchRequest.runToEnd] at runs
  split at runs
  · next starts =>
      cases runs
      exact .early starts
  · next starts => exact .late starts (SearchFrame.runToEnd_finishes runs)
  · cases runs

/-- A search for its transaction alone, with components, sorting, buffering and indexes as they may
be, but without filters, a pattern for keys, an offset and a limit.
-/
structure SearchRequest.Transacts (request : SearchRequest creator) : Prop where
  action : request.action = .transactionOnly
  transaction : request.transaction ≠ .none
  filters : request.filters = []
  glob : request.glob = none
  offset : request.offset = 0
  limit : request.limit = 0

/-- What a search with a transaction has collected while it walks. -/
structure SearchFrame.Collecting (frame : SearchFrame creator) : Prop where
  request : frame.request.Transacts
  buffered : frame.buffering ≠ .none
  counts : frame.matchCount = frame.tranTable.length
  offsetLimit : frame.offsetLimit = 0

/-- The action of a search on its rows is over, or goes on, or its transaction comes next. -/
def SearchFrame.PastWalk (frame : SearchFrame creator) : Prop :=
  (∃ index, frame.phase = .acting index) ∨ ∃ returned, frame.phase = .transacting returned

/-- The index of the search is left. -/
def CTable.searchLeft (table : CTable creator) : CTable creator :=
  { table with searches := none :: table.searches.tail }

section Steps

variable {frame : SearchFrame creator} {table : CTable creator}

/-- The step of a transaction is its end. -/
theorem SearchFrame.transact_step {returned : Bool} (phase : frame.phase = .transacting returned)
    : wp (frame.advance host)
        (fun step after => (∃ result record, step = .finished result record)
          ∧ performTransaction host frame.request.transaction frame.selected table = .ok () after)
        (fun _ _ => True) table := by
  rw [SearchFrame.advance, phase]
  change wp (frame.transact host returned) _ _ _
  rw [SearchFrame.transact, wp_bind]
  exact wp_of_results (fun _ _ performed => ⟨⟨_, _, rfl⟩, performed⟩) fun _ _ _ => trivial

/-- A deferred action leaves the table and what is selected. -/
theorem SearchFrame.act_step {index : Nat} (phase : frame.phase = .acting index)
    (noCode : frame.request.action ≠ .code)
    : wp (frame.advance host)
        (fun step after => after = table ∧ ∃ later, step = .next later ∧ later.PastWalk
          ∧ later.request = frame.request ∧ later.selected = frame.selected)
        (fun _ _ => True) table := by
  rw [SearchFrame.advance, phase]
  change wp (frame.act index) _ _ _
  rw [SearchFrame.act]
  split
  · exact ⟨rfl, _, rfl, .inr ⟨false, rfl⟩, rfl, rfl⟩
  · rw [wp_bind, wp_inspect]
    refine ⟨fun row _ => ?_, fun _ _ => trivial⟩
    dsimp only
    rw [if_neg noCode]
    exact ⟨rfl, _, rfl, .inl ⟨index + 1, rfl⟩, rfl, rfl⟩

/-- The end of a walk leaves the index and selects the rows that have been collected. -/
theorem SearchFrame.Collecting.completeWalk (collecting : frame.Collecting)
    : wp (frame.completeWalk false)
        (fun step after => after = table.searchLeft
          ∧ ((frame.tranTable = [] ∧ ∃ result record, step = .finished result record)
            ∨ ∃ later, step = .next later ∧ later.PastWalk ∧ later.request = frame.request
              ∧ later.selected.Perm frame.tranTable))
        (fun _ _ => True) table := by
  obtain ⟨⟨action, transaction, filters, glob, offset, limit⟩, buffered, counts, offsetLimit⟩ :=
    collecting
  rw [SearchFrame.completeWalk, leaveIndex, wp_bind, wp_modify]
  split
  · next few =>
      refine ⟨rfl, .inl ⟨?_, _, _, rfl⟩⟩
      rw [offset] at few
      exact List.length_eq_zero_iff.mp (by omega)
  · dsimp only
    rw [wp_bind, wp_get]
    have sorted (rows : List RowId) (start : CTable creator)
        : (if frame.sort = [] then rows else start.sortRows frame.sort rows).Perm rows := by
      split
      · exact .refl rows
      · exact List.mergeSort_perm rows _
    have chosen (rows : List RowId) (same : rows.Perm frame.tranTable)
        : ((rows.take frame.matchCount).drop 0).Perm frame.tranTable := by
      rw [List.drop_zero, counts, List.take_of_length_le (by rw [same.length_eq])]
      exact same
    simp only [action, offsetLimit, true_or, if_true]
    have order := sorted frame.tranTable table.searchLeft
    rw [CTable.searchLeft] at order
    generalize (if frame.sort = [] then frame.tranTable else _) = rows at order ⊢
    split
    · refine ⟨rfl, .inr ⟨_, rfl, .inl ⟨_, rfl⟩, rfl, ?_⟩⟩
      rw [SearchFrame.selected, offset]
      exact chosen rows order
    · refine ⟨rfl, .inr ⟨_, rfl, .inr ⟨_, rfl⟩, rfl, ?_⟩⟩
      rw [SearchFrame.selected, offset]
      exact chosen rows order

/-- Whether the tests that a walk leaves pass a row. -/
def SearchFrame.passes (frame : SearchFrame creator) (host : Host) (row : Row creator) : Bool :=
  (searchCompare host frame.plan.alreadySearched row 0 frame.request.components).toOption
    == some true

/-- The tests of a search without filters and a pattern are those of its components. -/
theorem SearchRequest.Transacts.testRow {request : SearchRequest creator}
    (transacts : request.Transacts) (searched : Option Nat) (row : Row creator)
    : request.testRow host searched row
      = (searchCompare host searched row 0 request.components).map
          (fun passes => if passes then .ok else .continue) := by
  rw [SearchRequest.testRow, transacts.glob, transacts.filters]
  simp only [if_true, runFilters]
  cases searchCompare host searched row 0 request.components with
  | error stop => rfl
  | ok passes => cases passes <;> rfl

/-- What a visit leaves: a search that goes on behind the row, and has collected it if it passes. -/
structure SearchFrame.Visited (frame : SearchFrame creator) (host : Host) (row : Row creator)
    (id : RowId) (pos : WalkPos) (later : SearchFrame creator) : Prop where
  collecting : later.Collecting
  phase : later.phase = .walking pos
  plan : later.plan = frame.plan
  request : later.request = frame.request
  rows : later.tranTable = frame.tranTable ++ if frame.passes host row then [id] else []

/-- A row that passes is collected, as long as there is room for it. -/
theorem SearchFrame.Collecting.matchRow (collecting : frame.Collecting) (id : RowId)
    : wp (frame.matchRow id)
        (fun step after => after = table ∧ ∃ later, step = .next later ∧ later.Collecting
          ∧ later.phase = frame.phase ∧ later.plan = frame.plan ∧ later.request = frame.request
          ∧ later.tranTable = frame.tranTable ++ [id])
        (fun _ _ => True) table := by
  obtain ⟨transacts, buffered, counts, offsetLimit⟩ := collecting
  have collected (record : SearchRecord) : SearchFrame.Collecting { frame with
      matchCount := frame.matchCount + 1
      tranTable := frame.tranTable ++ [id]
      record := record } :=
    ⟨transacts, buffered, by simp [counts], offsetLimit⟩
  rw [SearchFrame.matchRow]
  simp only [buffered, if_false]
  split
  · trivial
  · split
    · exact ⟨rfl, _, rfl, collected _, rfl, rfl, rfl, rfl⟩
    · rw [if_neg (by simp [transacts.action]), SearchFrame.afterMatch,
        if_neg (fun limited => limited.1 transacts.limit)]
      exact ⟨rfl, _, rfl, collected _, rfl, rfl, rfl, rfl⟩

/-- A step of a walk: a visit, the end of the walk, or the end of a loop that should not end. -/
theorem SearchFrame.Collecting.walk (collecting : frame.Collecting) {pos : WalkPos}
    (phase : frame.phase = .walking pos)
    : wp (frame.advance host)
        (fun step after =>
          (∃ id next row later, walkStep frame.plan pos table = .ok (.visit id next) after
            ∧ after.rows id = some row ∧ step = .next later ∧ frame.Visited host row id next later)
          ∨ (∃ moved, walkStep frame.plan pos table = .ok .complete moved
              ∧ after = moved.searchLeft
              ∧ ((frame.tranTable = [] ∧ ∃ result record, step = .finished result record)
                ∨ ∃ later, step = .next later ∧ later.PastWalk ∧ later.request = frame.request
                  ∧ later.selected.Perm frame.tranTable))
          ∨ ∃ error record, step = .finished (.error error) record)
        (fun _ _ => True) table := by
  have transacts := collecting.request
  rw [SearchFrame.advance, phase]
  change wp (frame.walk host pos) _ _ _
  rw [SearchFrame.walk, wp_bind]
  refine wp_of_results (fun result middle step => ?_) fun _ _ _ => trivial
  cases result with
  | complete =>
      refine wp_mono (@completeWalk creator frame middle collecting) ?_ fun _ _ _ => trivial
      exact fun _ after ends => .inr (.inl ⟨middle, step, ends⟩)
  | endless => exact .inr (.inr ⟨_, _, rfl⟩)
  | visit id next =>
      change wp (inspect (CTable.row · id) >>= _) _ _ _
      rw [wp_bind, wp_inspect]
      refine ⟨fun row read => ?_, fun _ _ => trivial⟩
      have found := (CTable.row_eq read).1
      dsimp only
      rw [transacts.testRow]
      cases tested : searchCompare host frame.plan.alreadySearched row 0
          frame.request.components with
      | error stop => trivial
      | ok passes =>
          cases passes with
          | false =>
              refine .inl ⟨id, next, row, _, step, found, rfl, ?_⟩
              have fails : frame.passes host row = false := by
                rw [SearchFrame.passes, tested]
                rfl
              exact ⟨{ collecting with }, rfl, rfl, rfl, by simp [fails]⟩
          | true =>
              have passes : frame.passes host row = true := by
                rw [SearchFrame.passes, tested]
                rfl
              have room : SearchFrame.Collecting { frame with
                  phase := .walking next
                  record := { frame.record with visited := frame.record.visited ++ [id] } } :=
                { collecting with }
              refine wp_mono (@matchRow creator _ middle room id) ?_ fun _ _ _ => trivial
              rintro _ _ ⟨rfl, later, rfl, goesOn, walking, samePlan, sameRequest, rows⟩
              refine .inl ⟨id, next, row, later, step, found, rfl, goesOn, walking, samePlan,
                sameRequest, ?_⟩
              rw [rows, passes]
              rfl

end Steps

section Runs

variable {frame : SearchFrame creator} {base table after : CTable creator} {result : SearchResult}

/-- A search behind its walk performs its transaction on the rows that are selected, by induction on
its steps.
-/
theorem SearchFrame.Finishes.performs (finishes : frame.Finishes host table result after)
    (past : frame.PastWalk) (noCode : frame.request.action ≠ .code)
    : performTransaction host frame.request.transaction frame.selected table = .ok () after := by
  induction finishes with
  | @ends frame table after result record step =>
      rcases past with ⟨index, phase⟩ | ⟨returned, phase⟩
      · obtain ⟨-, later, goesOn, -⟩ := wp_returns (act_step phase noCode) step
        cases goesOn
      · exact (wp_returns (transact_step phase) step).2
  | @next frame later table middle after result step rest ih =>
      rcases past with ⟨index, phase⟩ | ⟨returned, phase⟩
      · obtain ⟨rfl, other, goesOn, past, request, selected⟩ :=
          wp_returns (act_step phase noCode) step
        cases goesOn
        rw [← selected, ← request]
        exact ih past (request ▸ noCode)
      · obtain ⟨⟨_, _, ends⟩, -⟩ := wp_returns (transact_step phase) step
        cases ends

/-- A search that ends without an error has walked to the end, and performs its transaction on the
rows that it has collected: those that it came to and that pass, in some order. By induction on its
steps, with the walk read from its end.
-/
theorem SearchFrame.Finishes.collected (finishes : frame.Finishes host table result after)
    (collecting : frame.Collecting) {pos : WalkPos} (phase : frame.phase = .walking pos)
    (done : ∀ error, result ≠ .error error) (here : table.KeyedRows ∧ base.SameRecords table)
    (within : pos.Within table.llHead)
    : ∃ visited middle ids, Walks frame.plan pos table visited .complete
        ∧ (middle.KeyedRows ∧ base.SameRecords middle)
        ∧ ids.Perm (frame.tranTable
          ++ visited.filter (fun id => frame.passes host (base.rowAt id)))
        ∧ (ids = [] ∧ after = middle
          ∨ performTransaction host frame.request.transaction ids middle = .ok () after) := by
  have left {moved : CTable creator} (kept : moved.KeyedRows ∧ base.SameRecords moved)
      : moved.searchLeft.KeyedRows ∧ base.SameRecords moved.searchLeft :=
    ⟨(keyInvariant host).aside moved _ moved.cursors moved.memoryTests kept.1, kept.2.rows,
      kept.2.llHead, kept.2.autoRowNumber⟩
  have settled (frame : SearchFrame creator) {pos : WalkPos} {table : CTable creator}
      (here : table.KeyedRows ∧ base.SameRecords table) (within : pos.Within table.llHead) :=
    walkStep_settled (@sameRecords_walk creator base host) frame.plan pos ⟨here, rfl⟩ within
  induction finishes generalizing pos with
  | @ends frame table after result record step =>
      rcases wp_returns (collecting.walk phase) step with
        ⟨_, _, _, _, _, _, goesOn, _⟩ | ⟨moved, walked, rfl, ended⟩ | ⟨error, _, failed⟩
      · cases goesOn
      · have kept := (wp_returns (settled frame here within) walked).1.1
        rcases ended with ⟨nothing, -⟩ | ⟨_, goesOn, -⟩
        · refine ⟨[], moved.searchLeft, [], .ends walked (fun _ _ same => by cases same),
            left kept, ?_, .inl ⟨rfl, rfl⟩⟩
          rw [nothing]
          rfl
        · cases goesOn
      · cases failed
        exact absurd rfl (done error)
  | @next frame later table middle after result step rest ih =>
      rcases wp_returns (collecting.walk phase) step with
        ⟨id, next, row, other, walked, found, goesOn, visits⟩ | ⟨moved, walked, rfl, ended⟩
        | ⟨_, _, failed⟩
      · cases goesOn
        obtain ⟨⟨kept, sameList⟩, settles⟩ := wp_returns (settled frame here within) walked
        have listed : id ∈ middle.llHead := settles.1 (by simp [found])
        obtain ⟨visited, final, ids, walks, agrees, order, ends⟩ :=
          ih visits.collecting visits.phase done kept (settles.2 listed)
        have rowHere : base.rowAt id = row := by simp [CTable.rowAt, ← kept.2.rows, found]
        have samePasses : later.passes host = frame.passes host := by
          funext row
          rw [SearchFrame.passes, SearchFrame.passes, visits.plan, visits.request]
        rw [visits.plan] at walks
        rw [visits.request] at ends
        refine ⟨id :: visited, final, ids, .visit walked walks, agrees, ?_, ends⟩
        refine order.trans (.of_eq ?_)
        rw [visits.rows, samePasses, List.filter_cons, rowHere, List.append_assoc]
        split <;> rfl
      · have kept := (wp_returns (settled frame here within) walked).1.1
        rcases ended with ⟨-, _, _, ended⟩ | ⟨other, goesOn, past, request, selected⟩
        · cases ended
        · cases goesOn
          refine ⟨[], moved.searchLeft, later.selected,
            .ends walked (fun _ _ same => by cases same), left kept, ?_, .inr ?_⟩
          · rw [List.filter_nil, List.append_nil]
            exact selected
          · rw [← request]
            refine rest.performs past ?_
            rw [request, collecting.request.action]
            exact fun same => by cases same
      · cases failed

end Runs

-----------------------------------------------------------------------------------------
-- The rows of a transaction
-----------------------------------------------------------------------------------------

section Transactions

variable {table after : CTable creator} {request : SearchRequest creator}

/-- The choice of a walk does not look at the active searches, by induction on the entries. -/
theorem planLoop_aside {previous searches : List (Option creator.Field)}
    {sortField : Option creator.Field} {entries : List (Nat × Component creator)}
    {plan : Plan creator}
    : planLoop host { table with searches := searches } previous sortField entries plan
      = planLoop host table previous sortField entries plan := by
  induction entries generalizing plan with
  | nil => rfl
  | cons entry rest ih =>
      have same : usable { table with searches := searches } previous sortField entry.2
          = usable table previous sortField entry.2 := rfl
      simp only [planLoop, same, ih]

theorem lookupChosen_aside {previous searches : List (Option creator.Field)}
    {sortField : Option creator.Field} {entries : List (Nat × Component creator)}
    {values : List Obj}
    : lookupChosen { table with searches := searches } previous sortField entries values
      = lookupChosen table previous sortField entries values := by
  induction entries generalizing values with
  | nil => rfl
  | cons entry rest ih =>
      have same : usable { table with searches := searches } previous sortField entry.2
          = usable table previous sortField entry.2 := rfl
      simp only [lookupChosen, same, ih]

/-- A search with a transaction ends at once on an empty table, or starts to collect. -/
theorem SearchRequest.Transacts.starts (transacts : request.Transacts)
    : wp (startSearch host request)
        (fun step after =>
          (table.count = 0 ∧ after = table ∧ ∃ result record, step = .finished result record)
          ∨ ∃ frame, step = .next frame
            ∧ after = { table with searches := frame.plan.searchField :: table.searches }
            ∧ request.plan host table table.searches = .ok frame.plan ∧ frame.request = request
            ∧ frame.Collecting ∧ frame.phase = .walking .start ∧ frame.tranTable = [])
        (fun _ _ => True) table := by
  have counts : request.countsOnly = false := by simp [SearchRequest.countsOnly, transacts.action]
  have checks : wp (checkDelete request) (fun _ after => after = table) (fun _ _ => True)
      table := by
    rw [checkDelete, wp_bind, wp_get]
    split
    · trivial
    · split
      · trivial
      · rfl
  rw [startSearch, wp_bind]
  refine wp_mono checks ?_ fun _ _ _ => trivial
  rintro _ _ rfl
  rw [wp_bind, wp_get, counts, if_neg Bool.false_ne_true]
  split
  · trivial
  · split
    · next none =>
        rw [transacts.action]
        exact .inl ⟨none, rfl, _, _, rfl⟩
    · cases planned : request.plan host _ _ with
      | error stop => trivial
      | ok plan =>
          refine .inr ⟨_, rfl, rfl, rfl, rfl, ⟨transacts, ?_, rfl, ?_⟩, rfl, rfl⟩
          · dsimp only
            unfold SearchRequest.buffering
            extract_lets buffered
            split
            · exact fun same => by cases same
            · next direct => exact fun none => direct ⟨none, transacts.transaction⟩
          · dsimp only
            rw [transacts.offset, transacts.limit]

/-- A search with a transaction that ends without an error finds the table empty, or performs it on
the rows that its walk has come to and that pass, in some order.
-/
theorem SearchRequest.Finishes.walked {result : SearchResult}
    (finishes : request.Finishes host table result after) (transacts : request.Transacts)
    (here : table.KeyedRows) (done : ∀ error, result ≠ .error error)
    : table.llHead = [] ∧ after = table
      ∨ ∃ plan visited middle ids, request.plan host table table.searches = .ok plan
        ∧ Walks plan .start { table with searches := plan.searchField :: table.searches } visited
          .complete
        ∧ (middle.KeyedRows ∧ table.SameRecords middle)
        ∧ ids.Perm (request.accepted host table plan visited)
        ∧ (ids = [] ∧ after = middle
          ∨ performTransaction host request.transaction ids middle = .ok () after) := by
  cases finishes with
  | early starts =>
      rcases wp_returns transacts.starts starts with ⟨empty, rfl, -⟩ | ⟨_, goesOn, -⟩
      · have count := here.1.count
        rw [empty] at count
        exact .inl ⟨List.length_eq_zero_iff.mp (by omega), rfl⟩
      · cases goesOn
  | @late frame start _ _ starts runs =>
      rcases wp_returns transacts.starts starts with
        ⟨-, -, _, _, ended⟩ | ⟨other, goesOn, rfl, planned, sameRequest, collecting, phase, nothing⟩
      · cases ended
      · cases goesOn
        have aside : CTable.KeyedRows
            { table with searches := frame.plan.searchField :: table.searches } :=
          (keyInvariant host).aside table _ table.cursors table.memoryTests here
        obtain ⟨visited, middle, ids, walks, agrees, order, ends⟩ :=
          @SearchFrame.Finishes.collected creator host frame table _ after result runs collecting _
            phase done ⟨aside, rfl, rfl, rfl⟩ trivial
        rw [nothing, List.nil_append] at order
        rw [← sameRequest]
        exact .inr ⟨frame.plan, visited, middle, ids, sameRequest ▸ planned, walks, agrees, order,
          ends⟩

section Walked

variable {plan : Plan creator} {visited : List RowId}

/-- The rows that a walk accepts are those that match, exactly when its lookup by `=` leaves no row
over.
-/
theorem SearchRequest.mem_accepted_iff (here : table.KeyedRows) (indexed : table.Indexed)
    (evaluates : ∀ id ∈ table.llHead, ∀ component ∈ request.components,
      ∃ passes, component.test host (table.rowAt id) = .ok passes)
    (planned : request.plan host table table.searches = .ok plan)
    (walks : Walks plan .start { table with searches := plan.searchField :: table.searches } visited
      .complete)
    : (∀ id, id ∈ request.accepted host table plan visited ↔ request.Matches host table id)
      ↔ request.SparesLeftovers host table := by
  have replanned : request.plan host
      { table with searches := plan.searchField :: table.searches } table.searches = .ok plan := by
    rw [← planned]
    exact planLoop_aside
  have accepts := @SearchRequest.accepts_iff creator host
    { table with searches := plan.searchField :: table.searches } request plan visited
    table.searches ((keyInvariant host).aside table _ table.cursors table.memoryTests here).1
    ((indexInvariant host).aside table _ table.cursors table.memoryTests indexed) evaluates
    replanned walks
  rw [SearchRequest.SparesLeftoversIn, lookupChosen_aside] at accepts
  refine Iff.trans (forall_congr' fun id => iff_congr ?_ Iff.rfl) accepts
  rw [SearchRequest.accepted, List.mem_filter, SearchRequest.Accepts]
  refine and_congr_right fun _ => ?_
  change _ ↔ searchCompare host plan.alreadySearched (table.rowAt id) 0 request.components
    = .ok true
  cases searchCompare host plan.alreadySearched (table.rowAt id) 0 request.components with
  | ok passes => simp [Except.toOption]
  | error stop => simp [Except.toOption]

/-- A row that is accepted is so as often as the walk comes to it. -/
theorem SearchRequest.count_accepted (here : table.KeyedRows) (indexed : table.Indexed)
    (planned : request.plan host table table.searches = .ok plan)
    (walks : Walks plan .start { table with searches := plan.searchField :: table.searches } visited
      .complete)
    {id : RowId} (accepted : id ∈ request.accepted host table plan visited)
    (listed : id ∈ table.llHead)
    : (request.accepted host table plan visited).count id = plan.visits (table.rowAt id) := by
  have replanned : request.plan host
      { table with searches := plan.searchField :: table.searches } table.searches = .ok plan := by
    rw [← planned]
    exact planLoop_aside
  have visits := @SearchRequest.visits_eq creator host
    { table with searches := plan.searchField :: table.searches } request plan visited
    table.searches ((keyInvariant host).aside table _ table.cursors table.memoryTests here).1
    ((indexInvariant host).aside table _ table.cursors table.memoryTests indexed) replanned walks id
    listed
  have passes := (List.mem_filter.mp accepted).2
  have once : (request.accepted host table plan visited).count id = visited.count id := by
    rw [SearchRequest.accepted]
    exact List.count_filter passes
  rw [once]
  exact visits

/-- How often a search accepts a row: as often as its walk comes to it, if it matches. -/
theorem SearchRequest.count_accepted_eq (here : table.KeyedRows) (indexed : table.Indexed)
    (evaluates : ∀ id ∈ table.llHead, ∀ component ∈ request.components,
      ∃ passes, component.test host (table.rowAt id) = .ok passes)
    (spares : request.SparesLeftovers host table)
    (planned : request.plan host table table.searches = .ok plan)
    (walks : Walks plan .start { table with searches := plan.searchField :: table.searches } visited
      .complete) (id : RowId)
    : (request.Matches host table id →
        (request.accepted host table plan visited).count id = plan.visits (table.rowAt id))
      ∧ (¬ request.Matches host table id →
        (request.accepted host table plan visited).count id = 0) := by
  have accepts := (SearchRequest.mem_accepted_iff here indexed evaluates planned walks).mpr spares
  constructor
  · intro matched
    exact SearchRequest.count_accepted here indexed planned walks ((accepts id).mpr matched)
      matched.1
  · intro apart
    exact List.count_eq_zero.mpr fun inside => apart ((accepts id).mp inside)

end Walked

/-- Deleting rows takes them off the list and leaves the others, by induction on the rows. -/
theorem deleteRows_leaves (ids : List RowId)
    : ∀ {table : CTable creator}, table.KeyedRows →
        wp (deleteRows ids)
          (fun _ after => after.KeyedRows ∧ (∀ id ∈ ids, id ∈ table.llHead)
            ∧ (∀ id, id ∈ after.llHead ↔ id ∈ table.llHead ∧ id ∉ ids)
            ∧ ∀ id, id ∉ ids → after.rows id = table.rows id)
          (fun _ _ => True) table := by
  induction ids with
  | nil => exact fun here => ⟨here, by simp, by simp, fun _ _ => rfl⟩
  | cons first rest ih =>
      intro table here
      rw [deleteRows, wp_bind]
      refine wp_mono (wp_and (@discardRow_keyed creator table first here) discardRow_leaves) ?_
        fun _ _ _ => trivial
      rintro _ middle ⟨kept, listed, shorter, others, -⟩
      have inside (id : RowId) : id ∈ middle.llHead ↔ id ∈ table.llHead ∧ id ≠ first := by
        rw [shorter, here.1.nodup.mem_erase_iff]
        exact and_comm
      refine wp_mono (ih kept) ?_ fun _ _ _ => trivial
      rintro _ after ⟨final, members, left, same⟩
      refine ⟨final, fun id member => ?_, fun id => ?_, fun id absent => ?_⟩
      · rcases List.mem_cons.mp member with rfl | later
        · exact listed
        · exact ((inside id).mp (members id later)).1
      · rw [left, inside, List.mem_cons, not_or, and_assoc]
      · rw [List.mem_cons, not_or] at absent
        rw [same id absent.2, others id absent.1]

/-- What is left under a key when the rows of a list are deleted. -/
theorem CTable.Keyed.record_deleted (keyed : table.Keyed) (keyed' : after.Keyed) {ids : List RowId}
    (left : ∀ id, id ∈ after.llHead ↔ id ∈ table.llHead ∧ id ∉ ids)
    (same : ∀ id, id ∉ ids → after.rows id = table.rows id) {key : CString} {data : creator.Data}
    : after.record key = some data
      ↔ table.record key = some data
        ∧ ∀ id ∈ table.llHead, (table.rowAt id).key = some key → id ∉ ids := by
  have rowAt {id : RowId} (stays : id ∉ ids) : after.rowAt id = table.rowAt id := by
    rw [CTable.rowAt, CTable.rowAt, same id stays]
  rw [keyed.record_iff, keyed'.record_iff]
  constructor
  · rintro ⟨id, inside, isKey, isData⟩
    obtain ⟨listed, stays⟩ := (left id).mp inside
    rw [rowAt stays] at isKey isData
    refine ⟨⟨id, listed, isKey, isData⟩, fun other inTable sameKey => ?_⟩
    rw [keyed.distinct other inTable id listed (sameKey.trans isKey.symm)]
    exact stays
  · rintro ⟨⟨id, listed, isKey, isData⟩, spared⟩
    have stays := spared id listed isKey
    refine ⟨id, (left id).mpr ⟨listed, stays⟩, ?_⟩
    rw [rowAt stays]
    exact ⟨isKey, isData⟩

/-- Taking some rows out of a table leaves the data that taking out others leaves if and only if
they are the same rows: every key is that of one row.
-/
theorem CTable.Keyed.spared_iff {table : CTable creator} (keyed : table.Keyed)
    {gone matched : RowId → Prop} (goneListed : ∀ id, gone id → id ∈ table.llHead)
    (matchedListed : ∀ id, matched id → id ∈ table.llHead)
    : (∀ key data,
        (table.record key = some data
          ∧ ∀ id ∈ table.llHead, (table.rowAt id).key = some key → ¬ gone id)
        ↔ table.record key = some data
          ∧ ∀ id, (table.rowAt id).key = some key → ¬ matched id)
      ↔ ∀ id, gone id ↔ matched id := by
  have own {id other : RowId} (listed : id ∈ table.llHead) (inTable : other ∈ table.llHead)
      {key : CString} (isKey : (table.rowAt id).key = some key)
      (sameKey : (table.rowAt other).key = some key) : id = other :=
    keyed.distinct id listed other inTable (isKey.trans sameKey.symm)
  have has {id : RowId} (listed : id ∈ table.llHead)
      : (table.rowAt id).key = some (table.rowAt id).keyString
        ∧ table.record (table.rowAt id).keyString = some (table.rowAt id).data :=
    ⟨(keyed.read listed).2, keyed.record_iff.mpr ⟨id, listed, (keyed.read listed).2, rfl⟩⟩
  constructor
  · intro right id
    constructor
    · intro inside
      have listed := goneListed id inside
      obtain ⟨isKey, stored⟩ := has listed
      by_contra noMatch
      have stays := (right _ _).mpr ⟨stored, fun other sameKey matches' =>
        noMatch (own listed (matchedListed other matches') isKey sameKey ▸ matches')⟩
      exact stays.2 id listed isKey inside
    · intro matches'
      have listed := matchedListed id matches'
      obtain ⟨isKey, stored⟩ := has listed
      by_contra spared
      have stays := (right _ _).mp ⟨stored, fun other inTable sameKey inside =>
        spared (own inTable listed sameKey isKey ▸ inside)⟩
      exact stays.2 id isKey matches'
  · intro same key data
    refine and_congr_right fun _ =>
      ⟨fun spared id isKey matches' => ?_, fun spared id _ isKey inside => ?_⟩
    · exact spared id (matchedListed id matches') isKey ((same id).mpr matches')
    · exact spared id isKey ((same id).mp inside)

/-- A search that deletes leaves under every key what was there, unless the row of the key matches,
exactly when its lookup by `=` leaves no row over that other values than the key lead to.
-/
theorem search_deletes_iff (host : Host) (table after : CTable creator)
    (request : SearchRequest creator) (result : SearchResult) (here : table.KeyedRows)
    (indexed : table.Indexed) (transacts : request.Transacts)
    (deletes : request.transaction = .delete)
    (evaluates : ∀ id ∈ table.llHead, ∀ component ∈ request.components,
      ∃ passes, component.test host (table.rowAt id) = .ok passes)
    (finishes : request.Finishes host table result after)
    (done : ∀ error, result ≠ .error error)
    : (∀ key data, after.record key = some data
        ↔ table.record key = some data
          ∧ ∀ id, (table.rowAt id).key = some key → ¬ request.Matches host table id)
      ↔ request.SparesLeftovers host table := by
  rcases finishes.walked transacts here done with
    ⟨none, rfl⟩ | ⟨plan, visited, middle, ids, planned, walks, ⟨keyed, same⟩, order, ends⟩
  · refine iff_of_true
      (fun key data => ⟨fun has => ⟨has, fun id _ matched => ?_⟩, fun has => has.1⟩)
      fun index row1 values _ id listed => ?_
    · have listed := matched.1
      rw [none] at listed
      cases listed
    · rw [none] at listed
      cases listed
  have accepts := SearchRequest.mem_accepted_iff here indexed evaluates planned walks
  simp only [← order.mem_iff] at accepts
  have performed : deleteRows ids middle = .ok () after := by
    rcases ends with ⟨rfl, rfl⟩ | performed
    · rfl
    · rw [deletes] at performed
      exact performed
  obtain ⟨keyed', members, left, others⟩ := wp_returns (deleteRows_leaves ids keyed) performed
  have record : middle.record = table.record := here.1.record_congr keyed.1 same.llHead same.rows
  have deleted {key : CString} {data : creator.Data} :=
    @CTable.Keyed.record_deleted creator middle after keyed.1 keyed'.1 ids left others key data
  simp only [record, same.rowAt, same.llHead] at deleted members
  rw [← accepts, ← here.1.spared_iff members fun id matched => matched.1]
  refine forall_congr' fun key => forall_congr' fun data => ?_
  rw [deleted]

-----------------------------------------------------------------------------------------
-- Updates
-----------------------------------------------------------------------------------------

/-- The writes of an update of one row. -/
def updateWrites (updates : List (creator.Field × Obj)) : List (Write creator) :=
  updates.map (fun update => .set update.1 update.2)

def Row.record (row : Row creator) : Record creator where
  key := row.keyString
  data := row.data

/-- What an update makes of a record whose row is among those of the update so many times. -/
def Record.updated (host : Host) (updates : List (creator.Field × Obj))
    : Nat → Record creator → Option (Record creator)
  | 0, record => some record
  | times + 1, record =>
      (record.writes host (updateWrites updates)).bind (Record.updated host updates times)

section Updates

variable {updates : List (creator.Field × Obj)}

theorem CTable.Keyed.shows (keyed : table.Keyed) {id : RowId} (listed : id ∈ table.llHead)
    : table.Shows id (table.rowAt id).record := by
  obtain ⟨found, hasKey⟩ := keyed.read listed
  exact ⟨_, found, hasKey, rfl⟩

theorem CTable.Shows.unique {id : RowId} {record other : Record creator}
    (first : table.Shows id record) (second : table.Shows id other) : record = other := by
  obtain ⟨row, found, hasKey, hasData⟩ := first
  obtain ⟨again, there, isKey, isData⟩ := second
  cases found.symm.trans there
  obtain ⟨key, data⟩ := record
  obtain ⟨key', data'⟩ := other
  cases hasKey.symm.trans isKey
  cases hasData.symm.trans isData
  rfl

end Updates

end Transactions

-----------------------------------------------------------------------------------------
-- Transactions on two rows
-----------------------------------------------------------------------------------------

/-- The rows whose number is 0, for a transaction. -/
def zeroRows (transaction : Transaction) (known : transaction ≠ .cursor)
    : SearchRequest sampleCreator :=
  { indexedSearch [numberIn [[48]]] with
    action := .transactionOnly
    transaction := transaction
    transaction_acts := fun _ same => by cases same
    cursor_iff := by simp [known] }

theorem zeroRows_transacts {transaction : Transaction} (known : transaction ≠ .cursor)
    (some : transaction ≠ .none) : (zeroRows transaction known).Transacts :=
  ⟨rfl, some, rfl, rfl, rfl, rfl⟩

/-- A search of the table of two rows, as it is computed. -/
theorem walkedRun_finishes {request : SearchRequest sampleCreator}
    {right : CTable sampleCreator → CTable sampleCreator → Bool}
    (computed : walkedRun.any (fun final => !final.table.destroyed
      && (evaluatesAll request.components final.table
        && (request.runToEnd sampleHost 9 final.table).any (fun ended =>
          ended.1.reported.isNone && right final.table ended.2))) = true)
    : ∃ table after result, (table.KeyedRows ∧ table.Indexed)
        ∧ (∀ id ∈ table.llHead, ∀ component ∈ request.components,
          ∃ passes, component.test sampleHost (table.rowAt id) = .ok passes)
        ∧ request.Finishes sampleHost table result after ∧ (∀ error, result ≠ .error error)
        ∧ right table after = true := by
  obtain ⟨final, ran, found⟩ := (Option.any_eq_true _ _).mp computed
  rw [Bool.and_eq_true, Bool.and_eq_true, Bool.not_eq_true'] at found
  obtain ⟨living, evaluates, ends⟩ := found
  obtain ⟨⟨result, after⟩, runs, holds⟩ := (Option.any_eq_true _ _).mp ends
  rw [Bool.and_eq_true] at holds
  refine ⟨final.table, after, result, walkedRun_sound ran living, evaluatesAll_iff evaluates,
    SearchRequest.runToEnd_finishes runs, ?_, holds.2⟩
  rintro error rfl
  cases holds.1

/-- The row with the number 0 goes, and the other stays. -/
theorem search_deletes_zero
    : ∃ table after : CTable sampleCreator, table.llHead = [1, 0] ∧ after.llHead = [0]
        ∧ ((∀ key data, after.record key = some data
          ↔ table.record key = some data ∧ ∀ id, (table.rowAt id).key = some key →
            ¬ (zeroRows .delete (by decide)).Matches sampleHost table id)
          ↔ (zeroRows .delete (by decide)).SparesLeftovers sampleHost table) := by
  obtain ⟨table, after, result, ⟨here, indexed⟩, evaluates, finishes, done, holds⟩ :=
    @walkedRun_finishes (zeroRows .delete (by decide))
      (fun table after => table.llHead == [1, 0] && after.llHead == [0]) (by decide +kernel)
  simp only [Bool.and_eq_true, beq_iff_eq] at holds
  exact ⟨table, after, holds.1, holds.2, search_deletes_iff sampleHost table after _ result here
    indexed (zeroRows_transacts _ (by decide)) rfl evaluates finishes done⟩

end SpeedTables
