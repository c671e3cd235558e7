import SpeedTables.Lib.WeakestPre
import SpeedTables.Search.Frame
import SpeedTables.Table.Sample

/-! The rows that the offset and the limit of a search select, in all of its modes. -/

namespace SpeedTables

open Lib (wp wp_bind wp_pure wp_get wp_set wp_modify wp_ite wp_mono wp_returns wp_of_results)

variable {creator : CreatorTable}

-----------------------------------------------------------------------------------------
-- The window
-----------------------------------------------------------------------------------------

/-- The rows that offset and limit select from the matching ones. A limit of 0 is none. -/
def SearchRequest.window (request : SearchRequest creator) (rows : List RowId) : List RowId :=
  if request.limit = 0 then rows.drop request.offset
  else (rows.drop request.offset).take request.limit

/-- Whether a search acts on its rows one by one. -/
def SearchRequest.acts (request : SearchRequest creator) : Prop :=
  request.action = .code ∨ request.action = .writeTabsep

/-- A search acted on the window of the matching rows, and counted it. -/
def SearchRequest.Windowed (request : SearchRequest creator) (rows : List RowId)
    (record : SearchRecord) (count : Nat) : Prop :=
  count = (request.window rows).length
    ∧ (request.acts → record.acted = request.window rows)
    ∧ (request.transaction ≠ .none → record.transacted = request.window rows)

/-- The last row number of a buffered search, as `ctable_PostSearchCommonActions` sets it. -/
def SearchRequest.lastRow (request : SearchRequest creator) (matched : Nat) : Nat :=
  if request.offset + request.limit = 0 ∨ matched < request.offset + request.limit then matched
  else request.offset + request.limit

/-- The rows from the offset up to the last row number. -/
def SearchRequest.slice (request : SearchRequest creator) (rows : List RowId) : List RowId :=
  (rows.take (request.lastRow rows.length)).drop request.offset

-----------------------------------------------------------------------------------------
-- How a search can end
-----------------------------------------------------------------------------------------

/-- What a search with a buffering mode has done when it ends. -/
inductive SearchRequest.Outcome (request : SearchRequest creator) (buffering : Buffering)
    (record : SearchRecord) : Nat → Prop where
  | direct (unbuffered : buffering = .none)
      (acted : record.acted = record.matched.drop request.offset)
      (room : request.limit ≠ 0 → record.matched.length ≤ request.offset + request.limit)
      : Outcome request buffering record (record.matched.length - request.offset)
  | short (few : record.matched.length ≤ request.offset) (acted : record.acted = [])
      (transacted : record.transacted = [])
      : Outcome request buffering record 0
  | buffered (buffered : buffering ≠ .none) (enough : request.offset ≤ record.matched.length)
      (acted : request.acts → buffering = .deferred →
        record.acted = request.slice record.matched)
      (provisional : buffering = .provisional →
        record.acted = record.matched.drop request.offset
          ∧ (request.limit ≠ 0 → record.matched.length ≤ request.offset + request.limit))
      (transacted : record.transacted = request.slice record.matched)
      : Outcome request buffering record
          (request.lastRow record.matched.length - request.offset)

/-- A walk is cut only when it has met as many rows as offset and limit ask for. -/
def SearchRequest.CutLate (request : SearchRequest creator) (record : SearchRecord) : Prop :=
  record.cut = true →
    request.limit ≠ 0 ∧ record.matched.length = request.offset + request.limit

-----------------------------------------------------------------------------------------
-- The state of a search
-----------------------------------------------------------------------------------------

/-- What holds of a search in its walk, also while its code body runs. -/
structure SearchFrame.Walking (frame : SearchFrame creator) : Prop where
  offsetLimit : frame.offsetLimit = frame.request.offset + frame.request.limit
  count : frame.matchCount = frame.record.matched.length
  rows : frame.buffering ≠ .none → frame.tranTable = frame.record.matched
  deferred : frame.buffering = .deferred → frame.record.acted = []
  acted : frame.buffering ≠ .deferred →
    frame.record.acted = frame.record.matched.drop frame.request.offset
  transacted : frame.record.transacted = []
  unsorted : frame.buffering = .provisional → frame.sort = []
  room : frame.buffering ≠ .deferred → frame.request.limit ≠ 0 →
    frame.matchCount ≤ frame.request.offset + frame.request.limit
  cut : frame.request.CutLate frame.record

/-- What holds of a buffered search after its walk. -/
structure SearchFrame.Collected (frame : SearchFrame creator) : Prop where
  buffered : frame.buffering ≠ .none
  enough : frame.request.offset ≤ frame.record.matched.length
  last : frame.offsetLimit = frame.request.lastRow frame.record.matched.length
  rows : frame.tranTable = frame.record.matched
  provisional : frame.buffering = .provisional →
    frame.record.acted = frame.record.matched.drop frame.request.offset
      ∧ (frame.request.limit ≠ 0 →
        frame.record.matched.length ≤ frame.request.offset + frame.request.limit)
  cut : frame.request.CutLate frame.record

/-- What holds of a search in each phase. One that walks on can still take a row. -/
def SearchFrame.Good (frame : SearchFrame creator) (waiting : Bool) : Prop :=
  match frame.phase with
  | .walking _ =>
      frame.Walking ∧ frame.record.cut = false
        ∧ (waiting = true → frame.buffering ≠ .deferred)
        ∧ (waiting = false → frame.request.limit ≠ 0 → frame.buffering ≠ .deferred →
          frame.matchCount < frame.request.offset + frame.request.limit)
  | .acting index =>
      frame.Collected ∧ frame.buffering = .deferred ∧ frame.request.offset ≤ index
        ∧ frame.record.acted
          = ((frame.record.matched.take frame.offsetLimit).take index).drop frame.request.offset
  | .transacting _ =>
      frame.Collected
        ∧ (frame.buffering = .deferred →
          frame.record.acted = frame.request.slice frame.record.matched)

/-- What a step of a search leaves. -/
def FrameStep.Good (request : SearchRequest creator) (buffering : Buffering)
    : FrameStep creator → Prop
  | .next frame => frame.request = request ∧ frame.buffering = buffering ∧ frame.Good false
  | .body frame => frame.request = request ∧ frame.buffering = buffering ∧ frame.Good true
  | .finished (.done _ count) record =>
      request.Outcome buffering record count ∧ request.CutLate record
  | .finished (.error _) _ => True

-----------------------------------------------------------------------------------------
-- Steps
-----------------------------------------------------------------------------------------

section
variable {frame : SearchFrame creator} {host : Host} {table : CTable creator}

theorem SearchFrame.good_walking {waiting : Bool} {pos : WalkPos}
    (phase : frame.phase = .walking pos) (walking : frame.Walking)
    (uncut : frame.record.cut = false) (waits : waiting = true → frame.buffering ≠ .deferred)
    (more : waiting = false → frame.request.limit ≠ 0 → frame.buffering ≠ .deferred →
      frame.matchCount < frame.request.offset + frame.request.limit)
    : frame.Good waiting := by
  unfold SearchFrame.Good
  rw [phase]
  exact ⟨walking, uncut, waits, more⟩

/-- The effect of a step on the window, whatever it does to the table. -/
abbrev LeavesGood (request : SearchRequest creator) (buffering : Buffering)
    (action : TableM creator (FrameStep creator)) : Prop :=
  ∀ table, wp action (fun step _ => step.Good request buffering) (fun _ _ => True) table

theorem wp_any {α : Type} {action : TableM creator α} {ok : α → CTable creator → Prop}
    (returns : ∀ value next, ok value next)
    : wp action ok (fun _ _ => True) table :=
  wp_of_results (fun value next _ => returns value next) (fun _ _ _ => trivial)

/-- The rows of a transaction are the slice. -/
theorem SearchFrame.Collected.selected (collected : frame.Collected)
    : frame.selected = frame.request.slice frame.record.matched := by
  rw [SearchFrame.selected, collected.rows, collected.last]
  rfl

/-- The phase of a search has no part in what it has collected. -/
theorem SearchFrame.Collected.inPhase (collected : frame.Collected) (phase : Phase)
    : SearchFrame.Collected { frame with phase := phase } :=
  { collected with }

theorem sortRows_length (table : CTable creator) (sort : List (creator.Field × Bool))
    (rows : List RowId)
    : (table.sortRows sort rows).length = rows.length :=
  List.length_mergeSort _

/-- The end of a walk leaves a search that has acted on its window, or is about to. -/
theorem SearchFrame.Walking.completeWalk (walking : frame.Walking) (returned : Bool)
    : LeavesGood frame.request frame.buffering (frame.completeWalk returned) := by
  intro table
  unfold SearchFrame.completeWalk leaveIndex
  simp only [wp_bind, wp_modify]
  rw [wp_ite]
  have count := walking.count
  refine ⟨fun few => ?_, fun many => ?_⟩
  · have short : frame.record.matched.length ≤ frame.request.offset := by omega
    refine ⟨.short short ?_ walking.transacted, walking.cut⟩
    by_cases deferred : frame.buffering = .deferred
    · exact walking.deferred deferred
    · rw [walking.acted deferred]
      exact List.drop_eq_nil_of_le short
  rw [wp_ite]
  refine ⟨fun unbuffered => ?_, fun buffered => ?_⟩
  · have direct : frame.buffering ≠ .deferred := by simp [unbuffered]
    rw [count]
    refine ⟨.direct unbuffered (walking.acted direct) fun limited => ?_, walking.cut⟩
    rw [← count]
    exact walking.room direct limited
  simp only [wp_bind, wp_get]
  generalize sortedRows : (if frame.sort = [] then frame.tranTable
    else CTable.sortRows _ frame.sort frame.tranTable) = sorted
  have length : sorted.length = frame.record.matched.length := by
    rw [← walking.rows buffered, ← sortedRows]
    split
    · rfl
    · exact sortRows_length _ _ _
  have unsorted : frame.buffering = .provisional → sorted = frame.record.matched := by
    intro provisional
    rw [← walking.rows buffered, ← sortedRows, if_pos (walking.unsorted provisional)]
  have last : (if frame.offsetLimit = 0 ∨ frame.matchCount < frame.offsetLimit then
      frame.matchCount else frame.offsetLimit) = frame.request.lastRow sorted.length := by
    rw [SearchRequest.lastRow, walking.offsetLimit, count, length]
  have cut : frame.request.CutLate { frame.record with matched := sorted } := by
    intro late
    obtain ⟨limited, full⟩ := walking.cut late
    exact ⟨limited, length.trans full⟩
  have provisional : frame.buffering = .provisional →
      frame.record.acted = sorted.drop frame.request.offset
        ∧ (frame.request.limit ≠ 0 →
          sorted.length ≤ frame.request.offset + frame.request.limit) := by
    intro provisional
    have direct : frame.buffering ≠ .deferred := by simp [provisional]
    rw [unsorted provisional]
    refine ⟨walking.acted direct, fun limited => ?_⟩
    rw [← count]
    exact walking.room direct limited
  have collected : SearchFrame.Collected
      { frame with
        offsetLimit := frame.request.lastRow sorted.length
        tranTable := sorted
        record := { frame.record with matched := sorted } } :=
    { buffered := buffered
      enough := by
        show frame.request.offset ≤ sorted.length
        omega
      last := rfl
      rows := rfl
      provisional := provisional
      cut := cut }
  rw [last]
  split
  next name action cursor =>
    simp only [wp_bind, wp_set, wp_pure]
    have acts : ¬ frame.request.acts := by
      unfold SearchRequest.acts
      simp [action]
    refine ⟨.buffered buffered ?_ (fun acting => absurd acting acts) provisional
      collected.selected, cut⟩
    show frame.request.offset ≤ sorted.length
    omega
  next =>
    rw [wp_ite]
    refine ⟨fun deferred => ⟨rfl, rfl, collected.inPhase _, deferred, le_rfl, ?_⟩,
      fun direct => ⟨rfl, rfl, collected.inPhase _, fun deferred => absurd deferred direct⟩⟩
    have none : frame.record.acted = [] := walking.deferred deferred
    show frame.record.acted = _
    rw [none]
    symm
    exact List.drop_eq_nil_of_le (by rw [List.length_take]; exact min_le_left _ _)

/-- After a match the walk goes on, unless it has all the rows that the limit asks for. -/
theorem SearchFrame.Walking.afterMatch (walking : frame.Walking) {pos : WalkPos}
    (phase : frame.phase = .walking pos) (uncut : frame.record.cut = false)
    (direct : frame.buffering ≠ .deferred)
    : LeavesGood frame.request frame.buffering frame.afterMatch := by
  intro table
  unfold SearchFrame.afterMatch
  rw [wp_ite]
  constructor
  · rintro ⟨limited, full⟩
    have last : frame.request.CutLate { frame.record with cut := true } := by
      intro _
      refine ⟨limited, ?_⟩
      have room := walking.room direct limited
      have count := walking.count
      have offsetLimit := walking.offsetLimit
      show frame.record.matched.length = _
      omega
    have cutWalking : SearchFrame.Walking
        { frame with record := { frame.record with cut := true } } :=
      { walking with cut := last }
    exact cutWalking.completeWalk false table
  · intro more
    refine ⟨rfl, rfl, good_walking phase walking uncut nofun fun _ limited _ => ?_⟩
    have offsetLimit := walking.offsetLimit
    rw [not_and, not_le] at more
    rw [← offsetLimit]
    exact more limited

/-- Goes on after a row that did not match, or ends the walk. -/
theorem SearchFrame.Walking.afterStatus (walking : frame.Walking)
    (good : frame.Good false) (status : Status)
    : LeavesGood frame.request frame.buffering (frame.afterStatus status) := by
  intro table
  cases status with
  | ok | «continue» => exact ⟨rfl, rfl, good⟩
  | «break» => exact walking.completeWalk false table
  | «return» => exact walking.completeWalk true table
  | error error => exact trivial

/-- One more matching row. -/
theorem SearchFrame.Walking.match (walking : frame.Walking) {pos : WalkPos}
    (phase : frame.phase = .walking pos) (uncut : frame.record.cut = false)
    (more : frame.request.limit ≠ 0 → frame.buffering ≠ .deferred →
      frame.matchCount < frame.request.offset + frame.request.limit) (id : RowId)
    : LeavesGood frame.request frame.buffering (frame.matchRow id) := by
  intro table
  unfold SearchFrame.matchRow
  dsimp only
  generalize rows : (if frame.buffering = .none then frame.tranTable
    else frame.tranTable ++ [id]) = tranTable
  have collected : frame.buffering ≠ .none → tranTable = frame.record.matched ++ [id] := by
    intro buffered
    rw [← rows, if_neg buffered, walking.rows buffered]
  have count := walking.count
  have offsetLimit := walking.offsetLimit
  have counted : ∀ acted : List RowId,
      (frame.buffering = .deferred → acted = []) →
      (frame.buffering ≠ .deferred →
        acted = (frame.record.matched ++ [id]).drop frame.request.offset) →
      SearchFrame.Walking
        { frame with
          matchCount := frame.matchCount + 1
          tranTable := tranTable
          record := { frame.record with matched := frame.record.matched ++ [id], acted := acted } } := by
    intro acted deferred direct
    exact {
      offsetLimit := offsetLimit
      count := by
        show frame.matchCount + 1 = (frame.record.matched ++ [id]).length
        rw [List.length_append, List.length_singleton, count]
      rows := collected
      deferred := deferred
      acted := direct
      transacted := walking.transacted
      unsorted := walking.unsorted
      room := fun direct limited => more limited direct
      cut := fun late => by
        rw [uncut] at late
        cases late }
  simp only [wp_ite]
  refine ⟨fun _ => trivial, fun _ => ⟨fun skips => ?_, fun acts => ?_⟩⟩
  · have keeps : SearchFrame.Walking
        { frame with
          matchCount := frame.matchCount + 1
          tranTable := tranTable
          record := { frame.record with matched := frame.record.matched ++ [id] } } := by
      refine counted frame.record.acted walking.deferred fun direct => ?_
      have before : frame.matchCount + 1 ≤ frame.request.offset := by
        rcases skips with deferred | before
        · exact absurd deferred direct
        · exact before
      rw [walking.acted direct, List.drop_eq_nil_of_le (by omega), List.drop_eq_nil_of_le]
      rw [List.length_append, List.length_singleton]
      omega
    refine ⟨rfl, rfl, good_walking phase keeps uncut nofun fun _ limited direct => ?_⟩
    rcases skips with deferred | before
    · exact absurd deferred direct
    · show frame.matchCount + 1 < frame.request.offset + frame.request.limit
      have positive : 0 < frame.request.limit := Nat.pos_of_ne_zero limited
      omega
  · rw [not_or, not_le] at acts
    obtain ⟨direct, past⟩ := acts
    have takes : SearchFrame.Walking
        { frame with
          matchCount := frame.matchCount + 1
          tranTable := tranTable
          record :=
            { frame.record with
              matched := frame.record.matched ++ [id]
              acted := frame.record.acted ++ [id] } } := by
      refine counted _ (fun deferred => absurd deferred direct) fun _ => ?_
      rw [walking.acted direct, List.drop_append_of_le_length (by omega)]
    exact ⟨fun _ => ⟨rfl, rfl, good_walking phase takes uncut (fun _ => direct) nofun⟩,
      fun _ => takes.afterMatch phase uncut direct table⟩

/-- A status of a row test or of a code body with which the search goes on. -/
def Status.goesOn : Status → Prop
  | .ok | .continue => True
  | _ => False

/-- One visit of the walk. -/
theorem SearchFrame.walk_good {pos : WalkPos} (good : frame.Good false)
    (phase : frame.phase = .walking pos)
    : LeavesGood frame.request frame.buffering (frame.walk host pos) := by
  intro table
  unfold SearchFrame.Good at good
  rw [phase] at good
  obtain ⟨walking, uncut, -, more⟩ := good
  unfold SearchFrame.walk
  rw [wp_bind]
  refine wp_any fun visit middle => ?_
  cases visit with
  | complete => exact walking.completeWalk false middle
  | endless => exact trivial
  | visit id next =>
      rw [wp_bind]
      refine wp_any fun row after => ?_
      dsimp only
      have moved : SearchFrame.Walking
          { frame with
            phase := .walking next
            record := { frame.record with visited := frame.record.visited ++ [id] } } :=
        { walking with cut := walking.cut }
      have still : SearchFrame.Good
          { frame with
            phase := .walking next
            record := { frame.record with visited := frame.record.visited ++ [id] } } false :=
        good_walking rfl moved uncut nofun more
      split
      · exact trivial
      · exact moved.match rfl uncut (more rfl) id after
      · exact moved.afterStatus still _ after

/-- One deferred action. -/
theorem SearchFrame.act_good {index : Nat} (good : frame.Good false)
    (phase : frame.phase = .acting index)
    : LeavesGood frame.request frame.buffering (frame.act index) := by
  intro table
  unfold SearchFrame.Good at good
  rw [phase] at good
  obtain ⟨collected, deferred, inside, acted⟩ := good
  unfold SearchFrame.act
  split
  next past =>
    refine ⟨rfl, rfl, collected.inPhase _, fun _ => ?_⟩
    show frame.record.acted = frame.request.slice frame.record.matched
    rw [acted, List.take_of_length_le, collected.last]
    · rfl
    · rw [collected.rows] at past
      exact List.getElem?_eq_none_iff.mp past
  next id found =>
    rw [collected.rows] at found
    rw [wp_bind]
    refine wp_any fun row after => ?_
    have present : index < (frame.record.matched.take frame.offsetLimit).length :=
      (List.getElem?_eq_some_iff.mp found).1
    have rows : frame.record.acted ++ [id]
        = ((frame.record.matched.take frame.offsetLimit).take (index + 1)).drop
            frame.request.offset := by
      rw [acted, List.take_add_one, found, Option.toList_some,
        List.drop_append_of_le_length]
      rw [List.length_take]
      omega
    have next : SearchFrame.Good
        { frame with
          phase := .acting (index + 1)
          record := { frame.record with acted := frame.record.acted ++ [id] } } false := by
      have still : SearchFrame.Collected
          { frame with
            phase := .acting (index + 1)
            record := { frame.record with acted := frame.record.acted ++ [id] } } :=
        { collected with
          provisional := fun provisional => by
            rw [deferred] at provisional
            cases provisional
          cut := collected.cut }
      exact ⟨still, deferred, Nat.le_succ_of_le inside, rows⟩
    dsimp only
    rw [wp_ite]
    exact ⟨fun _ => ⟨rfl, rfl, next⟩, fun _ => ⟨rfl, rfl, next⟩⟩

/-- The transaction of a search works on its slice. -/
theorem SearchFrame.transact_good {returned : Bool} (good : frame.Good false)
    (phase : frame.phase = .transacting returned)
    : LeavesGood frame.request frame.buffering (frame.transact host returned) := by
  intro table
  unfold SearchFrame.Good at good
  rw [phase] at good
  obtain ⟨collected, acted⟩ := good
  unfold SearchFrame.transact
  rw [wp_bind]
  refine wp_any fun _ _ => ?_
  rw [wp_pure, collected.last]
  exact ⟨.buffered collected.buffered collected.enough (fun _ => acted) collected.provisional
    collected.selected, collected.cut⟩

/-- A step of a search that is not waiting, by its phase. -/
theorem SearchFrame.advance_good (good : frame.Good false)
    : LeavesGood frame.request frame.buffering (frame.advance host) := by
  unfold SearchFrame.advance
  cases phase : frame.phase with
  | walking pos => exact walk_good good phase
  | acting index => exact act_good good phase
  | transacting returned => exact transact_good good phase

/-- The code body of a search ends in a status with which the search goes on. -/
theorem SearchFrame.resume_good {status : Status} (goesOn : status.goesOn)
    (good : frame.Good true)
    : LeavesGood frame.request frame.buffering (frame.resume status) := by
  intro table
  have statuses : status = .ok ∨ status = .continue := by
    cases status <;> simp [Status.goesOn] at goesOn ⊢
  unfold SearchFrame.Good at good
  unfold SearchFrame.resume
  cases phase : frame.phase with
  | walking pos =>
      rw [phase] at good
      obtain ⟨walking, uncut, direct, -⟩ := good
      rcases statuses with rfl | rfl <;>
        exact walking.afterMatch phase uncut (direct rfl) table
  | acting index =>
      rw [phase] at good
      have still : frame.Good false := by
        unfold SearchFrame.Good
        rw [phase]
        exact good
      rcases statuses with rfl | rfl <;> exact ⟨rfl, rfl, still⟩
  | transacting returned =>
      rw [phase] at good
      obtain ⟨collected, acted⟩ := good
      rcases statuses with rfl | rfl <;> exact ⟨rfl, rfl, collected.inPhase _, acted⟩

end

-----------------------------------------------------------------------------------------
-- The start of a search
-----------------------------------------------------------------------------------------

/-- A search buffers provisionally only when it does not sort. -/
theorem SearchRequest.unsorted_of_provisional {request : SearchRequest creator}
    {sort : List (creator.Field × Bool)} (provisional : request.buffering sort = .provisional)
    : sort = [] := by
  by_contra sorted
  unfold SearchRequest.buffering at provisional
  cases action : request.action with
  | none =>
      have acts := request.transaction_acts
      simp [action] at provisional acts
      exact provisional acts
  | code | writeTabsep | transactionOnly | cursor name => simp [action, sorted] at provisional

/-- What the start of a search leaves, on a given table. -/
def FrameStep.Starts (request : SearchRequest creator) (host : Host) (table : CTable creator)
    : FrameStep creator → Prop
  | .next frame =>
      frame.request = request ∧ frame.Good false
        ∧ ∃ plan, request.plan host table table.searches = .ok plan
          ∧ frame.buffering = request.buffering (request.remainingSort plan)
  | .body _ => False
  | .finished (.done _ count) record =>
      record = .empty
        ∧ (request.countsOnly = true ∧ count = request.quickCount table.count
          ∨ request.countsOnly = false ∧ table.count = 0 ∧ count = 0)
  | .finished (.error _) _ => True

theorem startSearch_starts (host : Host) (request : SearchRequest creator)
    (table : CTable creator)
    : wp (startSearch host request) (fun step _ => step.Starts request host table)
        (fun _ _ => True) table := by
  unfold startSearch checkDelete
  simp only [wp_bind, wp_get]
  rw [wp_ite]
  refine ⟨fun _ => trivial, fun _ => ?_⟩
  rw [wp_ite]
  refine ⟨fun _ => trivial, fun _ => ?_⟩
  simp only [wp_pure]
  rw [wp_ite]
  refine ⟨fun counts => ⟨rfl, .inl ⟨counts, rfl⟩⟩, fun searches => ?_⟩
  rw [wp_ite]
  refine ⟨fun _ => trivial, fun _ => ?_⟩
  rw [wp_ite]
  refine ⟨fun empty => ?_, fun _ => ?_⟩
  · have none : request.countsOnly = false := by simpa using searches
    split
    · simp only [wp_bind, wp_set, wp_pure]
      exact ⟨rfl, .inr ⟨none, empty, rfl⟩⟩
    · exact ⟨rfl, .inr ⟨none, empty, rfl⟩⟩
  · split
    next => exact trivial
    next plan planned =>
      simp only [wp_bind, wp_set, wp_pure]
      refine ⟨rfl, ?_, plan, planned, rfl⟩
      refine SearchFrame.good_walking rfl ?_ rfl (fun same => by cases same) fun _ limited _ => ?_
      · exact {
          offsetLimit := rfl
          count := rfl
          rows := fun _ => rfl
          deferred := fun _ => rfl
          acted := fun _ => List.drop_nil.symm
          transacted := rfl
          unsorted := SearchRequest.unsorted_of_provisional
          room := fun _ _ => Nat.zero_le _
          cut := fun same => by cases same }
      · exact Nat.add_pos_right _ (Nat.pos_of_ne_zero limited)

-----------------------------------------------------------------------------------------
-- Whole searches
-----------------------------------------------------------------------------------------

/-- The states a search comes to, and whether its code body is running. The table may be any
other one at each step, as far as this is about, and the code bodies let the search go on.
-/
inductive SearchRequest.Reaches (request : SearchRequest creator) (host : Host)
    (start : CTable creator) : SearchFrame creator → Bool → Prop where
  | start {frame after} (starts : startSearch host request start = .ok (.next frame) after)
      : Reaches request host start frame false
  | next {before frame table after} (reached : Reaches request host start before false)
      (advances : before.advance host table = .ok (.next frame) after)
      : Reaches request host start frame false
  | body {before frame table after} (reached : Reaches request host start before false)
      (advances : before.advance host table = .ok (.body frame) after)
      : Reaches request host start frame true
  | resume {before frame status table after} (reached : Reaches request host start before true)
      (goesOn : status.goesOn) (resumes : before.resume status table = .ok (.next frame) after)
      : Reaches request host start frame false

/-- The ends of a search with a count and the matching rows that it was about: those that it
met, followed by any that it would have met if its limit had not cut the walk short. For
the row count in place of a search these are the rows of the table.
-/
inductive SearchRequest.Ends (request : SearchRequest creator) (host : Host)
    (start : CTable creator) : List RowId → SearchRecord → Nat → Prop where
  | early {rows returned count record after}
      (starts : startSearch host request start
        = .ok (.finished (.done returned count) record) after)
      (counted : (rows.length : Int) = start.count)
      : Ends request host start rows record count
  | advance {rows frame table returned count record after}
      (reached : request.Reaches host start frame false)
      (advances : frame.advance host table
        = .ok (.finished (.done returned count) record) after)
      (met : record.matched <+: rows) (all : record.cut = false → rows = record.matched)
      : Ends request host start rows record count
  | resume {rows frame status table returned count record after}
      (reached : request.Reaches host start frame true) (goesOn : status.goesOn)
      (resumes : frame.resume status table
        = .ok (.finished (.done returned count) record) after)
      (met : record.matched <+: rows) (all : record.cut = false → rows = record.matched)
      : Ends request host start rows record count

/-- The buffering a search on a table gets. -/
def SearchRequest.BufferedAs (request : SearchRequest creator) (host : Host)
    (start : CTable creator) (buffering : Buffering) : Prop :=
  ∃ plan, request.plan host start start.searches = .ok plan
    ∧ request.buffering (request.remainingSort plan) = buffering

/-- Every state of a search is a good one, by induction on the steps. -/
theorem SearchRequest.Reaches.good {request : SearchRequest creator} {host : Host}
    {start : CTable creator} {frame : SearchFrame creator} {waiting : Bool}
    (reached : request.Reaches host start frame waiting)
    : frame.request = request ∧ frame.Good waiting
      ∧ request.BufferedAs host start frame.buffering := by
  induction reached with
  | start starts =>
      obtain ⟨same, good, plan, planned, buffering⟩ :=
        wp_returns (startSearch_starts host request start) starts
      exact ⟨same, good, plan, planned, buffering.symm⟩
  | next _ advances ih =>
      obtain ⟨rfl, good, buffered⟩ := ih
      have step := wp_returns (SearchFrame.advance_good good _) advances
      exact ⟨step.1, step.2.2, by rw [step.2.1]; exact buffered⟩
  | body _ advances ih =>
      obtain ⟨rfl, good, buffered⟩ := ih
      have step := wp_returns (SearchFrame.advance_good good _) advances
      exact ⟨step.1, step.2.2, by rw [step.2.1]; exact buffered⟩
  | resume _ goesOn resumes ih =>
      obtain ⟨rfl, good, buffered⟩ := ih
      have step := wp_returns (SearchFrame.resume_good goesOn good _) resumes
      exact ⟨step.1, step.2.2, by rw [step.2.1]; exact buffered⟩

-----------------------------------------------------------------------------------------
-- Window and slice
-----------------------------------------------------------------------------------------

section
variable {request : SearchRequest creator} {rows matched : List RowId}

theorem SearchRequest.length_window
    : (request.window rows).length
      = if request.limit = 0 then rows.length - request.offset
        else min request.limit (rows.length - request.offset) := by
  unfold SearchRequest.window
  split
  · exact List.length_drop
  · rw [List.length_take, List.length_drop]

theorem SearchRequest.window_nil (few : rows.length ≤ request.offset)
    : request.window rows = [] := by
  rw [SearchRequest.window, List.drop_eq_nil_of_le few]
  split <;> simp

/-- The window ends with the rows that offset and limit ask for. -/
theorem SearchRequest.window_prefix (met : matched <+: rows) (limited : request.limit ≠ 0)
    (full : matched.length = request.offset + request.limit)
    : request.window rows = request.window matched := by
  obtain ⟨rest, rfl⟩ := met
  rw [SearchRequest.window, SearchRequest.window, if_neg limited, if_neg limited,
    List.drop_append_of_le_length (by omega), List.take_append_of_le_length]
  rw [List.length_drop]
  omega

/-- A walk that stops at the limit has met no row behind the window. -/
theorem SearchRequest.window_drop
    (room : request.limit ≠ 0 → rows.length ≤ request.offset + request.limit)
    : request.window rows = rows.drop request.offset := by
  unfold SearchRequest.window
  split
  · rfl
  · rename_i limited
    refine List.take_of_length_le ?_
    rw [List.length_drop]
    have := room limited
    omega

/-- The slice of a buffered search is the window, except for an offset without a limit. -/
theorem SearchRequest.slice_eq_window
    (fits : request.limit ≠ 0 ∨ request.offset = 0 ∨ rows.length ≤ request.offset)
    : request.slice rows = request.window rows := by
  rw [SearchRequest.slice, List.drop_take]
  unfold SearchRequest.lastRow SearchRequest.window
  by_cases unlimited : request.limit = 0
  · rw [if_pos unlimited]
    refine List.take_of_length_le ?_
    rw [List.length_drop]
    split <;> omega
  · rw [if_neg unlimited]
    split
    · rw [List.take_of_length_le, List.take_of_length_le]
      · rw [List.length_drop]
        omega
      · rw [List.length_drop]
    · congr 1
      omega

theorem SearchRequest.length_slice (enough : request.offset ≤ rows.length)
    : (request.slice rows).length = request.lastRow rows.length - request.offset := by
  rw [SearchRequest.slice, List.length_drop, List.length_take]
  unfold SearchRequest.lastRow
  split <;> omega

/-- An unbuffered search has no transaction. -/
theorem SearchRequest.no_transaction {sort : List (creator.Field × Bool)}
    (unbuffered : request.buffering sort = .none)
    : request.transaction = .none := by
  by_contra transacts
  unfold SearchRequest.buffering at unbuffered
  extract_lets buffered at unbuffered
  by_cases none : buffered = .none
  · rw [if_pos ⟨none, transacts⟩] at unbuffered
    cases unbuffered
  · rw [if_neg fun both => none both.1] at unbuffered
    exact none unbuffered

/-- A search that only counts is not buffered. -/
theorem SearchRequest.unbuffered_of_none {sort : List (creator.Field × Bool)}
    (action : request.action = .none)
    : request.buffering sort = .none := by
  have transaction : request.transaction = .none := by
    by_contra transacts
    exact request.transaction_acts transacts action
  simp [SearchRequest.buffering, action, transaction]

/-- When a search meets the window: not for an offset without a limit over buffered rows. -/
def SearchRequest.WindowFits (request : SearchRequest creator) (host : Host)
    (start : CTable creator) (rows : List RowId) : Prop :=
  request.limit ≠ 0 ∨ request.offset = 0 ∨ rows.length ≤ request.offset
    ∨ request.action = .none ∨ request.BufferedAs host start .none

/-- What a search of the matched rows has done is right exactly when the window fits. -/
theorem SearchRequest.Outcome.windowed_iff {host : Host} {start : CTable creator}
    {buffering : Buffering} {record : SearchRecord} {count : Nat}
    (outcome : request.Outcome buffering record count)
    (buffered : request.BufferedAs host start buffering)
    : request.Windowed record.matched record count
      ↔ request.WindowFits host start record.matched := by
  obtain ⟨plan, planned, mode⟩ := buffered
  cases outcome with
  | direct unbuffered acted room =>
      subst unbuffered
      have window := SearchRequest.window_drop room
      refine iff_of_true ⟨?_, fun _ => ?_, fun transacts => ?_⟩
        (.inr (.inr (.inr (.inr ⟨plan, planned, mode⟩))))
      · rw [window, List.length_drop]
      · rw [window, acted]
      · exact absurd (SearchRequest.no_transaction mode) transacts
  | short few acted transacted =>
      have window := SearchRequest.window_nil few
      refine iff_of_true ⟨?_, fun _ => ?_, fun _ => ?_⟩ (.inr (.inr (.inl few)))
      · rw [window]
        rfl
      · rw [window, acted]
      · rw [window, transacted]
  | buffered present enough acted provisional transacted =>
      by_cases fits : request.limit ≠ 0 ∨ request.offset = 0
          ∨ record.matched.length ≤ request.offset
      · have window := SearchRequest.slice_eq_window fits
        refine iff_of_true ⟨?_, fun acts => ?_, fun _ => ?_⟩ ?_
        · rw [← window, SearchRequest.length_slice enough]
        · rw [← window]
          cases buffering with
          | none => exact absurd rfl present
          | deferred => exact acted acts rfl
          | provisional =>
              obtain ⟨dropped, room⟩ := provisional rfl
              rw [window, SearchRequest.window_drop room, dropped]
        · rw [← window, transacted]
        · rcases fits with limited | first | few
          · exact .inl limited
          · exact .inr (.inl first)
          · exact .inr (.inr (.inl few))
      · simp only [not_or, not_not, not_le] at fits
        obtain ⟨unlimited, offset, many⟩ := fits
        refine iff_of_false (fun windowed => ?_) ?_
        · have count := windowed.1
          rw [SearchRequest.length_window, if_pos unlimited, SearchRequest.lastRow] at count
          split at count <;> omega
        · rintro (limited | first | few | counts | ⟨other, replanned, unbuffered⟩)
          · exact limited unlimited
          · exact offset first
          · omega
          · exact present (mode.symm.trans (SearchRequest.unbuffered_of_none counts))
          · rw [planned] at replanned
            cases replanned
            exact present (mode.symm.trans unbuffered)

end

/-- In every mode a search acts on the window of its matching rows and returns its size,
except for an offset without a limit over more rows than that when the rows are buffered.
-/
theorem searchWindow_iff {request : SearchRequest creator} {host : Host}
    {start : CTable creator} {rows : List RowId} {record : SearchRecord} {count : Nat}
    (ends : request.Ends host start rows record count)
    : request.Windowed rows record count ↔ request.WindowFits host start rows := by
  have whole : ∀ buffering, request.BufferedAs host start buffering →
      request.Outcome buffering record count → request.CutLate record →
      record.matched <+: rows → (record.cut = false → rows = record.matched) →
      (request.Windowed rows record count ↔ request.WindowFits host start rows) := by
    intro buffering buffered outcome cutLate met all
    cases cut : record.cut with
    | false =>
        rw [all cut]
        exact outcome.windowed_iff buffered
    | true =>
        obtain ⟨limited, full⟩ := cutLate cut
        have same := SearchRequest.window_prefix met limited full
        have windowed := (outcome.windowed_iff buffered).mpr (.inl limited)
        unfold SearchRequest.Windowed at windowed ⊢
        rw [same]
        exact iff_of_true windowed (.inl limited)
  cases ends with
  | early starts counted =>
      obtain ⟨rfl, ⟨counts, count⟩ | ⟨-, empty, rfl⟩⟩ :=
        wp_returns (startSearch_starts host request start) starts
      · have action : request.action = .none := by
          unfold SearchRequest.countsOnly at counts
          simp only [Bool.and_eq_true, decide_eq_true_eq] at counts
          exact counts.1.1.1
        have length : start.count.toNat = rows.length := by omega
        refine iff_of_true ⟨?_, fun acts => ?_, fun transacts => ?_⟩
          (.inr (.inr (.inr (.inl action))))
        · rw [count, SearchRequest.quickCount, SearchRequest.length_window, length, min_comm]
        · rcases acts with acts | acts <;> simp [action] at acts
        · exact absurd action (request.transaction_acts transacts)
      · have none : rows = [] := List.eq_nil_of_length_eq_zero (by omega)
        have few : rows.length ≤ request.offset := by simp [none]
        have window := SearchRequest.window_nil few
        exact iff_of_true
          ⟨by rw [window]; rfl, fun _ => window.symm, fun _ => window.symm⟩
          (.inr (.inr (.inl few)))
  | advance reached advances met all =>
      obtain ⟨rfl, good, buffered⟩ := reached.good
      have step := wp_returns (SearchFrame.advance_good good _) advances
      exact whole _ buffered step.1 step.2 met all
  | resume reached goesOn resumes met all =>
      obtain ⟨rfl, good, buffered⟩ := reached.good
      have step := wp_returns (SearchFrame.resume_good goesOn good _) resumes
      exact whole _ buffered step.1 step.2 met all

-----------------------------------------------------------------------------------------
-- Running a search
-----------------------------------------------------------------------------------------

/-- Run a search to its end, with a code body that does nothing. -/
def SearchFrame.runOut (host : Host)
    : Nat → Bool → SearchFrame creator → CTable creator → Option (SearchRecord × Nat)
  | 0, _, _, _ => none
  | fuel + 1, waiting, frame, table =>
      match (if waiting then frame.resume .ok else frame.advance host) table with
      | .ok (.next next) after => runOut host fuel false next after
      | .ok (.body next) after => if waiting then none else runOut host fuel true next after
      | .ok (.finished (.done _ count) record) _ => some (record, count)
      | _ => none

/-- Run a search that walks the table. -/
def SearchRequest.runOut (request : SearchRequest creator) (host : Host) (fuel : Nat)
    (start : CTable creator) : Option (SearchRecord × Nat) :=
  match startSearch host request start with
  | .ok (.next frame) after => frame.runOut host fuel false after
  | _ => none

theorem SearchFrame.runOut_ends {request : SearchRequest creator} {host : Host}
    {start : CTable creator} {record : SearchRecord} {count : Nat} {fuel : Nat}
    : ∀ {waiting : Bool} {frame : SearchFrame creator} {table : CTable creator},
      request.Reaches host start frame waiting →
      frame.runOut host fuel waiting table = some (record, count) →
      request.Ends host start record.matched record count := by
  induction fuel with
  | zero =>
      intro waiting frame table reached run
      cases run
  | succ fuel ih =>
      intro waiting frame table reached run
      unfold SearchFrame.runOut at run
      cases waiting with
      | false =>
          simp only [Bool.false_eq_true, ↓reduceIte] at run
          split at run
          next next after advances => exact ih (.next reached advances) run
          next next after advances => exact ih (.body reached advances) run
          next returned final final' after advances =>
            cases run
            exact .advance reached advances List.prefix_rfl fun _ => rfl
          next => cases run
      | true =>
          have goesOn : Status.goesOn .ok := trivial
          simp only [↓reduceIte] at run
          split at run
          next next after resumes => exact ih (.resume reached goesOn resumes) run
          next => cases run
          next returned final final' after resumes =>
            cases run
            exact .resume reached goesOn resumes List.prefix_rfl fun _ => rfl
          next => cases run

theorem SearchRequest.runOut_ends {request : SearchRequest creator} {host : Host}
    {start : CTable creator} {record : SearchRecord} {count fuel : Nat}
    (run : request.runOut host fuel start = some (record, count))
    : request.Ends host start record.matched record count := by
  unfold SearchRequest.runOut at run
  split at run
  next starts => exact SearchFrame.runOut_ends (.start starts) run
  next => cases run

/-- A table of two rows. -/
def twoRows : CTable sampleCreator :=
  sampleTable [setCommand sampleHost [[97], [110], [49]], setCommand sampleHost [[98], [110], [50]]]

/-- A search that deletes what an offset and a limit select of all rows. -/
def deleteAll (offset limit : Nat) : SearchRequest sampleCreator where
  components := []
  filters := []
  glob := none
  sort := []
  offset := offset
  limit := limit
  action := .transactionOnly
  transaction := .delete
  buffer := none
  index := .any
  transaction_acts := by decide
  cursor_iff := by simp

/-- An offset of 1 with a limit of 1 deletes the second of two rows. -/
theorem searchWindow_limit
    : (deleteAll 1 1).Windowed [1, 0]
        { visited := [1, 0], matched := [1, 0], acted := [0], transacted := [0], cut := true }
        1 := by
  have run : (deleteAll 1 1).runOut sampleHost 10 twoRows
      = some ({ visited := [1, 0], matched := [1, 0], acted := [0], transacted := [0],
                cut := true }, 1) := by
    decide +kernel
  exact (searchWindow_iff (SearchRequest.runOut_ends run)).mpr (.inl (by decide))

/-- An offset of 1 without a limit deletes no row at all. -/
theorem searchWindow_offset
    : ¬ ∀ (creator : CreatorTable) (request : SearchRequest creator) (host : Host)
        (start : CTable creator) (rows : List RowId) (record : SearchRecord) (count : Nat),
        request.Ends host start rows record count → request.Windowed rows record count := by
  intro claim
  have run : (deleteAll 1 0).runOut sampleHost 10 twoRows
      = some ({ visited := [1, 0], matched := [1, 0], acted := [0], transacted := [],
                cut := false }, 0) := by
    decide +kernel
  have windowed := claim _ _ _ _ _ _ _ (SearchRequest.runOut_ends run)
  exact absurd windowed.1 (by decide)

end SpeedTables
