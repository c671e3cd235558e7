import SpeedTables.Search.Window
import SpeedTables.Table.Outcomes
import SpeedTables.Table.Sample

/-! The buffer of a search: its entries are allocated once, and a walk fills them while polled code
and other processes change the table.
-/

namespace SpeedTables

open Lib

variable {creator : CreatorTable}

-----------------------------------------------------------------------------------------
-- Walks that other code interferes with
-----------------------------------------------------------------------------------------

/-- One visit of the walk. `poll` is what becomes of the table between the walk's step and the row
tests, while code is polled.
-/
def SearchFrame.walkPolled (frame : SearchFrame creator) (host : Host) (pos : WalkPos)
    (poll : CTable creator → CTable creator) : TableM creator (FrameStep creator) := do
  match ← walkStep frame.plan pos with
  | .complete => frame.completeWalk false
  | .endless => pure (.finished (.error .infiniteSearchLoop) frame.record)
  | .visit id pos => do
      modify poll
      let row ← inspect (CTable.row · id)
      let frame :=
        { frame with
          phase := .walking pos
          record := { frame.record with visited := frame.record.visited ++ [id] } }
      match frame.request.testRow host frame.plan.alreadySearched row with
      | .error stop => throw stop
      | .ok .ok => frame.matchRow id
      | .ok status => frame.afterStatus status

/-- The row that a visit writes into `tranTable`, at the index `matchCount`. -/
def SearchFrame.bufferedRow (frame : SearchFrame creator) (host : Host) (pos : WalkPos)
    (poll : CTable creator → CTable creator) (table : CTable creator) : Option RowId :=
  match walkStep frame.plan pos table with
  | .ok (.visit id _) stepped =>
      match (poll stepped).row id with
      | .ok row =>
          match frame.request.testRow host frame.plan.alreadySearched row with
          | .ok .ok => if frame.buffering = .none then none else some id
          | _ => none
      | .error _ => none
  | _ => none

/-- A search at the start of its walk, with an entry allocated for each of the rows counted. -/
structure SearchFrame.Starting (frame : SearchFrame creator) (counted : List RowId) : Prop where
  capacity : frame.capacity = counted.length
  matchCount : frame.matchCount = 0
  tranTable : frame.tranTable = []

/-- A walk, whose writes all meet a condition. Before each visit and before a code body returns the
table may have become any other.
-/
inductive BufferedWalk (host : Host) (condition : SearchFrame creator → RowId → Prop)
    (first : SearchFrame creator) : SearchFrame creator → Prop
  | start : BufferedWalk host condition first first
  | visit {frame next : SearchFrame creator} {pos : WalkPos} {poll : CTable creator → CTable creator}
      {table after : CTable creator} (before : BufferedWalk host condition first frame)
      (walking : frame.phase = .walking pos)
      (met : ∀ id, frame.bufferedRow host pos poll table = some id → condition frame id)
      (visited : frame.walkPolled host pos poll table = .ok (.next next) after)
      : BufferedWalk host condition first next
  | body {frame waiting next : SearchFrame creator} {pos : WalkPos}
      {poll : CTable creator → CTable creator} {table after : CTable creator} {status : Status}
      {table' after' : CTable creator} (before : BufferedWalk host condition first frame)
      (walking : frame.phase = .walking pos)
      (met : ∀ id, frame.bufferedRow host pos poll table = some id → condition frame id)
      (visited : frame.walkPolled host pos poll table = .ok (.body waiting) after)
      (resumed : waiting.resume status table' = .ok (.next next) after')
      : BufferedWalk host condition first next

/-- A row that is written was counted when the search began, and has not been written before. -/
def NewAndCounted (counted : List RowId) (frame : SearchFrame creator) (id : RowId) : Prop :=
  id ∈ counted ∧ id ∉ frame.tranTable

-----------------------------------------------------------------------------------------
-- The buffer is large enough
-----------------------------------------------------------------------------------------

/-- The rows written so far are among those counted, each once. -/
structure SearchFrame.Fits (frame : SearchFrame creator) (counted : List RowId) : Prop where
  capacity : frame.capacity = counted.length
  filled : frame.buffering ≠ .none → frame.matchCount = frame.tranTable.length
  distinct : frame.tranTable.Nodup
  inside : frame.tranTable ⊆ counted

/-- What holds of a search as long as it walks. -/
def SearchFrame.WalkFits (frame : SearchFrame creator) (counted : List RowId) : Prop :=
  ∀ pos, frame.phase = .walking pos → frame.Fits counted

theorem SearchFrame.Fits.congr {frame other : SearchFrame creator} {counted : List RowId}
    (fits : frame.Fits counted) (capacity : other.capacity = frame.capacity)
    (buffering : other.buffering = frame.buffering) (matchCount : other.matchCount = frame.matchCount)
    (tranTable : other.tranTable = frame.tranTable)
    : other.Fits counted where
  capacity := capacity.trans fits.capacity
  filled := by
    rw [buffering, matchCount, tranTable]
    exact fits.filled
  distinct := tranTable ▸ fits.distinct
  inside := tranTable ▸ fits.inside

/-- What a step leaves. -/
def FrameStep.WalkFits (counted : List RowId) : FrameStep creator → Prop
  | .next frame => frame.WalkFits counted
  | .body frame => frame.WalkFits counted
  | .finished _ _ => True

/-- The effect of a step on the buffer, whatever it does to the table. -/
abbrev LeavesFitting (counted : List RowId) (action : TableM creator (FrameStep creator)) : Prop :=
  ∀ table, wp action (fun step _ => step.WalkFits counted) (fun _ _ => True) table

/-- A search that has left its walk writes no more. -/
theorem SearchFrame.completeWalk_fits (frame : SearchFrame creator) (returned : Bool)
    (counted : List RowId)
    : LeavesFitting counted (frame.completeWalk returned) := by
  intro table
  unfold SearchFrame.completeWalk leaveIndex
  simp only [wp_bind, wp_modify]
  rw [wp_ite]
  refine ⟨fun _ => trivial, fun _ => ?_⟩
  rw [wp_ite]
  refine ⟨fun _ => trivial, fun _ => ?_⟩
  simp only [wp_bind, wp_get]
  split
  next =>
    simp only [wp_bind, wp_set, wp_pure]
    exact trivial
  next =>
    rw [wp_ite]
    exact ⟨fun _ _ same => (by cases same), fun _ _ same => by cases same⟩

theorem SearchFrame.WalkFits.afterMatch {frame : SearchFrame creator} {counted : List RowId}
    (fits : frame.WalkFits counted)
    : LeavesFitting counted frame.afterMatch := by
  intro table
  unfold SearchFrame.afterMatch
  rw [wp_ite]
  exact ⟨fun _ => SearchFrame.completeWalk_fits _ false counted table, fun _ => fits⟩

theorem SearchFrame.WalkFits.afterStatus {frame : SearchFrame creator} {counted : List RowId}
    (fits : frame.WalkFits counted) (status : Status)
    : LeavesFitting counted (frame.afterStatus status) := by
  intro table
  cases status with
  | ok => exact fits
  | «continue» => exact fits
  | «break» => exact SearchFrame.completeWalk_fits frame false counted table
  | «return» => exact SearchFrame.completeWalk_fits frame true counted table
  | error error => exact trivial

theorem SearchFrame.WalkFits.resume {frame : SearchFrame creator} {counted : List RowId}
    (fits : frame.WalkFits counted) (status : Status)
    : LeavesFitting counted (frame.resume status) := by
  intro table
  unfold SearchFrame.resume
  split
  next => exact fits.afterMatch table
  next => exact fits.afterMatch table
  next => exact fits.afterStatus _ table
  next => exact fits
  next => exact fits
  next => exact fun _ => nofun
  next => exact fun _ => nofun
  next => exact trivial
  next => exact fun _ => nofun

/-- A row that is written, new and counted, is one more of the rows that fit. -/
theorem SearchFrame.Fits.matchRow {frame : SearchFrame creator} {counted : List RowId}
    (fits : frame.Fits counted) {id : RowId}
    (isNew : frame.buffering ≠ .none → NewAndCounted counted frame id)
    : LeavesFitting counted (frame.matchRow id) := by
  intro table
  have next (record : SearchRecord)
      : SearchFrame.Fits
          { frame with
            matchCount := frame.matchCount + 1
            tranTable := if frame.buffering = .none then frame.tranTable else frame.tranTable ++ [id]
            record := record } counted := by
    rcases Decidable.em (frame.buffering = .none) with none | buffered
    · rw [if_pos none]
      exact ⟨fits.capacity, fun other => absurd none other, fits.distinct, fits.inside⟩
    · rw [if_neg buffered]
      obtain ⟨listed, fresh⟩ := isNew buffered
      refine ⟨fits.capacity, fun _ => ?_, ?_, ?_⟩
      · dsimp only
        rw [fits.filled buffered, List.length_append, List.length_singleton]
      · refine List.nodup_append.mpr ⟨fits.distinct, List.nodup_singleton id, ?_⟩
        intro other member same inSame equal
        rw [List.mem_singleton.mp inSame] at equal
        exact fresh (equal ▸ member)
      · exact List.append_subset.mpr ⟨fits.inside, List.cons_subset.mpr ⟨listed, List.nil_subset _⟩⟩
  unfold SearchFrame.matchRow
  dsimp only
  rw [wp_ite]
  refine ⟨fun _ => trivial, fun _ => ?_⟩
  rw [wp_ite]
  refine ⟨fun _ _ _ => next _, fun _ => ?_⟩
  rw [wp_ite]
  refine ⟨fun _ _ _ => next _, fun _ => ?_⟩
  exact SearchFrame.WalkFits.afterMatch (fun _ _ => next _) table

/-- One visit keeps what fits. -/
theorem SearchFrame.Fits.walkPolled {frame : SearchFrame creator} {counted : List RowId}
    (fits : frame.Fits counted) (host : Host) (pos : WalkPos)
    (poll : CTable creator → CTable creator) (table : CTable creator)
    (met : ∀ id, frame.bufferedRow host pos poll table = some id → NewAndCounted counted frame id)
    : wp (frame.walkPolled host pos poll) (fun step _ => step.WalkFits counted) (fun _ _ => True)
        table := by
  unfold SearchFrame.walkPolled
  rw [wp_bind]
  refine wp_of_results (fun result stepped walked => ?_) (fun _ _ _ => trivial)
  cases result with
  | complete => exact SearchFrame.completeWalk_fits frame false counted stepped
  | endless => exact trivial
  | visit id next =>
      dsimp only
      rw [wp_bind, wp_modify, wp_bind, wp_inspect]
      refine ⟨fun row found => ?_, fun _ _ => trivial⟩
      have moved (record : SearchRecord)
          : SearchFrame.Fits { frame with phase := .walking next, record := record } counted :=
        fits.congr rfl rfl rfl rfl
      split
      next => exact trivial
      next passes =>
        refine (moved _).matchRow (fun buffered => ?_) (poll stepped)
        refine met id ?_
        simp only [SearchFrame.bufferedRow, walked, found]
        dsimp only at passes buffered
        rw [passes]
        exact if_neg buffered
      next status _ passes => exact SearchFrame.WalkFits.afterStatus (fun _ _ => moved _) status _

/-- There is room for a row that is written. -/
theorem SearchFrame.Fits.room {frame : SearchFrame creator} {counted : List RowId}
    (fits : frame.Fits counted) (buffered : frame.buffering ≠ .none) {id : RowId}
    (isNew : NewAndCounted counted frame id)
    : (frame.matchCount : Int) < frame.capacity := by
  have distinct : (id :: frame.tranTable).Nodup := List.nodup_cons.mpr ⟨isNew.2, fits.distinct⟩
  have part : id :: frame.tranTable ⊆ counted := List.cons_subset.mpr ⟨isNew.1, fits.inside⟩
  have length := (List.subperm_of_subset distinct part).length_le
  rw [fits.capacity, fits.filled buffered]
  exact_mod_cast Nat.lt_of_succ_le length

theorem SearchFrame.Starting.fits {frame : SearchFrame creator} {counted : List RowId}
    (starting : frame.Starting counted)
    : frame.WalkFits counted := by
  intro pos walking
  refine ⟨starting.capacity, fun _ => ?_, ?_, ?_⟩
  · rw [starting.matchCount, starting.tranTable]
    rfl
  · rw [starting.tranTable]
    exact List.nodup_nil
  · rw [starting.tranTable]
    exact List.nil_subset counted

/-- Every walk whose writes meet the condition keeps what fits, by induction on the walk. -/
theorem BufferedWalk.fits {host : Host} {first frame : SearchFrame creator}
    {counted : List RowId} (starting : first.Starting counted)
    (walk : BufferedWalk host (NewAndCounted counted) first frame)
    : frame.WalkFits counted := by
  induction walk with
  | start => exact starting.fits
  | @visit frame next pos poll table after before walking met visited ih =>
      have step := (ih pos walking).walkPolled host pos poll table met
      have kept := wp_returns step visited
      exact kept
  | @body frame waiting next pos poll table after status table' after' before walking met visited
      resumed ih =>
      have step := (ih pos walking).walkPolled host pos poll table met
      have kept := wp_returns step visited
      have waits : waiting.WalkFits counted := kept
      have resumes := wp_returns (waits.resume status table') resumed
      exact resumes

/-- Every write of a search into its buffer is below the number of entries allocated, whatever happens
to the table during the walk, as long as each row written was counted when the search began and
is written once.
-/
theorem buffer_inBounds {host : Host} {first frame : SearchFrame creator} {counted : List RowId}
    {pos : WalkPos} {poll : CTable creator → CTable creator} {table : CTable creator} {id : RowId}
    (starting : first.Starting counted)
    (walk : BufferedWalk host (NewAndCounted counted) first frame)
    (walking : frame.phase = .walking pos)
    (written : frame.bufferedRow host pos poll table = some id)
    (isNew : NewAndCounted counted frame id)
    : (frame.matchCount : Int) < frame.capacity := by
  refine ((walk.fits starting) pos walking).room ?_ isNew
  intro none
  unfold SearchFrame.bufferedRow at written
  split at written
  next =>
    split at written
    next =>
      split at written
      next =>
        rw [if_pos none] at written
        cases written
      next => cases written
    next => cases written
  next => cases written

/-- A search begins with an entry for each row of the table. -/
theorem startSearch_starting {host : Host} {request : SearchRequest creator}
    {table after : CTable creator} {first : SearchFrame creator} {counted : List RowId}
    (starts : startSearch host request table = .ok (.next first) after)
    (all : table.count = counted.length)
    : first.Starting counted := by
  have spec
      : wp (startSearch host request)
          (fun step _ => ∀ frame, step = .next frame → frame.Starting counted) (fun _ _ => True)
          table := by
    unfold startSearch checkDelete
    simp only [wp_bind, wp_get]
    rw [wp_ite]
    refine ⟨fun _ => trivial, fun _ => ?_⟩
    rw [wp_ite]
    refine ⟨fun _ => trivial, fun _ => ?_⟩
    simp only [wp_pure]
    rw [wp_ite]
    refine ⟨fun _ frame same => ?_, fun _ => ?_⟩
    · cases same
    rw [wp_ite]
    refine ⟨fun _ => trivial, fun _ => ?_⟩
    rw [wp_ite]
    refine ⟨fun _ => ?_, fun _ => ?_⟩
    · split
      next =>
        simp only [wp_bind, wp_set, wp_pure]
        intro frame same
        cases same
      next =>
        intro frame same
        cases same
    · split
      next => exact trivial
      next =>
        simp only [wp_bind, wp_set, wp_pure]
        rintro frame ⟨⟩
        exact ⟨all, rfl, rfl⟩
  exact wp_returns spec starts first rfl

/-- A sorted search for the keys of a list. -/
def sortedIn (keys : List CString) : SearchRequest sampleCreator where
  components := [{ field := (0 : Fin 6), term := .inList keys }]
  filters := []
  glob := none
  sort := [((1 : Fin 6), false)]
  offset := 0
  limit := 0
  action := .writeTabsep
  transaction := .none
  buffer := none
  index := .any
  transaction_acts := by simp
  cursor_iff := by simp

/-- A table of one row. -/
def singleRow : CTable sampleCreator :=
  sampleTable [setCommand sampleHost [[97], [110], [49]]]

/-- The write of a search's first visit, when no code interferes: the row, the index, and the number
of entries allocated.
-/
def firstWrite (keys : List CString) : Option (RowId × Nat × Int) :=
  match startSearch sampleHost (sortedIn keys) singleRow with
  | .ok (.next first) table =>
      match first.phase with
      | .walking pos =>
          (first.bufferedRow sampleHost pos id table).map fun row =>
            (row, first.matchCount, first.capacity)
      | _ => none
  | _ => none

/-- The write of a search's second visit. -/
def secondWrite (keys : List CString) : Option (RowId × Nat × Int) :=
  match startSearch sampleHost (sortedIn keys) singleRow with
  | .ok (.next first) table =>
      match first.phase with
      | .walking pos =>
          match first.walkPolled sampleHost pos id table with
          | .ok (.next second) after =>
              match second.phase with
              | .walking pos =>
                  (second.bufferedRow sampleHost pos id after).map fun row =>
                    (row, second.matchCount, second.capacity)
              | _ => none
          | _ => none
      | _ => none
  | _ => none

/-- The one row of a table, written at the first of one entry. -/
theorem buffer_inBounds_first
    : ∃ (first : SearchFrame sampleCreator) (table : CTable sampleCreator) (pos : WalkPos),
        first.bufferedRow sampleHost pos id table = some 0
          ∧ (first.matchCount : Int) < first.capacity := by
  have run : firstWrite [[97]] = some (0, 0, 1) := by decide +kernel
  have counted : singleRow.count = ([0] : List RowId).length := by decide +kernel
  unfold firstWrite at run
  split at run
  next first table starts =>
    split at run
    next pos walking =>
      obtain ⟨row, written, same⟩ := Option.map_eq_some_iff.mp run
      have starting := startSearch_starting starts counted
      obtain rfl : row = 0 := (Prod.mk.inj same).1
      refine ⟨first, table, pos, written,
        buffer_inBounds starting .start walking written ⟨by simp, ?_⟩⟩
      rw [starting.tranTable]
      exact nofun
    next => cases run
  next => cases run

/-- A list with a key twice offers the one row of a table twice, and the second write is at index 1
of one entry.
-/
theorem buffer_keyTwice
    : ¬∀ (creator : CreatorTable) (host : Host) (request : SearchRequest creator)
        (table started now : CTable creator) (first frame : SearchFrame creator) (pos : WalkPos)
        (poll : CTable creator → CTable creator) (row : RowId),
        startSearch host request table = .ok (.next first) started
        → BufferedWalk host (fun _ _ => True) first frame
        → frame.phase = .walking pos
        → frame.bufferedRow host pos poll now = some row
        → (frame.matchCount : Int) < frame.capacity := by
  intro claim
  have run : secondWrite [[97], [97]] = some (0, 1, 1) := by decide +kernel
  unfold secondWrite at run
  split at run
  next first table starts =>
    split at run
    next pos walking =>
      split at run
      next second after visited =>
        split at run
        next next walkingNext =>
          obtain ⟨row, written, same⟩ := Option.map_eq_some_iff.mp run
          have walk : BufferedWalk sampleHost (fun _ _ => True) first second :=
            .visit .start walking (fun _ _ => trivial) visited
          have bound := claim _ _ _ _ _ _ _ _ _ _ _ starts walk walkingNext written
          obtain ⟨-, counts⟩ := Prod.mk.inj same
          obtain ⟨count, capacity⟩ := Prod.mk.inj counts
          rw [count, capacity] at bound
          exact absurd bound (by decide)
        next => cases run
      next => cases run
    next => cases run
  next => cases run

end SpeedTables
