import Mathlib

/-! Cached tables that `open_cached` brings up to date by a time column, from a file of an earlier
call.
-/

namespace SpeedTables.Stapi

variable {κ α : Type} [DecidableEq κ]

-----------------------------------------------------------------------------------------
-- The SQL table, the file and the calls
-----------------------------------------------------------------------------------------

/-- How time is measured: the ticks in a second, and the ticks between two values that the time
column can take.
-/
structure Clock where
  perSecond : Nat
  grain : Nat

/-- A row of the SQL table, with its time column in ticks. -/
structure SqlRow (α : Type) where
  value : α
  stamp : Nat
  deriving DecidableEq

/-- The rows of a TSV file, and its modification time in seconds. -/
structure TsvFile (κ α : Type) where
  rows : κ → Option α
  mtime : Nat

/-- Where the call of `open_cached` is that has the lock: it has read the file, run the query, or
loaded the rows that the query gave.
-/
inductive OpenCall (κ α : Type) where
  | none
  | opened (table : κ → Option α) (lastRead : Nat)
  | queried (table result : κ → Option α)
  | loaded (table : κ → Option α)

/-- A table that `open_cached` has returned, with the SQL rows as they were when its query ran. -/
structure OpenedTable (κ α : Type) where
  table : κ → Option α
  rows : κ → Option (SqlRow α)

/-- The SQL table, the TSV file, and the call under way. The last two fields are histories: the SQL
rows when the last query ran, and the tables returned.
-/
structure CacheState (κ α : Type) where
  now : Nat
  sql : κ → Option (SqlRow α)
  tsv : Option (TsvFile κ α)
  call : OpenCall κ α
  lastRows : κ → Option (SqlRow α)
  returned : List (OpenedTable κ α)

/-- No file, and an empty SQL table. -/
def CacheState.initial (now : Nat) : CacheState κ α where
  now := now
  sql _ := none
  tsv := none
  call := .none
  lastRows _ := none
  returned := []

/-- What happens next: time passes, a row is inserted or changed, or the call takes a step. -/
inductive CacheEvent (κ α : Type) where
  | pass (ticks : Nat)
  | change (key : κ) (value : α)
  | openFile
  | query
  | load
  | fail
  | save

/-- Whether a row meets the condition that `set_time_limit` puts into the SQL. -/
def timeLimit (clock : Clock) (lastRead : Nat) (row : SqlRow α) : Bool :=
  lastRead = 0 || lastRead * clock.perSecond < row.stamp

/-- One event. A step of the call that is not its next one leaves the state as it is. -/
def CacheState.step (clock : Clock) (state : CacheState κ α) : CacheEvent κ α → CacheState κ α
  | .pass ticks => { state with now := state.now + ticks }
  | .change key value =>
      let row := { value := value, stamp := state.now / clock.grain * clock.grain : SqlRow α }
      { state with sql := Function.update state.sql key (some row) }
  | .openFile =>
      match state.call, state.tsv with
      | .none, none => { state with call := .opened (fun _ => none) 0 }
      | .none, some file => { state with call := .opened file.rows file.mtime, tsv := none }
      | _, _ => state
  | .query =>
      match state.call with
      | .opened table lastRead =>
          let result := fun key =>
            ((state.sql key).filter (timeLimit clock lastRead)).map SqlRow.value
          { state with call := .queried table result, lastRows := state.sql }
      | _ => state
  | .load =>
      match state.call with
      | .queried table result =>
          { state with call := .loaded fun key => (result key).or (table key) }
      | _ => state
  | .fail => { state with call := .none }
  | .save =>
      match state.call with
      | .loaded table =>
          { state with
            call := .none
            tsv := some { rows := table, mtime := state.now / clock.perSecond }
            returned := { table := table, rows := state.lastRows } :: state.returned }
      | _ => state

/-- A run of events. -/
def CacheState.run (clock : Clock) (state : CacheState κ α) (events : List (CacheEvent κ α))
    : CacheState κ α :=
  events.foldl (CacheState.step clock) state

/-- A table holds the version of every row that was current when its query ran. -/
def OpenedTable.Fresh (opened : OpenedTable κ α) : Prop :=
  ∀ key, opened.table key = (opened.rows key).map SqlRow.value

/-- Every row that has changed since the query before carries a stamp later than the modification
time of the file that this call has read.
-/
def CacheState.Caught (clock : Clock) (state : CacheState κ α) : CacheEvent κ α → Prop
  | .query =>
      ∀ table lastRead, state.call = .opened table lastRead → lastRead ≠ 0
        → ∀ key row, state.sql key = some row → state.lastRows key ≠ some row
          → lastRead * clock.perSecond < row.stamp
  | _ => True

/-- Every event of a run meets the condition. -/
def CaughtRun (clock : Clock) : CacheState κ α → List (CacheEvent κ α) → Prop
  | _, [] => True
  | state, event :: events =>
      state.Caught clock event ∧ CaughtRun clock (state.step clock event) events

-----------------------------------------------------------------------------------------
-- Fresh tables
-----------------------------------------------------------------------------------------

/-- A table holds what the last query found. -/
def CacheState.Holds (state : CacheState κ α) (table : κ → Option α) : Prop :=
  ∀ key, table key = (state.lastRows key).map SqlRow.value

/-- What is known while a call is at one of its steps. -/
def OpenCall.Current (state : CacheState κ α) : OpenCall κ α → Prop
  | .none => True
  | .opened table lastRead => state.Holds table ∨ lastRead = 0 ∧ ∀ key, table key = Option.none
  | .queried table result => state.Holds fun key => (result key).or (table key)
  | .loaded table => state.Holds table

/-- No row is ever deleted, the file is there between calls only, it and the table of the call hold
what the last query found, and the tables returned are fresh.
-/
structure CacheState.Current (state : CacheState κ α) : Prop where
  kept : ∀ key, state.sql key = none → state.lastRows key = none
  deleted : state.call = .none ∨ state.tsv = none
  file : ∀ file, state.tsv = some file → state.Holds file.rows
  call : state.call.Current state
  returned : ∀ opened ∈ state.returned, opened.Fresh

omit [DecidableEq κ] in
theorem CacheState.Current.initial (now : Nat)
    : (CacheState.initial now : CacheState κ α).Current :=
  ⟨fun _ _ => rfl, .inl rfl, nofun, trivial, nofun⟩

omit [DecidableEq κ] in
/-- The rows that the query selects, over those of the file, are all rows of the SQL table. -/
theorem CacheState.Current.query {clock : Clock} {state : CacheState κ α}
    (current : state.Current) {table : κ → Option α} {lastRead : Nat}
    (called : state.call = .opened table lastRead) (caught : state.Caught clock .query) (key : κ)
    : (((state.sql key).filter (timeLimit clock lastRead)).map SqlRow.value).or (table key)
        = (state.sql key).map SqlRow.value := by
  have call := current.call
  rw [called] at call
  rcases sql : state.sql key with _ | row
  · -- there is no such row, and there was none when the file was written
    have before := current.kept key sql
    rcases call with holds | ⟨-, empty⟩
    · simpa [before] using holds key
    · simpa using empty key
  · rcases selected : timeLimit clock lastRead row with _ | _
    · have skipped : (some row).filter (timeLimit clock lastRead) = none := by
        simp [Option.filter, selected]
      simp only [timeLimit, Bool.or_eq_false_iff, decide_eq_false_iff_not] at selected
      have holds := call.resolve_right fun none => selected.1 none.1
      have same : state.lastRows key = some row := by
        by_contra changed
        exact selected.2 (caught table lastRead called selected.1 key row sql changed)
      rw [skipped, holds key, same]
      rfl
    · have taken : (some row).filter (timeLimit clock lastRead) = some row := by
        simp [Option.filter, selected]
      rw [taken]
      rfl

/-- One event keeps all of this. -/
theorem CacheState.Current.step {clock : Clock} {state : CacheState κ α} (current : state.Current)
    {event : CacheEvent κ α} (caught : state.Caught clock event)
    : (state.step clock event).Current := by
  cases event with
  | pass ticks =>
      exact ⟨current.kept, current.deleted, current.file, current.call, current.returned⟩
  | change key value =>
      refine ⟨?_, current.deleted, current.file, current.call, current.returned⟩
      intro other absent
      dsimp only [CacheState.step] at absent ⊢
      rcases Decidable.em (other = key) with rfl | distinct
      · simp at absent
      · rw [Function.update_of_ne distinct] at absent
        exact current.kept other absent
  | openFile =>
      dsimp only [CacheState.step]
      split
      next _ absent =>
        exact ⟨current.kept, .inr absent, current.file, .inr ⟨rfl, fun _ => rfl⟩, current.returned⟩
      next file _ found =>
        exact ⟨current.kept, .inr rfl, nofun, .inl (current.file file found), current.returned⟩
      next => exact current
  | query =>
      dsimp only [CacheState.step]
      split
      next table lastRead called =>
        have absent := current.deleted.resolve_left (by rw [called]; exact nofun)
        refine ⟨fun key none => none, .inr absent, ?_, ?_, current.returned⟩
        · intro file found
          rw [absent] at found
          cases found
        · exact fun key => current.query called caught key
      next => exact current
  | load =>
      have call := current.call
      dsimp only [CacheState.step]
      split
      next table result called =>
        have absent := current.deleted.resolve_left (by rw [called]; exact nofun)
        rw [called] at call
        exact ⟨current.kept, .inr absent, current.file, call, current.returned⟩
      next => exact current
  | fail => exact ⟨current.kept, .inl rfl, current.file, trivial, current.returned⟩
  | save =>
      have call := current.call
      dsimp only [CacheState.step]
      split
      next table called =>
        rw [called] at call
        refine ⟨current.kept, .inl rfl, ?_, trivial, ?_⟩
        · rintro file ⟨⟩
          exact call
        · intro opened member
          rcases List.mem_cons.mp member with rfl | member
          · exact call
          · exact current.returned opened member
      next => exact current

theorem CacheState.Current.run {clock : Clock} {events : List (CacheEvent κ α)}
    {state : CacheState κ α} (current : state.Current) (caught : CaughtRun clock state events)
    : (state.run clock events).Current := by
  induction events generalizing state with
  | nil => exact current
  | cons event events ih =>
      obtain ⟨first, rest⟩ := caught
      exact ih (current.step first) rest

end SpeedTables.Stapi
