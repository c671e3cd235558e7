import SpeedTables.Search.IndexRuns
import SpeedTables.Search.KeyRuns
import SpeedTables.Search.Components
import SpeedTables.Table.DirtyRows

/-! Histories of commands, searches, cursor writes and cleanings, and the rows that they leave dirty.
-/

namespace SpeedTables

open Lib

variable {creator : CreatorTable} {host : Host} {table : CTable creator}
  {since : RowId → Option (Row creator)}

-----------------------------------------------------------------------------------------
-- Flagged rows
-----------------------------------------------------------------------------------------

/-- The rows that have changed are dirty, in a table whose pointers lead to its rows. -/
def CTable.FlaggedRows (since : RowId → Option (Row creator)) (table : CTable creator) : Prop :=
  table.Leads ∧ table.Flagged since

/-- The same while a row of the table is written, which is not older if it is new. -/
def CTable.FlaggedDuring (since : RowId → Option (Row creator)) (ctl : IndexCtl) (id : RowId)
    (table : CTable creator) : Prop :=
  table.FlaggedRows since ∧ id ∈ table.llHead ∧ (ctl = .new → since id = none)

theorem CTable.Flagged.congr {before after : CTable creator} (flagged : before.Flagged since)
    (rows : after.rows = before.rows) (nextRow : after.nextRow = before.nextRow)
    : after.Flagged since :=
  flagged.fewer (Nat.le_of_eq nextRow.symm) (fun id => .inl (congrFun rows id))

/-- A row that is marked, or as it was, leaves the changed rows flagged. -/
theorem CTable.Flagged.marked {before after : CTable creator} {ctl : IndexCtl} {id : RowId}
    {row : Row creator} (flagged : before.Flagged since) (found : before.rows id = some row)
    (frame : before.RowFrame id after) (marked : after.MarkedOrSame ctl id row)
    (new : ctl = .new → since id = none)
    : after.Flagged since := by
  refine ⟨fun other old => frame.nextRow ▸ flagged.older other old, fun other now here => ?_⟩
  by_cases written : other = id
  · subst written
    obtain ⟨written, there, outcome⟩ := marked
    obtain rfl : written = now := Option.some.inj (there.symm.trans here)
    obtain dirty | ⟨clean, same, sameKey⟩ := outcome
    · exact .inl dirty
    · have unchanged := (flagged.changed other row found).resolve_left clean
      refine .inr ?_
      cases old : since other with
      | none =>
          rw [old] at unchanged
          exact fun field cell => (same field cell).trans (unchanged field cell)
      | some before =>
          rw [old] at unchanged
          have normal : ctl = .normal := by
            cases ctl with
            | normal => rfl
            | new => exact nomatch (new rfl).symm.trans old
          exact ⟨(sameKey normal).trans unchanged.1,
            fun field cell => (same field cell).trans (unchanged.2 field cell)⟩
  · exact flagged.changed other now (frame.rows other written ▸ here)

/-- A new row has the values of new rows. -/
theorem CTable.Flagged.withRow (flagged : table.Flagged since) (key : CString)
    (keyTable : HashTable) (allocations : Nat)
    : (table.withRow key keyTable allocations).Flagged since
      ∧ since table.nextRow = none := by
  have new : since table.nextRow = none := by
    cases old : since table.nextRow with
    | none => rfl
    | some row => exact absurd (flagged.older table.nextRow (by simp [old])) (Nat.lt_irrefl _)
  refine ⟨⟨fun id old => Nat.lt_succ_of_lt (flagged.older id old), fun id row found => ?_⟩, new⟩
  by_cases created : id = table.nextRow
  · subst created
    have isInit : row = { creator.init with key := some key } := by
      simpa [CTable.withRow, CTable.putRow, eq_comm] using found
    rw [new, isInit]
    exact .inr (fun _ _ => rfl)
  · refine flagged.changed id row ?_
    simpa [CTable.withRow, CTable.putRow, created] using found

/-- A setter call that flags its row keeps the changed rows flagged. -/
theorem Call.keeps_flagged {call : Call creator} (flags : call.Flags host)
    (here : call.table.FlaggedDuring since call.ctl call.id)
    : wp (call.run host) (fun _ => CTable.FlaggedDuring since call.ctl call.id)
        (stopped (CTable.FlaggedRows since) (fun _ => True)) call.table := by
  obtain ⟨⟨leads, flagged⟩, listed, new⟩ := here
  obtain ⟨row, found⟩ := Option.isSome_iff_exists.mp (leads.alive call.id listed)
  have led := (leadsInvariant host).write call trivial ⟨leads, listed⟩
  have framed := (writeSteps_rowFrame host call.id).write call.ctl call.write call.table
  refine wp_mono (wp_and (wp_and led framed) (Call.marks flags found listed)) ?_ ?_
  · intro _ after ⟨⟨⟨leads, listed⟩, frame⟩, marked⟩
    exact ⟨⟨leads, flagged.marked found frame marked new⟩, listed, new⟩
  · intro stop after ⟨⟨led, frame⟩, marked⟩
    cases stop with
    | fault fault => trivial
    | tcl error => exact ⟨led, flagged.marked found frame marked new⟩

/-- Deleting a row leaves the others flagged. -/
theorem discardRow_flagged {id : RowId} (here : table.FlaggedRows since)
    : wp (discardRow id) (fun _ => CTable.FlaggedRows since)
        (stopped (CTable.FlaggedRows since) (fun _ => True)) table := by
  obtain ⟨leads, flagged⟩ := here
  by_cases listed : id ∈ table.llHead
  · refine discardRow_spec (fun _ _ => trivial) ?_
    have same : wp (leaveIndexes id) (fun _ => table.SameKeys) (fun _ => table.SameKeys) table :=
      Respects.forM (fun field _ => respects_removeFromIndex_keys field id) table
    have led := (respects_leaveIndexes id).keeps (show table.LeadsTo id from ⟨leads, listed⟩)
    have faults : wp (leaveIndexes id) (fun _ _ => True)
        (stopped (fun _ => False) (fun _ => True)) table := by
      refine @wp_forM Stop (CTable creator) _ (fun field => removeFromIndex field id) _
        (fun _ => True) _ _ (fun field _ state _ => ?_) trivial
      rw [removeFromIndex, wp_bind, wp_inspect]
      exact ⟨fun _ _ => trivial, fun _ _ => trivial⟩
    refine wp_mono (wp_and (wp_and same led) faults) ?_ (fun _ _ both => both.2)
    rintro - left ⟨⟨same, leads, listed⟩, -⟩ keyTable deleted _ _
    refine ⟨leads.discarded listed deleted, flagged.fewer ?_ fun other => ?_⟩
    · exact Nat.le_of_eq same.nextRow.symm
    · by_cases gone : other = id
      · exact .inr (by simp [CTable.discarded, CTable.freeRow, gone])
      · exact .inl (by simp [CTable.discarded, CTable.freeRow, gone, same.rows])
  · rw [discardRow, wp_bind, deleteRow, wp_bind, removeFromAllIndexes, wp_bind, wp_get,
      if_neg listed]
    trivial

/-- What the commands owe to the flags of the changed rows. -/
theorem flaggedInvariant (host : Host) (since : RowId → Option (Row creator))
    : @TableInvariant creator host (CTable.FlaggedRows since) (CTable.FlaggedDuring since)
        (CTable.FlaggedRows since) (fun call => call.Flags host) (fun _ => True) where
  stops := fun _ here => here
  breaks := fun _ _ _ here => here.1
  others := fun _ _ => trivial
  counter := fun table number here =>
    ⟨(leadsInvariant host).counter table number here.1, here.2.congr rfl rfl⟩
  find := fun table key id here lookup => ⟨here, here.1.findHashEntry_listed lookup, nofun⟩
  create := by
    intro table key ⟨leads, flagged⟩
    refine wp_mono (findOrCreate_spec host key table) ?_ ?_
    · intro row after outcome
      obtain ⟨led, listed⟩ := outcome.leads leads
      cases outcome with
      | found lookup => exact ⟨⟨led, flagged.congr rfl rfl⟩, listed, nofun⟩
      | created lookup linked =>
          obtain ⟨kept, new⟩ := flagged.withRow key _ _
          exact ⟨⟨led, kept⟩, listed, fun _ => new⟩
    · intro stop after stops
      cases stop with
      | fault fault => trivial
      | tcl error =>
          obtain ⟨allocations, rfl⟩ := stops
          exact ⟨leads.allocated allocations, flagged.congr rfl rfl⟩
  write := fun call flags here => Call.keeps_flagged flags here
  dirty := by
    intro ctl id table ⟨⟨leads, flagged⟩, listed, new⟩
    obtain ⟨row, found⟩ := Option.isSome_iff_exists.mp (leads.alive id listed)
    have led := (leadsInvariant host).dirty ctl id table ⟨leads, listed⟩
    have framed := (writeSteps_rowFrame host id).setDirty table
    have marks : wp (setDirty id) (fun _ after => after.MarkedOrSame ctl id row)
        (fun _ _ => False) table :=
      wp_mono (setDirty_marks found) (fun _ _ marked => .marked marked) (fun _ _ stop => stop)
    refine wp_mono (wp_and (wp_and led framed) marks) ?_ (fun _ _ both => both.2.elim)
    intro _ after ⟨⟨⟨leads, listed⟩, frame⟩, marked⟩
    exact ⟨⟨leads, flagged.marked found frame marked new⟩, listed, new⟩
  finish := by
    intro ctl id table ⟨⟨leads, flagged⟩, listed, new⟩
    have led := (leadsInvariant host).finish ctl id table ⟨leads, listed⟩
    refine wp_mono (wp_and led (finishRow_keys ctl id table)) ?_ ?_
    · exact fun _ after ⟨leads, same⟩ => ⟨leads, flagged.congr same.rows same.nextRow⟩
    · intro stop after ⟨led, same⟩
      cases stop with
      | fault fault => trivial
      | tcl error => exact ⟨led, flagged.congr same.rows same.nextRow⟩
  leads := fun _ here => here.1
  move := fun table field skip part here chain within =>
    ⟨(leadsInvariant host).move table field skip part here.1 chain within,
      here.2.congr (table.setCurl_sameKeys field _).rows (table.setCurl_sameKeys field _).nextRow⟩
  aside := fun table searches cursors memoryTests here =>
    ⟨(leadsInvariant host).aside table searches cursors memoryTests here.1, here.2.congr rfl rfl⟩
  own := fun _ _ here listed => ⟨here, listed, nofun⟩
  discard := fun _ _ here => discardRow_flagged here
  reset := fun table after here emptied =>
    ⟨(leadsInvariant host).reset table after here.1 emptied,
      here.2.fewer (Nat.le_of_eq emptied.nextRow.symm) emptied.rows⟩
  drop := fun table field here =>
    ⟨here.1.dropIndex field, here.2.congr (table.dropIndex_dropped field).rows
      (table.dropIndex_dropped field).nextRow⟩
  build := by
    intro table field depth ⟨leads, flagged⟩ deep
    refine wp_mono (wp_and ((leadsInvariant host).build table field depth leads deep)
      (createIndex_keys field depth table)) ?_ ?_
    · exact fun _ after ⟨leads, same⟩ => ⟨leads, flagged.congr same.rows same.nextRow⟩
    · intro stop after ⟨led, same⟩
      cases stop with
      | fault fault => trivial
      | tcl error => exact ⟨led, flagged.congr same.rows same.nextRow⟩

-----------------------------------------------------------------------------------------
-- Cleaning and cursor writes
-----------------------------------------------------------------------------------------

theorem CreatorTable.cleanCell_type (creator : CreatorTable)
    : Cell .boolean = Cell (creator.type creator.dirtyField) :=
  congrArg Cell creator.dirtyField_boolean.symm

/-- The `_dirty` cell of a clean row. -/
def CreatorTable.cleanCell (creator : CreatorTable) : Cell (creator.type creator.dirtyField) :=
  cast creator.cleanCell_type { value := false, isNull := false }

/-- The generated `clean`: every row of the list loses its flag. -/
def cleanTable : TableM creator Unit := do
  let table ← get
  table.llHead.forM (fun id => putCell creator.dirtyField id creator.cleanCell)

/-- The option loop of a cursor's `set`: the last argument is no option, and none follows `--`. -/
def takeCursorOptions : Bool → List Obj → Except TclError (Bool × List Obj)
  | nocomplain, option :: obj :: rest =>
      if option.head? ≠ some 45 then .ok (nocomplain, option :: obj :: rest)
      else if option = [45, 45] then .ok (nocomplain, obj :: rest)
      else if option = nocomplainOption then takeCursorOptions true (obj :: rest)
      else .error (.unknownOption option)
  | nocomplain, arguments => .ok (nocomplain, arguments)

/-- `CURSOR_SET` on the row that the cursor stands at. -/
def cursorSet (host : Host) (id : RowId) (arguments : List Obj) : TableM creator Unit :=
  checkMemory host .freeMemoryLow (do
    let (nocomplain, arguments) ← orFail (takeCursorOptions false arguments)
    let elements ← orFail (evenKeyValueList host arguments)
    setPairs host .normal id nocomplain elements)

/-- The row at a position of a cursor, unless it is past the end. -/
def CTable.cursorRow (table : CTable creator) (name : CString) (position : Nat) : Option RowId :=
  (table.cursors.find? (fun cursor => cursor.name = name)).bind
    (fun cursor => cursor.tranTable[position]?)

/-- The calls of a cursor's `set`. -/
def cursorSetCalls (host : Host) (id : RowId) (arguments : List Obj) (table : CTable creator)
    : List (Call creator) :=
  match takeCursorOptions false arguments with
  | .error _ => []
  | .ok (nocomplain, rest) =>
      match evenKeyValueList host rest with
      | .error _ => []
      | .ok elements => setPairsCalls host .normal id nocomplain elements table

theorem CTable.memoryTested_llHead : table.memoryTested.llHead = table.llHead := by
  unfold CTable.memoryTested
  split <;> rfl

/-- A cursor's `set` on a row of the table keeps an invariant if its calls are safe. -/
theorem cursorSet_kept {holds failed : CTable creator → Prop}
    {during : IndexCtl → RowId → CTable creator → Prop} {safe : Call creator → Prop}
    {deep : Int → Prop} (invariant : TableInvariant host holds during failed safe deep)
    {id : RowId} {arguments : List Obj} (here : holds table)
    (listed : id ∈ table.llHead)
    (safely : ∀ call ∈ cursorSetCalls host id arguments table.memoryTested, safe call)
    : wp (cursorSet host id arguments) (fun _ => holds) (stopped failed (fun _ => True)) table := by
  have tested := invariant.toSearchInvariant.memoryTested here
  have low := invariant.stops _ tested
  have inTable : id ∈ table.memoryTested.llHead := CTable.memoryTested_llHead.symm ▸ listed
  refine wp_checkMemory low ?_
  rw [wp_bind]
  cases options : takeCursorOptions false arguments with
  | error error => exact low
  | ok parsed =>
      obtain ⟨nocomplain, rest⟩ := parsed
      simp only [cursorSetCalls, options] at safely
      simp only [orFail, wp_pure]
      rw [wp_bind]
      cases pairs : evenKeyValueList host rest with
      | error error => exact low
      | ok elements =>
          rw [pairs] at safely
          simp only [wp_pure]
          refine wp_mono (invariant.toUpkeep.makes (setPairs_makes ⟨rfl, rfl⟩ nocomplain elements)
            safely (invariant.own _ id tested inTable)) ?_ (fun _ _ stop => stop)
          exact fun _ written after => invariant.toUpkeep.release after

/-- Cleaning keeps the pointers of a table. -/
theorem cleanTable_leads (leads : table.Leads)
    : wp (refuseCursors "clean" cleanTable) (fun _ => CTable.Leads)
        (stopped (fun after => after = table) (fun _ => True)) table := by
  refine wp_refuseCursors rfl ?_
  rw [cleanTable, wp_bind, wp_get]
  have cleaned : wp (table.llHead.forM
        (fun id => putCell creator.dirtyField id creator.cleanCell))
      (fun _ after => after.Leads ∧ after.llHead = table.llHead) onlyFaults table := by
    refine wp_forM (fun id listed middle here => ?_) ⟨leads, rfl⟩
    obtain ⟨led, same⟩ := here
    obtain ⟨row, found⟩ := Option.isSome_iff_exists.mp (led.alive id (same ▸ listed))
    rw [putCell_spec found]
    exact ⟨led.putRow (same ▸ listed) _, same⟩
  exact wp_mono cleaned (fun _ _ after => after.1) onlyFaults_stopped

-----------------------------------------------------------------------------------------
-- Histories
-----------------------------------------------------------------------------------------

/-- An event of a script, a cleaning of the table, or a `set` of a cursor at some position. -/
inductive TableEvent (creator : CreatorTable) where
  | script (event : Event creator)
  | clean
  | cursorSet (name : CString) (position : Nat) (arguments : List Obj)

/-- A session with the rows that its table had after it was cleaned last, or made. -/
structure Tracked (creator : CreatorTable) where
  session : Session creator
  since : RowId → Option (Row creator)

def Tracked.new (creator : CreatorTable) (sharedMaster sharePanic : Bool) : Tracked creator where
  session := Session.new creator sharedMaster sharePanic
  since := fun _ => none

/-- The outcome of an action on a table where commands can run. -/
def Session.command (session : Session creator) (action : TableM creator Unit) : Outcome creator :=
  if session.scripted && !session.table.destroyed then
    afterCommand session.stack (action session.table)
  else .unavailable

/-- The session after an event, as long as the process and the table live. A cleaning that is not
refused is the last one from then on, and a cursor past its end refuses.
-/
def Tracked.step (host : Host) (tracked : Tracked creator)
    : TableEvent creator → Option (Tracked creator)
  | .script event =>
      match tracked.session.step host event with
      | .moved next _ =>
          if next.table.destroyed then none else some { tracked with session := next }
      | _ => none
  | .clean =>
      match tracked.session.command (refuseCursors "clean" cleanTable) with
      | .moved next none => some { session := next, since := next.table.rows }
      | .moved next (some _) => some { tracked with session := next }
      | _ => none
  | .cursorSet name position arguments =>
      match tracked.session.table.cursorRow name position with
      | none => some tracked
      | some id =>
          match tracked.session.command (SpeedTables.cursorSet host id arguments) with
          | .moved next _ => some { tracked with session := next }
          | _ => none

def Tracked.run (host : Host) (tracked : Tracked creator) (events : List (TableEvent creator))
    : Option (Tracked creator) :=
  events.foldlM (Tracked.step host) tracked

/-- Every event meets a condition in the session that it happens in. -/
def Tracked.Along (host : Host) (meets : Tracked creator → TableEvent creator → Prop)
    (tracked : Tracked creator) : List (TableEvent creator) → Prop
  | [] => True
  | event :: rest =>
      meets tracked event
      ∧ ∀ next, tracked.step host event = some next → next.Along host meets rest

/-- The setter calls of an event flag their rows, and it is in no code body of a search or a loop.
A cursor's `set` is on a row of the table.
-/
def Tracked.Flags (host : Host) (tracked : Tracked creator) : TableEvent creator → Prop
  | .script event =>
      tracked.session.Sequential event
      ∧ tracked.session.Safe host (fun call => call.Flags host) (fun _ => True) event
  | .clean => tracked.session.stack = []
  | .cursorSet name position arguments =>
      tracked.session.stack = []
      ∧ ∀ id, tracked.session.table.cursorRow name position = some id →
          id ∈ tracked.session.table.llHead
          ∧ ∀ call ∈ cursorSetCalls host id arguments tracked.session.table.memoryTested,
              call.Flags host

/-- A search for rows whose `_dirty` is true matches the row. -/
def Row.FoundDirty (host : Host) (row : Row creator) : Prop :=
  searchCompare host none row 0 [{ field := creator.dirtyField, term := .isTrue }] = .ok true

/-- A search for dirty rows matches every row that has changed since the last cleaning. -/
def Tracked.FindsChanged (host : Host) (tracked : Tracked creator) : Prop :=
  ∀ id row, tracked.session.table.rows id = some row →
    row.UnchangedSince (tracked.since id) ∨ row.FoundDirty host

theorem Row.Dirty.found {row : Row creator} (dirty : row.Dirty) : row.FoundDirty host := by
  have isTrue : ∀ {type : CtableType} (boolean : type = .boolean),
      (cast (congrArg Cell boolean.symm) { value := true, isNull := false }).isNull = false
      ∧ truth type (cast (congrArg Cell boolean.symm) { value := true, isNull := false }).value
          = some true := by
    rintro _ rfl
    exact ⟨rfl, rfl⟩
  obtain ⟨notNull, value⟩ := isTrue creator.dirtyField_boolean
  have cell : row.cells creator.dirtyField = creator.dirtyCell := dirty
  have matched : fieldTest host creator.dirtyField .isTrue row = .ok true := by
    rw [CreatorTable.dirtyCell] at cell
    simp [fieldTest, cell, notNull, value]
  simp [Row.FoundDirty, searchCompare, Component.test, matched, orStop]

theorem Session.command_stack {session next : Session creator} {error : Option TclError}
    {action : TableM creator Unit} (moved : session.command action = .moved next error)
    : next.stack = session.stack := by
  unfold Session.command afterCommand at moved
  split at moved
  · split at moved <;> cases moved <;> rfl
  · cases moved

/-- What an action leaves when nothing is in progress, with or without an error. -/
theorem Session.command_ends {session next : Session creator} {error : Option TclError}
    {action : TableM creator Unit} {ok err : CTable creator → Prop} (idle : session.stack = [])
    (moved : session.command action = .moved next error)
    (ends : (session.scripted && !session.table.destroyed) = true →
      wp action (fun _ => ok) (stopped err (fun _ => True)) session.table)
    : next = { table := next.table, stack := [] }
      ∧ (error = none ∧ ok next.table ∨ error ≠ none ∧ err next.table) := by
  unfold Session.command at moved
  split at moved
  · next available =>
      rw [idle] at moved
      cases run : action session.table with
      | ok _ after =>
          rw [run] at moved
          cases moved
          exact ⟨rfl, .inl ⟨rfl, wp_returns (ends available) run⟩⟩
      | error stop after =>
          have left := wp_stops (ends available) run
          rw [run] at moved
          cases stop with
          | fault fault => cases moved
          | tcl cause =>
              cases moved
              exact ⟨rfl, .inr ⟨nofun, left⟩⟩
  · cases moved

/-- The changed rows are flagged, and the session is in order. -/
structure Tracked.InOrder (tracked : Tracked creator) : Prop where
  session : tracked.session.InOrder (CTable.FlaggedRows tracked.since)
  flagged : tracked.session.table.FlaggedRows tracked.since

theorem Tracked.InOrder.ended {table : CTable creator} (flagged : table.FlaggedRows since)
    : Tracked.InOrder { session := { table := table, stack := [] }, since := since } :=
  ⟨.ended (.inl flagged), flagged⟩

/-- One event that flags its rows keeps all of this, by cases on the event. -/
theorem Tracked.InOrder.step {tracked next : Tracked creator} {event : TableEvent creator}
    (inOrder : tracked.InOrder) (flags : tracked.Flags host event)
    (stepped : tracked.step host event = some next)
    : next.InOrder := by
  have invariant := flaggedInvariant host tracked.since
  cases event with
  | script event =>
      simp only [Tracked.step] at stepped
      split at stepped
      · next session error moved =>
          split at stepped
          · cases stepped
          · next living =>
              cases stepped
              have kept := inOrder.session.step invariant trivial (.inr fun _ here => here) flags.1
                flags.2 moved
              exact ⟨kept, kept.idle.resolve_right fun gone => living gone.1⟩
      · cases stepped
  | clean =>
      simp only [Tracked.step] at stepped
      split at stepped
      · next session moved =>
          cases stepped
          obtain ⟨ended, ⟨_, leads⟩ | ⟨failed, _⟩⟩ :=
            Session.command_ends flags moved fun _ => cleanTable_leads inOrder.flagged.1
          · rw [ended]
            exact .ended ⟨leads, .start leads.unused⟩
          · exact absurd rfl failed
      · next session error moved =>
          cases stepped
          obtain ⟨ended, ⟨done, _⟩ | ⟨_, same⟩⟩ :=
            Session.command_ends flags moved fun _ => cleanTable_leads inOrder.flagged.1
          · cases done
          · rw [ended, same]
            exact .ended inOrder.flagged
      · cases stepped
  | cursorSet name position arguments =>
      simp only [Tracked.step] at stepped
      split at stepped
      · cases stepped
        exact inOrder
      · next id here =>
          obtain ⟨idle, onRow⟩ := flags
          obtain ⟨listed, safely⟩ := onRow id here
          split at stepped
          · next session error moved =>
              cases stepped
              obtain ⟨ended, ⟨_, kept⟩ | ⟨_, kept⟩⟩ := Session.command_ends idle moved fun _ =>
                cursorSet_kept invariant inOrder.flagged listed safely
              · rw [ended]
                exact .ended kept
              · rw [ended]
                exact .ended kept
          · cases stepped

/-- A history whose events flag their rows keeps all of this, by induction on the events. -/
theorem Tracked.InOrder.run {events : List (TableEvent creator)} {tracked final : Tracked creator}
    (inOrder : tracked.InOrder) (flags : tracked.Along host (Tracked.Flags host) events)
    (ran : tracked.run host events = some final)
    : final.InOrder := by
  induction events generalizing tracked with
  | nil =>
      cases ran
      exact inOrder
  | cons event rest ih =>
      obtain ⟨next, stepped, ran⟩ := Option.bind_eq_some_iff.mp ran
      exact ih (inOrder.step flags.1 stepped) (flags.2 next stepped) ran

/-- After every history, with any errors, whose events flag their rows, a search for dirty rows
finds every row that has changed since the table was cleaned last.
-/
theorem changedRows_found (host : Host) (creator : CreatorTable) (sharedMaster sharePanic : Bool)
    (events : List (TableEvent creator)) (final : Tracked creator)
    (ran : (Tracked.new creator sharedMaster sharePanic).run host events = some final)
    (flags : (Tracked.new creator sharedMaster sharePanic).Along host (Tracked.Flags host) events)
    : final.FindsChanged host := by
  have leads := (CTable.KeyedRows.empty creator sharedMaster sharePanic).2
  have kept := (Tracked.InOrder.ended ⟨leads, .start leads.unused⟩).run flags ran
  intro id row found
  cases kept.flagged.2.changed id row found with
  | inl dirty => exact .inr dirty.found
  | inr unchanged => exact .inl unchanged

/-- Setting a field that is neither the key nor `_dirty`, nor has a unique index, flags its row as
long as there is memory.
-/
theorem Call.flags_of_write {call : Call creator} {field : creator.Field} {obj : Obj}
    (write : call.write = .set field obj) (notKey : field ≠ creator.keyField)
    (clean : field ≠ creator.dirtyField) (plain : (creator.fields field).unique = false)
    (memory : ∀ allocations, host.shmalloc allocations = true)
    : call.Flags host := by
  refine ⟨by rw [write]; exact clean, fun row _ => .inr ?_⟩
  rw [write, Write.Flags, if_neg notKey]
  refine fun flagged allocates stored _ => .inr ⟨fun denied => ?_, fun _ refuses => ?_⟩
  · cases (memory _).symm.trans denied.2.2
  · cases plain.symm.trans refuses.1

/-- Commands whose calls flag their rows in every table, with cleanings between them, flag their
rows in every history, by induction on the events.
-/
theorem commands_flag {events : List (TableEvent creator)} {tracked : Tracked creator}
    (idle : tracked.session.stack = [])
    (always : ∀ event ∈ events, event = .clean ∨ ∃ command, event = .script (.command command)
      ∧ ∀ table, command.Safe host (fun call => call.Flags host) (fun _ => True) table)
    : tracked.Along host (Tracked.Flags host) events := by
  induction events generalizing tracked with
  | nil => trivial
  | cons event rest ih =>
      have later {next : Tracked creator} (idle : next.session.stack = []) :=
        ih idle (fun other member => always other (List.mem_cons_of_mem _ member))
      obtain rfl | ⟨command, rfl, safely⟩ := always event List.mem_cons_self
      · refine ⟨idle, fun next stepped => later ?_⟩
        simp only [Tracked.step] at stepped
        split at stepped
        · next session moved =>
            cases stepped
            exact (Session.command_stack moved).trans idle
        · next session error moved =>
            cases stepped
            exact (Session.command_stack moved).trans idle
        · cases stepped
      · refine ⟨⟨idle, safely _⟩, fun next stepped => later ?_⟩
        simp only [Tracked.step] at stepped
        split at stepped
        · next session error moved =>
            split at stepped
            · cases stepped
            · cases stepped
              exact (Session.command_stack moved).trans idle
        · cases stepped

/-- A row that is stored, cleaned, and stored again. -/
def storedAgain : List (TableEvent sampleCreator) :=
  [.script (.command (.set [[97], [115], [120]])), .clean,
    .script (.command (.set [[97], [115], [121]]))]

/-- A row that is stored, cleaned, and incremented. -/
def incremented : List (TableEvent sampleCreator) :=
  [.script (.command (.set [[97], [110], [49]])), .clean,
    .script (.command (.incr [[97], [110], [49]]))]

/-- The number and the flag of a row. -/
def numberAndFlag (row : Row sampleCreator) : Int × Bool :=
  ((row.cells (1 : Fin 6)).value, (row.cells (5 : Fin 6)).value)

/-- The first row at the last cleaning and now. -/
def firstRow : Option (Tracked sampleCreator) → Option ((Int × Bool) × (Int × Bool))
  | some tracked =>
      match tracked.since 0, tracked.session.table.rows 0 with
      | some old, some row => some (numberAndFlag old, numberAndFlag row)
      | _, _ => none
  | none => none

/-- A `set` of the field `s` flags its row. -/
theorem storing_flags (key : Obj) {obj : Obj} (noField : sampleCreator.fieldNumber obj = none)
    (table : CTable sampleCreator)
    : Command.Safe sampleHost (fun call => call.Flags sampleHost) (fun _ => True) table
        (.set [key, [115], obj]) := by
  intro call member
  obtain ⟨nocomplain, rest, elements, options, pairs, name, inside, field, value, number, write⟩ :=
    setCommandCalls_names member
  have taken : takeOptions false [[115], obj] = .ok (false, [[115], obj]) := by simp [takeOptions]
  obtain rfl : [[115], obj] = rest := congrArg Prod.snd (Except.ok.inj (taken.symm.trans options))
  have listed : evenKeyValueList sampleHost [[115], obj] = .ok [[115], obj] := by
    simp [evenKeyValueList, keyValueList]
  obtain rfl : [[115], obj] = elements := Except.ok.inj (listed.symm.trans pairs)
  have isText : sampleCreator.fieldNumber [115] = some (3 : Fin 6) := rfl
  obtain rfl | rfl : name = [115] ∨ name = obj := by simpa using inside
  · obtain rfl : (3 : Fin 6) = field := Option.some.inj (isText.symm.trans number)
    have apart : (3 : Fin 6) ≠ 0 ∧ (3 : Fin 6) ≠ 5 := by decide
    exact Call.flags_of_write write apart.1 apart.2 rfl (fun _ => rfl)
  · cases noField.symm.trans number

/-- The row that is stored again is found. -/
theorem changedRows_found_storedAgain
    : ∃ final, (Tracked.new sampleCreator false false).run sampleHost storedAgain = some final
        ∧ final.FindsChanged sampleHost := by
  have outcome : ((Tracked.new sampleCreator false false).run sampleHost storedAgain).isSome
      = true := by decide +kernel
  obtain ⟨final, ran⟩ := Option.isSome_iff_exists.mp outcome
  refine ⟨final, ran, changedRows_found sampleHost sampleCreator false false storedAgain final ran
    (commands_flag rfl fun event member => ?_)⟩
  simp only [storedAgain, List.mem_cons, List.not_mem_nil, or_false] at member
  obtain rfl | rfl | rfl := member
  · exact .inr ⟨_, rfl, storing_flags _ (by decide)⟩
  · exact .inl rfl
  · exact .inr ⟨_, rfl, storing_flags _ (by decide)⟩

/-- The row that is incremented has another number, and is not dirty. -/
theorem changedRows_incremented
    : ¬ ∀ (events : List (TableEvent sampleCreator)) (final : Tracked sampleCreator),
        (Tracked.new sampleCreator false false).run sampleHost events = some final →
        final.FindsChanged sampleHost := by
  intro finds
  have outcome : firstRow ((Tracked.new sampleCreator false false).run sampleHost incremented)
      = some ((1, false), (2, false)) := by decide +kernel
  cases ran : (Tracked.new sampleCreator false false).run sampleHost incremented with
  | none =>
      rw [ran] at outcome
      cases outcome
  | some final =>
      rw [ran] at outcome
      have found := finds incremented final ran
      simp only [firstRow] at outcome
      split at outcome
      · next old row isOld isRow =>
          obtain ⟨before, now⟩ := Prod.mk.inj (Option.some.inj outcome)
          obtain unchanged | dirty := found 0 row isRow
          · rw [isOld] at unchanged
            have apart : (1 : Fin 6) ≠ 5 := by decide
            have same : (numberAndFlag row).1 = (numberAndFlag old).1 :=
              congrArg Cell.value (unchanged.2 (1 : Fin 6) apart)
            rw [before, now] at same
            exact absurd same (by decide)
          · have tested : Component.test sampleHost
                { field := sampleCreator.dirtyField, term := .isTrue } row = .ok (numberAndFlag row).2 := rfl
            simp [Row.FoundDirty, searchCompare, tested, now] at dirty
      · cases outcome

end SpeedTables
