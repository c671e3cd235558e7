import SpeedTables.Table.CommandSteps
import SpeedTables.Table.DoubleInsert
import SpeedTables.Table.FailedWrites

/-! What a command that fails leaves of the row that it was to create. -/

namespace SpeedTables

open Lib

variable {creator : CreatorTable} {host : Host} {table after : CTable creator} {α : Type}

-----------------------------------------------------------------------------------------
-- The commands
-----------------------------------------------------------------------------------------

/-- The commands that create the row of a key that is not in the table. -/
inductive RowCommand (creator : CreatorTable) where
  | write (command : RowWrite)
  | line (options : TabsepOptions creator) (text : CString)

def RowCommand.run (host : Host) : RowCommand creator → TableM creator Unit
  | .write command => command.run host
  | .line options text => setFromTabsep host options text

/-- The key that a command looks up, if it gets so far. -/
def RowCommand.key (host : Host) (table : CTable creator) : RowCommand creator → Option CString
  | .write (.set arguments) => arguments.head?
  | .write (.store arguments) =>
      match storeArguments host arguments with
      | .ok (_, elements) =>
          some ((keyFromKeylist creator elements).getD (decimal table.autoRowNumber))
      | .error _ => none
  | .write (.incr arguments) =>
      match incrArguments arguments with
      | .ok (key, _) => some key
      | .error _ => none
  | .line options text =>
      match options.keyColumn with
      | none => some (decimalSigned table.autoRowNumber)
      | some column => (tabsepKey options column text).toOption

/-- The rows, their number, the hash table and the rows of the indexes are as before. -/
structure CTable.SameRows (before after : CTable creator) : Prop where
  llHead : after.llHead = before.llHead
  rows : after.rows = before.rows
  count : after.count = before.count
  keyTable : after.keyTable = before.keyTable
  indexes : ∀ field, after.indexRows field = before.indexRows field

/-- The checks of the arguments that a command makes before it creates a row fail. -/
def RowCommand.Rejected (host : Host) : RowCommand creator → Prop
  | .write (.set []) => True
  | .write (.set (_ :: arguments)) => ∃ error, takeOptions false arguments = .error error
  | .write (.store arguments) => ∃ error, storeArguments host arguments = .error error
  | .write (.incr arguments) => ∃ error, incrArguments arguments = .error error
  | .line _ _ => False

/-- The memory for a row is refused. -/
def CTable.RowRefused (table : CTable creator) (host : Host) : Prop :=
  table.sharedMaster = true ∧ host.shmalloc table.allocations = false

-----------------------------------------------------------------------------------------
-- Creating the row
-----------------------------------------------------------------------------------------

/-- A new key gets a row unless the memory for it is refused. -/
theorem findOrCreate_new {key : CString} (newKey : table.findHashEntry key = .ok none)
    : wp (findOrCreate host key)
        (fun _ after => ¬ table.RowRefused host ∧ after.llHead = table.nextRow :: table.llHead)
        (stopped
          (fun after => table.RowRefused host
            ∧ ∃ allocations, after = { table with allocations := allocations })
          (fun _ => True)) table := by
  have allocates : wp (allocateRow host key)
      (fun _ after => ¬ table.RowRefused host)
      (stopped (fun _ => table.RowRefused host) (fun _ => True)) table := by
    rw [allocateRow, wp_bind, wp_get]
    unfold CTable.RowRefused
    split
    · next shared =>
        rw [wp_bind, wp_shmalloc]
        split
        · next granted => simp [granted]
        · next denied =>
            split
            · trivial
            · exact ⟨shared, by simpa using denied⟩
    · next unshared => simp [unshared]
  have created := findOrCreate_spec host key table
  have refused : wp (findOrCreate host key) (fun _ _ => ¬ table.RowRefused host)
      (stopped (fun _ => table.RowRefused host) (fun _ => True)) table := by
    rw [findOrCreate, wp_bind]
    refine wp_mono allocates ?_ (fun _ _ stops => stops)
    intro _ middle granted
    rw [wp_bind, wp_get, wp_bind]
    refine wp_mono (storeHashEntry_spec middle key middle.nextRow creator.init) ?_ ?_
    · rintro ⟨entry, isNew⟩ stored -
      cases isNew <;> exact granted
    · rintro stop stored ⟨⟨fault, rfl, -⟩, -⟩
      trivial
  refine wp_mono (wp_and created refused) ?_ ?_
  · rintro row after ⟨outcome, granted⟩
    cases outcome with
    | found lookup => cases newKey.symm.trans lookup
    | created lookup linked => exact ⟨granted, rfl⟩
  · rintro stop after ⟨stops, denied⟩
    cases stop with
    | fault fault => trivial
    | tcl error => exact ⟨denied, stops⟩

/-- Nothing but the count of allocations and the number of the next automatic key has changed. -/
structure CTable.SameTable (before after : CTable creator) : Prop where
  llHead : after.llHead = before.llHead
  rows : after.rows = before.rows
  count : after.count = before.count
  keyTable : after.keyTable = before.keyTable
  skipLists : after.skipLists = before.skipLists

theorem CTable.SameTable.sameRows (same : table.SameTable after) : table.SameRows after where
  llHead := same.llHead
  rows := same.rows
  count := same.count
  keyTable := same.keyTable
  indexes := fun field => by rw [CTable.indexRows, CTable.indexRows, same.skipLists]

/-- How a failing command ends, against the condition under which it has changed no rows. -/
def KeepsRowsWhen (table : CTable creator) (early : Prop) : Stop → CTable creator → Prop :=
  stopped (fun after => table.SameRows after ↔ early) (fun _ => True)

/-- A command that fails after it has looked up a new key leaves the rows as they were exactly when
the memory for the row is refused.
-/
theorem createRow_fails {before : CTable creator} {key : CString} {rejected : Prop}
    {find : TableM creator (RowId × IndexCtl)} {next : RowId × IndexCtl → TableM creator α}
    (creates : find = findOrCreate host key ∨ find = findOrCreateRow host key)
    (accepted : ¬ rejected) (newKey : table.findHashEntry key = .ok none)
    (kept : before.SameTable table) (frames : ∀ row, Respects (CTable.RowFrame row.1) (next row))
    : wp (find >>= next) (fun _ _ => True) (KeepsRowsWhen before (rejected ∨ table.RowRefused host))
        table := by
  have found : wp find
      (fun _ after => ¬ table.RowRefused host ∧ after.llHead = table.nextRow :: table.llHead)
      (stopped
        (fun after => table.RowRefused host
          ∧ ∃ allocations, after = { table with allocations := allocations })
        (fun _ => True)) table := by
    rcases creates with rfl | rfl
    · exact findOrCreate_new newKey
    · rw [findOrCreateRow, wp_rethrow]
      exact findOrCreate_new newKey
  rw [wp_bind]
  refine wp_mono found ?_ ?_
  · rintro row created ⟨granted, listed⟩
    refine wp_mono (frames row created) (fun _ _ _ => trivial) ?_
    intro stop after frame
    cases stop with
    | fault fault => trivial
    | tcl error =>
        refine iff_of_false (fun same => ?_) (not_or.mpr ⟨accepted, granted⟩)
        have longer : table.nextRow :: table.llHead = table.llHead := by
          rw [← listed, ← frame.llHead, same.llHead, kept.llHead]
        exact List.cons_ne_self _ _ longer
  · intro stop after stops
    cases stop with
    | fault fault => trivial
    | tcl error =>
        obtain ⟨denied, allocations, rfl⟩ := stops
        obtain ⟨llHead, rows, count, keyTable, skipLists⟩ := kept
        exact iff_of_true (CTable.SameTable.sameRows ⟨llHead, rows, count, keyTable, skipLists⟩)
          (.inr denied)

-----------------------------------------------------------------------------------------
-- Failing commands
-----------------------------------------------------------------------------------------

/-- A command fails before it has created a row: its arguments are rejected, or the memory for the
row is refused.
-/
def RowCommand.FailsEarly (host : Host) (table : CTable creator) (command : RowCommand creator)
    : Prop :=
  command.Rejected host ∨ table.RowRefused host

theorem CTable.SameTable.refl (table : CTable creator) : table.SameTable table :=
  ⟨rfl, rfl, rfl, rfl, rfl⟩

/-- A lookup does not depend on the number of the next automatic key. -/
theorem CTable.findHashEntry_counted (table : CTable creator) {key : CString} {number : Nat}
    (newKey : table.findHashEntry key = .ok none)
    : CTable.findHashEntry { table with autoRowNumber := number } key = .ok none := by
  rw [← newKey]
  exact CTable.findHashEntry_congr rfl rfl rfl rfl

theorem set_failsEarly {arguments : List Obj}
    (newKey : ∀ key ∈ arguments.head?, table.findHashEntry key = .ok none)
    : wp (setCommand host arguments) (fun _ _ => True)
        (KeepsRowsWhen table ((RowCommand.write (.set arguments)).FailsEarly host table))
        table := by
  have same := (CTable.SameTable.refl table).sameRows
  cases arguments with
  | nil => exact iff_of_true same (.inl trivial)
  | cons key arguments =>
      rw [setCommand, wp_bind]
      cases options : takeOptions false arguments with
      | error error => exact iff_of_true same (.inl ⟨error, options⟩)
      | ok parsed =>
          obtain ⟨nocomplain, rest⟩ := parsed
          simp only [orFail, wp_pure]
          refine createRow_fails (.inr rfl) ?_ (newKey key rfl) (.refl table) ?_
          · rintro ⟨error, refused⟩
            cases options.symm.trans refused
          · intro row
            have steps := @writeSteps_rowFrame creator host row.1
            refine (respects_orFail (evenKeyValueList host rest)).bind fun elements => ?_
            exact (steps.setPairs row.2 nocomplain elements).bind fun _ => steps.finishRow row.2

theorem store_failsEarly {arguments : List Obj}
    (newKey : ∀ key ∈ (RowCommand.write (.store arguments)).key host table,
      table.findHashEntry key = .ok none)
    : wp (storeCommand host arguments) (fun _ _ => True)
        (KeepsRowsWhen table ((RowCommand.write (.store arguments)).FailsEarly host table))
        table := by
  have same := (CTable.SameTable.refl table).sameRows
  rw [storeCommand, wp_bind]
  cases checked : storeArguments host arguments with
  | error error => exact iff_of_true same (.inl ⟨error, checked⟩)
  | ok parsed =>
      obtain ⟨nocomplain, elements⟩ := parsed
      simp only [orFail, wp_pure]
      have accepted : ¬ ∃ error, storeArguments host arguments = .error error := by
        rintro ⟨error, refused⟩
        cases checked.symm.trans refused
      have frames : ∀ key (row : RowId × IndexCtl),
          Respects (@CTable.RowFrame creator row.1) (do
            setPairs host row.2 row.1 nocomplain elements
            finishRow host row.2 row.1
            pure (key : CString)) := by
        intro key row
        have steps := @writeSteps_rowFrame creator host row.1
        exact (steps.setPairs row.2 nocomplain elements).bind fun _ =>
          (steps.finishRow row.2).bind fun _ => Respects.pure
      rw [wp_bind]
      unfold storeKey
      split
      · next key named =>
          have free : table.findHashEntry key = .ok none :=
            newKey key (by simp [RowCommand.key, checked, named])
          exact createRow_fails (.inr rfl) accepted free (.refl table) (frames key)
      · next unnamed =>
          have free : table.findHashEntry (decimal table.autoRowNumber) = .ok none :=
            newKey _ (by simp [RowCommand.key, checked, unnamed])
          exact createRow_fails (.inr rfl) accepted (table.findHashEntry_counted free)
            ⟨rfl, rfl, rfl, rfl, rfl⟩ (frames (decimal table.autoRowNumber))

theorem incr_failsEarly {arguments : List Obj}
    (newKey : ∀ key ∈ (@RowCommand.write creator (.incr arguments)).key host table,
      table.findHashEntry key = .ok none)
    : wp (incrCommand host arguments) (fun _ _ => True)
        (KeepsRowsWhen table ((RowCommand.write (.incr arguments)).FailsEarly host table))
        table := by
  have same := (CTable.SameTable.refl table).sameRows
  rw [incrCommand, wp_bind]
  cases checked : incrArguments arguments with
  | error error => exact iff_of_true same (.inl ⟨error, checked⟩)
  | ok parsed =>
      obtain ⟨key, rest⟩ := parsed
      simp only [orFail, wp_pure]
      refine createRow_fails (.inr rfl) ?_ (newKey key (by simp [RowCommand.key, checked]))
        (.refl table) ?_
      · rintro ⟨error, refused⟩
        cases checked.symm.trans refused
      · intro row
        have steps := @writeSteps_rowFrame creator host row.1
        refine (respects_orFail (evenKeyValueList host rest)).bind fun elements => ?_
        exact (steps.incrPairs row.2 elements).bind fun values =>
          (steps.finishRow row.2).bind fun _ => Respects.pure

theorem line_failsEarly {options : TabsepOptions creator} {text : CString}
    (newKey : ∀ key ∈ (RowCommand.line options text).key host table,
      table.findHashEntry key = .ok none)
    : wp (setFromTabsep host options text) (fun _ _ => True)
        (KeepsRowsWhen table ((RowCommand.line options text).FailsEarly host table)) table := by
  have frames : ∀ row : RowId × IndexCtl, Respects (@CTable.RowFrame creator row.1) (do
      setColumns host options row.2 row.1 options.fieldIds 0 (some text)
      markRead options row.1
      finishRow host row.2 row.1) :=
    fun row => (writeSteps_rowFrame host row.1).columnsOfLine options row.2 text
  rw [setFromTabsep, wp_bind, lineKey]
  split
  · next automatic =>
      have free : table.findHashEntry (decimalSigned table.autoRowNumber) = .ok none :=
        newKey _ (by simp [RowCommand.key, automatic])
      exact createRow_fails (.inl rfl) not_false (table.findHashEntry_counted free)
        ⟨rfl, rfl, rfl, rfl, rfl⟩ frames
  · next column keyed =>
      rw [wp_inspect]
      refine ⟨fun key read => ?_, fun _ _ => trivial⟩
      have free : table.findHashEntry key = .ok none :=
        newKey _ (by simp [RowCommand.key, keyed, read, Except.toOption])
      exact createRow_fails (.inl rfl) not_false free (.refl table) frames

/-- When a `set`, `store`, `incr` or a line of `read_tabsep` with a new key fails, the rows, their
number, the hash table and the indexes are as before exactly when it fails before it has created
the row.
-/
theorem failedCreation_sameRows_iff (host : Host) (table after : CTable creator)
    (command : RowCommand creator) (error : TclError)
    (newKey : ∀ key ∈ command.key host table, table.findHashEntry key = .ok none)
    (fails : command.run host table = .error (.tcl error) after)
    : table.SameRows after ↔ command.FailsEarly host table := by
  have ends : wp (command.run host) (fun _ _ => True)
      (KeepsRowsWhen table (command.FailsEarly host table)) table := by
    cases command with
    | line options text => exact line_failsEarly newKey
    | write command =>
        cases command with
        | set arguments => exact set_failsEarly newKey
        | store arguments =>
            rw [RowCommand.run, RowWrite.run, wp_bind]
            exact store_failsEarly newKey
        | incr arguments =>
            rw [RowCommand.run, RowWrite.run, wp_bind]
            exact incr_failsEarly newKey
  have outcome := wp_stops ends fails
  exact outcome

/-- An option that is not known leaves the table without a row. -/
theorem failedCreation_sameRows_iff_badOption
    : ∃ (error : TclError) (after : CTable sampleCreator),
        (RowCommand.write (.set [[97], [45, 120], [115], [120]])).run sampleHost
            (CTable.empty sampleCreator false false) = .error (.tcl error) after
          ∧ (CTable.empty sampleCreator false false).SameRows after := by
  have options : takeOptions false [[45, 120], [115], [120]] =
      .error (.unknownOption [45, 120]) := rfl
  refine ⟨.unknownOption [45, 120], CTable.empty sampleCreator false false, rfl, ?_⟩
  refine (failedCreation_sameRows_iff sampleHost (CTable.empty sampleCreator false false) _
    (.write (.set [[97], [45, 120], [115], [120]])) (.unknownOption [45, 120]) ?_ rfl).mpr
    (.inl ⟨_, options⟩)
  intro key _
  rfl

/-- A number that cannot be read leaves the new row in the table. -/
theorem failedCreation_rowStays
    : ¬ ∀ (command : RowCommand sampleCreator) (error : TclError) (after : CTable sampleCreator),
        command.run sampleHost (CTable.empty sampleCreator false false) =
            .error (.tcl error) after →
          (CTable.empty sampleCreator false false).SameRows after := by
  intro same
  have outcome : endsInError (fun after => after.llHead == [0])
      ((RowCommand.write (.set [[97], [110], [120]])).run sampleHost
        (CTable.empty sampleCreator false false)) = true := by
    decide +kernel
  obtain ⟨error, after, run, listed⟩ := endsInError_iff.mp outcome
  have stays := (same _ error after run).llHead
  rw [beq_iff_eq.mp listed] at stays
  cases stays

end SpeedTables
