import SpeedTables.Table.LinkedWrites

/-! When `set`, `store` and `incr` insert a row twice in one index. -/

namespace SpeedTables

open Lib

variable {creator : CreatorTable} {host : Host}

-----------------------------------------------------------------------------------------
-- The calls of a command
-----------------------------------------------------------------------------------------

/-- Two setter calls insert in no index both. -/
def Call.Apart (host : Host) (first second : Call creator) : Prop :=
  ∀ field, ¬ (first.Enters host field ∧ second.Enters host field)

/-- The calls on a row being created: each starts in the table that the one before it leaves. -/
inductive Call.Chain (host : Host) (id : RowId) : CTable creator → List (Call creator) → Prop
  | nil {table} : Chain host id table []
  | cons {table write rest} (writes : ∀ field, write ≠ .null field)
    (next : ∀ after, write.run host .new id table = .ok () after → Chain host id after rest)
    (ends : ∀ stop after, write.run host .new id table = .error stop after → rest = [])
    : Chain host id table (⟨.new, id, write, table⟩ :: rest)

/-- No call enters an index again when none enters an index that holds the row at the start, and
no two enter the same; by induction along the calls.
-/
theorem Call.Chain.again_iff {id : RowId} {table : CTable creator} {calls : List (Call creator)}
    (chain : Call.Chain host id table calls)
    : (∀ call ∈ calls, ¬ call.EntersAgain host) ↔
        (∀ call ∈ calls, ∀ field, call.Enters host field → table.links field id = none)
          ∧ calls.Pairwise (Call.Apart host) := by
  induction chain with
  | nil => simp
  | @cons table write rest writes next ends ih =>
      have first : ¬ Call.EntersAgain host ⟨.new, id, write, table⟩ ↔
          ∀ field, Call.Enters host ⟨.new, id, write, table⟩ field →
            table.links field id = none := by
        simp [Call.EntersAgain]
      cases run : write.run host .new id table with
      | error stop after =>
          obtain rfl := ends stop after run
          simp [first]
      | ok value after =>
          have call := @Call.run_new creator host ⟨.new, id, write, table⟩ rfl writes
          have more := wp_returns call run
          have free : ∀ field, after.links field id = none ↔
              table.links field id = none
                ∧ ¬ Call.Enters host ⟨.new, id, write, table⟩ field := by
            intro field
            have linked := more field
            rw [← Option.not_isSome_iff_eq_none, ← Option.not_isSome_iff_eq_none, linked, not_or]
          rw [List.forall_mem_cons, first, ih after run, List.forall_mem_cons,
            List.pairwise_cons]
          constructor
          · rintro ⟨here, later, apart⟩
            refine ⟨⟨here, fun other member field enters => ?_⟩, fun other member field both => ?_,
              apart⟩
            · exact ((free field).mp (later other member field enters)).1
            · exact ((free field).mp (later other member field both.2)).2 both.1
          · rintro ⟨⟨here, later⟩, between, apart⟩
            refine ⟨here, fun other member field enters => (free field).mpr ⟨?_, fun both => ?_⟩,
              apart⟩
            · exact later other member field enters
            · exact between other member field ⟨both, enters⟩

/-- One call, and a chain of calls after it. -/
theorem Call.Chain.callThen {id : RowId} {table : CTable creator} {write : Write creator}
    {next : CTable creator → List (Call creator)} (writes : ∀ field, write ≠ .null field)
    (rest : ∀ after, Call.Chain host id after (next after))
    : Call.Chain host id table (callThen host .new id write next table) := by
  refine .cons writes (fun after run => ?_) (fun stop after run => ?_)
  · rw [run]
    exact rest after
  · rw [run]
    rfl

/-- The calls of `set` and `store` on a row being created, by recursion along the pairs. -/
theorem setPairsCalls_chain (id : RowId) (nocomplain : Bool)
    : ∀ (elements : List Obj) (table : CTable creator),
        Call.Chain host id table (setPairsCalls host .new id nocomplain elements table)
  | [], _ => .nil
  | [_], _ => .nil
  | fieldObj :: obj :: rest, table => by
      have ih := setPairsCalls_chain id nocomplain rest
      rw [setPairsCalls]
      split
      · exact .callThen (fun _ same => by cases same) ih
      · split
        · exact ih table
        · exact .nil

/-- The calls of `incr` on a row being created, by recursion along the pairs. -/
theorem incrPairsCalls_chain (id : RowId)
    : ∀ (elements : List Obj) (table : CTable creator),
        Call.Chain host id table (incrPairsCalls host .new id elements table)
  | [], _ => .nil
  | [_], _ => .nil
  | fieldObj :: obj :: rest, table => by
      have ih := incrPairsCalls_chain id rest
      rw [incrPairsCalls]
      split
      · refine .callThen (fun _ same => by cases same) (fun after => ?_)
        have unchanged : wp (inspect (CTable.row · id)) (fun _ next => next = after)
            (fun _ _ => True) after := by
          rw [wp_inspect]
          exact ⟨fun _ _ => rfl, fun _ _ => trivial⟩
        cases run : inspect (CTable.row · id) after with
        | error stop next => exact .nil
        | ok row next =>
            rw [wp_returns unchanged run]
            exact ih after
      · exact .nil

-----------------------------------------------------------------------------------------
-- The commands
-----------------------------------------------------------------------------------------

theorem stopped_single {stop : Stop} {table : CTable creator}
    : stopped (fun _ => True) Fault.NotDouble stop table ↔ ¬ stop.DoublesInsert := by
  cases stop with
  | tcl error => simp [Stop.tcl_notDouble]
  | fault fault =>
      refine ⟨fun other => Fault.NotDouble.stop other, fun single name same => single ⟨name, ?_⟩⟩
      rw [same]

/-- A setter call that enters no index again does not panic. -/
theorem Call.run_single {call : Call creator} (single : ¬ call.EntersAgain host)
    : wp (call.run host) (fun _ _ => True) (stopped (fun _ => True) Fault.NotDouble)
        call.table := by
  have quiet : wp (call.run host) (fun _ _ => True) (fun stop _ => ¬ stop.DoublesInsert)
      call.table := by
    by_cases writes : ∀ field, call.write ≠ .null field
    · cases ctl : call.ctl with
      | normal => exact call.run_normal ctl
      | new =>
          exact wp_mono (call.run_new ctl writes) (fun _ _ _ => trivial)
            (fun _ _ again double => single (again double))
    · obtain ⟨ctl, id, write, table⟩ := call
      obtain ⟨field, rfl⟩ : ∃ field, write = .null field := by simpa using writes
      -- setting a null does not look at the index mode
      exact @Call.run_normal creator host ⟨.normal, id, .null field, table⟩ rfl
  exact wp_mono quiet (fun _ _ _ => trivial) (fun _ _ => stopped_single.mpr)

/-- What the commands that write rows owe to the absence of the panic. -/
theorem singleUpkeep (host : Host)
    : @Upkeep creator host (fun _ => True) (fun _ _ _ => True) (fun _ => True) Fault.NotDouble
        (fun call => ¬ call.EntersAgain host) where
  stops := fun _ _ => trivial
  breaks := fun _ _ _ _ => trivial
  others := fun _ other => other
  counter := fun _ _ _ => trivial
  find := fun _ _ _ _ _ => trivial
  create := by
    intro table key _
    refine wp_mono (findOrCreate_spec host key table) (fun _ _ _ => trivial) ?_
    intro stop after stops
    cases stop with
    | tcl error => trivial
    | fault fault => exact stops
  write := fun _ single _ => Call.run_single single
  dirty := by
    intro ctl id table _
    rw [setDirty, putCell, wp_bind, wp_inspect]
    exact ⟨fun _ _ => trivial, fun fault stops => CTable.row_fault stops⟩
  finish := by
    intro ctl id table _
    unfold finishRow
    split
    · refine wp_forM (fun field _ middle _ => ?_) trivial
      rw [wp_bind, wp_get]
      split
      · next enters =>
          refine wp_mono insertIntoIndex_nowLinked (fun _ _ _ => trivial) ?_
          intro stop after occupied
          refine stopped_single.mpr fun double => ?_
          have linked := (occupied double).2
          simp only [Bool.and_eq_true, Option.isNone_iff_eq_none] at enters
          simp [enters.2] at linked
      · trivial
    · trivial

/-- A call that enters an index again makes the whole action panic. -/
theorem Makes.panics {α : Type} {mine : IndexCtl → RowId → Prop} {action : TableM creator α}
    {calls : CTable creator → List (Call creator)} {table : CTable creator} {call : Call creator}
    (makes : Makes host mine action calls) (member : call ∈ calls table)
    (again : call.EntersAgain host)
    : ∃ name after, action table = .error (.fault (.doubleInsert name)) after := by
  have panics := again.panics
  cases run : call.run host call.table with
  | ok value after => exact (wp_returns panics run).elim
  | error stop after =>
      obtain ⟨name, rfl⟩ := wp_stops panics run
      exact ⟨name, after, makes.faults member run⟩

theorem mem_callsAfter {α : Type} {result : EStateM.Result Stop (CTable creator) α}
    {next : α → CTable creator → List (Call creator)} {call : Call creator}
    (member : call ∈ callsAfter result next)
    : ∃ value table, result = .ok value table ∧ call ∈ next value table := by
  unfold callsAfter at member
  split at member
  · exact ⟨_, _, rfl, member⟩
  · cases member

/-- The commands that write fields of the row of a key. -/
inductive RowWrite where
  | set (arguments : List Obj)
  | store (arguments : List Obj)
  | incr (arguments : List Obj)

def RowWrite.run (host : Host) : RowWrite → TableM creator Unit
  | .set arguments => setCommand host arguments
  | .store arguments => do
      let _ ← storeCommand host arguments
      pure ()
  | .incr arguments => do
      let _ ← incrCommand host arguments
      pure ()

/-- The setter calls of such a command. -/
def RowWrite.calls (host : Host) (table : CTable creator) : RowWrite → List (Call creator)
  | .set arguments => setCommandCalls host table arguments
  | .store arguments => storeCommandCalls host table arguments
  | .incr arguments => incrCommandCalls host table arguments

/-- The command panics because it inserts a row that is linked already. -/
def RowWrite.DoublesInsert (host : Host) (table : CTable creator) (command : RowWrite) : Prop :=
  ∃ name after, command.run host table = .error (.fault (.doubleInsert name)) after

/-- No row to come is linked in an index. -/
def CTable.FreshRows (table : CTable creator) : Prop :=
  ∀ field id, table.nextRow ≤ id → table.links field id = none

/-- The calls of a command are on an existing row, or follow one another on a row that is in no
index at first.
-/
def Call.Started (host : Host) (calls : List (Call creator)) : Prop :=
  (∀ call ∈ calls, call.ctl = .normal)
    ∨ ∃ id table, Call.Chain host id table calls ∧ ∀ field, table.links field id = none

theorem Call.Started.nil : Call.Started host ([] : List (Call creator)) :=
  .inl (by simp)

/-- Calls that have started enter no index again exactly when no two enter the same. -/
theorem Call.Started.again_iff {calls : List (Call creator)} (started : Call.Started host calls)
    : (∀ call ∈ calls, ¬ call.EntersAgain host) ↔ calls.Pairwise (Call.Apart host) := by
  rcases started with existing | ⟨id, table, chain, free⟩
  · have never : ∀ call ∈ calls, ∀ field, ¬ call.Enters host field := by
      intro call member field enters
      cases (existing call member).symm.trans enters.new
    refine iff_of_true (fun call member again => ?_) ?_
    · obtain ⟨field, enters, -⟩ := again
      exact never call member field enters
    · exact List.pairwise_iff_forall_sublist.mpr fun {first second} sublist field both =>
        never first (sublist.subset (by simp)) field both.1
  · rw [chain.again_iff]
    exact and_iff_right fun call _ field _ => free field

/-- The calls on the row that a command finds or creates have started. -/
theorem rowCalls_started {table : CTable creator} (fresh : table.FreshRows) (key : CString)
    {calls : IndexCtl → RowId → CTable creator → List (Call creator)}
    (existing : ∀ id created, ∀ call ∈ calls .normal id created, call.ctl = .normal)
    (chain : ∀ id created, Call.Chain host id created (calls .new id created))
    : Call.Started host (rowCalls (findOrCreateRow host key table) calls) := by
  have created : wp (findOrCreateRow host key) (table.FoundOrCreated key) (fun _ _ => True)
      table := by
    have either : wp (findOrCreateRow host key) (table.FoundOrCreated key)
        (stopped (fun _ => True) (fun _ => True)) table := by
      rw [findOrCreateRow, wp_rethrow]
      exact wp_mono (findOrCreate_spec host key table) (fun _ _ outcome => outcome)
        (fun stop after _ => stopped_any stop after)
    exact wp_mono either (fun _ _ outcome => outcome) (fun _ _ _ => trivial)
  cases run : findOrCreateRow host key table with
  | error stop after => exact .nil
  | ok row after =>
      have outcome := wp_returns created run
      cases outcome with
      | found lookup => exact .inl (existing _ _)
      | created lookup linked =>
          exact .inr ⟨_, _, chain _ _, fun field => fresh field _ (Nat.le_refl _)⟩

/-- The calls of a command have started. -/
theorem RowWrite.started {table : CTable creator} (fresh : table.FreshRows) (command : RowWrite)
    : Call.Started host (command.calls host table) := by
  have pairs : ∀ (nocomplain : Bool) (elements : List Obj) id (created : CTable creator),
      ∀ call ∈ setPairsCalls host .normal id nocomplain elements created, call.ctl = .normal := by
    intro nocomplain elements id created call member
    have makes := @setPairs_makes creator host (fun ctl _ => ctl = .normal) .normal id rfl
      nocomplain elements
    exact makes.own member
  cases command with
  | set arguments =>
      cases arguments with
      | nil => exact .nil
      | cons key arguments =>
          unfold RowWrite.calls setCommandCalls
          dsimp only
          split
          · exact .nil
          · refine rowCalls_started fresh key ?_ ?_
            · intro id created
              split
              · simp
              · exact pairs _ _ id created
            · intro id created
              split
              · exact .nil
              · exact setPairsCalls_chain id _ _ created
  | store arguments =>
      unfold RowWrite.calls storeCommandCalls
      dsimp only
      split
      · exact .nil
      · next nocomplain elements _ =>
          have keyed : wp (storeKey elements) (fun _ after => CTable.FreshRows after)
              (fun _ _ => True) table := by
            unfold storeKey
            split
            · exact fresh
            · exact fresh
          cases run : storeKey elements table with
          | error stop after => exact .nil
          | ok key after =>
              exact @rowCalls_started creator host after (wp_returns keyed run) key
                (fun ctl id => setPairsCalls host ctl id nocomplain elements)
                (pairs nocomplain elements) (fun id => setPairsCalls_chain id nocomplain elements)
  | incr arguments =>
      unfold RowWrite.calls incrCommandCalls
      dsimp only
      split
      · exact .nil
      · next key rest _ =>
          refine rowCalls_started fresh key ?_ ?_
          · intro id created call member
            split at member
            · cases member
            · next elements _ =>
                have makes := @incrPairs_makes creator host (fun ctl _ => ctl = .normal) .normal id
                  rfl elements
                exact makes.own member
          · intro id created
            split
            · exact .nil
            · exact incrPairsCalls_chain id _ created

/-- A command whose calls enter no index again does not panic. -/
theorem RowWrite.single {table : CTable creator} {command : RowWrite}
    (single : ∀ call ∈ command.calls host table, ¬ call.EntersAgain host)
    : ¬ command.DoublesInsert host table := by
  have quiet : wp (command.run host) (fun _ _ => True) (stopped (fun _ => True) Fault.NotDouble)
      table := by
    cases command with
    | set arguments => exact (singleUpkeep host).set single trivial
    | store arguments =>
        rw [RowWrite.run, wp_bind]
        exact (singleUpkeep host).store single trivial
    | incr arguments =>
        rw [RowWrite.run, wp_bind]
        exact (singleUpkeep host).incr single trivial
  rintro ⟨name, after, run⟩
  exact wp_stops quiet run name rfl

/-- An action that is run up to a known result goes on from there. -/
theorem wp_ran {α : Type} {action : TableM creator α} {ok : α → CTable creator → Prop}
    {err : Stop → CTable creator → Prop} {table middle : CTable creator} {value : α}
    (run : action table = .ok value middle)
    : wp action ok err table ↔ ok value middle := by
  simp only [wp, run]

/-- A command one of whose calls enters an index again panics. -/
theorem RowWrite.panics {table : CTable creator} {command : RowWrite} {call : Call creator}
    (member : call ∈ command.calls host table) (again : call.EntersAgain host)
    : command.DoublesInsert host table := by
  have ends : ∀ {α : Type} {action : TableM creator α} {ok : α → CTable creator → Prop}
      {middle : CTable creator},
      (∃ name after, action middle = .error (.fault (.doubleInsert name)) after) →
      wp action ok (fun stop _ => stop.DoublesInsert) middle := by
    rintro α action ok middle ⟨name, after, run⟩
    simp only [wp, run]
    exact ⟨name, rfl⟩
  have panics : wp (command.run host) (fun _ _ => False) (fun stop _ => stop.DoublesInsert)
      table := by
    cases command with
    | set arguments =>
        cases arguments with
        | nil => cases member
        | cons key arguments =>
            unfold RowWrite.calls setCommandCalls at member
            dsimp only at member
            split at member
            · cases member
            · next nocomplain rest options =>
                obtain ⟨⟨id, ctl⟩, created, found, member⟩ := mem_callsAfter member
                dsimp only at member
                split at member
                · cases member
                · next elements pairs =>
                    have makes := @setPairs_makes creator host (fun _ _ => True) ctl id trivial
                      nocomplain elements
                    rw [RowWrite.run, setCommand, options, orFail, wp_bind, wp_pure]
                    dsimp only
                    rw [wp_bind, wp_ran found]
                    dsimp only
                    rw [pairs, orFail, wp_bind, wp_pure, wp_bind]
                    exact ends (makes.panics member again)
    | store arguments =>
        unfold RowWrite.calls storeCommandCalls at member
        dsimp only at member
        split at member
        · cases member
        · next nocomplain elements checked =>
            obtain ⟨key, keyed, stored, member⟩ := mem_callsAfter member
            obtain ⟨⟨id, ctl⟩, created, found, member⟩ := mem_callsAfter member
            have makes := @setPairs_makes creator host (fun _ _ => True) ctl id trivial
              nocomplain elements
            rw [RowWrite.run, wp_bind, storeCommand, checked, orFail, wp_bind, wp_pure]
            dsimp only
            rw [wp_bind, wp_ran stored, wp_bind, wp_ran found]
            dsimp only
            rw [wp_bind]
            exact ends (makes.panics member again)
    | incr arguments =>
        unfold RowWrite.calls incrCommandCalls at member
        dsimp only at member
        split at member
        · cases member
        · next key rest checked =>
            obtain ⟨⟨id, ctl⟩, created, found, member⟩ := mem_callsAfter member
            dsimp only at member
            split at member
            · cases member
            · next elements pairs =>
                have makes := @incrPairs_makes creator host (fun _ _ => True) ctl id trivial
                  elements
                rw [RowWrite.run, wp_bind, incrCommand, checked, orFail, wp_bind, wp_pure]
                dsimp only
                rw [wp_bind, wp_ran found]
                dsimp only
                rw [pairs, orFail, wp_bind, wp_pure, wp_bind]
                exact ends (makes.panics member again)
  cases run : command.run host table with
  | ok value after => exact (wp_returns panics run).elim
  | error stop after =>
      obtain ⟨name, rfl⟩ := wp_stops panics run
      exact ⟨name, after, run⟩

/-- On a table in which no row to come is linked, `set`, `store` and `incr` never reach the panic of
a double insert exactly when no two setter calls of the command insert the row that it creates in
the index of one field.
-/
theorem doubleInsert_iff (host : Host) (table : CTable creator) (fresh : table.FreshRows)
    (command : RowWrite)
    : ¬ command.DoublesInsert host table ↔
        (command.calls host table).Pairwise (Call.Apart host) := by
  rw [← (command.started fresh).again_iff]
  refine ⟨fun quiet call member again => quiet (RowWrite.panics member again), RowWrite.single⟩

/-- A sample table with an index on the numbers. -/
def numberedTable : CTable sampleCreator :=
  sampleTable [createIndex sampleHost (1 : Fin 6) 8]

theorem numberedTable_fresh : numberedTable.FreshRows :=
  fun _ _ _ => rfl

/-- A new row with a number and a string. -/
theorem doubleInsert_iff_apart
    : ¬ (RowWrite.set [[97], [110], [49], [115], [120]]).DoublesInsert sampleHost
        numberedTable := by
  refine (doubleInsert_iff sampleHost numberedTable numberedTable_fresh _).mpr ?_
  have apart : (((RowWrite.set [[97], [110], [49], [115], [120]]).calls sampleHost
      numberedTable).map (fun call => call.write.field)).Pairwise (· ≠ ·) := by
    decide +kernel
  have cells : ((RowWrite.set [[97], [110], [49], [115], [120]]).calls sampleHost
      numberedTable).all (fun call => call.write.field != sampleCreator.keyField) = true := by
    decide +kernel
  refine (List.pairwise_map.mp apart).imp_of_mem ?_
  intro first second here there different field both
  have cell : ∀ {call}, call ∈ (RowWrite.set [[97], [110], [49], [115], [120]]).calls sampleHost
      numberedTable → ∀ obj, call.write ≠ .set sampleCreator.keyField obj := by
    intro call member obj write
    have notKey := List.all_eq_true.mp cells call member
    rw [write] at notKey
    simp [Write.field] at notKey
  exact different ((both.1.written (cell here)).symm.trans (both.2.written (cell there)))

/-- Whether a command panics on account of a row that is linked already. -/
def panicsDouble (result : EStateM.Result Stop (CTable sampleCreator) Unit) : Bool :=
  match result with
  | .error (.fault (.doubleInsert _)) _ => true
  | _ => false

/-- A new row whose number is given twice. -/
theorem doubleInsert_numberTwice
    : ¬ ∀ command : RowWrite, ¬ command.DoublesInsert sampleHost numberedTable := by
  intro never
  have panics : panicsDouble ((RowWrite.set [[97], [110], [49], [110], [50]]).run sampleHost
      numberedTable) = true := by
    decide +kernel
  unfold panicsDouble at panics
  split at panics
  · next name after run => exact never _ ⟨name, after, run⟩
  · cases panics

end SpeedTables
