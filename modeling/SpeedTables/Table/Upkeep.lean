import SpeedTables.Table.Calls
import SpeedTables.Table.SetterIndex

/-! What the commands keep, from what their setter calls keep. -/

namespace SpeedTables

open Lib

variable {creator : CreatorTable} {α β : Type} {host : Host} {mine : IndexCtl → RowId → Prop}

-----------------------------------------------------------------------------------------
-- Actions that work through setter calls
-----------------------------------------------------------------------------------------

/-- An action changes the table only through the given setter calls, which are on rows of
its own: it keeps what each of them keeps, and it stops with the fault of a call.
-/
structure Makes (host : Host) (mine : IndexCtl → RowId → Prop) (action : TableM creator α)
    (calls : CTable creator → List (Call creator)) : Prop where
  own : ∀ {table : CTable creator} {call : Call creator},
    call ∈ calls table → mine call.ctl call.id
  keeps
    : ∀ {holds failed : CTable creator → Prop} {lost : Fault → Prop} {table : CTable creator},
        (∀ table, holds table → failed table)
        → (∀ fault, fault.NotDouble → lost fault)
        → (∀ call ∈ calls table, holds call.table →
            wp (call.run host) (fun _ => holds) (stopped failed lost) call.table)
        → holds table
        → wp action (fun _ => holds) (stopped failed lost) table
  faults
    : ∀ {table : CTable creator} {call : Call creator} {fault : Fault} {after : CTable creator},
        call ∈ calls table
        → call.run host call.table = .error (.fault fault) after
        → action table = .error (.fault fault) after

theorem Makes.pure (value : α)
    : Makes host mine (pure value : TableM creator α) (fun _ => []) where
  own := by simp
  keeps := fun _ _ _ start => start
  faults := by simp

theorem Makes.fail (error : TclError)
    : Makes host mine (fail error : TableM creator α) (fun _ => []) where
  own := by simp
  keeps := fun weaker _ _ start => weaker _ start
  faults := by simp

/-- Reading the table calls no setter. -/
theorem Makes.inspect {read : CTable creator → Except Fault α}
    (others : ∀ table fault, read table = .error fault → fault.NotDouble)
    : Makes host mine (inspect read) (fun _ => []) where
  own := by simp
  keeps := by
    intro holds failed lost table weaker lose safe start
    rw [wp_inspect]
    exact ⟨fun _ _ => start, fun fault stops => lose fault (others table fault stops)⟩
  faults := by simp

/-- A setter makes its own call. -/
theorem Makes.call {ctl : IndexCtl} {id : RowId} (owned : mine ctl id) (write : Write creator)
    : Makes host mine (write.run host ctl id)
        (fun table => [{ ctl := ctl, id := id, write := write, table := table }]) where
  own := by
    intro table call member
    obtain rfl : call = _ := by simpa using member
    exact owned
  keeps := by
    intro holds failed lost table weaker lose safe start
    exact safe { ctl := ctl, id := id, write := write, table := table } (by simp) start
  faults := by
    intro table call fault after member stops
    obtain rfl : call = _ := by simpa using member
    exact stops

/-- A sequence makes the calls of its first part and then those of its second. -/
theorem Makes.bind {first : TableM creator α} {second : α → TableM creator β}
    {firstCalls : CTable creator → List (Call creator)}
    {secondCalls : α → CTable creator → List (Call creator)}
    (left : Makes host mine first firstCalls)
    (right : ∀ value, Makes host mine (second value) (secondCalls value))
    : Makes host mine (first >>= second)
        (fun table => firstCalls table ++ callsAfter (first table) secondCalls) where
  own := by
    intro table call member
    rcases List.mem_append.mp member with early | late
    · exact left.own early
    · cases run : first table with
      | ok value middle => exact (right value).own (by simpa [callsAfter, run] using late)
      | error stop middle => simp [callsAfter, run] at late
  keeps := by
    intro holds failed lost table weaker lose safe start
    have early := left.keeps weaker lose
      (fun call member => safe call (List.mem_append_left _ member)) start
    rw [wp_bind]
    cases run : first table with
    | ok value middle =>
        have late := (right value).keeps weaker lose
          (fun call member => safe call (List.mem_append_right _ (by simpa [callsAfter, run])))
          (wp_returns early run)
        simpa only [wp, run] using late
    | error stop middle => simpa only [wp, run] using wp_stops early run
  faults := by
    intro table call fault after member stops
    rcases List.mem_append.mp member with early | late
    · have run := left.faults early stops
      simp only [Bind.bind, EStateM.bind, run]
    · cases run : first table with
      | ok value middle =>
          have stopping := (right value).faults (by simpa [callsAfter, run] using late) stops
          simpa only [Bind.bind, EStateM.bind, run] using stopping
      | error stop middle => simp [callsAfter, run] at late

/-- Adding to the text of errors makes no other calls. -/
theorem Makes.rethrow {action : TableM creator α} {wrap : TclError → TclError}
    {calls : CTable creator → List (Call creator)} (makes : Makes host mine action calls)
    : Makes host mine (onTclError action (fun error => SpeedTables.fail (wrap error))) calls where
  own := makes.own
  keeps := by
    intro holds failed lost table weaker lose safe start
    rw [wp_rethrow]
    exact makes.keeps weaker lose safe start
  faults := by
    intro table call fault after member stops
    simp only [onTclError, makes.faults member stops]

theorem Makes.congr {action : TableM creator α} {calls others : CTable creator → List (Call creator)}
    (makes : Makes host mine action calls) (same : ∀ table, others table = calls table)
    : Makes host mine action others := by
  obtain rfl : others = calls := funext same
  exact makes

/-- What follows an action does not depend on how its errors are worded. -/
theorem callsAfter_rethrow {action : TableM creator α} {wrap : TclError → TclError}
    {next : α → CTable creator → List (Call creator)} {table : CTable creator}
    : callsAfter (onTclError action (fun error => fail (wrap error)) table) next =
        callsAfter (action table) next := by
  unfold onTclError
  cases action table with
  | ok value after => rfl
  | error stop after =>
      cases stop with
      | tcl error => rfl
      | fault fault => rfl

-----------------------------------------------------------------------------------------
-- The loops over fields
-----------------------------------------------------------------------------------------

/-- The loop of `set` and `store`, by induction along its pairs. -/
theorem setPairs_makes {ctl : IndexCtl} {id : RowId} (owned : mine ctl id) (nocomplain : Bool)
    (elements : List Obj)
    : Makes host mine (setPairs host ctl id nocomplain elements : TableM creator Unit)
        (setPairsCalls host ctl id nocomplain elements) := by
  fun_induction setPairs host ctl id nocomplain elements with
  | case1 fieldObj obj rest ih =>
      cases number : creator.fieldNumber fieldObj with
      | some field =>
          simp only [setFieldobj, number]
          refine ((Makes.call owned (.set field obj)).rethrow.bind (fun _ => ih)).congr ?_
          intro table
          rw [callsAfter_rethrow]
          simp [setPairsCalls, callThen, number]
      | none =>
          cases nocomplain with
          | true =>
              simp only [setFieldobj, number, if_true]
              refine ((Makes.pure ()).rethrow.bind (fun _ => ih)).congr ?_
              intro table
              simp [setPairsCalls, number, callsAfter, onTclError, pure, EStateM.pure]
          | false =>
              simp only [setFieldobj, number]
              refine ((Makes.fail (.badField fieldObj)).rethrow.bind (fun _ => ih)).congr ?_
              intro table
              simp [setPairsCalls, number, callsAfter, onTclError, SpeedTables.fail, throw,
                throwThe, MonadExceptOf.throw, EStateM.throw]
  | case2 rest short =>
      refine (Makes.pure ()).congr ?_
      intro table
      unfold setPairsCalls
      split
      · next fieldObj obj more => exact absurd rfl (short fieldObj obj more)
      · rfl

/-- The loop of `incr`, by induction along its pairs. -/
theorem incrPairs_makes {ctl : IndexCtl} {id : RowId} (owned : mine ctl id) (elements : List Obj)
    : Makes host mine (incrPairs host ctl id elements : TableM creator (List CString))
        (incrPairsCalls host ctl id elements) := by
  fun_induction incrPairs host ctl id elements with
  | case1 fieldObj obj rest unknown =>
      refine (Makes.fail _).congr ?_
      intro table
      simp [incrPairsCalls, unknown]
  | case2 fieldObj obj rest field number ih =>
      have rows : ∀ (table : CTable creator) fault, table.row id = .error fault →
          fault.NotDouble := fun table fault stops => CTable.row_fault stops
      refine ((Makes.call owned (.incr field obj)).rethrow.bind (fun _ =>
        (Makes.inspect rows).bind (fun row => ih.bind (fun values => Makes.pure _)))).congr ?_
      intro table
      rw [callsAfter_rethrow]
      have nothing : ∀ (table : CTable creator),
          callsAfter (incrPairs host ctl id rest table) (fun _ _ => []) = [] := by
        intro table
        cases incrPairs host ctl id rest table <;> rfl
      simp [incrPairsCalls, callThen, number, nothing]
  | case3 rest short =>
      refine (Makes.pure _).congr ?_
      intro table
      unfold incrPairsCalls
      split
      · next fieldObj obj more => exact absurd rfl (short fieldObj obj more)
      · rfl

/-- The loop of `null`, by induction on its fields. -/
theorem nullFields_makes {id : RowId} (owned : mine .normal id) (fieldObjs : List Obj)
    : Makes host mine (nullFields host id fieldObjs : TableM creator Unit)
        (nullFieldsCalls host id fieldObjs) := by
  induction fieldObjs with
  | nil => exact Makes.pure ()
  | cons fieldObj rest ih =>
      rw [nullFields]
      cases number : creator.fieldNumber fieldObj with
      | none =>
          refine (Makes.fail _).congr ?_
          intro table
          simp [nullFieldsCalls, number]
      | some field =>
          refine ((Makes.call owned (.null field)).bind (fun _ => ih)).congr ?_
          intro table
          simp [nullFieldsCalls, callThen, number]

/-- One column makes at most one call. -/
theorem setColumn_makes (options : TabsepOptions creator) {ctl : IndexCtl} {id : RowId}
    (owned : mine ctl id) (missing : Bool) (text : CString) (length : Nat)
    (field : Option creator.Field)
    : Makes host mine (setColumn host options ctl id missing text length field)
        (setColumnCalls options ctl id missing text length field) := by
  cases field with
  | none => exact Makes.pure ()
  | some field =>
      rw [setColumn]
      by_cases isNull : columnIsNull options field missing text
      · rw [if_pos isNull]
        refine (Makes.pure ()).congr ?_
        intro table
        simp [setColumnCalls, isNull]
      · rw [if_neg isNull]
        have reads : ∀ (table : CTable creator) fault,
            columnObj options field text length = .error fault → fault.NotDouble := by
          intro table fault stops
          unfold columnObj at stops
          dsimp only at stops
          split at stops
          · split at stops <;> cases stops
            exact fun _ same => nomatch same
          · cases stops
        refine ((Makes.inspect reads).bind
          (fun obj => Makes.call owned (.set field obj))).congr ?_
        intro table
        simp only [setColumnCalls, isNull, inspect, Bind.bind, EStateM.bind, get, getThe,
          MonadStateOf.get, EStateM.get]
        cases columnObj options field text length with
        | ok obj => rfl
        | error fault => rfl

/-- The column loop of a tab-separated line, by induction on the columns. -/
theorem setColumns_makes (options : TabsepOptions creator) {ctl : IndexCtl} {id : RowId}
    (owned : mine ctl id)
    : ∀ (fields : List (Option creator.Field)) (column : Nat) (line : Option CString),
        Makes host mine (setColumns host options ctl id fields column line)
          (setColumnsCalls host options ctl id fields column line) := by
  intro fields
  induction fields with
  | nil => exact fun _ _ => Makes.pure ()
  | cons field rest ih =>
      intro column line
      exact (setColumn_makes options owned _ _ _ field).bind (fun _ => ih _ _)

-----------------------------------------------------------------------------------------
-- The commands that write rows
-----------------------------------------------------------------------------------------

/-- What the parts of the commands owe to an invariant: the lookup or creation of a row hands
the table over to the writes, the safe writes keep it, and the end of the command takes it
back. Errors leave a table that has not failed, and faults are as allowed.
-/
structure Upkeep (host : Host) (holds : CTable creator → Prop)
    (during : IndexCtl → RowId → CTable creator → Prop) (failed : CTable creator → Prop)
    (lost : Fault → Prop) (safe : Call creator → Prop)
    : Prop where
  stops : ∀ table, holds table → failed table
  breaks : ∀ ctl id table, during ctl id table → failed table
  others : ∀ fault, fault.NotDouble → lost fault
  counter : ∀ table number, holds table → holds { table with autoRowNumber := number }
  find : ∀ table key id, holds table → table.findHashEntry key = .ok (some id) →
    during .normal id table
  create : ∀ table key, holds table →
    wp (findOrCreate host key) (fun row => during row.2 row.1) (stopped failed lost) table
  write : ∀ call, safe call → during call.ctl call.id call.table →
    wp (call.run host) (fun _ => during call.ctl call.id) (stopped failed lost) call.table
  dirty : ∀ ctl id table, during ctl id table →
    wp (setDirty id) (fun _ => during ctl id) (stopped failed lost) table
  finish : ∀ ctl id table, during ctl id table →
    wp (finishRow host ctl id) (fun _ => holds) (stopped failed lost) table

namespace Upkeep

variable {holds : CTable creator → Prop} {during : IndexCtl → RowId → CTable creator → Prop}
  {failed : CTable creator → Prop} {lost : Fault → Prop} {safe : Call creator → Prop}
  {table : CTable creator}

/-- An action that makes safe calls on its row keeps the table handed over. -/
theorem makes (upkeep : Upkeep host holds during failed lost safe) {ctl : IndexCtl} {id : RowId}
    {action : TableM creator α} {calls : CTable creator → List (Call creator)}
    (working : Makes host (fun otherCtl other => otherCtl = ctl ∧ other = id) action calls)
    (safely : ∀ call ∈ calls table, safe call) (start : during ctl id table)
    : wp action (fun _ => during ctl id) (stopped failed lost) table := by
  refine working.keeps (upkeep.breaks ctl id) upkeep.others ?_ start
  intro call member here
  obtain ⟨sameCtl, sameId⟩ := working.own member
  have kept := upkeep.write call (safely call member)
  rw [sameCtl, sameId] at kept
  exact kept here

/-- The end of a normal write gives the invariant back. -/
theorem release (upkeep : Upkeep host holds during failed lost safe) {id : RowId}
    (here : during .normal id table)
    : holds table := by
  simpa [finishRow] using upkeep.finish .normal id table here

/-- A row that is found or created is handed over to the calls that follow. -/
theorem handOver {find : TableM creator (RowId × IndexCtl)}
    {calls : IndexCtl → RowId → CTable creator → List (Call creator)}
    (found : wp find (fun row => during row.2 row.1) (stopped failed lost) table)
    (safely : ∀ call ∈ rowCalls (find table) calls, safe call)
    : wp find
        (fun row created => during row.2 row.1 created ∧ ∀ call ∈ calls row.2 row.1 created, safe call)
        (stopped failed lost) table := by
  refine wp_of_results ?_ (fun stop next run => wp_stops found run)
  intro row created run
  have here := wp_returns found run
  refine ⟨here, fun call member => safely call ?_⟩
  simpa [rowCalls, callsAfter, run] using member

theorem createRow (upkeep : Upkeep host holds during failed lost safe) (key : CString)
    (start : holds table)
    : wp (findOrCreateRow host key) (fun row => during row.2 row.1) (stopped failed lost) table := by
  rw [findOrCreateRow, wp_rethrow]
  exact upkeep.create table key start

theorem set (upkeep : Upkeep host holds during failed lost safe) {arguments : List Obj}
    (safely : ∀ call ∈ setCommandCalls host table arguments, safe call) (start : holds table)
    : wp (setCommand host arguments) (fun _ => holds) (stopped failed lost) table := by
  cases arguments with
  | nil => exact upkeep.stops table start
  | cons key arguments =>
      rw [setCommand, wp_bind]
      cases options : takeOptions false arguments with
      | error error => exact upkeep.stops table start
      | ok parsed =>
          obtain ⟨nocomplain, rest⟩ := parsed
          simp only [setCommandCalls, options] at safely
          simp only [orFail, wp_pure]
          rw [wp_bind]
          refine wp_mono (handOver (upkeep.createRow key start) safely) ?_ (fun _ _ stop => stop)
          rintro ⟨id, ctl⟩ created ⟨here, safeCalls⟩
          dsimp only at here safeCalls ⊢
          rw [wp_bind]
          cases pairs : evenKeyValueList host rest with
          | error error => exact upkeep.breaks ctl id created here
          | ok elements =>
              rw [pairs] at safeCalls
              simp only [wp_pure]
              rw [wp_bind]
              refine wp_mono (upkeep.makes (setPairs_makes ⟨rfl, rfl⟩ nocomplain elements)
                safeCalls here) ?_ (fun _ _ stop => stop)
              exact fun _ written after => upkeep.finish ctl id written after

theorem store (upkeep : Upkeep host holds during failed lost safe) {arguments : List Obj}
    (safely : ∀ call ∈ storeCommandCalls host table arguments, safe call) (start : holds table)
    : wp (storeCommand host arguments) (fun _ => holds) (stopped failed lost) table := by
  rw [storeCommand, wp_bind]
  cases checked : storeArguments host arguments with
  | error error => exact upkeep.stops table start
  | ok parsed =>
      obtain ⟨nocomplain, elements⟩ := parsed
      simp only [storeCommandCalls, checked] at safely
      simp only [orFail, wp_pure]
      have keyed : wp (storeKey elements) (fun key after => holds after
            ∧ ∀ call ∈ rowCalls (findOrCreateRow host key after)
                (fun ctl id => setPairsCalls host ctl id nocomplain elements), safe call)
          (stopped failed lost) table := by
        unfold storeKey at safely ⊢
        split
        · next key isKey =>
            rw [isKey] at safely
            exact ⟨start, safely⟩
        · next noKey =>
            rw [noKey] at safely
            exact ⟨upkeep.counter table _ start, safely⟩
      rw [wp_bind]
      refine wp_mono keyed ?_ (fun _ _ stop => stop)
      rintro key middle ⟨ready, safeRow⟩
      rw [wp_bind]
      refine wp_mono (handOver (upkeep.createRow key ready) safeRow) ?_ (fun _ _ stop => stop)
      rintro ⟨id, ctl⟩ created ⟨here, safeCalls⟩
      dsimp only at here safeCalls ⊢
      rw [wp_bind]
      refine wp_mono (upkeep.makes (setPairs_makes ⟨rfl, rfl⟩ nocomplain elements)
        safeCalls here) ?_ (fun _ _ stop => stop)
      intro _ written after
      rw [wp_bind]
      exact wp_mono (upkeep.finish ctl id written after) (fun _ _ done => done)
        (fun _ _ stop => stop)

theorem incr (upkeep : Upkeep host holds during failed lost safe) {arguments : List Obj}
    (safely : ∀ call ∈ incrCommandCalls host table arguments, safe call) (start : holds table)
    : wp (incrCommand host arguments) (fun _ => holds) (stopped failed lost) table := by
  rw [incrCommand, wp_bind]
  cases checked : incrArguments arguments with
  | error error => exact upkeep.stops table start
  | ok parsed =>
      obtain ⟨key, rest⟩ := parsed
      simp only [incrCommandCalls, checked] at safely
      simp only [orFail, wp_pure]
      rw [wp_bind]
      refine wp_mono (handOver (upkeep.createRow key start) safely) ?_ (fun _ _ stop => stop)
      rintro ⟨id, ctl⟩ created ⟨here, safeCalls⟩
      dsimp only at here safeCalls ⊢
      rw [wp_bind]
      cases pairs : evenKeyValueList host rest with
      | error error => exact upkeep.breaks ctl id created here
      | ok elements =>
          rw [pairs] at safeCalls
          simp only [wp_pure]
          rw [wp_bind]
          refine wp_mono (upkeep.makes (incrPairs_makes ⟨rfl, rfl⟩ elements) safeCalls here) ?_
            (fun _ _ stop => stop)
          intro values written after
          rw [wp_bind]
          exact wp_mono (upkeep.finish ctl id written after) (fun _ _ done => done)
            (fun _ _ stop => stop)

theorem readTabsep (upkeep : Upkeep host holds during failed lost safe)
    {options : TabsepOptions creator} {line : CString}
    (safely : ∀ call ∈ setFromTabsepCalls host options line table, safe call) (start : holds table)
    : wp (setFromTabsep host options line) (fun _ => holds) (stopped failed lost) table := by
  have keyed : wp (lineKey options line) (fun key after => holds after
        ∧ ∀ call ∈ rowCalls (findOrCreate host key after)
            (fun ctl id => setColumnsCalls host options ctl id options.fieldIds 0 (some line)),
          safe call)
      (stopped failed lost) table := by
    refine wp_of_results ?_ ?_
    · intro key after run
      refine ⟨?_, fun call member => safely call ?_⟩
      · have counted : wp (lineKey options line) (fun _ => holds) (fun _ _ => True) table := by
          unfold lineKey
          split
          · exact upkeep.counter table _ start
          · rw [wp_inspect]
            exact ⟨fun _ _ => start, fun _ _ => trivial⟩
        exact wp_returns counted run
      · simpa [setFromTabsepCalls, callsAfter, run] using member
    · intro stop after run
      have unread : wp (lineKey options line) (fun _ _ => True) (stopped failed lost) table := by
        unfold lineKey
        split
        · trivial
        · rw [wp_inspect]
          refine ⟨fun _ _ => trivial, fun fault stops => upkeep.others fault ?_⟩
          unfold tabsepKey at stops
          split at stops
          · cases stops
          · dsimp only at stops
            split at stops <;> cases stops
            exact fun _ same => nomatch same
      exact wp_stops unread run
  rw [setFromTabsep, wp_bind]
  refine wp_mono keyed ?_ (fun _ _ stop => stop)
  rintro key middle ⟨ready, safeRow⟩
  rw [wp_bind]
  refine wp_mono (handOver (upkeep.create middle key ready) safeRow) ?_ (fun _ _ stop => stop)
  rintro ⟨id, ctl⟩ created ⟨here, safeCalls⟩
  dsimp only at here safeCalls ⊢
  rw [wp_bind]
  refine wp_mono (upkeep.makes (setColumns_makes options ⟨rfl, rfl⟩ _ _ _) safeCalls here) ?_
    (fun _ _ stop => stop)
  intro _ written after
  have marked : wp (markRead options id) (fun _ => during ctl id) (stopped failed lost) written := by
    unfold markRead
    split
    · exact upkeep.dirty ctl id written after
    · exact after
  rw [wp_bind]
  exact wp_mono marked (fun _ _ ready => upkeep.finish ctl id _ ready) (fun _ _ stop => stop)

theorem null (upkeep : Upkeep host holds during failed lost safe) {arguments : List Obj}
    (safely : ∀ call ∈ nullCommandCalls host table arguments, safe call) (start : holds table)
    : wp (nullCommand host arguments) (fun _ => holds) (stopped failed lost) table := by
  cases arguments with
  | nil => exact upkeep.stops table start
  | cons key fieldObjs =>
      rw [nullCommand, wp_bind, wp_inspect]
      refine ⟨?_, fun fault stops => upkeep.others fault (CTable.findHashEntry_fault stops)⟩
      intro entry found
      cases entry with
      | none => exact upkeep.stops table start
      | some id =>
          simp only [nullCommandCalls, found] at safely
          refine wp_mono (upkeep.makes (nullFields_makes ⟨rfl, rfl⟩ fieldObjs) safely
            (upkeep.find table key id start found)) ?_ (fun _ _ stop => stop)
          exact fun _ written after => upkeep.release after

end Upkeep

end SpeedTables
