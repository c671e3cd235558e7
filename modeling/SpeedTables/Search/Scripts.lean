import SpeedTables.Search.Visits
import SpeedTables.Table.Upkeep

/-! Scripts of table commands and searches, and what they keep from what the operations on rows and
indexes keep.
-/

namespace SpeedTables

open Lib

variable {creator : CreatorTable} {host : Host}

-----------------------------------------------------------------------------------------
-- Transactions
-----------------------------------------------------------------------------------------

/-- The calls of the field loop of an update. -/
def updateRowCalls (host : Host) (id : RowId)
    : List (creator.Field × Obj) → CTable creator → List (Call creator)
  | [], _ => []
  | (field, obj) :: rest, table =>
      callThen host .normal id (.set field obj) (updateRowCalls host id rest) table

/-- The calls of the row loop of an update. -/
def updateRowsCalls (host : Host) (updates : List (creator.Field × Obj))
    : List RowId → CTable creator → List (Call creator)
  | [], _ => []
  | id :: rest, table =>
      updateRowCalls host id updates table
        ++ callsAfter (updateRow host id updates table)
            (fun _ => updateRowsCalls host updates rest)

/-- The calls of a transaction. -/
def transactionCalls (host : Host) (transaction : Transaction) (rows : List RowId)
    (table : CTable creator) : List (Call creator) :=
  match transaction with
  | .update list =>
      match parseUpdate creator host list with
      | .ok updates => updateRowsCalls host updates rows table
      | .error _ => []
  | _ => []

/-- The field loop of an update makes its calls, by induction on the fields. -/
theorem updateRow_makes {mine : IndexCtl → RowId → Prop} {id : RowId} (owned : mine .normal id)
    (updates : List (creator.Field × Obj))
    : Makes host mine (updateRow host id updates) (updateRowCalls host id updates) := by
  induction updates with
  | nil => exact Makes.pure ()
  | cons update rest ih =>
      obtain ⟨field, obj⟩ := update
      refine ((Makes.call owned (.set field obj)).rethrow.bind (fun _ => ih)).congr ?_
      intro table
      rw [callsAfter_rethrow]
      rfl

-----------------------------------------------------------------------------------------
-- What operations owe to an invariant
-----------------------------------------------------------------------------------------

/-- A property of tables that a search keeps while it runs: it is also about none of the chain of
active searches, the cursors, and the tests of the free memory.
-/
structure SearchInvariant (holds : CTable creator → Prop) : Prop extends WalkInvariant holds where
  aside : ∀ table searches cursors memoryTests, holds table →
    holds { table with searches := searches, cursors := cursors, memoryTests := memoryTests }

/-- What the operations on rows and indexes owe to an invariant, beyond the writes of rows: indexes
may be made of the depths that are allowed.
-/
structure TableInvariant (host : Host) (holds : CTable creator → Prop)
    (during : IndexCtl → RowId → CTable creator → Prop) (failed : CTable creator → Prop)
    (safe : Call creator → Prop) (deep : Int → Prop)
    : Prop extends Upkeep host holds during failed (fun _ => True) safe, SearchInvariant holds where
  own : ∀ table id, holds table → id ∈ table.llHead → during .normal id table
  discard : ∀ table id, holds table →
    wp (discardRow id) (fun _ => holds) (stopped failed (fun _ => True)) table
  reset : ∀ table after, holds table → table.Emptied after →
    holds { after with keyTable := after.keyTable.init }
  drop : ∀ table field, holds table → holds (table.dropIndex field)
  build : ∀ table field depth, holds table → deep depth →
    wp (createIndex host field depth) (fun _ => holds) (stopped failed (fun _ => True)) table

/-- The same without the deletion of rows: what the commands but `delete` owe to an invariant. -/
structure CommandInvariant (host : Host) (holds : CTable creator → Prop)
    (during : IndexCtl → RowId → CTable creator → Prop) (failed : CTable creator → Prop)
    (safe : Call creator → Prop) (deep : Int → Prop)
    : Prop extends Upkeep host holds during failed (fun _ => True) safe, SearchInvariant holds where
  reset : ∀ table after, holds table → table.Emptied after →
    holds { after with keyTable := after.keyTable.init }
  drop : ∀ table field, holds table → holds (table.dropIndex field)
  build : ∀ table field depth, holds table → deep depth →
    wp (createIndex host field depth) (fun _ => holds) (stopped failed (fun _ => True)) table

section Invariant

variable {holds failed : CTable creator → Prop} {during : IndexCtl → RowId → CTable creator → Prop}
  {safe : Call creator → Prop} {deep : Int → Prop}

/-- Updating a row of the table keeps an invariant, and the rows. -/
theorem updateRow_kept (invariant : TableInvariant host holds during failed safe deep)
    {rows : List RowId} {table : CTable creator} {id : RowId}
    (updates : List (creator.Field × Obj)) (here : table.Over holds rows) (listed : id ∈ rows)
    (safely : ∀ call ∈ updateRowCalls host id updates table, safe call)
    : wp (updateRow host id updates) (fun _ => CTable.Over holds rows)
        (stopped failed (fun _ => True)) table := by
  have makes : Makes host (fun ctl row => ctl = .normal ∧ row = id)
      (updateRow host id updates) (updateRowCalls host id updates) :=
    updateRow_makes ⟨rfl, rfl⟩ updates
  have kept : wp (updateRow host id updates)
      (fun _ after => during .normal id after ∧ after.llHead = rows)
      (stopped failed (fun _ => True)) table := by
    refine makes.keeps (fun table here => invariant.breaks _ _ table here.1) (fun _ _ => trivial)
      ?_ ⟨invariant.own table id here.1 (here.2 ▸ listed), here.2⟩
    rintro call member ⟨started, sameRows⟩
    obtain ⟨normal, own⟩ := makes.own member
    have framed := (writeSteps_rowFrame host call.id).write call.ctl call.write call.table
    rw [← normal, ← own] at started ⊢
    refine wp_mono (wp_and (invariant.write call (safely call member) started) framed) ?_
      (fun _ _ both => both.1)
    exact fun _ after both => ⟨both.1, both.2.llHead.trans sameRows⟩
  refine wp_mono kept ?_ (fun _ _ stop => stop)
  exact fun _ after both => ⟨invariant.toUpkeep.release both.1, both.2⟩

/-- Updating rows of the table keeps an invariant, by induction on the rows. -/
theorem updateRows_kept (invariant : TableInvariant host holds during failed safe deep)
    {rows : List RowId} {table : CTable creator} (updates : List (creator.Field × Obj))
    (ids : List RowId) (here : table.Over holds rows) (listed : ∀ id ∈ ids, id ∈ rows)
    (safely : ∀ call ∈ updateRowsCalls host updates ids table, safe call)
    : wp (updateRows host updates ids) (fun _ => CTable.Over holds rows)
        (stopped failed (fun _ => True)) table := by
  induction ids generalizing table with
  | nil => exact here
  | cons id rest ih =>
      have first := updateRow_kept invariant updates here (listed id (by simp))
        (fun call member => safely call (List.mem_append_left _ member))
      rw [updateRows, wp_bind]
      refine wp_of_results ?_ (fun _ _ run => wp_stops first run)
      intro _ middle run
      have next : middle.Over holds rows := by simpa only [wp, run] using first
      refine ih next (fun other member => listed other (by simp [member])) ?_
      intro call member
      exact safely call (List.mem_append_right _ (by simpa [callsAfter, run] using member))

/-- Deleting rows keeps an invariant, by induction on the rows. -/
theorem deleteRows_kept (invariant : TableInvariant host holds during failed safe deep)
    {table : CTable creator} (ids : List RowId) (here : holds table)
    : wp (deleteRows ids) (fun _ => holds) (stopped failed (fun _ => True)) table := by
  induction ids generalizing table with
  | nil => exact here
  | cons id rest ih =>
      rw [deleteRows, wp_bind]
      exact wp_mono (invariant.discard table id here) (fun _ _ left => ih left)
        (fun _ _ stop => stop)

/-- A transaction on rows of the table keeps an invariant. -/
theorem performTransaction_kept (invariant : TableInvariant host holds during failed safe deep)
    {table : CTable creator} (transaction : Transaction) (ids : List RowId) (here : holds table)
    (listed : ∀ id ∈ ids, id ∈ table.llHead)
    (safely : ∀ call ∈ transactionCalls host transaction ids table, safe call)
    : wp (performTransaction host transaction ids) (fun _ => holds)
        (stopped failed (fun _ => True)) table := by
  cases transaction with
  | none => exact here
  | cursor => exact here
  | delete => exact deleteRows_kept invariant ids here
  | update list =>
      rw [performTransaction, wp_bind]
      cases parsed : parseUpdate creator host list with
      | error error => exact invariant.stops table here
      | ok updates =>
          rw [transactionCalls, parsed] at safely
          simp only [orFail, wp_pure]
          exact wp_mono (updateRows_kept invariant updates ids ⟨here, rfl⟩ listed safely)
            (fun _ _ after => after.1) (fun _ _ stop => stop)

-----------------------------------------------------------------------------------------
-- Steps of a search
-----------------------------------------------------------------------------------------

/-- The rows a search has collected, and the one its walk stands at, are among the given ones. -/
structure SearchFrame.Listed (rows : List RowId) (frame : SearchFrame creator) : Prop where
  collected : ∀ id ∈ frame.tranTable, id ∈ rows
  position : ∀ pos, frame.phase = .walking pos → pos.Within rows

/-- What a step of a search leaves: the invariant, and, unless it has ended, the rows of the table
as they were.
-/
def FrameStep.Kept (holds : CTable creator → Prop) (rows : List RowId) (table : CTable creator)
    : FrameStep creator → Prop
  | .next frame => frame.Listed rows ∧ table.Over holds rows
  | .body frame => frame.Listed rows ∧ table.Over holds rows
  | .finished _ _ => holds table

section Steps

variable {rows : List RowId} {table : CTable creator} {frame : SearchFrame creator}

/-- The chain of active searches and the cursors are no part of the invariant. -/
theorem SearchInvariant.leave (invariant : SearchInvariant holds) (here : table.Over holds rows)
    (searches : List (Option creator.Field)) (cursors : List Cursor)
    : CTable.Over holds rows { table with searches := searches, cursors := cursors } :=
  ⟨invariant.aside table searches cursors table.memoryTests here.1, here.2⟩

/-- The end of a walk collects no other rows. -/
theorem SearchFrame.completeWalk_kept (invariant : SearchInvariant holds) (returned : Bool) (here : table.Over holds rows)
    (collected : ∀ id ∈ frame.tranTable, id ∈ rows)
    : wp (frame.completeWalk returned) (fun step after => step.Kept holds rows after) onlyFaults
        table := by
  have left := invariant.leave here (none :: table.searches.tail) table.cursors
  rw [completeWalk, wp_bind, leaveIndex, wp_modify]
  split
  · exact left.1
  · split
    · exact left.1
    · rw [wp_bind, wp_get]
      have sorted : ∀ id ∈ (if frame.sort = [] then frame.tranTable
          else CTable.sortRows { table with searches := none :: table.searches.tail } frame.sort
            frame.tranTable), id ∈ rows := by
        intro id inside
        split at inside
        · exact collected id inside
        · exact collected id (List.mem_mergeSort.mp inside)
      dsimp only
      split
      · rw [wp_bind, wp_set]
        exact (invariant.leave here _ _).1
      · split
        · exact ⟨⟨sorted, nofun⟩, left⟩
        · exact ⟨⟨sorted, nofun⟩, left⟩

theorem SearchFrame.afterStatus_kept (invariant : SearchInvariant holds) (status : Status) (here : table.Over holds rows)
    (listed : frame.Listed rows)
    : wp (frame.afterStatus status) (fun step after => step.Kept holds rows after) onlyFaults
        table := by
  cases status with
  | ok => exact ⟨listed, here⟩
  | «continue» => exact ⟨listed, here⟩
  | «break» => exact completeWalk_kept invariant false here listed.collected
  | «return» => exact completeWalk_kept invariant true here listed.collected
  | error error => exact here.1

theorem SearchFrame.afterMatch_kept (invariant : SearchInvariant holds) (here : table.Over holds rows) (listed : frame.Listed rows)
    : wp frame.afterMatch (fun step after => step.Kept holds rows after) onlyFaults table := by
  unfold afterMatch
  split
  · exact completeWalk_kept invariant false here listed.collected
  · exact ⟨listed, here⟩

/-- A match collects the row it came to. -/
theorem SearchFrame.matchRow_kept (invariant : SearchInvariant holds) {id : RowId} (here : table.Over holds rows)
    (listed : frame.Listed rows) (inTable : id ∈ rows)
    : wp (frame.matchRow id) (fun step after => step.Kept holds rows after) onlyFaults table := by
  have more : ∀ other ∈ (if frame.buffering = .none then frame.tranTable
      else frame.tranTable ++ [id]), other ∈ rows := by
    intro other inside
    split at inside
    · exact listed.collected other inside
    · rcases List.mem_append.mp inside with known | new
      · exact listed.collected other known
      · rw [List.mem_singleton.mp new]
        exact inTable
  unfold matchRow
  dsimp only
  split
  · trivial
  · split
    · exact ⟨⟨more, listed.position⟩, here⟩
    · split
      · exact ⟨⟨more, listed.position⟩, here⟩
      · exact afterMatch_kept invariant here ⟨more, listed.position⟩

/-- Any stop is as allowed where the invariant holds. -/
theorem Upkeep.stops_any (upkeep : Upkeep host holds during failed (fun _ => True) safe)
    (here : holds table) (stop : Stop)
    : stopped failed (fun _ => True) stop table := by
  cases stop with
  | tcl error => exact upkeep.stops table here
  | fault fault => trivial

/-- Where only faults are allowed, no error is left. -/
theorem onlyFaults_stopped (stop : Stop) (table : CTable creator) (faults : onlyFaults stop table)
    : stopped failed (fun _ => True) stop table := by
  cases stop with
  | tcl error => exact faults.elim
  | fault fault => trivial

/-- One visit of the walk. -/
theorem SearchFrame.walk_kept (invariant : TableInvariant host holds during failed safe deep)
    {pos : WalkPos} (here : table.Over holds rows) (listed : frame.Listed rows)
    (within : pos.Within rows)
    : wp (frame.walk host pos) (fun step after => step.Kept holds rows after)
        (stopped failed (fun _ => True)) table := by
  have searching := invariant.toSearchInvariant
  rw [walk, wp_bind]
  refine wp_mono (walkStep_settled searching.toWalkInvariant frame.plan pos here within) ?_
    onlyFaults_stopped
  rintro result after ⟨here, settled⟩
  cases result with
  | complete =>
      exact wp_mono (completeWalk_kept searching false here listed.collected)
        (fun _ _ kept => kept) onlyFaults_stopped
  | endless => exact here.1
  | visit id next =>
      dsimp only
      rw [wp_bind, wp_inspect]
      refine ⟨fun row read => ?_, fun _ _ => trivial⟩
      have inTable : id ∈ after.llHead := settled.1.listed read
      have listed' : SearchFrame.Listed rows
          { frame with
            phase := .walking next
            record := { frame.record with visited := frame.record.visited ++ [id] } } := by
        refine ⟨listed.collected, ?_⟩
        rintro pos ⟨⟩
        exact here.2 ▸ settled.2 inTable
      split
      · exact invariant.toUpkeep.stops_any here.1 _
      · exact wp_mono (matchRow_kept searching here listed' (here.2 ▸ inTable))
          (fun _ _ kept => kept) onlyFaults_stopped
      · exact wp_mono (afterStatus_kept searching _ here listed') (fun _ _ kept => kept)
          onlyFaults_stopped

/-- A step of a search keeps the invariant, and the collected rows are rows of the table. -/
theorem SearchFrame.advance_kept (invariant : TableInvariant host holds during failed safe deep)
    (here : table.Over holds rows) (listed : frame.Listed rows)
    (safely : ∀ returned, frame.phase = .transacting returned →
      ∀ call ∈ transactionCalls host frame.request.transaction frame.selected table, safe call)
    : wp (frame.advance host) (fun step after => step.Kept holds rows after)
        (stopped failed (fun _ => True)) table := by
  unfold advance
  split
  · next pos phase => exact walk_kept invariant here listed (listed.position pos phase)
  · next index phase =>
      unfold act
      split
      · exact ⟨⟨listed.collected, nofun⟩, here⟩
      · rw [wp_bind, wp_inspect]
        refine ⟨fun _ _ => ?_, fun _ _ => trivial⟩
        dsimp only
        split
        · exact ⟨⟨listed.collected, nofun⟩, here⟩
        · exact ⟨⟨listed.collected, nofun⟩, here⟩
  · next returned phase =>
      have selected : ∀ id ∈ frame.selected, id ∈ table.llHead := by
        intro id inside
        rw [here.2]
        exact listed.collected id (List.mem_of_mem_take (List.mem_of_mem_drop inside))
      rw [transact, wp_bind]
      exact wp_mono (performTransaction_kept invariant frame.request.transaction frame.selected
        here.1 selected (safely returned phase)) (fun _ _ after => after) (fun _ _ stop => stop)

/-- The end of a code body changes no index. -/
theorem SearchFrame.resume_kept (invariant : SearchInvariant holds) (status : Status) (here : table.Over holds rows)
    (listed : frame.Listed rows)
    : wp (frame.resume status) (fun step after => step.Kept holds rows after) onlyFaults
        table := by
  unfold resume
  split
  · exact afterMatch_kept invariant here listed
  · exact afterMatch_kept invariant here listed
  · exact afterStatus_kept invariant _ here listed
  · exact ⟨listed, here⟩
  · exact ⟨listed, here⟩
  · exact ⟨⟨listed.collected, nofun⟩, here⟩
  · exact ⟨⟨listed.collected, nofun⟩, here⟩
  · exact here.1
  · exact ⟨⟨listed.collected, nofun⟩, here⟩

/-- The start of a search changes nothing of the invariant. -/
theorem startSearch_kept (invariant : TableInvariant host holds during failed safe deep)
    (request : SearchRequest creator) (here : table.Over holds rows)
    : wp (startSearch host request) (fun step after => step.Kept holds rows after)
        (stopped failed (fun _ => True)) table := by
  have searching := invariant.toSearchInvariant
  have refused := invariant.stops table here.1
  rw [startSearch, wp_bind, checkDelete, wp_bind, wp_get]
  split
  · exact refused
  · split
    · exact refused
    · rw [wp_pure, wp_bind, wp_get]
      split
      · exact here.1
      · split
        · trivial
        · split
          · split
            · rw [wp_bind, wp_set]
              exact (searching.leave here table.searches _).1
            · exact here.1
          · split
            · exact invariant.toUpkeep.stops_any here.1 _
            · rw [wp_bind, wp_set]
              refine ⟨⟨by simp, ?_⟩, searching.leave here _ table.cursors⟩
              rintro pos ⟨⟩
              trivial

end Steps

end Invariant

-----------------------------------------------------------------------------------------
-- Commands
-----------------------------------------------------------------------------------------

/-- The table once a command has tested the free memory of a shared table. -/
def CTable.memoryTested (table : CTable creator) : CTable creator :=
  if table.sharedMaster then { table with memoryTests := table.memoryTests + 1 } else table

/-- The setter calls of a command are safe, and it makes no index of a depth that is not allowed. -/
def Command.Safe (host : Host) (safe : Call creator → Prop) (deep : Int → Prop)
    (table : CTable creator) : Command creator → Prop
  | .set arguments => ∀ call ∈ setCommandCalls host table.memoryTested arguments, safe call
  | .store arguments => ∀ call ∈ storeCommandCalls host table.memoryTested arguments, safe call
  | .incr arguments => ∀ call ∈ incrCommandCalls host table.memoryTested arguments, safe call
  | .null arguments => ∀ call ∈ nullCommandCalls host table arguments, safe call
  | .readTabsep options line => ∀ call ∈ setFromTabsepCalls host options line table, safe call
  | .indexCreate arguments =>
      ∀ fieldObj depthObj, arguments = [fieldObj, depthObj] →
        ∀ depth ∈ host.getInt depthObj, deep depth
  | _ => True

/-- The commands that do not destroy the table. -/
def Command.Lasting : Command creator → Prop
  | .destroy => False
  | .commandDeleted => False
  | _ => True

/-- A table that is destroyed, and has no index left. -/
def CTable.Gone (table : CTable creator) : Prop :=
  table.destroyed = true ∧ ∀ field, table.skipLists field = none

section Commands

variable {holds failed : CTable creator → Prop} {during : IndexCtl → RowId → CTable creator → Prop}
  {safe : Call creator → Prop} {deep : Int → Prop} {table : CTable creator}

theorem SearchInvariant.memoryTested (invariant : SearchInvariant holds) (here : holds table)
    : holds table.memoryTested := by
  unfold CTable.memoryTested
  split
  · exact invariant.aside table table.searches table.cursors (table.memoryTests + 1) here
  · exact here

/-- A command that is refused on account of a cursor does nothing. -/
theorem wp_refuseCursors {name : String} {action : TableM creator Unit}
    {ok : Unit → CTable creator → Prop} (refused : failed table)
    (allowed : wp action ok (stopped failed (fun _ => True)) table)
    : wp (refuseCursors name action) ok (stopped failed (fun _ => True)) table := by
  rw [refuseCursors, wp_bind, wp_get]
  split
  · exact refused
  · exact allowed

/-- A command that goes on after the test of the free memory does so in the tested table. -/
theorem wp_checkMemory {α : Type} {error : TclError} {action : TableM creator α}
    {ok : α → CTable creator → Prop} (refused : failed table.memoryTested)
    (allowed : wp action ok (stopped failed (fun _ => True)) table.memoryTested)
    : wp (checkMemory host error action) ok (stopped failed (fun _ => True)) table := by
  rw [checkMemory, wp_bind, wp_get]
  unfold CTable.memoryTested at refused allowed
  split
  · next shared =>
      rw [if_pos shared] at refused allowed
      rw [wp_bind, wp_set]
      split
      · exact refused
      · exact allowed
  · next unshared =>
      rw [if_neg unshared] at allowed
      exact allowed

theorem wp_discard {α : Type} {action : TableM creator α} {ok : CTable creator → Prop}
    {err : Stop → CTable creator → Prop} (kept : wp action (fun _ => ok) err table)
    : wp (discard action) (fun _ => ok) err table := by
  rw [discard, wp_bind]
  exact kept

/-- Listing the values of an index moves its position only. -/
theorem listIndex_kept (invariant : WalkInvariant holds) (field : creator.Field)
    (here : holds table)
    : wp (listIndex host field) (fun _ => holds) onlyFaults table := by
  rw [listIndex, wp_bind, wp_get]
  split
  · exact here
  · next skip chain =>
      rw [wp_bind]
      have nodes : wp (resetCurl field skip)
          (fun _ after => ∃ list, after.skipLists field = some list) (fun _ _ => True) table := by
        unfold resetCurl
        split
        · trivial
        · rw [wp_modify]
          simp [CTable.setCurl, chain, CTable.setSkipList]
      refine wp_mono (wp_and (@resetCurl_kept _ _ table.llHead _ _ _ invariant ⟨here, rfl⟩ chain)
        nodes) ?_ (fun _ _ both => both.1)
      rintro - start ⟨⟨here, -⟩, list, present⟩
      rw [wp_bind]
      refine wp_mono (@wp_mapM Stop (CTable creator) _ _ _ onlyFaults
        (fun table => holds table ∧ ∃ list, table.skipLists field = some list) ?_ skip.nodes _
        ⟨here, list, present⟩) ?_ (fun _ _ stop => stop)
      · intro node middle here
        split
        · trivial
        · rw [wp_bind, wp_inspect]
          exact ⟨fun _ _ => here, fun _ _ => trivial⟩
      · rintro - final ⟨here, list, present⟩
        exact invariant.move final field list [] here present (List.nil_subset _)

/-- Reading the ends of an index moves its position only. -/
theorem lappendIndexLowAndHi_kept (walking : WalkInvariant holds) (refused : failed table)
    (field : creator.Field) (here : holds table)
    : wp (lappendIndexLowAndHi host field) (fun _ => holds) (stopped failed (fun _ => True))
        table := by
  rw [lappendIndexLowAndHi, wp_bind, wp_get]
  split
  · exact refused
  · next skip chain =>
      rw [wp_bind]
      have nodes : wp (resetCurl field skip)
          (fun _ after => ∃ list, after.skipLists field = some list ∧ list.nodes = skip.nodes)
          (fun _ _ => True) table := by
        unfold resetCurl
        split
        · trivial
        · rw [wp_modify]
          simp [CTable.setCurl, chain, CTable.setSkipList]
      refine wp_mono (wp_and (@resetCurl_kept _ _ table.llHead _ _ _ walking ⟨here, rfl⟩ chain)
        nodes) ?_ (fun stop after both => onlyFaults_stopped stop after both.1)
      rintro - start ⟨⟨here, -⟩, list, present, same⟩
      split
      · next first last _ final =>
          split
          · rw [wp_bind, wp_inspect]
            refine ⟨fun lowRow _ => ?_, fun _ _ => trivial⟩
            have placed := walking.move start field list [last] here present
              (fun node inside => by
                rw [List.mem_singleton.mp inside, same]
                exact List.mem_of_getLast? final)
            rw [wp_bind, wp_modify, wp_bind, wp_inspect]
            exact ⟨fun _ _ => placed, fun _ _ => trivial⟩
          · trivial
      · exact here

/-- A lasting command whose calls are safe keeps an invariant, if the deletion of a row that it looks
up does.
-/
theorem CommandInvariant.run_kept (invariant : CommandInvariant host holds during failed safe deep)
    (usual : deep 20) {command : Command creator} (lasting : command.Lasting) (here : holds table)
    (safely : command.Safe host safe deep table)
    (discards : ∀ key id, command = .delete [key] → table.findHashEntry key = .ok (some id) →
      wp (discardRow id) (fun _ => holds) (stopped failed (fun _ => True)) table)
    : wp (command.run host) (fun _ => holds) (stopped failed (fun _ => True)) table := by
  have searching := invariant.toSearchInvariant
  have tested := searching.memoryTested here
  have refused := invariant.stops table here
  have low := invariant.stops _ tested
  cases command with
  | set arguments =>
      exact wp_refuseCursors refused (wp_checkMemory low (invariant.toUpkeep.set safely tested))
  | store arguments =>
      exact wp_refuseCursors refused (wp_checkMemory low (wp_discard
        (invariant.toUpkeep.store safely tested)))
  | incr arguments =>
      exact wp_refuseCursors refused (wp_checkMemory low (wp_discard
        (invariant.toUpkeep.incr safely tested)))
  | null arguments => exact wp_refuseCursors refused (invariant.toUpkeep.null safely here)
  | readTabsep options line =>
      exact wp_refuseCursors refused (invariant.toUpkeep.readTabsep safely here)
  | delete arguments =>
      refine wp_refuseCursors refused (wp_discard ?_)
      unfold deleteCommand
      rw [wp_bind, wp_get]
      split
      · exact refused
      · split
        · exact refused
        · rcases arguments with _ | ⟨key, _ | ⟨other, more⟩⟩
          · exact refused
          · rw [wp_bind, wp_inspect]
            refine ⟨fun entry lookup => ?_, fun _ _ => trivial⟩
            cases entry with
            | none => exact here
            | some id =>
                rw [wp_bind]
                exact wp_mono (discards key id rfl lookup) (fun _ _ left => left)
                  (fun _ _ stop => stop)
          · exact refused
  | reset =>
      refine wp_refuseCursors refused ?_
      rw [resetCommand, wp_bind]
      exact deleteAllRows_spec fun after emptied _ => invariant.reset table after here emptied
  | destroy => exact lasting.elim
  | indexCreate arguments =>
      refine wp_refuseCursors refused (wp_checkMemory low ?_)
      rcases arguments with _ | ⟨fieldObj, _ | ⟨depthObj, _ | ⟨other, more⟩⟩⟩
      · exact low
      · unfold indexCreateCommand
        dsimp only
        split
        · exact low
        · exact invariant.build _ _ 20 tested usual
      · unfold indexCreateCommand
        dsimp only
        split
        · exact low
        · split
          · exact low
          · next depth found =>
              exact invariant.build _ _ depth tested (safely fieldObj depthObj rfl depth found)
      · exact low
  | indexDrop arguments =>
      refine wp_refuseCursors refused ?_
      unfold indexDropCommand
      split
      · split
        · exact refused
        · exact invariant.drop table _ here
      · exact refused
  | indexList arguments =>
      refine wp_refuseCursors refused ?_
      rw [wp_bind]
      cases indexField creator arguments with
      | error error => exact refused
      | ok field =>
          have listed : wp (discard (listIndex host field)) (fun _ => holds) onlyFaults table :=
            wp_discard (listIndex_kept searching.toWalkInvariant field here)
          simp only [orFail, wp_pure]
          exact wp_mono listed (fun _ _ kept => kept) onlyFaults_stopped
  | indexSpan arguments =>
      refine wp_refuseCursors refused ?_
      rw [wp_bind]
      cases indexField creator arguments with
      | error error => exact refused
      | ok field =>
          exact wp_discard (lappendIndexLowAndHi_kept searching.toWalkInvariant refused field here)
  | cursorDestroy name =>
      exact searching.aside table table.searches (table.destroyCursor name).cursors
        table.memoryTests here
  | cursorsDestroy => exact searching.aside table table.searches [] table.memoryTests here
  | commandDeleted => exact lasting.elim

/-- A command whose calls are safe keeps an invariant, unless it destroys the table. -/
theorem CommandInvariant.run_leaves
    (invariant : CommandInvariant host holds during failed safe deep) (usual : deep 20)
    {command : Command creator} (here : holds table) (safely : command.Safe host safe deep table)
    (discards : ∀ key id, command = .delete [key] → table.findHashEntry key = .ok (some id) →
      wp (discardRow id) (fun _ => holds) (stopped failed (fun _ => True)) table)
    : wp (command.run host) (fun _ after => holds after ∨ after.Gone)
        (stopped failed (fun _ => True)) table := by
  by_cases lasting : command.Lasting
  · exact wp_mono (invariant.run_kept usual lasting here safely discards)
      (fun _ _ after => .inl after) (fun _ _ stop => stop)
  · have gone : wp destroyCtable (fun _ after => holds after ∨ after.Gone)
        (stopped failed (fun _ => True)) table := by
      rw [destroyCtable, wp_bind]
      exact deleteAllRows_spec fun after emptied _ => .inr ⟨rfl, emptied.skipLists⟩
    cases command with
    | destroy => exact wp_refuseCursors (invariant.stops table here) gone
    | commandDeleted => exact gone
    | _ => exact absurd trivial lasting

theorem TableInvariant.toCommandInvariant
    (invariant : TableInvariant host holds during failed safe deep)
    : CommandInvariant host holds during failed safe deep :=
  { invariant with }

/-- The same where every deletion keeps the invariant. -/
theorem Command.run_leaves (invariant : TableInvariant host holds during failed safe deep)
    (usual : deep 20) {command : Command creator} (here : holds table)
    (safely : command.Safe host safe deep table)
    : wp (command.run host) (fun _ after => holds after ∨ after.Gone)
        (stopped failed (fun _ => True)) table :=
  invariant.toCommandInvariant.run_leaves usual here safely
    (fun _ id _ _ => invariant.discard table id here)

/-- The table after a command, as long as the process and the table live. -/
def CTable.afterCommand (host : Host) (table : CTable creator) (command : Command creator)
    : Option (CTable creator) :=
  match command.run host table with
  | .ok _ after => if after.destroyed then none else some after
  | .error (.tcl _) after => some after
  | .error (.fault _) _ => none

/-- A command leaves a living table that it returns with or that an error leaves. -/
theorem CTable.afterCommand_ends {ok err : CTable creator → Prop} {command : Command creator}
    {after : CTable creator}
    (ends : wp (command.run host) (fun _ => ok) (stopped err (fun _ => True)) table)
    (left : table.afterCommand host command = some after)
    : ok after ∧ after.destroyed = false ∨ err after := by
  unfold CTable.afterCommand at left
  split at left
  · next value middle run =>
      split at left
      · cases left
      · next living =>
          cases left
          exact .inl ⟨wp_returns ends run, by simpa using living⟩
  · next error middle run =>
      cases left
      exact .inr (wp_stops ends run)
  · cases left

/-- The table after commands, whose errors are accepted. -/
def CTable.afterCommands (host : Host) (table : CTable creator) (commands : List (Command creator))
    : Option (CTable creator) :=
  commands.foldlM (CTable.afterCommand host) table

/-- Every command meets a condition in the table that it is given. -/
def CTable.AlongCommands (host : Host) (meets : CTable creator → Command creator → Prop)
    (table : CTable creator) : List (Command creator) → Prop
  | [] => True
  | command :: rest =>
      meets table command
      ∧ ∀ next, table.afterCommand host command = some next → next.AlongCommands host meets rest

/-- What every command keeps that meets a condition is kept along a history, by induction on its
commands.
-/
theorem CTable.afterCommands_kept {kept : CTable creator → Prop}
    {meets : CTable creator → Command creator → Prop} {commands : List (Command creator)}
    (step : ∀ (table : CTable creator) (command : Command creator) (next : CTable creator),
      kept table → meets table command → table.afterCommand host command = some next → kept next)
    : ∀ {table after : CTable creator}, kept table → table.AlongCommands host meets commands →
        table.afterCommands host commands = some after → kept after := by
  induction commands with
  | nil =>
      intro table after here _ ran
      cases ran
      exact here
  | cons command rest ih =>
      rintro table after here ⟨condition, later⟩ ran
      obtain ⟨next, stepped, ran⟩ := Option.bind_eq_some_iff.mp ran
      exact ih (step table command next here condition stepped) (later next stepped) ran

end Commands

-----------------------------------------------------------------------------------------
-- Scripts
-----------------------------------------------------------------------------------------

/-- A new table, with nothing in progress on it. -/
def Session.new (creator : CreatorTable) (sharedMaster sharePanic : Bool) : Session creator where
  table := CTable.empty creator sharedMaster sharePanic
  stack := []

/-- The session after a script, as long as its errors are accepted. -/
def Session.run (host : Host) (accepts : Option TclError → Bool) (session : Session creator)
    : List (Event creator) → Option (Session creator)
  | [] => some session
  | event :: rest =>
      match session.step host event with
      | .moved next error => if accepts error then next.run host accepts rest else none
      | _ => none

/-- Every event of a script meets a condition in the session it happens in. -/
def Session.Along (host : Host) (meets : Session creator → Event creator → Prop)
    (session : Session creator) : List (Event creator) → Prop
  | [] => True
  | event :: rest =>
      meets session event
      ∧ ∀ next error, session.step host event = .moved next error → next.Along host meets rest

/-- Commands and searches start when the one before has ended: the code bodies of searches run none
on the table.
-/
def Session.Sequential (session : Session creator) : Event creator → Prop
  | .command _ => session.stack = []
  | .search _ => session.stack = []
  | .foreach _ => session.stack = []
  | _ => True

/-- The setter calls of an event are safe, and it makes no index of a depth that is not allowed. -/
def Session.Safe (host : Host) (safe : Call creator → Prop) (deep : Int → Prop)
    (session : Session creator) : Event creator → Prop
  | .command command => command.Safe host safe deep session.table
  | .advance =>
      ∀ frame rest returned, session.stack = { task := .search frame, waiting := false } :: rest →
        frame.phase = .transacting returned →
        ∀ call ∈ transactionCalls host frame.request.transaction frame.selected session.table,
          safe call
  | _ => True

/-- The invariant holds of the table, unless it is gone, at most one search or loop is in progress,
and it has collected rows of the table.
-/
structure Session.InOrder (holds : CTable creator → Prop) (session : Session creator)
    : Prop where
  alone : session.stack.length ≤ 1
  busy : session.stack ≠ [] → holds session.table
  idle : holds session.table ∨ session.table.Gone
  listed : ∀ activity ∈ session.stack, ∀ frame, activity.task = .search frame →
    frame.Listed session.table.llHead

section Scripts

variable {holds failed : CTable creator → Prop} {during : IndexCtl → RowId → CTable creator → Prop}
  {safe : Call creator → Prop} {deep : Int → Prop} {table : CTable creator}
  {session next : Session creator} {error : Option TclError}

/-- A session whose innermost task has gone on. -/
theorem Session.InOrder.going {activity : Activity creator} (here : holds table)
    (listed : ∀ frame, activity.task = .search frame → frame.Listed table.llHead)
    : Session.InOrder holds { table := table, stack := [activity] } where
  alone := Nat.le_refl 1
  busy := fun _ => here
  idle := .inl here
  listed := by
    intro other member
    rw [List.mem_singleton.mp member]
    exact listed

/-- A session with nothing in progress. -/
theorem Session.InOrder.ended (idle : holds table ∨ table.Gone)
    : Session.InOrder holds { table := table, stack := [] } where
  alone := Nat.zero_le 1
  busy := fun busy => absurd rfl busy
  idle := idle
  listed := by simp

/-- What a step of a search leaves of the session, when there is nothing around it. -/
theorem Session.afterSearch_inOrder (searching : SearchInvariant holds)
    (recovers : error = none ∨ ∀ table, failed table → holds table) {rows : List RowId}
    {action : TableM creator (FrameStep creator)}
    (kept : wp action (fun step after => step.Kept holds rows after)
      (stopped failed (fun _ => True)) table)
    (moved : Session.afterSearch [] (action table) = .moved next error)
    : next.InOrder holds := by
  have popped : ∀ {after : CTable creator}, holds after → holds after.popSearch := by
    intro after here
    exact searching.aside after after.searches.tail after.cursors after.memoryTests here
  cases run : action table with
  | error stop after =>
      have left := wp_stops kept run
      rw [run] at moved
      cases stop with
      | fault fault => cases moved
      | tcl cause =>
          cases moved
          exact .ended (.inl (popped (recovers.resolve_left nofun after left)))
  | ok step after =>
      have here := wp_returns kept run
      rw [run] at moved
      cases step with
      | next frame =>
          cases moved
          refine .going here.2.1 ?_
          rintro other ⟨⟩
          exact here.2.2 ▸ here.1
      | body frame =>
          cases moved
          refine .going here.2.1 ?_
          rintro other ⟨⟩
          exact here.2.2 ▸ here.1
      | finished result record =>
          simp only [Session.afterSearch, Outcome.moved.injEq] at moved
          obtain ⟨rfl, -⟩ := moved
          exact .ended (.inl (popped here))

/-- What the start of a search leaves of the session. -/
theorem Session.afterStart_inOrder (searching : SearchInvariant holds)
    (recovers : error = none ∨ ∀ table, failed table → holds table) {rows : List RowId}
    {action : TableM creator (FrameStep creator)}
    (kept : wp action (fun step after => step.Kept holds rows after)
      (stopped failed (fun _ => True)) table)
    (moved : Session.afterStart [] (action table) = .moved next error)
    : next.InOrder holds := by
  cases run : action table with
  | error stop after =>
      have left := wp_stops kept run
      rw [run] at moved
      cases stop with
      | fault fault => cases moved
      | tcl cause =>
          cases moved
          exact .ended (.inl (recovers.resolve_left nofun after left))
  | ok step after =>
      cases step with
      | next frame =>
          refine Session.afterSearch_inOrder searching recovers kept ?_
          rw [run] at moved ⊢
          exact moved
      | body frame =>
          refine Session.afterSearch_inOrder searching recovers kept ?_
          rw [run] at moved ⊢
          exact moved
      | finished result record =>
          have here := wp_returns kept run
          rw [run] at moved
          simp only [Session.afterStart, Outcome.moved.injEq] at moved
          obtain ⟨rfl, -⟩ := moved
          exact .ended (.inl here)

/-- What a step of a loop leaves of the session. -/
theorem Session.afterForeach_inOrder {step : ForeachStep} (here : holds table)
    (moved : Session.afterForeach [] table step = .moved next error)
    : next.InOrder holds := by
  cases step with
  | next frame =>
      simp only [Session.afterForeach, Outcome.moved.injEq] at moved
      obtain ⟨rfl, -⟩ := moved
      exact .going here (by simp)
  | body frame =>
      simp only [Session.afterForeach, Outcome.moved.injEq] at moved
      obtain ⟨rfl, -⟩ := moved
      exact .going here (by simp)
  | finished error =>
      simp only [Session.afterForeach, Outcome.moved.injEq] at moved
      obtain ⟨rfl, -⟩ := moved
      exact .ended (.inl here)

/-- A round of a loop changes nothing. -/
theorem ForeachFrame.advance_unchanged (frame : ForeachFrame)
    : wp (frame.advance host) (fun _ after => after = table) (fun _ after => after = table)
        table := by
  rw [advance, wp_bind, wp_get]
  split
  · rfl
  · rw [wp_bind, wp_inspect]
    refine ⟨fun row _ => ?_, fun _ _ => rfl⟩
    dsimp only
    split
    · rfl
    · split
      · rfl
      · rfl

/-- The table of a session that can take a command. -/
theorem Session.InOrder.available (inOrder : session.InOrder holds)
    (available : (session.scripted && !session.table.destroyed) = true)
    : holds session.table := by
  rcases inOrder.idle with here | ⟨destroyed, -⟩
  · exact here
  · simp [destroyed] at available

/-- Around the innermost task there is no other. -/
theorem Session.InOrder.innermost (inOrder : session.InOrder holds)
    {activity : Activity creator} {rest : List (Activity creator)}
    (stack : session.stack = activity :: rest)
    : rest = [] := by
  have alone := inOrder.alone
  rw [stack, List.length_cons] at alone
  exact List.length_eq_zero_iff.mp (by omega)

/-- One safe event keeps all of this, by cases on the event and the task it is for. An error may
only be left where the invariant also holds after errors.
-/
theorem Session.InOrder.step (invariant : TableInvariant host holds during failed safe deep)
    (usual : deep 20) {event : Event creator} (inOrder : session.InOrder holds)
    (recovers : error = none ∨ ∀ table, failed table → holds table)
    (sequential : session.Sequential event) (safely : session.Safe host safe deep event)
    (moved : session.step host event = .moved next error)
    : next.InOrder holds := by
  have searching := invariant.toSearchInvariant
  cases event with
  | command command =>
      simp only [Session.step] at moved
      split at moved
      · next available =>
          have kept := Command.run_leaves invariant usual (inOrder.available available) safely
          have empty : session.stack = [] := sequential
          rw [empty] at moved
          cases run : command.run host session.table with
          | ok _ after =>
              rw [run] at moved
              cases moved
              exact .ended (by simpa only [wp, run] using kept)
          | error stop after =>
              have left := wp_stops kept run
              rw [run] at moved
              cases stop with
              | fault fault => cases moved
              | tcl cause =>
                  cases moved
                  exact .ended (.inl (recovers.resolve_left (fun same => by cases same) after left))
      · cases moved
  | search request =>
      simp only [Session.step] at moved
      split at moved
      · next available =>
          have empty : session.stack = [] := sequential
          have tested := searching.memoryTested (inOrder.available available)
          have kept : wp (checkMemory host .freeMemoryLow (startSearch host request))
              (fun step after => step.Kept holds session.table.memoryTested.llHead after)
              (stopped failed (fun _ => True)) session.table :=
            wp_checkMemory (invariant.stops _ tested)
              (startSearch_kept invariant request ⟨tested, rfl⟩)
          rw [empty] at moved
          exact Session.afterStart_inOrder searching recovers kept moved
      · cases moved
  | «foreach» pattern =>
      simp only [Session.step] at moved
      split at moved
      · next available =>
          have empty : session.stack = [] := sequential
          rw [empty] at moved
          exact Session.afterForeach_inOrder (inOrder.available available) moved
      · cases moved
  | advance =>
      simp only [Session.step] at moved
      split at moved
      · next frame rest stack =>
          obtain rfl := inOrder.innermost stack
          have here := inOrder.busy (by simp [stack])
          have kept := SearchFrame.advance_kept invariant ⟨here, rfl⟩
            (inOrder.listed _ (stack ▸ List.mem_singleton_self _) frame rfl)
            (fun returned phase => safely frame [] returned stack phase)
          exact Session.afterSearch_inOrder searching recovers kept moved
      · next frame rest stack =>
          obtain rfl := inOrder.innermost stack
          have here := inOrder.busy (by simp [stack])
          have kept := @ForeachFrame.advance_unchanged creator host session.table frame
          cases run : (frame.advance host : TableM creator ForeachStep) session.table with
          | ok step after =>
              rw [run] at moved
              obtain rfl : after = session.table := by simpa only [wp, run] using kept
              exact Session.afterForeach_inOrder here moved
          | error stop after =>
              rw [run] at moved
              obtain rfl : after = session.table := by simpa only [wp, run] using kept
              cases stop with
              | fault fault => cases moved
              | tcl cause =>
                  cases moved
                  exact .ended (.inl here)
      · cases moved
  | bodyReturn status =>
      simp only [Session.step] at moved
      split at moved
      · next frame rest stack =>
          obtain rfl := inOrder.innermost stack
          have here := inOrder.busy (by simp [stack])
          have kept := SearchFrame.resume_kept searching status ⟨here, rfl⟩
            (inOrder.listed _ (stack ▸ List.mem_singleton_self _) frame rfl)
          exact Session.afterSearch_inOrder searching recovers
            (wp_mono kept (fun _ _ step => step) onlyFaults_stopped) moved
      · next frame rest stack =>
          obtain rfl := inOrder.innermost stack
          exact Session.afterForeach_inOrder (inOrder.busy (by simp [stack])) moved
      · cases moved

/-- A script of safe events keeps all of this, by induction on the events. -/
theorem Session.InOrder.run (invariant : TableInvariant host holds during failed safe deep)
    (usual : deep 20) {accepts : Option TclError → Bool}
    (recovers : ∀ error, accepts error = true → error = none ∨ ∀ table, failed table → holds table)
    {events : List (Event creator)} {final : Session creator} (inOrder : session.InOrder holds)
    (ran : session.run host accepts events = some final)
    (sequential : session.Along host Session.Sequential events)
    (safely : session.Along host (Session.Safe host safe deep) events)
    : final.InOrder holds := by
  induction events generalizing session with
  | nil =>
      cases ran
      exact inOrder
  | cons event rest ih =>
      rw [Session.run] at ran
      split at ran
      · next next error moved =>
          split at ran
          · next accepted =>
              exact ih (inOrder.step invariant usual (recovers error accepted) sequential.1
                safely.1 moved) ran (sequential.2 next error moved) (safely.2 next error moved)
          · cases ran
      · cases ran

/-- A script of commands alone is sequential, by induction on them. -/
theorem commands_sequential (commands : List (Command creator)) (idle : session.stack = [])
    : session.Along host Session.Sequential (commands.map .command) := by
  induction commands generalizing session with
  | nil => trivial
  | cons command rest ih =>
      refine ⟨idle, fun next error moved => ih ?_⟩
      simp only [Session.step] at moved
      split at moved
      · rw [idle] at moved
        cases run : command.run host session.table with
        | ok _ after =>
            rw [run] at moved
            cases moved
            rfl
        | error stop after =>
            rw [run] at moved
            cases stop with
            | fault fault => cases moved
            | tcl cause =>
                cases moved
                rfl
      · cases moved

/-- A script of commands that are safe in every table is safe. -/
theorem commands_safe {commands : List (Command creator)}
    (always : ∀ command ∈ commands, ∀ table, command.Safe host safe deep table)
    : session.Along host (Session.Safe host safe deep) (commands.map .command) := by
  induction commands generalizing session with
  | nil => trivial
  | cons command rest ih =>
      exact ⟨always command (by simp) session.table,
        fun _ _ _ => ih (fun other member => always other (by simp [member]))⟩

end Scripts

end SpeedTables
