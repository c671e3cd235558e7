import SpeedTables.Lib.WeakestPre
import SpeedTables.Table.State

/-! Weakest preconditions of the basic table computations. -/

namespace SpeedTables

open Lib

variable {creator : CreatorTable} {α : Type} {ok : α → CTable creator → Prop}
  {err : Stop → CTable creator → Prop} {table : CTable creator}

/-- Tcl errors leave a state of the first condition, and faults satisfy the second. -/
def stopped (failed : CTable creator → Prop) (lost : Fault → Prop)
    : Stop → CTable creator → Prop
  | .tcl _, table => failed table
  | .fault fault, _ => lost fault

@[simp]
theorem stopped_tcl {failed : CTable creator → Prop} {lost : Fault → Prop} {error : TclError}
    : stopped failed lost (.tcl error) table ↔ failed table :=
  Iff.rfl

@[simp]
theorem stopped_fault {failed : CTable creator → Prop} {lost : Fault → Prop} {fault : Fault}
    : stopped failed lost (.fault fault) table ↔ lost fault :=
  Iff.rfl

@[simp]
theorem wp_fail {error : TclError} : wp (fail error) ok err table ↔ err (.tcl error) table :=
  Iff.rfl

@[simp]
theorem wp_crash {fault : Fault} : wp (crash fault) ok err table ↔ err (.fault fault) table :=
  Iff.rfl

/-- Reading the state either ends with the value read or with a fault. -/
theorem wp_inspect {read : CTable creator → Except Fault α}
    : wp (inspect read) ok err table ↔
        (∀ value, read table = .ok value → ok value table)
        ∧ (∀ fault, read table = .error fault → err (.fault fault) table) := by
  simp only [inspect, wp_bind, wp_get]
  cases value : read table with
  | ok value => simp
  | error fault => simp

/-- A row that is there is read. -/
theorem wp_inspectRow {id : RowId} {row : Row creator} {ok : Row creator → CTable creator → Prop}
    (found : table.rows id = some row)
    : wp (inspect (CTable.row · id)) ok err table ↔ ok row table := by
  have read : table.row id = .ok row := by rw [CTable.row, found]
  simp [wp_inspect, read]

/-- A handler runs after Tcl errors only. -/
theorem wp_onTclError {action : TableM creator α} {handler : TclError → TableM creator α}
    : wp (onTclError action handler) ok err table ↔
        wp action ok
          (fun stop next =>
            match stop with
            | .tcl error => wp (handler error) ok err next
            | .fault fault => err (.fault fault) next)
          table := by
  simp only [wp, onTclError]
  cases action table with
  | ok value next => rfl
  | error stop next =>
      cases stop with
      | tcl error => rfl
      | fault fault => rfl

/-- Adding to the text of an error does not change the state it is left in. -/
theorem wp_rethrow {action : TableM creator α} {wrap : TclError → TclError}
    {failed : CTable creator → Prop} {lost : Fault → Prop}
    : wp (onTclError action (fun error => fail (wrap error))) ok (stopped failed lost) table ↔
        wp action ok (stopped failed lost) table := by
  rw [wp_onTclError]
  simp only [wp]
  cases action table with
  | ok value next => rfl
  | error stop next =>
      cases stop with
      | tcl error => rfl
      | fault fault => rfl

@[simp]
theorem wp_shmalloc {host : Host} {ok : Bool → CTable creator → Prop}
    : wp (shmalloc host) ok err table ↔
        ok (host.shmalloc table.allocations) { table with allocations := table.allocations + 1 } :=
  Iff.rfl

-----------------------------------------------------------------------------------------
-- Relations every computation may respect
-----------------------------------------------------------------------------------------

section Respects

variable {related : CTable creator → CTable creator → Prop}

theorem respects_inspect [Std.Refl related] (read : CTable creator → Except Fault α)
    : Respects related (inspect read) := by
  intro table
  rw [wp_inspect]
  exact ⟨fun _ _ => Std.Refl.refl table, fun _ _ => Std.Refl.refl table⟩

end Respects

end SpeedTables
