import SpeedTables.Table.Rows
import SpeedTables.Table.Upkeep
import SpeedTables.Table.WriteSteps

/-! Relations that the commands respect because the setters of every row and the creation of rows
do.
-/

namespace SpeedTables

open Lib

variable {creator : CreatorTable} {host : Host} {α : Type}
  {related : CTable creator → CTable creator → Prop}

-----------------------------------------------------------------------------------------
-- Single steps
-----------------------------------------------------------------------------------------

theorem respects_rethrow {action : TableM creator α} {wrap : TclError → TclError}
    (respects : Respects related action)
    : Respects related (onTclError action (fun error => fail (wrap error))) := by
  intro table
  rw [wp_onTclError]
  refine wp_mono (respects table) (fun _ _ after => after) ?_
  intro stop next after
  cases stop with
  | tcl error => exact after
  | fault fault => exact after

theorem respects_orFail [Std.Refl related] (checked : Except TclError α)
    : Respects related (orFail checked : TableM creator α) := by
  cases checked with
  | ok value => exact Respects.pure
  | error error => exact Respects.throw

/-- The steps of setters respect what they respect more narrowly. -/
theorem WriteSteps.mono {narrower : CTable creator → CTable creator → Prop} {id : RowId}
    (steps : WriteSteps host id narrower)
    (implies : ∀ {before after}, narrower before after → related before after)
    : WriteSteps host id related where
  put := fun table row there => implies (steps.put table row there)
  counted := fun table allocations => implies (steps.counted table allocations)
  remove := fun field => (steps.remove field).mono implies
  insert := fun field => (steps.insert field).mono implies
  unlink := steps.unlink.mono implies
  link := fun table key row there =>
    wp_mono (steps.link table key row there) (fun _ _ => implies) (fun _ _ => implies)

-----------------------------------------------------------------------------------------
-- The loops over fields
-----------------------------------------------------------------------------------------

section Loops

variable {id : RowId} [IsPreorder (CTable creator) related]

theorem WriteSteps.setPairs (steps : WriteSteps host id related) (ctl : IndexCtl)
    (nocomplain : Bool) (elements : List Obj)
    : Respects related (setPairs host ctl id nocomplain elements) := by
  fun_induction SpeedTables.setPairs host ctl id nocomplain elements with
  | case1 fieldObj obj rest ih =>
      refine (respects_rethrow ?_).bind fun _ => ih
      unfold setFieldobj
      split
      · exact steps.setField ctl _ obj
      · exact Respects.ite Respects.pure Respects.throw
  | case2 rest short => exact Respects.pure

theorem WriteSteps.incrPairs (steps : WriteSteps host id related) (ctl : IndexCtl)
    (elements : List Obj)
    : Respects related (incrPairs host ctl id elements) := by
  fun_induction SpeedTables.incrPairs host ctl id elements with
  | case1 fieldObj obj rest unknown => exact Respects.throw
  | case2 fieldObj obj rest field known ih =>
      exact (respects_rethrow (steps.incrField ctl field obj)).bind fun _ =>
        (respects_inspect _).bind fun row => ih.bind fun values => Respects.pure
  | case3 rest short => exact Respects.pure

theorem WriteSteps.nullFields (steps : WriteSteps host id related) (fieldObjs : List Obj)
    : Respects related (nullFields host id fieldObjs) := by
  induction fieldObjs with
  | nil => exact Respects.pure
  | cons fieldObj rest ih =>
      rw [SpeedTables.nullFields]
      split
      · exact Respects.throw
      · exact (steps.setNull _).bind fun _ => ih

theorem WriteSteps.setColumn (steps : WriteSteps host id related)
    (options : TabsepOptions creator) (ctl : IndexCtl) (missing : Bool) (text : CString)
    (length : Nat) (field : Option creator.Field)
    : Respects related (setColumn host options ctl id missing text length field) := by
  cases field with
  | none => exact Respects.pure
  | some field =>
      rw [SpeedTables.setColumn]
      exact Respects.ite Respects.pure
        ((respects_inspect _).bind fun obj => steps.setField ctl field obj)

theorem WriteSteps.setColumns (steps : WriteSteps host id related)
    (options : TabsepOptions creator) (ctl : IndexCtl) (fields : List (Option creator.Field))
    : ∀ (column : Nat) (line : Option CString),
        Respects related (setColumns host options ctl id fields column line) := by
  induction fields with
  | nil => exact fun _ _ => Respects.pure
  | cons field rest ih =>
      intro column line
      exact (steps.setColumn options ctl _ _ _ field).bind fun _ => ih _ _

theorem WriteSteps.markRead (steps : WriteSteps host id related) (options : TabsepOptions creator)
    : Respects related (markRead options id : TableM creator Unit) :=
  Respects.ite steps.setDirty Respects.pure

/-- What a line does to its row. -/
theorem WriteSteps.columnsOfLine (steps : WriteSteps host id related)
    (options : TabsepOptions creator) (ctl : IndexCtl) (line : CString)
    : Respects related (do
        SpeedTables.setColumns host options ctl id options.fieldIds 0 (some line)
        SpeedTables.markRead options id
        SpeedTables.finishRow host ctl id) :=
  (steps.setColumns options ctl _ _ _).bind fun _ =>
    (steps.markRead options).bind fun _ => steps.finishRow ctl

end Loops

-----------------------------------------------------------------------------------------
-- Commands that write rows
-----------------------------------------------------------------------------------------

/-- The creation of rows and the setters of every row respect a relation. -/
structure CommandSteps (host : Host) (related : CTable creator → CTable creator → Prop)
    : Prop where
  create : ∀ key, Respects related (findOrCreate host key)
  write : ∀ id, WriteSteps host id related

namespace CommandSteps

theorem createRow (steps : CommandSteps host related) (key : CString)
    : Respects related (findOrCreateRow host key) :=
  respects_rethrow (steps.create key)

variable [IsPreorder (CTable creator) related]

theorem set (steps : CommandSteps host related) (arguments : List Obj)
    : Respects related (setCommand host arguments) := by
  cases arguments with
  | nil => exact Respects.throw
  | cons key arguments =>
      refine (respects_orFail _).bind fun parsed => (steps.createRow key).bind fun row => ?_
      refine (respects_orFail _).bind fun elements => ?_
      exact ((steps.write row.1).setPairs row.2 _ elements).bind fun _ =>
        (steps.write row.1).finishRow row.2

/-- `store` respects what its key and its other steps respect. -/
theorem store (steps : CommandSteps host related) {arguments : List Obj}
    (keyed : ∀ nocomplain elements, storeArguments host arguments = .ok (nocomplain, elements) →
      Respects related (storeKey elements : TableM creator CString))
    : Respects related (storeCommand host arguments) := by
  unfold storeCommand
  cases checked : storeArguments host arguments with
  | error error => exact Respects.throw
  | ok parsed =>
      obtain ⟨nocomplain, elements⟩ := parsed
      exact (keyed nocomplain elements checked).bind fun key =>
        (steps.createRow key).bind fun row =>
          ((steps.write row.1).setPairs row.2 nocomplain elements).bind fun _ =>
            ((steps.write row.1).finishRow row.2).bind fun _ => Respects.pure

theorem incr (steps : CommandSteps host related) (arguments : List Obj)
    : Respects related (incrCommand host arguments) := by
  refine (respects_orFail _).bind fun parsed => (steps.createRow parsed.1).bind fun row => ?_
  refine (respects_orFail _).bind fun elements => ?_
  exact ((steps.write row.1).incrPairs row.2 elements).bind fun values =>
    ((steps.write row.1).finishRow row.2).bind fun _ => Respects.pure

theorem null (steps : CommandSteps host related) (arguments : List Obj)
    : Respects related (nullCommand host arguments) := by
  cases arguments with
  | nil => exact Respects.throw
  | cons key fieldObjs =>
      refine (respects_inspect _).bind fun entry => ?_
      cases entry with
      | none => exact Respects.throw
      | some id => exact (steps.write id).nullFields fieldObjs

/-- A line respects what its key and its other steps respect. -/
theorem readTabsep (steps : CommandSteps host related) {options : TabsepOptions creator}
    {line : CString} (keyed : Respects related (lineKey options line : TableM creator CString))
    : Respects related (setFromTabsep host options line) :=
  keyed.bind fun key => (steps.create key).bind fun row =>
    (steps.write row.1).columnsOfLine options row.2 line

end CommandSteps

end SpeedTables
