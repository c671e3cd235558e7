import SpeedTables.Table.Calls
import SpeedTables.Table.Frames

/-! Relations that every setter respects because the steps on one row respect them. -/

namespace SpeedTables

open Lib

variable {creator : CreatorTable} {host : Host} {id : RowId}
  {related : CTable creator → CTable creator → Prop}

/-- The steps that the setters of a row are made of respect a relation. -/
structure WriteSteps (host : Host) (id : RowId) (related : CTable creator → CTable creator → Prop)
    : Prop where
  put : ∀ table row, (table.rows id).isSome = true → related table (table.putRow id row)
  counted : ∀ (table : CTable creator) allocations,
    related table { table with allocations := allocations }
  remove : ∀ field, Respects related (removeFromIndex field id)
  insert : ∀ field, Respects related (insertIntoIndex host field id)
  unlink : Respects related (unlinkHashEntry id)
  link : ∀ table key row, (table.rows id).isSome = true →
    wp (storeHashEntry key id row) (fun _ => related table) (fun _ => related table) table

namespace WriteSteps

theorem counting (steps : WriteSteps host id related) (table : CTable creator) {fault : Fault}
    {error : TclError}
    : wp (do
          if ← shmalloc host then pure ()
          else if table.sharePanic then crash fault
          else fail error)
        (fun _ => related table) (fun _ => related table) table := by
  rw [wp_bind, wp_shmalloc]
  have counted := steps.counted table (table.allocations + 1)
  split
  · exact counted
  · split <;> exact counted

variable [IsPreorder (CTable creator) related]

private theorem stays (related : CTable creator → CTable creator → Prop)
    [preorder : IsPreorder (CTable creator) related] (table : CTable creator)
    : related table table :=
  preorder.refl table

theorem putCell (steps : WriteSteps host id related) (field : creator.Field)
    (cell : Cell (creator.type field))
    : Respects related (putCell field id cell) := by
  intro table
  rw [SpeedTables.putCell, wp_bind, wp_inspect]
  refine ⟨?_, fun _ _ => stays related table⟩
  intro row found
  exact steps.put table _ (by simp [(CTable.row_eq found).1])

theorem removeFromIndexSource (steps : WriteSteps host id related) (ctl : IndexCtl)
    (field : creator.Field)
    : Respects related (removeFromIndexSource ctl field id) :=
  Respects.ite (steps.remove field) Respects.pure

theorem allocateMayFail (steps : WriteSteps host id related) (field : creator.Field)
    (allocates : Bool)
    : Respects related (allocateMayFail host field allocates) := by
  intro table
  rw [SpeedTables.allocateMayFail, wp_bind, wp_get]
  split
  · exact steps.counting table
  · exact stays related table

theorem storeIndexed (steps : WriteSteps host id related) (ctl : IndexCtl) (field : creator.Field)
    (flagged : Cell (creator.type field)) (allocates : Bool) (stored : Cell (creator.type field))
    : Respects related (storeIndexed host ctl id field flagged allocates stored) := by
  refine (steps.removeFromIndexSource ctl field).bind fun _ => ?_
  refine (steps.putCell field flagged).bind fun _ => ?_
  refine (steps.allocateMayFail field allocates).bind fun _ => ?_
  exact (steps.putCell field stored).bind fun _ => steps.insert field

theorem storeUnindexed (steps : WriteSteps host id related) (ctl : IndexCtl)
    (field : creator.Field) (flagged stored : Cell (creator.type field))
    : Respects related (storeUnindexed ctl id field flagged stored) := by
  refine (respects_inspect _).bind fun row => ?_
  refine Respects.bind ?_ fun _ => Respects.ite ?_ (steps.putCell field stored)
  · exact Respects.ite (steps.putCell field flagged) Respects.pure
  · exact (steps.removeFromIndexSource ctl field).bind fun _ => steps.putCell field stored

theorem setDirty (steps : WriteSteps host id related)
    : Respects related (setDirty id : TableM creator Unit) :=
  steps.putCell creator.dirtyField creator.dirtyCell

theorem copySharedKey (steps : WriteSteps host id related)
    : Respects related (copySharedKey host) := by
  intro table
  rw [SpeedTables.copySharedKey, wp_bind, wp_get]
  split
  · exact steps.counting table
  · exact stays related table

theorem enterIndexes (steps : WriteSteps host id related) (ctl : IndexCtl)
    : Respects related (enterIndexes host ctl id) :=
  Respects.ite (Respects.forM fun field _ => steps.insert field) Respects.pure

/-- Re-keying a row, by its steps: a row that is read is there, so its key may be replaced. -/
theorem reinsertRow (steps : WriteSteps host id related) (ctl : IndexCtl) (value : CString)
    : Respects related (reinsertRow host ctl id value) := by
  refine (respects_inspect _).bind fun entry => ?_
  cases entry with
  | some other => exact Respects.throw
  | none =>
      refine Respects.bind ?_ fun _ => ?_
      · exact Respects.ite (steps.copySharedKey.bind fun _ => steps.unlink) Respects.pure
      · intro table
        rw [wp_bind, wp_inspect]
        refine ⟨?_, fun _ _ => stays related table⟩
        intro row found
        have there : (table.rows id).isSome = true := by simp [(CTable.row_eq found).1]
        have unkeyed := steps.put table { row with key := none } there
        rw [wp_bind, wp_modify, wp_bind]
        refine wp_mono (steps.link _ value { row with key := none } (by simp [CTable.putRow])) ?_
          fun _ _ linked => IsTrans.trans _ _ _ unkeyed linked
        intro result next linked
        have moved : related table next := IsTrans.trans _ _ _ unkeyed linked
        dsimp only
        split
        · exact wp_mono (steps.enterIndexes ctl next)
            (fun _ _ after => IsTrans.trans _ _ _ moved after)
            (fun _ _ after => IsTrans.trans _ _ _ moved after)
        · exact moved

theorem setField (steps : WriteSteps host id related) (ctl : IndexCtl) (field : creator.Field)
    (obj : Obj)
    : Respects related (setField host ctl id field obj) := by
  refine (respects_inspect _).bind fun row => ?_
  split
  · refine Respects.ite Respects.pure ?_
    exact (steps.reinsertRow ctl obj).bind fun _ => steps.setDirty
  · split
    · exact Respects.throw
    · exact Respects.pure
    · exact Respects.throw
    · next flagged allocates stored _ =>
        refine Respects.bind ?_ fun _ => Respects.ite Respects.pure steps.setDirty
        exact Respects.ite (steps.storeUnindexed ctl field flagged stored)
          (steps.storeIndexed ctl field flagged allocates stored)

theorem incrField (steps : WriteSteps host id related) (ctl : IndexCtl) (field : creator.Field)
    (obj : Obj)
    : Respects related (incrField host ctl id field obj) := by
  unfold SpeedTables.incrField
  dsimp only
  split
  · exact Respects.throw
  · split
    · exact Respects.throw
    · exact (respects_inspect _).bind fun row => steps.storeIndexed ctl field _ _ _

theorem setNull (steps : WriteSteps host id related) (field : creator.Field)
    : Respects related (setNull host id field) := by
  refine (respects_inspect _).bind fun row => ?_
  exact Respects.ite Respects.throw
    (Respects.ite Respects.pure (steps.storeIndexed .normal field _ _ _))

/-- Every setter respects what its steps respect. -/
theorem write (steps : WriteSteps host id related) (ctl : IndexCtl) (write : Write creator)
    : Respects related (write.run host ctl id) := by
  cases write with
  | set field obj => exact steps.setField ctl field obj
  | incr field obj => exact steps.incrField ctl field obj
  | null field => exact steps.setNull field

/-- The end of the creation of a row inserts it only. -/
theorem finishRow (steps : WriteSteps host id related) (ctl : IndexCtl)
    : Respects related (finishRow host ctl id) := by
  refine Respects.ite (Respects.forM fun field _ => ?_) Respects.pure
  exact Respects.get.bind fun table => Respects.ite (steps.insert field) Respects.pure

end WriteSteps

/-- The steps of a setter change one row. -/
theorem writeSteps_rowFrame (host : Host) (id : RowId)
    : WriteSteps host id (@CTable.RowFrame creator id) where
  put := by
    intro table row there
    refine { (rowFrame_preorder id).refl table with rows := ?_, alive := ?_ }
    · intro other different
      simp [CTable.putRow, different]
    · simp [CTable.putRow, there]
  counted := fun table allocations => { (rowFrame_preorder id).refl table with .. }
  remove := fun field =>
    (respects_removeFromIndex field id).mono (fun frame => (frame.cellFrame id).toRowFrame)
  insert := fun field =>
    (respects_insertIntoIndex host field id).mono (fun frame => (frame.cellFrame id).toRowFrame)
  unlink := (respects_unlinkHashEntry id id).mono (fun frame => frame.toRowFrame)
  link := by
    intro table key row there
    have put : table.RowFrame id (table.putRow id { row with key := some key }) := by
      refine { (rowFrame_preorder id).refl table with rows := ?_, alive := ?_ }
      · intro other different
        simp [CTable.putRow, different]
      · simp [CTable.putRow, there]
    refine wp_mono (storeHashEntry_spec table key id row) ?_ ?_
    · intro result after stored
      cases stored with
      | found lookup => exact (rowFrame_preorder id).refl table
      | created lookup linked => exact { put with .. }
    · rintro stop after ⟨-, rfl | rfl⟩
      · exact (rowFrame_preorder id).refl after
      · exact put

end SpeedTables
