import Mathlib
import SpeedTables.Shared.IndexInsert

/-! Removal of a row from an index while searches walk it. -/

namespace SpeedTables.Shared
open SpeedTables.Lib

variable {ν ρ κ α : Type} [DecidableEq ν] [DecidableEq ρ] [LinearOrder κ]

-----------------------------------------------------------------------------------------
-- Removal
-----------------------------------------------------------------------------------------

namespace IndexWriter

/-- The loop of `jsw_serase` over the levels that point to a node, with the number of levels that
are left.
-/
def unlinkLevels (fix : Nat → Option ν) (node : ν) : Nat → Nat → Storing (IndexMemory ν ρ) Unit
  | 0, _ => pure ()
  | left + 1, level => do
      if (← nextOf (fix level) level) = some node then
        setNext (fix level) level (← nextOf (some node) level)
        unlinkLevels fix node left (level + 1)
      else
        pure ()

/-- "Lower height if necessary" -/
def lowerHeight : Nat → Storing (IndexMemory ν ρ) Unit
  | 0 => pure ()
  | height + 1 => do
      match ← nextOf none height with
      | some _ => pure ()
      | none =>
          setCurh height
          lowerHeight height

/-- `jsw_serase`. The memory of the freed node is not used again while searches may be at it. -/
def serase (key : ρ → κ) (fuel : Nat) (array : Nat → Option ν) (row : ρ)
    : Storing (IndexMemory ν ρ) Bool := do
  let (fix, place) ← locate key (key row) fuel array
  match ← nextOf place 0 with
  | none => pure false
  | some node =>
      match ← rowOf node with
      | none => .crash
      | some first =>
          if key row = key first then
            unlinkLevels fix node (← curh) 0
            lowerHeight (← curh)
            pure true
          else
            pure false

/-- `ctable_RemoveFromIndex` -/
def removeFromIndex (key : ρ → κ) (checks : Bool) (fuel : Nat) (array : Nat → Option ν) (row : ρ)
    : Storing (IndexMemory ν ρ) Unit := do
  match ← Storing.load fun memory => memory.rows.prev row with
  | none => pure ()
  | some _ =>
      if ← onRows (ListProgram.listRemoveMightBeTheLastOne checks row) then
        match ← Storing.load fun memory => memory.rows.head row with
        | none => .crash
        | some node =>
            match ← rowOf node with
            | some _ => pure ()
            | none =>
                setRow node (some row)
                let _ ← serase key fuel array row
                setRow node none
      else
        pure ()

end IndexWriter

-----------------------------------------------------------------------------------------
-- The list removal
-----------------------------------------------------------------------------------------

section Results

variable {program : ListProgram ν ρ α} {rows : ListMemory ν ρ} {place : Link ν ρ}
  {hidden : Link ν ρ → Prop} {new : List ρ}

omit [DecidableEq ν] in
theorem ListProgram.silent_of_dropped (silent : (program.bind fun _ => .done ()).Silent rows)
    : program.Silent rows := by
  induction program generalizing rows with
  | done result => trivial
  | crash => exact silent
  | loadLink link rest ih => exact ih _ silent
  | loadPrev row rest ih => exact ih _ silent
  | loadHead row rest ih => exact ih _ silent
  | storeLink link value rest ih => exact silent
  | storePrev row value rest ih => exact ih silent
  | storeHead row value rest ih => exact ih silent

/-- A program publishes what it publishes when its result is dropped. -/
theorem ListProgram.publishes_of_dropped
    (publishes : (program.bind fun _ => .done ()).Publishes place hidden new rows)
    : program.Publishes place hidden new rows := by
  induction program generalizing rows with
  | done result => exact publishes
  | crash => exact publishes
  | loadLink link rest ih => exact ih _ publishes
  | loadPrev row rest ih => exact ih _ publishes
  | loadHead row rest ih => exact ih _ publishes
  | storePrev row value rest ih => exact ih publishes
  | storeHead row value rest ih => exact ih publishes
  | storeLink link value rest ih =>
      simp only [ListProgram.bind, ListProgram.Publishes] at publishes ⊢
      split
      · rename_i here
        rw [if_pos here] at publishes
        exact ⟨publishes.1, ListProgram.silent_of_dropped publishes.2⟩
      · rename_i elsewhere
        rw [if_neg elsewhere] at publishes
        exact ⟨publishes.1, ih publishes.2⟩

theorem ListProgram.run_dropped {result : α} {rows' : ListMemory ν ρ}
    (runs : program.run rows = some (result, rows'))
    : (program.bind fun _ => .done ()).run rows = some ((), rows') := by
  induction program generalizing rows with
  | done result' =>
      simp only [ListProgram.run, Option.some.injEq, Prod.mk.injEq] at runs
      simp [runs.2]
  | crash => exact nomatch runs
  | loadLink link rest ih => exact ih _ runs
  | loadPrev row rest ih => exact ih _ runs
  | loadHead row rest ih => exact ih _ runs
  | storeLink link value rest ih => exact ih runs
  | storePrev row value rest ih => exact ih runs
  | storeHead row value rest ih => exact ih runs

variable {lists : RowLists ν ρ} {node : ν} {row : ρ} {before after : List ρ}

/-- What `ctable_ListRemoveMightBeTheLastOne` publishes and leaves behind. -/
theorem ListMemory.Holds.removes (holds : rows.Holds lists)
    (split : lists node = before ++ row :: after) (checks : Bool)
    : (ListProgram.listRemoveMightBeTheLastOne checks row).Publishes
          ((Link.head node).behind before) (Hidden lists) after rows
      ∧ ∀ {result rows'},
          (ListProgram.listRemoveMightBeTheLastOne checks row).run rows = some (result, rows')
          → rows.Removed rows' node before after row := by
  obtain ⟨publishes, left, runs, removed⟩ :=
    holds.listRemove checks split
      (Or.inr rfl : ListOperation.removeMightBeTheLastOne row = .remove row ∨ _)
  refine ⟨ListProgram.publishes_of_dropped publishes, fun {result rows'} ran => ?_⟩
  have same := (ListProgram.run_dropped ran).symm.trans runs
  obtain rfl : rows' = left := by simpa using same
  exact removed

end Results

-----------------------------------------------------------------------------------------
-- Removals that searches survive
-----------------------------------------------------------------------------------------

/-- Every search reads every other listed row while some versions are stored. -/
def OthersRead (key : ρ → κ) (lists : RowLists ν ρ) (row : ρ) (memory : IndexMemory ν ρ)
    (versions : List (IndexMemory ν ρ))
    : Prop :=
  ∀ (query : IndexQuery κ) (fix : Nat → Option ν) (schedule : List Turn),
    ReadsAll query key fix (fun other => Listed lists other ∧ other ≠ row)
      (search query key fix memory versions schedule)

section Removing

variable {memory : IndexMemory ν ρ} {key : ρ → κ} {nodeKey : ν → κ} {levels : Nat → List ν}
  {lists : RowLists ν ρ} {row : ρ} {node : ν} {before after : List ρ}

/-- The nodes of a well-formed skip list, with rows taken out of their lists. -/
def removeScope (holds : memory.Holds key nodeKey levels lists) (left : RowLists ν ρ)
    (fewer : ∀ {node row}, row ∈ left node → row ∈ lists node)
    : IndexScope ν ρ κ where
  key := key
  nodeKey := nodeKey
  nodes := levels 0
  before := lists
  after := left
  keyed := fun either => holds.keyed _ _ (either.elim id fewer)
  injective := holds.levelled.injective
  known := fun member => (holds.filled _).mpr (List.ne_nil_of_mem member)

omit [DecidableEq ρ] in
theorem update_fewer (split : lists node = before ++ row :: after) {other : ν} {otherRow : ρ}
    (member : otherRow ∈ Function.update lists node (before ++ after) other)
    : otherRow ∈ lists other := by
  by_cases here : other = node
  · subst here
    rw [Function.update_self] at member
    rw [split]
    exact List.mem_append.mpr
      ((List.mem_append.mp member).imp_right (List.mem_cons_of_mem row))
  · rwa [Function.update_of_ne here] at member

omit [DecidableEq ρ] in
/-- Every other row that is listed is still listed. -/
theorem update_keeps (split : lists node = before ++ row :: after) {other : ν} {otherRow : ρ}
    (member : otherRow ∈ lists other) (different : otherRow ≠ row)
    : otherRow ∈ Function.update lists node (before ++ after) other := by
  by_cases here : other = node
  · subst here
    rw [Function.update_self]
    rw [split] at member
    rcases List.mem_append.mp member with earlier | later
    · exact List.mem_append_left after earlier
    · exact List.mem_append_right before ((List.mem_cons.mp later).resolve_left different)
  · rwa [Function.update_of_ne here]

/-- Searches survive the removal of a row whose bucket keeps other rows. -/
theorem IndexMemory.Holds.removeFromIndex_keeps (holds : memory.Holds key nodeKey levels lists)
    (split : lists node = before ++ row :: after) (kept : before ++ after ≠ []) (checks : Bool)
    (fuel : Nat) (array : Nat → Option ν)
    : ∃ versions,
        (IndexWriter.removeFromIndex key checks fuel array row).Gives memory () versions
        ∧ OthersRead key lists row memory versions := by
  let scope := removeScope holds (Function.update lists node (before ++ after)) (update_fewer split)
  have shows := @IndexMemory.Holds.shows _ _ _ _ _ _ _ _ _ holds scope rfl rfl
    (fun _ member => member) False
  have member : row ∈ lists node := by simp [split]
  have back : memory.rows.prev row = some ((Link.head node).behind before) :=
    holds.rows.prev (ListMemory.Holds.place_mem split) (holds.rows.points split)
  obtain ⟨publishes, removed⟩ := holds.rows.removes split checks
  obtain ⟨result, versions, gives, changes, same, runs⟩ :=
    @IndexScope.onRows_changes _ _ _ _ _ _ _ (Hidden lists) after scope _
      memory _ node before (row :: after) shows id split (Function.update_self ..) kept
      (fun _ hidden other => hidden other)
      (fun other different inside => different
        (holds.rows.through_apart inside (ListMemory.Holds.place_mem split)))
      (split ▸ holds.rows.through_nodup node) publishes
  have left := removed runs
  have head : (latest memory versions).rows.head row = some node := by
    rw [left.head]
    exact holds.rows.head member
  have filled : ∃ first, (latest memory versions).row node = some first := by
    refine Option.ne_none_iff_exists'.mp ?_
    rw [IndexMemory.row, left.link]
    split
    · rename_i start
      cases before using List.reverseRecOn with
      | nil =>
          cases after with
          | nil => exact absurd rfl kept
          | cons next rest => simp
      | append_singleton others last _ => simp at start
    · have first : memory.rows.link (.head node) = (lists node).head? :=
        @ListMemory.Holds.points _ _ _ _ _ [] _ holds.rows rfl
      rw [first, split]
      cases before <;> simp
  obtain ⟨first, loaded⟩ := filled
  refine ⟨versions, ?_, ?_⟩
  · refine Storing.Gives.of_load ?_
    rw [back]
    refine List.append_nil versions ▸ gives.bind ?_
    cases result with
    | false => exact Storing.gives_pure
    | true =>
        refine Storing.Gives.of_load ?_
        simp only [head]
        refine Storing.Gives.of_load ?_
        simp only [loaded]
        exact Storing.gives_pure
  · intro query fix schedule
    refine (IndexScope.searches shows changes schedule).imp ?_
    rintro other ⟨⟨place, listed⟩, different⟩
    exact ⟨place, listed, update_keeps split listed different⟩

/-- A row that is not listed is left alone. -/
theorem IndexMemory.Holds.removeFromIndex_unlisted (holds : memory.Holds key nodeKey levels lists)
    (unlisted : ¬ Listed lists row) (checks : Bool) (fuel : Nat) (array : Nat → Option ν)
    : (IndexWriter.removeFromIndex key checks fuel array row).Gives memory () []
      ∧ OthersRead key lists row memory [] := by
  constructor
  · refine Storing.Gives.of_load ?_
    rw [holds.rows.unlisted unlisted]
    exact Storing.gives_pure
  · intro query fix schedule
    have shows := @IndexMemory.Holds.shows _ _ _ _ _ _ _ _ _ holds (removeScope holds lists id) rfl
      rfl (fun _ member => member) False
    refine (IndexScope.searches shows (.nothing ..) schedule).imp ?_
    rintro other ⟨⟨place, listed⟩, -⟩
    exact ⟨place, listed, listed⟩

-----------------------------------------------------------------------------------------
-- Removals that searches meet
-----------------------------------------------------------------------------------------

omit [DecidableEq ρ] in
theorem unlinkLevels_gives (fix : Nat → Option ν) (node : ν) (left level : Nat)
    (memory : IndexMemory ν ρ)
    : ∃ versions, (IndexWriter.unlinkLevels fix node left level).Gives memory () versions := by
  induction left generalizing level memory with
  | zero => exact ⟨[], Storing.gives_pure⟩
  | succ left ih =>
      by_cases linked : memory.next (fix level) level = some node
      · obtain ⟨versions, gives⟩ := ih (level + 1)
          (memory.setNext (fix level) level (memory.next (some node) level))
        refine ⟨memory.setNext (fix level) level (memory.next (some node) level) :: versions,
          Storing.Gives.of_load ?_⟩
        simp only [linked, if_true]
        exact Storing.Gives.of_load (Storing.Gives.of_store gives)
      · refine ⟨[], Storing.Gives.of_load ?_⟩
        simp only [linked, if_false]
        exact Storing.gives_pure

omit [DecidableEq ν] [DecidableEq ρ] in
theorem lowerHeight_gives (height : Nat) (memory : IndexMemory ν ρ)
    : ∃ versions, (IndexWriter.lowerHeight height).Gives memory () versions := by
  induction height generalizing memory with
  | zero => exact ⟨[], Storing.gives_pure⟩
  | succ height ih =>
      cases top : memory.next none height with
      | some node =>
          refine ⟨[], Storing.Gives.of_load ?_⟩
          simp only [top]
          exact Storing.gives_pure
      | none =>
          obtain ⟨versions, gives⟩ := ih { memory with curh := height }
          refine ⟨{ memory with curh := height } :: versions, Storing.Gives.of_load ?_⟩
          simp only [top]
          exact Storing.Gives.of_store gives

omit [DecidableEq ρ] in
/-- `jsw_serase` finds the node of a row that it is to erase. -/
theorem IndexMemory.Levelled.serase_gives (levelled : memory.Levelled key nodeKey levels)
    (member : node ∈ levels 0) (first : memory.row node = some row)
    (array : Nat → Option ν)
    : ∃ enough,
        ∀ fuel ≥ enough,
          ∃ versions,
            (IndexWriter.serase key fuel array row).Gives memory true versions := by
  obtain ⟨firstRow, loaded, keyed⟩ := levelled.first node member
  obtain rfl : row = firstRow := by simpa using first.symm.trans loaded
  obtain ⟨enough, fix, locates, -⟩ := levelled.locate_gives (key row) array
  refine ⟨enough, fun fuel more => ?_⟩
  obtain ⟨unlinked, unlinks⟩ := unlinkLevels_gives fix node memory.curh 0 memory
  obtain ⟨lowered, lowers⟩ :=
    lowerHeight_gives (latest memory unlinked).curh (latest memory unlinked)
  refine ⟨[] ++ (unlinked ++ (lowered ++ [])),
    (locates fuel more).bind (Storing.Gives.of_load ?_)⟩
  simp only [latest_nil, levelled.found_first member keyed.symm]
  refine Storing.Gives.of_load ?_
  simp only [first, if_true]
  refine Storing.Gives.of_load (unlinks.bind ?_)
  exact Storing.Gives.of_load (lowers.bind Storing.gives_pure)

/-- A search meets the node without rows when the row is the last one of its bucket. -/
theorem IndexMemory.Holds.removeFromIndex_meets (holds : memory.Holds key nodeKey levels lists)
    (only : lists node = [row]) (checks : Bool) (array : Nat → Option ν)
    : ∃ enough,
        ∀ fuel ≥ enough,
          ∃ versions,
            (IndexWriter.removeFromIndex key checks fuel array row).Gives memory () versions
            ∧ ¬ OthersRead key lists row memory versions := by
  have split : lists node = [] ++ row :: [] := only
  have member : node ∈ levels 0 := (holds.filled node).mpr (by simp [only])
  have listed : row ∈ lists node := by simp [only]
  have keyed : key row = nodeKey node := holds.keyed node row listed
  have back : memory.rows.prev row = some (.head node) :=
    holds.rows.prev (ListMemory.Holds.place_mem split) (holds.rows.points split)
  obtain ⟨publishes, removed⟩ := holds.rows.removes split checks
  obtain ⟨result, earlier, version, later, gives, -, visible, -, empties, silent, runs⟩ :=
    onRows_publishes (.refl memory) publishes
  have emptied : version.row node = none := empties
  have last : SameLinks version (latest version later) := by
    cases later using List.reverseRecOn with
    | nil => exact ⟨rfl, rfl, rfl⟩
    | append_singleton others last _ => simpa using silent last (by simp)
  have head : (latest version later).rows.head row = some node := by
    rw [(removed runs).head]
    exact holds.rows.head listed
  have without : (latest version later).row node = none := by
    rw [IndexMemory.row, last.2.2]
    exact emptied
  obtain ⟨restored, is_restored⟩ : ∃ restored, restored
      = (latest version later).setRows
          ((latest version later).rows.setLink (.head node) (some row)) := ⟨_, rfl⟩
  -- With the row put back, the node is found again.
  have levelled : restored.Levelled key nodeKey levels := by
    have next : restored.next = memory.next := by
      rw [is_restored]
      exact last.1.trans visible.1
    refine ⟨by rw [next]; exact holds.levelled.linked, holds.levelled.nested, ?_,
      holds.levelled.sorted, ?_⟩
    · intro level high
      refine holds.levelled.top level ?_
      rw [is_restored] at high
      exact (last.2.1.trans visible.2.1) ▸ high
    · intro other present
      by_cases here : other = node
      · subst here
        exact ⟨row, by rw [is_restored]; exact Function.update_self .., keyed⟩
      · obtain ⟨first, loaded, same⟩ := holds.levelled.first other present
        refine ⟨first, ?_, same⟩
        have elsewhere : (Link.head other : Link ν ρ) ≠ .head node := by simpa using here
        rw [is_restored]
        refine (Function.update_of_ne elsewhere ..).trans ?_
        rw [last.2.2, visible.2.2 (.head other)]
        · exact loaded
        · rintro (hidden | start)
          · exact hidden other List.mem_cons_self
          · exact elsewhere start
  have found : restored.row node = some row := by
    rw [is_restored]
    exact Function.update_self ..
  obtain ⟨enough, erases⟩ := levelled.serase_gives member found array
  refine ⟨enough, fun fuel more => ?_⟩
  obtain ⟨erased, erase⟩ := erases fuel more
  obtain ⟨rest, whole⟩ : ∃ rest,
      (IndexWriter.removeFromIndex key checks fuel array row).Gives memory ()
        ((earlier ++ version :: later) ++ rest) := by
    have ending {rest : List (IndexMemory ν ρ)}
        (gives'
          : Storing.Gives (if result = true then do
                match ← Storing.load fun memory => memory.rows.head row with
                | none => Storing.crash
                | some node =>
                    match ← IndexWriter.rowOf node with
                    | some _ => pure ()
                    | none =>
                        IndexWriter.setRow node (some row)
                        let _ ← IndexWriter.serase key fuel array row
                        IndexWriter.setRow node none
              else pure ()) (latest memory (earlier ++ version :: later)) () rest)
        : (IndexWriter.removeFromIndex key checks fuel array row).Gives memory ()
            ((earlier ++ version :: later) ++ rest) := by
      refine Storing.Gives.of_load ?_
      rw [back]
      exact gives.bind gives'
    cases result with
    | false => exact ⟨[], ending Storing.gives_pure⟩
    | true =>
        refine ⟨restored :: (erased ++ [(latest restored erased).setRows
          ((latest restored erased).rows.setLink (.head node) none)]), ending ?_⟩
        simp only [if_true, latest_append, latest_cons]
        refine Storing.Gives.of_load ?_
        simp only [head]
        refine Storing.Gives.of_load ?_
        simp only [without]
        rw [is_restored] at erase ⊢
        exact Storing.Gives.of_store (erase.bind Storing.gives_store)
  refine ⟨_, whole, fun all => ?_⟩
  -- A search from the key on is led to the node before the row is taken out.
  let query : IndexQuery κ := {
    start := .atLeast (key row)
    past := fun _ => false
    upward := nofun
  }
  obtain ⟨turns, locating, reaches, phase, -⟩ :=
    holds.levelled.locate_ends (key row) (fun _ => none)
  obtain ⟨reading, reads⟩ :=
    @IndexReader.run_locates _ _ _ _ key query (fun _ => none) memory (key row)
      (.pass (key row) false) (.start memory fun _ => none) [] turns
  rw [reaches] at reads
  have next := holds.levelled.found_first member keyed.symm
  have meets : (IndexReader.step query key (fun _ => none) memory)^[2 + (reading + 1)]
      IndexReader.start
      = { phase := .meets node (.pass (key row) false), visited := [] } := by
    have first : (IndexReader.step query key (fun _ => none) memory)^[reading + 1]
        IndexReader.start = _ :=
      (Function.iterate_succ_apply _ reading _).trans reads
    rw [Function.iterate_add_apply, first]
    simp [IndexReader.step, phase, next]
  obtain ⟨schedule, ran⟩ : ∃ schedule,
      search query key (fun _ => none) memory ((earlier ++ version :: later) ++ rest) schedule
        = { memory := version, pending := later ++ rest
            reader := { phase := .crashed, visited := [] } } := by
    refine ⟨List.replicate (2 + (reading + 1)) .reader
      ++ (List.replicate (earlier ++ [version]).length .writer ++ List.replicate 1 .reader), ?_⟩
    have parts : (earlier ++ version :: later) ++ rest
        = (earlier ++ [version]) ++ (later ++ rest) := by
      simp
    rw [search, Scene.run_append, Scene.run_readers, meets, Scene.run_append, parts,
      Scene.run_writers, Scene.run_readers]
    simp [IndexReader.step, IndexReader.meet, emptied]
  have crashes := (all query (fun _ => none) schedule).meetsRows.1
  rw [ran] at crashes
  exact crashes rfl

/-- Searches read every other row during a removal exactly if its bucket keeps another row. -/
theorem removeFromIndex_othersRead_iff (holds : memory.Holds key nodeKey levels lists)
    (row : ρ) (checks : Bool) (array : Nat → Option ν)
    : ∃ enough,
        ∀ fuel ≥ enough,
          ∃ versions,
            (IndexWriter.removeFromIndex key checks fuel array row).Gives memory () versions
            ∧ (OthersRead key lists row memory versions ↔ ∀ node, lists node ≠ [row]) := by
  by_cases listed : Listed lists row
  · obtain ⟨node, member⟩ := listed
    obtain ⟨before, after, split⟩ := List.append_of_mem member
    by_cases kept : before ++ after = []
    · obtain ⟨rfl, rfl⟩ := List.append_eq_nil_iff.mp kept
      obtain ⟨enough, meets⟩ := holds.removeFromIndex_meets split checks array
      refine ⟨enough, fun fuel more => ?_⟩
      obtain ⟨versions, gives, misses⟩ := meets fuel more
      exact ⟨versions, gives, iff_of_false misses fun others => others node split⟩
    · refine ⟨0, fun fuel _ => ?_⟩
      obtain ⟨versions, gives, reads⟩ := holds.removeFromIndex_keeps split kept checks fuel array
      refine ⟨versions, gives, iff_of_true reads fun other only => ?_⟩
      obtain rfl : other = node := holds.rows.apart (by simp [only]) member
      have shorter := congrArg List.length (split.symm.trans only)
      simp only [List.length_append, List.length_cons, List.length_nil] at shorter
      refine kept (List.append_eq_nil_iff.mpr ⟨?_, ?_⟩) <;>
        exact List.length_eq_zero_iff.mp (by omega)
  · obtain ⟨gives, reads⟩ := holds.removeFromIndex_unlisted listed checks 0 array
    refine ⟨0, fun fuel _ => ⟨[], (holds.removeFromIndex_unlisted listed checks fuel array).1,
      iff_of_true reads fun node only => listed ⟨node, by simp [only]⟩⟩⟩

end Removing

theorem removeFromIndex_othersRead_iff_small
    : ∃ enough,
        ∀ fuel ≥ enough,
          ∃ versions,
            (IndexWriter.removeFromIndex id true fuel (fun _ => none) 20).Gives smallIndex () versions
            ∧ (OthersRead id smallLists 20 smallIndex versions ↔ ∀ node, smallLists node ≠ [20]) :=
  removeFromIndex_othersRead_iff smallIndex_holds 20 true _

/-- A search for key 20 compares with a missing row while the last row of its bucket is taken out.
-/
theorem removeFromIndex_crashes_small
    : smallIndex.Holds id (fun _ => 20) smallLevels smallLists
      ∧ ∃ versions,
          (IndexWriter.removeFromIndex id true 8 (fun _ => none) 20).Gives smallIndex () versions
          ∧ ¬ OthersRead id smallLists 20 smallIndex versions := by
  refine ⟨smallIndex_holds, _, rfl, fun all => ?_⟩
  let query : IndexQuery Nat := { start := .equal 20, past := fun _ => false, upward := nofun }
  have reads := all query (fun _ => none) (List.replicate 1 .writer ++ List.replicate 10 .reader)
  exact reads.meetsRows.1 rfl

end SpeedTables.Shared
