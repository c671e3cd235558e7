import Mathlib
import SpeedTables.Lib.Links

/-! The doubly linked row lists and the stores that readers can see. -/

namespace SpeedTables.Shared
open SpeedTables.Lib

variable {η ρ α : Type}

-----------------------------------------------------------------------------------------
-- Memory
-----------------------------------------------------------------------------------------

/-- The links, and the back pointers of the rows, at one index of `_ll_nodes`. -/
structure ListMemory (η ρ : Type) where
  link : Link η ρ → Option ρ
  prev : ρ → Option (Link η ρ)
  head : ρ → Option η

/-- The rows of every list, in order. -/
abbrev RowLists (η ρ : Type) := η → List ρ

def Listed (lists : RowLists η ρ) (row : ρ) : Prop := ∃ list, row ∈ lists list

/-- The memory holds the lists: their rows are linked in order, no row is listed twice, and the
back pointers of a row designate the link that points to it and the head of its list.
-/
structure ListMemory.Holds (memory : ListMemory η ρ) (lists : RowLists η ρ) : Prop where
  linked : ∀ list, LeadsTo memory.link (.head list) (lists list)
  distinct : ∀ list, (lists list).Nodup
  apart : ∀ {list other row}, row ∈ lists list → row ∈ lists other → list = other
  prev
    : ∀ {list link row},
        link ∈ (Link.head list).through (lists list)
        → memory.link link = some row
        → memory.prev row = some link
  head : ∀ {list row}, row ∈ lists list → memory.head row = some list
  unlisted : ∀ {row}, ¬ Listed lists row → memory.prev row = none

section Holding

variable {memory : ListMemory η ρ} {lists : RowLists η ρ} {list : η} {row : ρ}
  {before after : List ρ}

/-- The link behind the first rows of a list points to the next row. -/
theorem ListMemory.Holds.points (holds : memory.Holds lists) (split : lists list = before ++ after)
    : memory.link ((Link.head list).behind before) = after.head? := by
  have leads := holds.linked list
  rw [split] at leads
  have rest := leads.rest
  cases after with
  | nil => exact rest
  | cons next others => exact rest.1

/-- The links of a list are distinct. -/
theorem ListMemory.Holds.through_nodup (holds : memory.Holds lists) (list : η)
    : ((Link.head list).through (lists list)).Nodup := by
  refine List.nodup_cons.mpr ⟨by simp, ?_⟩
  exact (holds.distinct list).map (fun _ _ same => by cases same; rfl)

/-- A link belongs to one list. -/
theorem ListMemory.Holds.through_apart (holds : memory.Holds lists) {link : Link η ρ} {other : η}
    (here : link ∈ (Link.head list).through (lists list))
    (there : link ∈ (Link.head other).through (lists other))
    : list = other := by
  cases link with
  | head name =>
      simp only [Link.through, List.mem_cons, Link.head.injEq, List.mem_map, reduceCtorEq,
        and_false, exists_false, or_false] at here there
      exact here.symm.trans there
  | next row =>
      simp only [Link.through, List.mem_cons, reduceCtorEq, List.mem_map, Link.next.injEq,
        exists_eq_right, false_or] at here there
      exact holds.apart here there

/-- The place behind the first rows of a list. -/
theorem ListMemory.Holds.place_mem (split : lists list = before ++ after)
    : (Link.head list).behind before ∈ (Link.head list).through (lists list) := by
  have inside := @Link.behind_mem _ _ (Link.head list) before
  rw [split]
  simp only [Link.through, List.mem_cons, List.map_append, List.mem_append] at inside ⊢
  exact inside.imp_right Or.inl

theorem ListMemory.Holds.adjacent_ne (holds : memory.Holds lists) {next : ρ}
    (split : lists list = before ++ row :: next :: after)
    : row ≠ next := by
  have distinct := holds.distinct list
  rw [split] at distinct
  have rest := (List.nodup_append.mp distinct).2.1
  exact fun same => (List.nodup_cons.mp rest).1 (same ▸ List.mem_cons_self)

/-- The links behind a row lead through the rest of its list. -/
theorem ListMemory.Holds.tail (holds : memory.Holds lists)
    (split : lists list = before ++ row :: after) {follow : Link η ρ → Option ρ}
    (same : ∀ other ∈ row :: after, follow (.next other) = memory.link (.next other))
    : LeadsTo follow (.next row) after := by
  have leads := holds.linked list
  rw [split] at leads
  refine (leadsTo_cons.mp leads.rest).2.transfer (same row List.mem_cons_self) ?_
  intro other member
  exact same other (List.mem_cons_of_mem row member)

/-- The back pointers of every row say where it is linked. -/
structure ListMemory.LinkedBack (memory : ListMemory η ρ) (lists : RowLists η ρ) : Prop where
  prev
    : ∀ list, ∀ row ∈ lists list, ∃ link,
        memory.prev row = some link
        ∧ link ∈ (Link.head list).through (lists list)
        ∧ memory.link link = some row
  head : ∀ list, ∀ row ∈ lists list, memory.head row = some list
  unlisted : ∀ row, (∀ list, row ∉ lists list) → memory.prev row = none

theorem ListMemory.Holds.linkedBack (holds : memory.Holds lists) : memory.LinkedBack lists where
  prev := by
    intro list row member
    obtain ⟨before, after, split⟩ := List.append_of_mem member
    have placed : (Link.head list).behind before ∈ (Link.head list).through (lists list) :=
      ListMemory.Holds.place_mem split
    exact ⟨_, holds.prev placed (holds.points split), placed, holds.points split⟩
  head := fun list row member => holds.head member
  unlisted := fun row absent => holds.unlisted fun ⟨list, member⟩ => absent list member

/-- A memory without lists, whatever the next pointers and head pointers of the rows were. -/
theorem ListMemory.holds_empty {link : Link η ρ → Option ρ}
    (empty : ∀ list, link (.head list) = none) (head : ρ → Option η)
    : ListMemory.Holds { link := link, prev := fun _ => none, head := head } (fun _ => []) where
  linked := empty
  distinct := fun _ => List.nodup_nil
  apart := fun same => by cases same
  prev := by
    intro list link' row member points
    obtain rfl : link' = .head list := by simpa [Link.through] using member
    cases points.symm.trans (empty list)
  head := fun same => by cases same
  unlisted := fun _ => rfl

/-- A link that no reader of a list meets. -/
def Hidden (lists : RowLists η ρ) (link : Link η ρ) : Prop :=
  ∀ list, link ∉ (Link.head list).through (lists list)

theorem hidden_next (unlisted : ¬ Listed lists row) : Hidden lists (.next row) := by
  intro list member
  exact unlisted ⟨list, by simpa [Link.through] using member⟩

end Holding

-----------------------------------------------------------------------------------------
-- Programs
-----------------------------------------------------------------------------------------

/-- A program of single loads and stores. It crashes on an access through a null pointer and
on a failed sanity check.
-/
inductive ListProgram (η ρ α : Type) where
  | done (result : α)
  | loadLink (link : Link η ρ) (rest : Option ρ → ListProgram η ρ α)
  | loadPrev (row : ρ) (rest : Option (Link η ρ) → ListProgram η ρ α)
  | loadHead (row : ρ) (rest : Option η → ListProgram η ρ α)
  | storeLink (link : Link η ρ) (value : Option ρ) (rest : ListProgram η ρ α)
  | storePrev (row : ρ) (value : Option (Link η ρ)) (rest : ListProgram η ρ α)
  | storeHead (row : ρ) (value : Option η) (rest : ListProgram η ρ α)
  | crash

@[simp]
def ListProgram.bind {β : Type} : ListProgram η ρ α → (α → ListProgram η ρ β) → ListProgram η ρ β
  | .done result, next => next result
  | .loadLink link rest, next => .loadLink link (fun value => (rest value).bind next)
  | .loadPrev row rest, next => .loadPrev row (fun value => (rest value).bind next)
  | .loadHead row rest, next => .loadHead row (fun value => (rest value).bind next)
  | .storeLink link value rest, next => .storeLink link value (rest.bind next)
  | .storePrev row value rest, next => .storePrev row value (rest.bind next)
  | .storeHead row value rest, next => .storeHead row value (rest.bind next)
  | .crash, _ => .crash

instance : Monad (ListProgram η ρ) where
  pure := ListProgram.done
  bind := ListProgram.bind

@[simp]
theorem ListProgram.pure_eq (result : α) : (pure result : ListProgram η ρ α) = .done result := rfl

@[simp]
theorem ListProgram.bind_eq {β : Type} (program : ListProgram η ρ α) (next : α → ListProgram η ρ β)
    : (program >>= next) = program.bind next :=
  rfl

variable [DecidableEq η] [DecidableEq ρ]

@[simp]
def ListMemory.setLink (memory : ListMemory η ρ) (link : Link η ρ) (value : Option ρ)
    : ListMemory η ρ :=
  { memory with link := Function.update memory.link link value }

@[simp]
def ListMemory.setPrev (memory : ListMemory η ρ) (row : ρ) (value : Option (Link η ρ))
    : ListMemory η ρ :=
  { memory with prev := Function.update memory.prev row value }

@[simp]
def ListMemory.setHead (memory : ListMemory η ρ) (row : ρ) (value : Option η)
    : ListMemory η ρ :=
  { memory with head := Function.update memory.head row value }

namespace ListProgram

/-- One load or store. -/
def step : ListProgram η ρ α → ListMemory η ρ → ListProgram η ρ α × ListMemory η ρ
  | done result, memory => (done result, memory)
  | loadLink link rest, memory => (rest (memory.link link), memory)
  | loadPrev row rest, memory => (rest (memory.prev row), memory)
  | loadHead row rest, memory => (rest (memory.head row), memory)
  | storeLink link value rest, memory => (rest, memory.setLink link value)
  | storePrev row value rest, memory => (rest, memory.setPrev row value)
  | storeHead row value rest, memory => (rest, memory.setHead row value)
  | crash, memory => (crash, memory)

/-- The whole program, without readers in between. -/
@[simp]
def run : ListProgram η ρ α → ListMemory η ρ → Option (α × ListMemory η ρ)
  | done result, memory => some (result, memory)
  | loadLink link rest, memory => (rest (memory.link link)).run memory
  | loadPrev row rest, memory => (rest (memory.prev row)).run memory
  | loadHead row rest, memory => (rest (memory.head row)).run memory
  | storeLink link value rest, memory => rest.run (memory.setLink link value)
  | storePrev row value rest, memory => rest.run (memory.setPrev row value)
  | storeHead row value rest, memory => rest.run (memory.setHead row value)
  | crash, _ => none

@[simp]
def nextOf (row : ρ) : ListProgram η ρ (Option ρ) := loadLink (.next row) done
@[simp]
def headRow (list : η) : ListProgram η ρ (Option ρ) := loadLink (.head list) done
@[simp]
def prevOf (row : ρ) : ListProgram η ρ (Option (Link η ρ)) := loadPrev row done
@[simp]
def headOf (row : ρ) : ListProgram η ρ (Option η) := loadHead row done
@[simp]
def setNext (row : ρ) (value : Option ρ) : ListProgram η ρ Unit :=
  storeLink (.next row) value (done ())
@[simp]
def setHeadRow (list : η) (value : Option ρ) : ListProgram η ρ Unit :=
  storeLink (.head list) value (done ())
@[simp]
def setPrev (row : ρ) (value : Option (Link η ρ)) : ListProgram η ρ Unit :=
  storePrev row value (done ())
@[simp]
def setHead (row : ρ) (value : Option η) : ListProgram η ρ Unit :=
  storeHead row value (done ())

/-- `*link = value` -/
@[simp]
def setThrough (link : Option (Link η ρ)) (value : Option ρ) : ListProgram η ρ Unit :=
  match link with
  | none => crash
  | some link => storeLink link value (done ())

/-- `row->_ll_nodes[i].prev = value` -/
@[simp]
def setPrevThrough (row : Option ρ) (value : Option (Link η ρ)) : ListProgram η ρ Unit :=
  match row with
  | none => crash
  | some row => storePrev row value (done ())

-----------------------------------------------------------------------------------------
-- The list functions
-----------------------------------------------------------------------------------------

/-- `SANITY_CHECKS` is a build option. -/
@[simp]
def sanityCheck (checks : Bool) (row : ρ) (sane : Option (Link η ρ) → Bool)
    : ListProgram η ρ Unit := do
  if checks then
    unless sane (← prevOf row) do crash

/-- `ctable_ListRemove` -/
@[simp]
def listRemove (checks : Bool) (row : ρ) : ListProgram η ρ Unit := do
  sanityCheck checks row Option.isSome
  if (← nextOf row).isSome then
    setPrevThrough (← nextOf row) (← prevOf row)
  setThrough (← prevOf row) (← nextOf row)
  setPrev row none

/-- `ctable_ListRemoveMightBeTheLastOne` -/
@[simp]
def listRemoveMightBeTheLastOne (checks : Bool) (row : ρ) : ListProgram η ρ Bool := do
  sanityCheck checks row Option.isSome
  let mightBeTheLastOne ←
    if (← nextOf row).isSome then do
      setPrevThrough (← nextOf row) (← prevOf row)
      pure false
    else
      pure true
  setThrough (← prevOf row) (← nextOf row)
  setPrev row none
  pure mightBeTheLastOne

/-- `ctable_ListInsertHead` -/
@[simp]
def listInsertHead (checks : Bool) (list : η) (row : ρ) : ListProgram η ρ Unit := do
  sanityCheck checks row Option.isNone
  setPrev row (some (.head list))
  setHead row (some list)
  let first ← headRow list
  setNext row first
  if first.isSome then
    setPrevThrough (← headRow list) (some (.next row))
  setHeadRow list (some row)

/-- `ctable_ListInsertBefore` -/
@[simp]
def listInsertBefore (row1 row2 : ρ) : ListProgram η ρ Unit := do
  setHead row2 (← headOf row1)
  setPrev row2 (← prevOf row1)
  setNext row2 (some row1)
  let row1prev ← prevOf row1
  setPrev row1 (some (.next row2))
  setThrough row1prev (some row2)

/-- `ctable_ListInsertAfter` -/
@[simp]
def listInsertAfter (row1 row2 : ρ) : ListProgram η ρ Unit := do
  setHead row2 (← headOf row1)
  setPrev row2 (some (.next row1))
  let next ← nextOf row1
  setNext row2 next
  if next.isSome then
    setPrevThrough (← nextOf row1) (some (.next row2))
  setNext row1 (some row2)

end ListProgram

-----------------------------------------------------------------------------------------
-- Lists and operations
-----------------------------------------------------------------------------------------

/-- One of the list functions, applied to its arguments. -/
inductive ListOperation (η ρ : Type) where
  | remove (row : ρ)
  | removeMightBeTheLastOne (row : ρ)
  | insertHead (list : η) (row : ρ)
  | insertBefore (row1 row2 : ρ)
  | insertAfter (row1 row2 : ρ)
  deriving DecidableEq

/-- The call of the list function, with the result of the second removal dropped. -/
@[simp]
def ListOperation.program (checks : Bool) : ListOperation η ρ → ListProgram η ρ Unit
  | remove row => ListProgram.listRemove checks row
  | removeMightBeTheLastOne row => do
      let _ ← ListProgram.listRemoveMightBeTheLastOne checks row
  | insertHead list row => ListProgram.listInsertHead checks list row
  | insertBefore row1 row2 => ListProgram.listInsertBefore row1 row2
  | insertAfter row1 row2 => ListProgram.listInsertAfter row1 row2

/-- The lists with some rows in the place of one. -/
def RowLists.replace (lists : RowLists η ρ) (row : ρ) (rows : List ρ) : RowLists η ρ :=
  fun list => (lists list).flatMap (fun other => if other = row then rows else [other])

/-- What the operation is for: the rows of every list after it. -/
def ListOperation.effect (operation : ListOperation η ρ) (lists : RowLists η ρ) : RowLists η ρ :=
  match operation with
  | remove row => lists.replace row []
  | removeMightBeTheLastOne row => lists.replace row []
  | insertHead list row => Function.update lists list (row :: lists list)
  | insertBefore row1 row2 => lists.replace row1 [row2, row1]
  | insertAfter row1 row2 => lists.replace row1 [row1, row2]

/-- A removed row, or one to insert at, is in a list, and an inserted row is in none. -/
def ListOperation.Applies (lists : RowLists η ρ) : ListOperation η ρ → Prop
  | remove row => Listed lists row
  | removeMightBeTheLastOne row => Listed lists row
  | insertHead _ row => ¬ Listed lists row
  | insertBefore row1 row2 => Listed lists row1 ∧ ¬ Listed lists row2
  | insertAfter row1 row2 => Listed lists row1 ∧ ¬ Listed lists row2

-----------------------------------------------------------------------------------------
-- Readers between the stores
-----------------------------------------------------------------------------------------

/-- The process that runs a list function, and a process that reads a list without a lock. -/
inductive ListActor where
  | writer
  | reader
  deriving DecidableEq

structure ListScene (η ρ : Type) where
  program : ListProgram η ρ Unit
  memory : ListMemory η ρ
  reader : LinkReader η ρ

def ListScene.step (scene : ListScene η ρ) : ListActor → ListScene η ρ
  | .writer =>
      let (program, memory) := scene.program.step scene.memory
      { scene with program := program, memory := memory }
  | .reader => { scene with reader := scene.reader.read scene.memory.link }

/-- The processes take turns in any order. -/
def ListScene.run (scene : ListScene η ρ) (schedule : List ListActor) : ListScene η ρ :=
  schedule.foldl ListScene.step scene

/-- The rest of a program shows readers nothing more. -/
@[simp]
def ListProgram.Silent : ListProgram η ρ α → ListMemory η ρ → Prop
  | done _, _ => True
  | loadLink link rest, memory => (rest (memory.link link)).Silent memory
  | loadPrev row rest, memory => (rest (memory.prev row)).Silent memory
  | loadHead row rest, memory => (rest (memory.head row)).Silent memory
  | storeLink _ _ _, _ => False
  | storePrev row value rest, memory => rest.Silent (memory.setPrev row value)
  | storeHead row value rest, memory => rest.Silent (memory.setHead row value)
  | crash, _ => False

/-- The rest of a program shows readers one change: a place leads to other rows. Before that it
stores hidden links only.
-/
@[simp]
def ListProgram.Publishes (place : Link η ρ) (hidden : Link η ρ → Prop) (new : List ρ)
    : ListProgram η ρ α → ListMemory η ρ → Prop
  | done _, _ => False
  | loadLink link rest, memory => (rest (memory.link link)).Publishes place hidden new memory
  | loadPrev row rest, memory => (rest (memory.prev row)).Publishes place hidden new memory
  | loadHead row rest, memory => (rest (memory.head row)).Publishes place hidden new memory
  | storeLink link value rest, memory =>
      if link = place then
        LeadsTo (memory.setLink link value).link place new
          ∧ rest.Silent (memory.setLink link value)
      else hidden link ∧ rest.Publishes place hidden new (memory.setLink link value)
  | storePrev row value rest, memory =>
      rest.Publishes place hidden new (memory.setPrev row value)
  | storeHead row value rest, memory =>
      rest.Publishes place hidden new (memory.setHead row value)
  | crash, _ => False

section Scenes

variable {first place : Link η ρ} {hidden : Link η ρ → Prop} {rows rows' new : List ρ}

/-- A reader of the rows, before or after the change. -/
def ListScene.Reads (first place : Link η ρ) (hidden : Link η ρ → Prop) (rows rows' new : List ρ)
    (scene : ListScene η ρ)
    : Prop :=
  (scene.program.Publishes place hidden new scene.memory
      ∧ scene.reader.Sees scene.memory.link first rows)
    ∨ (scene.program.Silent scene.memory
      ∧ ∃ seen, (seen = rows ∨ seen = rows') ∧ scene.reader.Sees scene.memory.link first seen)

/-- A step of the writer before the change. -/
theorem ListScene.step_publishes {program : ListProgram η ρ Unit} {memory : ListMemory η ρ}
    {reader : LinkReader η ρ}
    (unseen : ∀ link, hidden link → link ∉ first.through rows)
    (published
      : ∀ {follow follow' : Link η ρ → Option ρ},
          reader.Sees follow first rows
          → (∀ link, link ≠ place → follow' link = follow link)
          → LeadsTo follow' place new
          → reader.Sees follow' first rows ∨ reader.Sees follow' first rows')
    (publishes : program.Publishes place hidden new memory)
    (sees : reader.Sees memory.link first rows)
    : (ListScene.step { program := program, memory := memory, reader := reader } .writer).Reads
        first place hidden rows rows' new := by
  cases program with
  | done result => exact publishes.elim
  | crash => exact publishes.elim
  | loadLink link rest => exact Or.inl ⟨publishes, sees⟩
  | loadPrev row rest => exact Or.inl ⟨publishes, sees⟩
  | loadHead row rest => exact Or.inl ⟨publishes, sees⟩
  | storePrev row value rest => exact Or.inl ⟨publishes, sees⟩
  | storeHead row value rest => exact Or.inl ⟨publishes, sees⟩
  | storeLink link value rest =>
      have same : ∀ other, other ≠ link → (memory.setLink link value).link other
          = memory.link other := by
        intro other different
        exact Function.update_of_ne different ..
      simp only [ListProgram.Publishes] at publishes
      split at publishes
      · rename_i here
        subst here
        obtain ⟨leads, silent⟩ := publishes
        rcases published sees same leads with before | after
        · exact Or.inr ⟨silent, rows, Or.inl rfl, before⟩
        · exact Or.inr ⟨silent, rows', Or.inr rfl, after⟩
      · refine Or.inl ⟨publishes.2, sees.congr fun other member => same other ?_⟩
        rintro rfl
        exact unseen other publishes.1 member

/-- A step of the writer after the change. -/
theorem ListScene.step_silent {program : ListProgram η ρ Unit} {memory : ListMemory η ρ}
    {reader : LinkReader η ρ} {seen : List ρ} (silent : program.Silent memory)
    (either : seen = rows ∨ seen = rows') (sees : reader.Sees memory.link first seen)
    : (ListScene.step { program := program, memory := memory, reader := reader } .writer).Reads
        first place hidden rows rows' new := by
  cases program with
  | crash => exact silent.elim
  | storeLink link value rest => exact silent.elim
  | done result => exact Or.inr ⟨silent, seen, either, sees⟩
  | loadLink link rest => exact Or.inr ⟨silent, seen, either, sees⟩
  | loadPrev row rest => exact Or.inr ⟨silent, seen, either, sees⟩
  | loadHead row rest => exact Or.inr ⟨silent, seen, either, sees⟩
  | storePrev row value rest => exact Or.inr ⟨silent, seen, either, sees⟩
  | storeHead row value rest => exact Or.inr ⟨silent, seen, either, sees⟩

/-- Both kinds of steps keep what the reader sees, by induction on the schedule. -/
theorem ListScene.run_reads {scene : ListScene η ρ} {schedule : List ListActor}
    (unseen : ∀ link, hidden link → link ∉ first.through rows)
    (published
      : ∀ {reader : LinkReader η ρ} {follow follow' : Link η ρ → Option ρ},
          reader.Sees follow first rows
          → (∀ link, link ≠ place → follow' link = follow link)
          → LeadsTo follow' place new
          → reader.Sees follow' first rows ∨ reader.Sees follow' first rows')
    (reads : scene.Reads first place hidden rows rows' new)
    : (scene.run schedule).Reads first place hidden rows rows' new := by
  induction schedule generalizing scene with
  | nil => exact reads
  | cons actor rest ih =>
      refine @ih (scene.step actor) ?_
      cases actor with
      | writer =>
          rcases reads with ⟨publishes, sees⟩ | ⟨silent, seen, either, sees⟩
          · exact ListScene.step_publishes unseen published publishes sees
          · exact ListScene.step_silent silent either sees
      | reader =>
          rcases reads with ⟨publishes, sees⟩ | ⟨silent, seen, either, sees⟩
          · exact Or.inl ⟨publishes, sees.read⟩
          · exact Or.inr ⟨silent, seen, either, sees.read⟩

theorem ListScene.run_finished {scene : ListScene η ρ} (done : scene.reader.finished = true)
    (schedule : List ListActor)
    : (scene.run schedule).reader.finished = true := by
  induction schedule generalizing scene with
  | nil => exact done
  | cons actor rest ih =>
      refine @ih (scene.step actor) ?_
      cases actor with
      | writer => exact done
      | reader => simp [ListScene.step, LinkReader.read, done]

/-- Every load brings the reader closer to its end, by induction on the schedule. -/
theorem ListScene.run_progress (scene : ListScene η ρ) (schedule : List ListActor)
    : (scene.run schedule).reader.finished = true
      ∨ scene.reader.visited.length + schedule.count .reader
        ≤ (scene.run schedule).reader.visited.length := by
  induction schedule generalizing scene with
  | nil => exact Or.inr le_rfl
  | cons actor rest ih =>
      rcases ih (scene.step actor) with done | further
      · exact Or.inl done
      · cases actor with
        | writer =>
            rw [List.count_cons_of_ne (by decide)]
            exact Or.inr further
        | reader =>
            rcases @LinkReader.read_progress _ _ scene.memory.link scene.reader with done | more
            · exact Or.inl (@ListScene.run_finished _ _ _ _ (scene.step .reader) done rest)
            · refine Or.inr (le_trans ?_ further)
              simp only [ListScene.step, more, List.count_cons_self]
              omega

end Scenes

-----------------------------------------------------------------------------------------
-- Memory that holds the lists
-----------------------------------------------------------------------------------------

section Holding

variable {memory memory' : ListMemory η ρ} {lists : RowLists η ρ} {list : η} {row : ρ}
  {before after : List ρ}

/-- What an insertion leaves behind, in which order ever it was stored. -/
structure ListMemory.Inserted (memory memory' : ListMemory η ρ) (list : η) (before after : List ρ)
    (row : ρ) : Prop where
  link
    : ∀ link, memory'.link link
        = if link = (Link.head list).behind before then some row
          else if link = .next row then after.head? else memory.link link
  prev
    : ∀ other, memory'.prev other
        = if other = row then some ((Link.head list).behind before)
          else if some other = after.head? then some (.next row) else memory.prev other
  head : ∀ other, memory'.head other = if other = row then some list else memory.head other

/-- What a removal leaves behind. -/
structure ListMemory.Removed (memory memory' : ListMemory η ρ) (list : η) (before after : List ρ)
    (row : ρ) : Prop where
  link
    : ∀ link, memory'.link link
        = if link = (Link.head list).behind before then after.head? else memory.link link
  prev
    : ∀ other, memory'.prev other
        = if other = row then none
          else if some other = after.head? then some ((Link.head list).behind before)
          else memory.prev other
  head : memory'.head = memory.head

/-- The inserted row is linked at its place, and the other lists are as before. -/
theorem ListMemory.Holds.insert (holds : memory.Holds lists) (split : lists list = before ++ after)
    (fresh : ¬ Listed lists row) (inserted : memory.Inserted memory' list before after row)
    : memory'.Holds (Function.update lists list (before ++ row :: after)) := by
  have placed : (Link.head list).behind before ∈ (Link.head list).through (lists list) :=
    ListMemory.Holds.place_mem split
  have hidden {other link} (member : link ∈ (Link.head other).through (lists other))
      : link ≠ .next row := by
    rintro rfl
    exact fresh ⟨other, by simpa [Link.through] using member⟩
  have members {other next}
      : next ∈ Function.update lists list (before ++ row :: after) other
        ↔ next ∈ lists other ∨ (other = list ∧ next = row) := by
    by_cases here : other = list
    · subst here
      simp only [Function.update_self, split, List.mem_append, List.mem_cons, true_and]
      tauto
    · simp [here]
  have old {next} (first : after.head? = some next) : next ∈ lists list := by
    rw [split]
    exact List.mem_append_right before (List.mem_of_head? first)
  refine { linked := ?_, distinct := ?_, apart := ?_, prev := ?_, head := ?_, unlisted := ?_ }
  · intro other
    by_cases here : other = list
    · subst here
      rw [Function.update_self]
      have leads := holds.linked other
      rw [split] at leads
      have behind : LeadsTo memory'.link (.next row) after := by
        refine leads.rest.transfer ?_ ?_
        · rw [inserted.link, if_neg (hidden placed).symm, if_pos rfl, holds.points split]
        · intro next member
          have inside : next ∈ lists other := split ▸ List.mem_append_right before member
          have different : next ≠ row := fun same => fresh ⟨other, same ▸ inside⟩
          have distinct := holds.through_nodup other
          rw [split] at distinct
          rw [inserted.link, if_neg (Link.behind_ne distinct member).symm,
            if_neg (by simpa using different)]
      refine leads.splice ?_ ?_ ⟨by rw [inserted.link, if_pos rfl], behind⟩
      · have distinct := holds.through_nodup other
        rw [split] at distinct
        exact distinct.sublist (((List.sublist_append_left before after).map _).cons_cons _)
      · intro link member different
        have inside : link ∈ (Link.head other).through (lists other) := by
          rw [split]
          exact ((List.sublist_append_left before after).map _).cons_cons _ |>.subset member
        rw [inserted.link, if_neg different, if_neg (hidden inside)]
    · rw [Function.update_of_ne here]
      refine (holds.linked other).congr fun link member => ?_
      have different : link ≠ (Link.head list).behind before := by
        rintro rfl
        exact here (holds.through_apart member placed)
      rw [inserted.link, if_neg different, if_neg (hidden member)]
  · intro other
    by_cases here : other = list
    · subst here
      have distinct := holds.distinct other
      rw [split] at distinct
      have absent : row ∉ before ++ after := fun member => fresh ⟨other, split ▸ member⟩
      rw [Function.update_self]
      exact (List.perm_middle.nodup_iff.mpr (List.nodup_cons.mpr ⟨absent, distinct⟩))
    · rw [Function.update_of_ne here]
      exact holds.distinct other
  · intro one other next here there
    rcases members.mp here with inside | ⟨rfl, rfl⟩ <;>
      rcases members.mp there with inside' | ⟨rfl, same⟩
    · exact holds.apart inside inside'
    · exact (fresh ⟨one, same ▸ inside⟩).elim
    · exact (fresh ⟨other, inside'⟩).elim
    · rfl
  · intro other link next member points
    rw [inserted.link] at points
    rw [inserted.prev]
    split at points
    · rename_i here
      obtain rfl : row = next := by simpa using points
      rw [if_pos rfl, here]
    · rename_i notHere
      split at points
      · rename_i behind
        have different : next ≠ row := fun same => fresh ⟨list, same ▸ old points⟩
        rw [if_neg different, if_pos points.symm, behind]
      · rename_i notBehind
        have inside : link ∈ (Link.head other).through (lists other) := by
          cases link with
          | head name => simpa [Link.through] using member
          | next before' =>
              have listed
                  : before' ∈ Function.update lists list (before ++ row :: after) other := by
                simpa [Link.through] using member
              rcases members.mp listed with inside | ⟨-, rfl⟩
              · simpa [Link.through] using inside
              · exact (notBehind rfl).elim
        have different : next ≠ row := by
          rintro rfl
          exact fresh ⟨other, (holds.linked other).target_mem inside points⟩
        have notFirst : after.head? ≠ some next := by
          intro first
          have back := holds.prev placed ((holds.points split).trans first)
          rw [holds.prev inside points] at back
          exact notHere (Option.some.inj back)
        rw [if_neg different, if_neg (Ne.symm notFirst), holds.prev inside points]
  · intro other next member
    rw [inserted.head]
    rcases members.mp member with inside | ⟨rfl, rfl⟩
    · have different : next ≠ row := fun same => fresh ⟨other, same ▸ inside⟩
      rw [if_neg different, holds.head inside]
    · rw [if_pos rfl]
  · intro next unlisted
    have absent : ¬ Listed lists next := by
      rintro ⟨other, member⟩
      exact unlisted ⟨other, members.mpr (Or.inl member)⟩
    have different : next ≠ row := by
      rintro rfl
      exact unlisted ⟨list, members.mpr (Or.inr ⟨rfl, rfl⟩)⟩
    rw [inserted.prev, if_neg different, if_neg (fun first => absent ⟨list, old first.symm⟩),
      holds.unlisted absent]

/-- The removed row is linked nowhere, and the other lists are as before. -/
theorem ListMemory.Holds.remove (holds : memory.Holds lists)
    (split : lists list = before ++ row :: after)
    (removed : memory.Removed memory' list before after row)
    : memory'.Holds (Function.update lists list (before ++ after)) := by
  have placed : (Link.head list).behind before ∈ (Link.head list).through (lists list) :=
    ListMemory.Holds.place_mem split
  have whole := holds.distinct list
  rw [split] at whole
  obtain ⟨absent, distinct⟩ := List.nodup_cons.mp (List.perm_middle.nodup_iff.mp whole)
  have listed : row ∈ lists list := by simp [split]
  have members {other next}
      : next ∈ Function.update lists list (before ++ after) other
        ↔ next ∈ lists other ∧ next ≠ row := by
    by_cases here : other = list
    · subst here
      rw [Function.update_self, split]
      constructor
      · intro member
        refine ⟨?_, fun same => absent (same ▸ member)⟩
        simp only [List.mem_append, List.mem_cons] at member ⊢
        tauto
      · rintro ⟨member, different⟩
        simp only [List.mem_append, List.mem_cons] at member ⊢
        tauto
    · rw [Function.update_of_ne here, iff_self_and]
      intro member same
      exact here (holds.apart (same ▸ member) listed)
  have links {other link} (member : link ∈ (Link.head other).through
        (Function.update lists list (before ++ after) other))
      : link ∈ (Link.head other).through (lists other) ∧ link ≠ .next row := by
    cases link with
    | head name => exact ⟨by simpa [Link.through] using member, by simp⟩
    | next before' =>
        have inside := (@members other before').mp (by simpa [Link.through] using member)
        exact ⟨by simpa [Link.through] using inside.1, by simpa using inside.2⟩
  have behind : memory.link (.next row) = after.head? := by
    have at' : lists list = (before ++ [row]) ++ after := by simp [split]
    simpa using holds.points at'
  refine { linked := ?_, distinct := ?_, apart := ?_, prev := ?_, head := ?_, unlisted := ?_ }
  · intro other
    by_cases here : other = list
    · subst here
      rw [Function.update_self]
      have leads := holds.linked other
      rw [split] at leads
      have path := holds.through_nodup other
      rw [split] at path
      have rest : LeadsTo memory'.link ((Link.head other).behind before) after := by
        refine (leadsTo_cons.mp leads.rest).2.transfer (by rw [removed.link, if_pos rfl, behind]) ?_
        intro next member
        rw [removed.link, if_neg (Link.behind_ne path (List.mem_cons_of_mem row member)).symm]
      refine leads.splice ?_ (fun link _ different => by rw [removed.link, if_neg different]) rest
      exact path.sublist (((List.sublist_append_left before (row :: after)).map _).cons_cons _)
    · rw [Function.update_of_ne here]
      refine (holds.linked other).congr fun link member => ?_
      have different : link ≠ (Link.head list).behind before := by
        rintro rfl
        exact here (holds.through_apart member placed)
      rw [removed.link, if_neg different]
  · intro other
    by_cases here : other = list
    · subst here
      rw [Function.update_self]
      exact distinct
    · rw [Function.update_of_ne here]
      exact holds.distinct other
  · intro one other next here there
    exact holds.apart (members.mp here).1 (members.mp there).1
  · intro other link next member points
    obtain ⟨inside, notBehind⟩ := links member
    rw [removed.link] at points
    rw [removed.prev]
    split at points
    · rename_i here
      have different : next ≠ row := by
        rintro rfl
        exact absent (List.mem_append_right before (List.mem_of_head? points))
      rw [if_neg different, if_pos points.symm, here]
    · rename_i notHere
      have back := holds.prev inside points
      have different : next ≠ row := by
        rintro rfl
        have back' := holds.prev placed (holds.points split)
        rw [back] at back'
        exact notHere (Option.some.inj back')
      have notFirst : after.head? ≠ some next := by
        intro first
        have inRow : Link.next row ∈ (Link.head list).through (lists list) := by
          simpa [Link.through] using listed
        have back' := holds.prev inRow (behind.trans first)
        rw [back] at back'
        exact notBehind (Option.some.inj back')
      rw [if_neg different, if_neg (Ne.symm notFirst), back]
  · intro other next member
    rw [removed.head]
    exact holds.head (members.mp member).1
  · intro next unlisted
    rw [removed.prev]
    split
    · rfl
    · rename_i different
      have absent : ¬ Listed lists next := by
        rintro ⟨other, member⟩
        exact unlisted ⟨other, members.mpr ⟨member, different⟩⟩
      have notFirst : after.head? ≠ some next := by
        intro first
        refine absent ⟨list, ?_⟩
        rw [split]
        exact List.mem_append_right before (List.mem_cons_of_mem row (List.mem_of_head? first))
      rw [if_neg (Ne.symm notFirst), holds.unlisted absent]

end Holding

-----------------------------------------------------------------------------------------
-- The operations
-----------------------------------------------------------------------------------------

section Operations

variable {memory : ListMemory η ρ} {lists : RowLists η ρ} {list : η} {row : ρ}
  {before after : List ρ} {checks : Bool}

/-- `ctable_ListRemove` and `ctable_ListRemoveMightBeTheLastOne` store the same. -/
theorem ListMemory.Holds.listRemove (checks : Bool) (holds : memory.Holds lists)
    (split : lists list = before ++ row :: after)
    {operation : ListOperation η ρ}
    (removes : operation = .remove row ∨ operation = .removeMightBeTheLastOne row)
    : (operation.program checks).Publishes ((Link.head list).behind before) (Hidden lists) after
          memory
      ∧ ∃ memory', (operation.program checks).run memory = some ((), memory')
          ∧ memory.Removed memory' list before after row := by
  have back : memory.prev row = some ((Link.head list).behind before) :=
    holds.prev (ListMemory.Holds.place_mem split) (holds.points split)
  have behind : memory.link (.next row) = after.head? := by
    have at' : lists list = (before ++ [row]) ++ after := by simp [split]
    simpa using holds.points at'
  cases after with
  | nil =>
      refine ⟨by
        rcases removes with rfl | rfl <;> cases checks <;>
          simp [back, behind], ?_⟩
      refine ⟨(memory.setLink ((Link.head list).behind before) none).setPrev row none,
        by
        rcases removes with rfl | rfl <;> cases checks <;>
          simp [back, behind], ?_⟩
      constructor <;> simp [Function.update_apply]
  | cons next others =>
      have different : row ≠ next := holds.adjacent_ne split
      have path := holds.through_nodup list
      rw [split] at path
      have split' : lists list = (before ++ [row]) ++ next :: others := by simpa using split
      have leads : LeadsTo (Function.update memory.link ((Link.head list).behind before)
          (some next)) (.next next) others := by
        refine holds.tail split' fun other member => ?_
        have inside : other ∈ row :: next :: others := List.mem_cons_of_mem row member
        exact Function.update_of_ne (Link.behind_ne path inside).symm ..
      refine ⟨by
        rcases removes with rfl | rfl <;> cases checks <;>
          simp [back, behind, different, leads], ?_⟩
      refine ⟨((memory.setPrev next (some ((Link.head list).behind before))).setLink
          ((Link.head list).behind before) (some next)).setPrev row none,
        by
        rcases removes with rfl | rfl <;> cases checks <;>
          simp [back, behind, different], ?_⟩
      constructor <;> simp [Function.update_apply]

/-- `ctable_ListInsertHead` -/
theorem ListMemory.Holds.listInsertHead (checks : Bool) (list : η) (holds : memory.Holds lists)
    (fresh : ¬ Listed lists row)
    : (ListProgram.listInsertHead checks list row).Publishes (.head list) (Hidden lists)
          (row :: lists list) memory
      ∧ ∃ memory', (ListProgram.listInsertHead checks list row).run memory = some ((), memory')
          ∧ memory.Inserted memory' list [] (lists list) row := by
  have back : memory.prev row = none := holds.unlisted fresh
  have first : memory.link (.head list) = (lists list).head? :=
    @ListMemory.Holds.points _ _ _ _ _ [] _ holds rfl
  have unseen : Hidden lists (.next row) := hidden_next fresh
  cases here : lists list with
  | nil =>
      refine ⟨by cases checks <;> simp [back, first, here, unseen], ?_⟩
      refine ⟨(((memory.setPrev row (some (.head list))).setHead row (some list)).setLink
          (.next row) none).setLink (.head list) (some row),
        by cases checks <;> simp [back, first, here], ?_⟩
      constructor
      · intro link
        by_cases head : link = .head list <;> simp [Function.update_apply, Link.behind, head]
      · simp [Function.update_apply, Link.behind]
      · simp [Function.update_apply]
  | cons next others =>
      have different {other} (member : other ∈ next :: others) : other ≠ row := by
        rintro rfl
        exact fresh ⟨list, here ▸ member⟩
      have leads : LeadsTo (Function.update (Function.update memory.link (.next row) (some next))
          (.head list) (some row)) (.next next) others := by
        refine @ListMemory.Holds.tail _ _ _ _ _ _ [] _ holds here _ fun other member => ?_
        simp [different member]
      refine ⟨by cases checks <;> simp [back, first, here, unseen, leads],
        ?_⟩
      refine ⟨((((memory.setPrev row (some (.head list))).setHead row (some list)).setLink
          (.next row) (some next)).setPrev next (some (.next row))).setLink (.head list) (some row),
        by cases checks <;> simp [back, first, here], ?_⟩
      constructor
      · intro link
        by_cases head : link = .head list <;> simp [Function.update_apply, Link.behind, head]
      · intro other
        by_cases same : other = row
        · subst same
          simp [(different List.mem_cons_self).symm, Link.behind]
        · simp [Function.update_apply, same]
      · simp [Function.update_apply]

/-- `ctable_ListInsertBefore` -/
theorem ListMemory.Holds.listInsertBefore (holds : memory.Holds lists) {row1 row2 : ρ}
    (split : lists list = before ++ row1 :: after) (fresh : ¬ Listed lists row2)
    : (ListProgram.listInsertBefore row1 row2).Publishes ((Link.head list).behind before)
          (Hidden lists) (row2 :: row1 :: after) memory
      ∧ ∃ memory', (ListProgram.listInsertBefore row1 row2).run memory = some ((), memory')
          ∧ memory.Inserted memory' list before (row1 :: after) row2 := by
  have placed : (Link.head list).behind before ∈ (Link.head list).through (lists list) :=
    ListMemory.Holds.place_mem split
  have back : memory.prev row1 = some ((Link.head list).behind before) :=
    holds.prev placed (holds.points split)
  have listed : row1 ∈ lists list := by simp [split]
  have head : memory.head row1 = some list := holds.head listed
  have unseen : Hidden lists (.next row2) := hidden_next fresh
  have different {other} (member : other ∈ row1 :: after) : other ≠ row2 := by
    rintro rfl
    exact fresh ⟨list, split ▸ List.mem_append_right before member⟩
  have apart : row1 ≠ row2 := different List.mem_cons_self
  have notPlace : Link.next row2 ≠ (Link.head list).behind before := by
    intro same
    exact unseen list (same ▸ placed)
  have path := holds.through_nodup list
  rw [split] at path
  have leads : LeadsTo (Function.update (Function.update memory.link (.next row2) (some row1))
      ((Link.head list).behind before) (some row2)) (.next row1) after := by
    refine holds.tail split fun other member => ?_
    rw [Function.update_of_ne (Link.behind_ne path member).symm,
      Function.update_of_ne (by simpa using different member)]
  refine ⟨by simp [back, head, apart, unseen, notPlace, leads], ?_⟩
  refine ⟨((((memory.setHead row2 (some list)).setPrev row2
      (some ((Link.head list).behind before))).setLink (.next row2) (some row1)).setPrev row1
      (some (.next row2))).setLink ((Link.head list).behind before) (some row2),
    by simp [back, head, apart], ?_⟩
  constructor
  · intro link
    by_cases place : link = (Link.head list).behind before <;> simp [Function.update_apply, place]
  · intro other
    by_cases same : other = row2
    · subst same
      simp [apart.symm]
    · simp [Function.update_apply, same]
  · simp [Function.update_apply]

/-- `ctable_ListInsertAfter` -/
theorem ListMemory.Holds.listInsertAfter (holds : memory.Holds lists) {row1 row2 : ρ}
    (split : lists list = before ++ row1 :: after) (fresh : ¬ Listed lists row2)
    : (ListProgram.listInsertAfter row1 row2).Publishes (.next row1) (Hidden lists)
          (row2 :: after) memory
      ∧ ∃ memory', (ListProgram.listInsertAfter row1 row2).run memory = some ((), memory')
          ∧ memory.Inserted memory' list (before ++ [row1]) after row2 := by
  have listed : row1 ∈ lists list := by simp [split]
  have head : memory.head row1 = some list := holds.head listed
  have unseen : Hidden lists (.next row2) := hidden_next fresh
  have different {other} (member : other ∈ row1 :: after) : other ≠ row2 := by
    rintro rfl
    exact fresh ⟨list, split ▸ List.mem_append_right before member⟩
  have apart : row1 ≠ row2 := different List.mem_cons_self
  have place : Link.behind (.head list) (before ++ [row1]) = .next row1 := Link.behind_append
  have split' : lists list = (before ++ [row1]) ++ after := by simp [split]
  have next : memory.link (.next row1) = after.head? := place ▸ holds.points split'
  cases after with
  | nil =>
      refine ⟨by simp [head, next, apart.symm, unseen], ?_⟩
      refine ⟨(((memory.setHead row2 (some list)).setPrev row2 (some (.next row1))).setLink
          (.next row2) none).setLink (.next row1) (some row2), by simp [head, next], ?_⟩
      constructor
      · intro link
        by_cases here : link = .next row1 <;> simp [Function.update_apply, here]
      · simp [Function.update_apply]
      · simp [Function.update_apply]
  | cons following others =>
      have path := holds.through_nodup list
      rw [split'] at path
      have further {other} (member : other ∈ following :: others) : other ≠ row1 := by
        have passed := Link.behind_ne path member
        rw [place] at passed
        simpa using passed.symm
      have last := different (List.mem_cons_of_mem row1 List.mem_cons_self)
      have leads : LeadsTo (Function.update (Function.update memory.link (.next row2)
          (some following)) (.next row1) (some row2)) (.next following) others := by
        refine holds.tail split' fun other member => ?_
        rw [Function.update_of_ne (by simpa using further member),
          Function.update_of_ne (by simpa using different (List.mem_cons_of_mem row1 member))]
      refine ⟨by simp [head, next, apart, apart.symm, unseen, leads], ?_⟩
      refine ⟨((((memory.setHead row2 (some list)).setPrev row2 (some (.next row1))).setLink
          (.next row2) (some following)).setPrev following (some (.next row2))).setLink
          (.next row1) (some row2), by simp [head, next, apart], ?_⟩
      constructor
      · intro link
        by_cases here : link = .next row1 <;> simp [Function.update_apply, here]
      · intro other
        by_cases same : other = row2
        · subst same
          simp [last.symm]
        · simp [Function.update_apply, same]
      · simp [Function.update_apply]

-----------------------------------------------------------------------------------------
-- What the operations do
-----------------------------------------------------------------------------------------

/-- Rows in the place of one change the list of that row. -/
theorem ListMemory.Holds.replace_eq (holds : memory.Holds lists)
    (split : lists list = before ++ row :: after) (rows : List ρ)
    : lists.replace row rows = Function.update lists list (before ++ (rows ++ after)) := by
  have unchanged {others : List ρ} (absent : row ∉ others)
      : others.flatMap (fun other => if other = row then rows else [other]) = others := by
    induction others with
    | nil => rfl
    | cons other rest ih =>
        rw [List.mem_cons, not_or] at absent
        rw [List.flatMap_cons, if_neg (Ne.symm absent.1), ih absent.2]
        rfl
  have whole := holds.distinct list
  rw [split] at whole
  have absent := (List.nodup_cons.mp (List.perm_middle.nodup_iff.mp whole)).1
  rw [List.mem_append, not_or] at absent
  funext name
  by_cases same : name = list
  · subst same
    rw [Function.update_self, RowLists.replace, split, List.flatMap_append, List.flatMap_cons,
      if_pos rfl, unchanged absent.1, unchanged absent.2]
  · rw [Function.update_of_ne same]
    refine unchanged fun member => same (holds.apart member ?_)
    simp [split]

/-- The list an operation changes, the rows before the change, and the rows behind them before
and after it.
-/
structure ListOperation.Changes (operation : ListOperation η ρ) (checks : Bool)
    (memory : ListMemory η ρ) (lists : RowLists η ρ) (list : η) (before old new : List ρ)
    : Prop where
  split : lists list = before ++ old
  effect : operation.effect lists = Function.update lists list (before ++ new)
  publishes
    : (operation.program checks).Publishes ((Link.head list).behind before) (Hidden lists) new
        memory
  holds
    : ∃ memory', (operation.program checks).run memory = some ((), memory')
        ∧ memory'.Holds (operation.effect lists)

/-- Every operation shows readers one change of one list, does not crash, and leaves a memory
that holds the lists after it.
-/
theorem ListMemory.Holds.operation (checks : Bool) (holds : memory.Holds lists)
    {operation : ListOperation η ρ} (applies : operation.Applies lists)
    : ∃ list before old new, operation.Changes checks memory lists list before old new := by
  have removal (row : ρ) (listed : Listed lists row)
      (removes : operation = .remove row ∨ operation = .removeMightBeTheLastOne row)
      : ∃ list before old new, operation.Changes checks memory lists list before old new := by
    obtain ⟨list, member⟩ := listed
    obtain ⟨before, after, split⟩ := List.append_of_mem member
    obtain ⟨publishes, memory', runs, removed⟩ := holds.listRemove checks split removes
    have effect : operation.effect lists = Function.update lists list (before ++ after) := by
      rcases removes with rfl | rfl <;> exact holds.replace_eq split []
    exact ⟨list, before, row :: after, after, split, effect, publishes, memory', runs,
      effect ▸ holds.remove split removed⟩
  cases operation with
  | remove row => exact removal row applies (Or.inl rfl)
  | removeMightBeTheLastOne row => exact removal row applies (Or.inr rfl)
  | insertHead list row =>
      obtain ⟨publishes, memory', runs, inserted⟩ :=
        holds.listInsertHead checks list applies
      exact ⟨list, [], lists list, row :: lists list, rfl, rfl, publishes, memory', runs,
        @ListMemory.Holds.insert _ _ _ _ _ _ _ _ _ [] _ holds rfl applies inserted⟩
  | insertBefore row1 row2 =>
      obtain ⟨⟨list, member⟩, fresh⟩ := applies
      obtain ⟨before, after, split⟩ := List.append_of_mem member
      obtain ⟨publishes, memory', runs, inserted⟩ := holds.listInsertBefore split fresh
      have effect : (ListOperation.insertBefore row1 row2).effect lists
          = Function.update lists list (before ++ row2 :: row1 :: after) :=
        holds.replace_eq split [row2, row1]
      exact ⟨list, before, row1 :: after, row2 :: row1 :: after, split, effect, publishes, memory',
        runs, effect ▸ holds.insert split fresh inserted⟩
  | insertAfter row1 row2 =>
      obtain ⟨⟨list, member⟩, fresh⟩ := applies
      obtain ⟨before, after, split⟩ := List.append_of_mem member
      obtain ⟨publishes, memory', runs, inserted⟩ := holds.listInsertAfter split fresh
      have split' : lists list = (before ++ [row1]) ++ after := by simp [split]
      have effect : (ListOperation.insertAfter row1 row2).effect lists
          = Function.update lists list ((before ++ [row1]) ++ row2 :: after) := by
        rw [List.append_assoc]
        exact holds.replace_eq split [row1, row2]
      have place : Link.behind (.head list) (before ++ [row1]) = .next row1 := Link.behind_append
      exact ⟨list, before ++ [row1], after, row2 :: after, split', effect, place ▸ publishes,
        memory', runs, effect ▸ holds.insert split' fresh inserted⟩

/-- The processes at the start of an operation and of a traversal. -/
def ListScene.start (checks : Bool) (operation : ListOperation η ρ) (memory : ListMemory η ρ)
    (list : η)
    : ListScene η ρ where
  program := operation.program checks
  memory := memory
  reader := LinkReader.start (.head list)

/-- A reader of any list sees it as before or as after the operation. -/
theorem ListOperation.Changes.reads {operation : ListOperation η ρ} {old new : List ρ}
    (changes : operation.Changes checks memory lists list before old new)
    (holds : memory.Holds lists) (name : η) (schedule : List ListActor)
    : ((ListScene.start checks operation memory name).run schedule).Reads (.head name)
        ((Link.head list).behind before) (Hidden lists) (lists name)
        (operation.effect lists name) new := by
  have starts : (ListScene.start checks operation memory name).Reads (.head name)
      ((Link.head list).behind before) (Hidden lists) (lists name) (operation.effect lists name)
      new :=
    Or.inl ⟨changes.publishes, LinkReader.sees_start (holds.linked name)⟩
  refine ListScene.run_reads (fun link hidden => hidden name) ?_ starts
  intro reader follow follow' sees same leads
  by_cases here : name = list
  · subst here
    have distinct := holds.through_nodup name
    rw [changes.split] at distinct sees ⊢
    rw [changes.effect, Function.update_self]
    exact sees.splice distinct same leads
  · refine Or.inl (sees.congr fun link member => same link ?_)
    rintro rfl
    have placed : (Link.head list).behind before ∈ (Link.head list).through (lists list) :=
      ListMemory.Holds.place_mem changes.split
    exact here (holds.through_apart member placed)

/-- The operations apply one after the other. -/
def AllApply : RowLists η ρ → List (ListOperation η ρ) → Prop
  | _, [] => True
  | lists, operation :: rest => operation.Applies lists ∧ AllApply (operation.effect lists) rest

def runOperations (checks : Bool) (operations : List (ListOperation η ρ))
    (memory : ListMemory η ρ)
    : Option (ListMemory η ρ) :=
  operations.foldlM
    (fun memory operation => ((operation.program checks).run memory).map Prod.snd) memory

def effects (operations : List (ListOperation η ρ)) (lists : RowLists η ρ) : RowLists η ρ :=
  operations.foldl (fun lists operation => operation.effect lists) lists

/-- Operations that apply keep the memory in order, by induction on them. -/
theorem ListMemory.Holds.operations (checks : Bool) (holds : memory.Holds lists)
    {operations : List (ListOperation η ρ)} (apply : AllApply lists operations)
    : ∃ memory', runOperations checks operations memory = some memory'
        ∧ memory'.Holds (effects operations lists) := by
  induction operations generalizing memory lists with
  | nil => exact ⟨memory, rfl, holds⟩
  | cons operation rest ih =>
      obtain ⟨list, before, old, new, changes⟩ := holds.operation checks apply.1
      obtain ⟨next, runs, holds'⟩ := changes.holds
      obtain ⟨memory', run', final⟩ := ih holds' apply.2
      have first : runOperations checks (operation :: rest) memory
          = runOperations checks rest next := by
        rw [runOperations, List.foldlM_cons, runs]
        rfl
      exact ⟨memory', first.trans run', final⟩

/-- Every reader of a list sees it as before or as after the operation that runs meanwhile, and
the back pointers are right after every sequence of operations.
-/
theorem listOperations_visible (checks : Bool) (holds : memory.Holds lists)
    : (∀ operation : ListOperation η ρ, operation.Applies lists → ∀ name schedule,
          ∃ rows, (rows = lists name ∨ rows = operation.effect lists name)
            ∧ ((ListScene.start checks operation memory name).run schedule).reader.Visits
                (schedule.count .reader) rows)
      ∧ ∀ operations : List (ListOperation η ρ), AllApply lists operations →
          ∃ memory', runOperations checks operations memory = some memory'
            ∧ memory'.LinkedBack (effects operations lists) := by
  constructor
  · intro operation applies name schedule
    obtain ⟨list, before, old, new, changes⟩ := holds.operation checks applies
    obtain ⟨_, _, holds'⟩ := changes.holds
    have sees : ∃ rows, (rows = lists name ∨ rows = operation.effect lists name)
        ∧ ((ListScene.start checks operation memory name).run schedule).reader.Sees
            ((ListScene.start checks operation memory name).run schedule).memory.link
            (.head name) rows := by
      rcases changes.reads holds name schedule with ⟨-, sees⟩ | ⟨-, rows, either, sees⟩
      · exact ⟨_, Or.inl rfl, sees⟩
      · exact ⟨rows, either, sees⟩
    obtain ⟨rows, either, sees⟩ := sees
    refine ⟨rows, either, ?_, sees.visited.1, sees.visited.2, ?_⟩
    · rcases either with rfl | rfl
      · exact holds.distinct name
      · exact holds'.distinct name
    · intro enough
      rcases ListScene.run_progress (ListScene.start checks operation memory name) schedule with
        done | further
      · exact done
      · have bound := sees.visited.1.length_le
        simp only [ListScene.start, LinkReader.start, List.length_nil] at further bound
        omega
  · intro operations apply
    obtain ⟨memory', runs, final⟩ := holds.operations checks apply
    exact ⟨memory', runs, final.linkedBack⟩

/-- An empty memory holds the empty lists. -/
theorem listOperations_visible_empty
    : (∀ operation : ListOperation Unit Nat, operation.Applies (fun _ => []) → ∀ name schedule,
          ∃ rows, (rows = [] ∨ rows = operation.effect (fun _ => []) name)
            ∧ ((ListScene.start true operation
                { link := fun _ => none, prev := fun _ => none, head := fun _ => none }
                name).run schedule).reader.Visits (schedule.count .reader) rows)
      ∧ ∀ operations : List (ListOperation Unit Nat), AllApply (fun _ => []) operations →
          ∃ memory',
            runOperations true operations
                { link := fun _ => none, prev := fun _ => none, head := fun _ => none }
              = some memory'
            ∧ memory'.LinkedBack (effects operations (fun _ => [])) :=
  listOperations_visible true (ListMemory.holds_empty (fun _ => rfl) _)

end Operations

end SpeedTables.Shared
