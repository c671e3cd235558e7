import Mathlib
import SpeedTables.Lib.TclList

/-! The `batch` method: the elements of a list are run as commands of the table, each with the
table's command put in front of it. A list and its elements are objects, which others may hold too.
-/

namespace SpeedTables.Batch

open Lib (Text)
open Lib.TclList (parse format)

-----------------------------------------------------------------------------------------
-- Objects
-----------------------------------------------------------------------------------------

/-- A Tcl object: the number of its holders, its string, and its elements once it has been used as
a list.
-/
structure TclObject where
  refs : Nat
  text : Text
  elements : Option (List Nat)

/-- The objects, by their addresses. -/
structure Heap where
  object : Nat → TclObject
  fresh : Nat

namespace Heap

variable (heap : Heap)

def write (id : Nat) (object : TclObject) : Heap :=
  { heap with object := Function.update heap.object id object }

/-- A new object. -/
def alloc (object : TclObject) : Heap :=
  { object := Function.update heap.object heap.fresh object, fresh := heap.fresh + 1 }

/-- `Tcl_IncrRefCount` -/
def retain (id : Nat) : Heap :=
  heap.write id { heap.object id with refs := (heap.object id).refs + 1 }

/-- New objects for the elements of a list, which holds them. -/
def allocTexts : List Text → Heap → Heap
  | [], heap => heap
  | text :: rest, heap => allocTexts rest (heap.alloc { refs := 1, text := text, elements := none })

/-- `Tcl_ListObjGetElements`. A list without elements stays as it is. -/
def getElements (id : Nat) : Option (List Nat × Heap) :=
  match (heap.object id).elements with
  | some elements => some (elements, heap)
  | none =>
      match parse (heap.object id).text with
      | none => none
      | some [] => some ([], heap)
      | some texts =>
          let elements := List.range' heap.fresh texts.length
          let held := heap.allocTexts texts
          some (elements, held.write id { held.object id with elements := some elements })

/-- `Tcl_DuplicateObj`: a new object that nobody holds, with the same elements. -/
def duplicate (id : Nat) : Heap :=
  ((heap.object id).elements.getD []).foldl retain
    (heap.alloc { heap.object id with refs := 0 })

/-- `Tcl_ListObjReplace` of nothing in front of a list. -/
def putFirst (id first : Nat) : Option Heap :=
  match heap.getElements id with
  | none => none
  | some (elements, heap) =>
      let elements := first :: elements
      let heap := heap.retain first
      some (heap.write id
        { heap.object id with
          text := format (elements.map (fun element => (heap.object element).text))
          elements := some elements })

end Heap

-----------------------------------------------------------------------------------------
-- The method
-----------------------------------------------------------------------------------------

/-- How a command ends: its code, and its result, with or without an internal representation. -/
structure Answer where
  code : Nat
  text : Text
  typed : Bool
  deriving DecidableEq

/-- `TCL_OK` -/
def tclOk : Nat := 0

/-- `TCL_ERROR` -/
def tclError : Nat := 1

/-- The table's command, by the words behind its name, but for `batch`; and the message for a text
that is not a list.
-/
structure TableCommand (State : Type) where
  run : State → List Text → State × Answer
  listError : Text → Text

/-- A batch for a list in memory, or `none` where its commands nest too deep. -/
abbrev BatchRun (State : Type) := Heap → State → Nat → Option (Heap × State × Answer)

variable {State : Type} (command : TableCommand State) (table : Nat)

def batchWord : Text := "batch".toList

/-- The command of a table: `batch` with one argument is run for the list in memory. -/
def execute (nested : BatchRun State) (heap : Heap) (state : State) (words : List Nat)
    : Option (Heap × State × Answer) :=
  let texts := words.map (fun word => (heap.object word).text)
  match words with
  | [option, list] =>
      if (heap.object option).text = batchWord then nested heap state list
      else some (heap, command.run state texts)
  | _ => some (heap, command.run state texts)

/-- What an element gives that is not a list. -/
def listFailure (text : Text) : Answer :=
  { code := tclError, text := command.listError text, typed := false }

/-- The table's command is put in front of an object, which is then run as a command. -/
def runCommand (nested : BatchRun State) (heap : Heap) (state : State) (batchCmd : Nat)
    : Option (Heap × State × Answer) :=
  match heap.putFirst batchCmd table with
  | none => some (heap, state, listFailure command (heap.object batchCmd).text)
  | some heap =>
      execute command nested heap state (((heap.object batchCmd).elements.getD []).tail)

/-- The loop body of `ctable_RunBatch` up to the result: a shared element is duplicated. -/
def runElement (nested : BatchRun State) (heap : Heap) (state : State) (element : Nat)
    : Option (Heap × State × Answer) :=
  if 1 < (heap.object element).refs then
    runCommand command table nested (heap.duplicate element) state heap.fresh
  else runCommand command table nested heap state element

/-- The loop of `ctable_RunBatch`: an answer that is OK, empty and without an internal
representation gives no result.
-/
def runElements (nested : BatchRun State)
    : Heap → State → Nat → List Nat → Option (Heap × State × List (Nat × Answer))
  | heap, state, _, [] => some (heap, state, [])
  | heap, state, i, element :: rest => do
      let (heap, state, answer) ← runElement command table nested heap state element
      let (heap, state, results) ← runElements nested heap state (i + 1) rest
      if answer.code = tclOk ∧ answer.typed = false ∧ answer.text = [] then
        some (heap, state, results)
      else some (heap, state, (i, answer) :: results)

/-- The list `{i {code result}}` for each result. -/
def resultText (results : List (Nat × Answer)) : Text :=
  format (results.map fun result =>
    format [Nat.toDigits 10 result.1, format [Nat.toDigits 10 result.2.code, result.2.text]])

/-- The answer of a batch. -/
def batchAnswer (results : List (Nat × Answer)) : Answer :=
  { code := tclOk, text := resultText results, typed := !results.isEmpty }

/-- What a batch gives whose list is none. -/
def batchFailure (text : Text) : Answer :=
  { code := tclError
    text := command.listError text ++ " while processing batch list".toList
    typed := false }

/-- `ctable_RunBatch`, with batches nested in it to a depth. -/
def runBatch : Nat → BatchRun State
  | 0, _, _, _ => none
  | depth + 1, heap, state, list =>
      match heap.getElements list with
      | none => some (heap, state, batchFailure command (heap.object list).text)
      | some (elements, heap) => do
          let (heap, state, results) ←
            runElements command table (runBatch depth) heap state 0 elements
          some (heap, state, batchAnswer results)

-----------------------------------------------------------------------------------------
-- What a batch is for
-----------------------------------------------------------------------------------------

/-- A batch for the value of a list. -/
abbrev BatchMeaning (State : Type) := State → Text → Option (State × Answer)

/-- A command of the table by its words. -/
def perform (nested : BatchMeaning State) (state : State) : List Text → Option (State × Answer)
  | [option, list] =>
      if option = batchWord then nested state list else some (command.run state [option, list])
  | words => some (command.run state words)

/-- An element is run as a command on the table, if it is a list. -/
def performElement (nested : BatchMeaning State) (state : State) (element : Text)
    : Option (State × Answer) :=
  match parse element with
  | none => some (state, listFailure command element)
  | some words => perform command nested state words

/-- Each element in order, with a result for each error and each answer that is not empty. -/
def performElements (nested : BatchMeaning State)
    : State → Nat → List Text → Option (State × List (Nat × Answer))
  | state, _, [] => some (state, [])
  | state, i, element :: rest => do
      let (state, answer) ← performElement command nested state element
      let (state, results) ← performElements nested state (i + 1) rest
      if answer.code = tclOk ∧ answer.text = [] then some (state, results)
      else some (state, (i, answer) :: results)

/-- What a batch with the value of a list is to do. -/
def performBatch : Nat → BatchMeaning State
  | 0, _, _ => none
  | depth + 1, state, text =>
      match parse text with
      | none => some (state, batchFailure command text)
      | some elements => do
          let (state, results) ←
            performElements command (performBatch depth) state 0 elements
          some (state, batchAnswer results)

/-- The list of an element that is a batch of its own. -/
def nestedList (element : Text) : Option Text :=
  match parse element with
  | some [option, list] => if option = batchWord then some list else none
  | _ => none

/-- Each element where it is run: no answer is empty and has an internal representation, and a
nested batch is plain too.
-/
def PlainElements (nested : BatchMeaning State) (plain : State → Text → Prop)
    : State → List Text → Prop
  | _, [] => True
  | state, element :: rest =>
      (∀ list, nestedList element = some list → plain state list)
      ∧ ∀ after answer, performElement command nested state element = some (after, answer) →
          (answer.typed = true → answer.text ≠ []) ∧ PlainElements nested plain after rest

/-- No command of the batch answers with an empty value that has an internal representation. -/
def Plain : Nat → State → Text → Prop
  | 0, _, _ => True
  | depth + 1, state, text =>
      ∀ elements, parse text = some elements →
        PlainElements command (performBatch command depth) (Plain depth) state elements

-----------------------------------------------------------------------------------------
-- How a list is held
-----------------------------------------------------------------------------------------

/-- The list has its elements as objects, each of which another holds too, or is no list; and so
have the lists of its batches.
-/
inductive Held (heap : Heap) : Nat → Prop
  | list {id : Nat} {elements : List Nat}
    (inside : id < heap.fresh)
    (rep : (heap.object id).elements = some elements)
    (value : parse (heap.object id).text
      = some (elements.map (fun element => (heap.object element).text)))
    (bounded : ∀ element ∈ elements, element < heap.fresh)
    (shared : ∀ element ∈ elements,
      1 < (heap.object element).refs
      ∨ (heap.object element).elements = none ∧ parse (heap.object element).text = none)
    (words : ∀ element ∈ elements, ∀ words, (heap.object element).elements = some words →
      (∀ word ∈ words, word < heap.fresh)
      ∧ parse (heap.object element).text
        = some (words.map (fun word => (heap.object word).text)))
    (nested : ∀ element ∈ elements, ∀ option list,
      (heap.object element).elements = some [option, list] →
      (heap.object option).text = batchWord → Held heap list)
    : Held heap id
  | blank {id : Nat} (inside : id < heap.fresh) (rep : (heap.object id).elements = none)
    (value : parse (heap.object id).text = some [] ∨ parse (heap.object id).text = none)
    : Held heap id

-----------------------------------------------------------------------------------------
-- What the operations on objects keep
-----------------------------------------------------------------------------------------

/-- The objects have their strings and elements, and no fewer holders. -/
structure Keeps (kept : Nat → Prop) (before after : Heap) : Prop where
  fresh : before.fresh ≤ after.fresh
  text : ∀ id, kept id → (after.object id).text = (before.object id).text
  elements : ∀ id, kept id → (after.object id).elements = (before.object id).elements
  refs : ∀ id, kept id → (before.object id).refs ≤ (after.object id).refs

variable {kept more : Nat → Prop} {before middle after heap : Heap}

theorem Keeps.refl : Keeps kept heap heap :=
  ⟨Nat.le_refl _, fun _ _ => rfl, fun _ _ => rfl, fun _ _ => Nat.le_refl _⟩

theorem Keeps.trans (first : Keeps kept before middle) (second : Keeps kept middle after)
    : Keeps kept before after where
  fresh := Nat.le_trans first.fresh second.fresh
  text := fun id inside => (second.text id inside).trans (first.text id inside)
  elements := fun id inside => (second.elements id inside).trans (first.elements id inside)
  refs := fun id inside => Nat.le_trans (first.refs id inside) (second.refs id inside)

theorem Keeps.mono (keeps : Keeps kept before after) (fewer : ∀ id, more id → kept id)
    : Keeps more before after where
  fresh := keeps.fresh
  text := fun id inside => keeps.text id (fewer id inside)
  elements := fun id inside => keeps.elements id (fewer id inside)
  refs := fun id inside => keeps.refs id (fewer id inside)

theorem keeps_write (id : Nat) (object : TclObject)
    : Keeps (· ≠ id) heap (heap.write id object) := by
  refine ⟨Nat.le_refl _, ?_, ?_, ?_⟩
  all_goals
    intro other apart
    simp [Heap.write, Function.update_of_ne apart]

theorem keeps_alloc (object : TclObject) : Keeps (· < heap.fresh) heap (heap.alloc object) := by
  refine ⟨Nat.le_succ _, ?_, ?_, ?_⟩
  all_goals
    intro id old
    simp [Heap.alloc, Function.update_of_ne (Nat.ne_of_lt old)]

theorem keeps_retain (id : Nat) : Keeps (fun _ => True) heap (heap.retain id) := by
  refine ⟨Nat.le_refl _, ?_, ?_, ?_⟩
  all_goals
    intro other _
    by_cases same : other = id
    · subst same
      simp [Heap.retain, Heap.write]
    · simp [Heap.retain, Heap.write, Function.update_of_ne same]

theorem keeps_retains (ids : List Nat)
    : Keeps (fun _ => True) heap (ids.foldl Heap.retain heap) := by
  induction ids generalizing heap with
  | nil => exact .refl
  | cons id ids ih => exact (keeps_retain id).trans ih

/-- The new objects for texts are the next ones, by induction on the texts. -/
theorem allocTexts_spec (texts : List Text)
    : Keeps (· < heap.fresh) heap (heap.allocTexts texts)
      ∧ (heap.allocTexts texts).fresh = heap.fresh + texts.length
      ∧ (List.range' heap.fresh texts.length).map
          (fun id => ((heap.allocTexts texts).object id).text) = texts
      ∧ ∀ id ∈ List.range' heap.fresh texts.length,
          ((heap.allocTexts texts).object id).elements = none := by
  induction texts generalizing heap with
  | nil => exact ⟨.refl, rfl, rfl, List.forall_mem_nil _⟩
  | cons text texts ih =>
      let next := heap.alloc { refs := 1, text := text, elements := none }
      obtain ⟨keeps, fresh, values, loose⟩ := @ih next
      have own : next.object heap.fresh = { refs := 1, text := text, elements := none } :=
        Function.update_self ..
      refine ⟨(keeps_alloc _).trans (keeps.mono fun id old => Nat.lt_succ_of_lt old), ?_, ?_, ?_⟩
      · rw [Heap.allocTexts, fresh, List.length_cons]
        change heap.fresh + 1 + _ = _
        omega
      · rw [List.length_cons, List.range'_succ, List.map_cons, Heap.allocTexts,
          keeps.text _ (Nat.lt_succ_self _), own]
        exact congrArg (text :: ·) values
      · rw [List.length_cons, List.range'_succ, Heap.allocTexts]
        refine List.forall_mem_cons.mpr ⟨?_, loose⟩
        rw [keeps.elements _ (Nat.lt_succ_self _), own]

/-- What a text is taken apart into: new objects that are nobody else's. -/
structure TakenApart (heap : Heap) (id : Nat) (texts : List Text) (elements : List Nat)
    (after : Heap) : Prop where
  keeps : Keeps (fun other => other < heap.fresh ∧ other ≠ id) heap after
  values : elements.map (fun element => (after.object element).text) = texts
  loose : ∀ element ∈ elements, (after.object element).elements = none
  new : ∀ element ∈ elements, heap.fresh ≤ element ∧ element < after.fresh
  apart : elements.Nodup

theorem getElements_text {id : Nat} {texts : List Text} (inside : id < heap.fresh)
    (rep : (heap.object id).elements = none) (value : parse (heap.object id).text = some texts)
    : ∃ elements after, heap.getElements id = some (elements, after)
        ∧ TakenApart heap id texts elements after ∧ (texts = [] → after = heap) := by
  rw [Heap.getElements, rep, value]
  cases texts with
  | nil =>
      exact ⟨[], heap, rfl, ⟨.refl, rfl, List.forall_mem_nil _, List.forall_mem_nil _,
        List.nodup_nil⟩, fun _ => rfl⟩
  | cons text texts =>
      obtain ⟨keeps, fresh, values, loose⟩ := @allocTexts_spec heap (text :: texts)
      have later : ∀ element ∈ List.range' heap.fresh (text :: texts).length,
          heap.fresh ≤ element ∧ element < heap.fresh + (text :: texts).length := by
        intro element member
        simpa [List.mem_range'_1] using member
      have other : ∀ element ∈ List.range' heap.fresh (text :: texts).length, element ≠ id := by
        intro element member same
        have bound := later element member
        omega
      refine ⟨_, _, rfl, ⟨?_, ?_, ?_, ?_, List.nodup_range' _ Nat.one_pos⟩,
        fun empty => by cases empty⟩
      · exact (keeps.mono fun _ both => both.1).trans
          ((keeps_write id _).mono fun _ both => both.2)
      · refine Eq.trans (List.map_congr_left fun element member => ?_) values
        exact (keeps_write id _).text element (other element member)
      · intro element member
        rw [(keeps_write id _).elements element (other element member)]
        exact loose element member
      · intro element member
        change _ ∧ element < (heap.allocTexts _).fresh
        rw [fresh]
        exact later element member

/-- A text becomes a list of new objects, with another in front. -/
theorem putFirst_text {id first : Nat} {texts : List Text} (inside : id < heap.fresh)
    (rep : (heap.object id).elements = none) (value : parse (heap.object id).text = some texts)
    : ∃ elements after, heap.putFirst id first = some after
        ∧ (after.object id).elements = some (first :: elements)
        ∧ TakenApart heap id texts elements after := by
  obtain ⟨elements, middle, taken, apart, -⟩ := getElements_text inside rep value
  have other : ∀ element ∈ elements, element ≠ id := by
    intro element member same
    have bound := (apart.new element member).1
    omega
  have retained := @keeps_retain middle first
  refine ⟨elements, _, by rw [Heap.putFirst, taken], ?_, ?_, ?_, ?_, ?_, apart.apart⟩
  · simp [Heap.write]
  · exact apart.keeps.trans ((retained.mono fun _ _ => trivial).trans
      ((keeps_write id _).mono fun _ both => both.2))
  · rw [← apart.values]
    refine List.map_congr_left fun element member => ?_
    rw [(keeps_write id _).text element (other element member), retained.text element trivial]
  · intro element member
    rw [(keeps_write id _).elements element (other element member),
      retained.elements element trivial]
    exact apart.loose element member
  · exact apart.new

/-- A list has another object in front, and nothing else changes. -/
theorem putFirst_list {id first : Nat} {words : List Nat}
    (rep : (heap.object id).elements = some words)
    : ∃ after, heap.putFirst id first = some after
        ∧ (after.object id).elements = some (first :: words) ∧ Keeps (· ≠ id) heap after := by
  refine ⟨_, by rw [Heap.putFirst, Heap.getElements, rep], by simp [Heap.write], ?_⟩
  exact ((keeps_retain first).mono fun _ _ => trivial).trans (keeps_write id _)

theorem putFirst_failure {id first : Nat} (rep : (heap.object id).elements = none)
    (value : parse (heap.object id).text = none)
    : heap.putFirst id first = none := by
  rw [Heap.putFirst, Heap.getElements, rep, value]

/-- The duplicate has the string and the elements, and the other objects are as they were. -/
theorem duplicate_spec (id : Nat)
    : Keeps (· < heap.fresh) heap (heap.duplicate id)
      ∧ heap.fresh < (heap.duplicate id).fresh
      ∧ ((heap.duplicate id).object heap.fresh).text = (heap.object id).text
      ∧ ((heap.duplicate id).object heap.fresh).elements = (heap.object id).elements := by
  have retained := @keeps_retains (heap.alloc { heap.object id with refs := 0 })
    ((heap.object id).elements.getD [])
  have own : (heap.alloc { heap.object id with refs := 0 }).object heap.fresh
      = { heap.object id with refs := 0 } := Function.update_self ..
  refine ⟨(keeps_alloc _).trans (retained.mono fun _ _ => trivial), retained.fresh, ?_, ?_⟩
  · rw [Heap.duplicate, retained.text _ trivial, own]
  · rw [Heap.duplicate, retained.elements _ trivial, own]

/-- A list stays held while no old object changes, by induction on how it is held. -/
theorem Held.keeps {id : Nat} (held : Held before id)
    (keeps : Keeps (· < before.fresh) before after)
    : Held after id := by
  induction held with
  | @list id elements inside rep value bounded shared words nested ih =>
      have texts : ∀ ids : List Nat, (∀ id ∈ ids, id < before.fresh) →
          ids.map (fun id => (after.object id).text)
            = ids.map (fun id => (before.object id).text) :=
        fun ids old => List.map_congr_left fun id member => keeps.text id (old id member)
      refine .list (Nat.lt_of_lt_of_le inside keeps.fresh)
        ((keeps.elements id inside).trans rep) ?_ ?_ ?_ ?_ ?_
      · rw [keeps.text id inside, value, texts elements bounded]
      · exact fun element member => Nat.lt_of_lt_of_le (bounded element member) keeps.fresh
      · intro element member
        have old := bounded element member
        rw [keeps.elements element old, keeps.text element old]
        exact (shared element member).imp (Nat.lt_of_lt_of_le · (keeps.refs element old))
          (fun both => both)
      · intro element member own found
        have old := bounded element member
        rw [keeps.elements element old] at found
        obtain ⟨within, same⟩ := words element member own found
        rw [keeps.text element old, same, texts own within]
        exact ⟨fun word wordIn => Nat.lt_of_lt_of_le (within word wordIn) keeps.fresh, rfl⟩
      · intro element member option list found batch
        have old := bounded element member
        rw [keeps.elements element old] at found
        obtain ⟨within, -⟩ := words element member _ found
        rw [keeps.text option (within option List.mem_cons_self)] at batch
        exact ih element member option list found batch
  | @blank id inside rep value =>
      refine .blank (Nat.lt_of_lt_of_le inside keeps.fresh)
        ((keeps.elements id inside).trans rep) ?_
      rw [keeps.text id inside]
      exact value

-----------------------------------------------------------------------------------------
-- Simulation
-----------------------------------------------------------------------------------------

/-- A run on objects gives what is meant, and keeps the objects. -/
def Simulates {α : Type} (kept : Nat → Prop) (heap : Heap) (run : Option (Heap × State × α))
    (meaning : Option (State × α)) : Prop :=
  run.map Prod.snd = meaning ∧ ∀ result, run = some result → Keeps kept heap result.1

/-- A list that a batch can be run for: it is held, or new and not taken apart. -/
def Ready (heap : Heap) (list : Nat) : Prop :=
  Held heap list ∨ list < heap.fresh ∧ (heap.object list).elements = none

/-- What a batch keeps: all objects, but for a list that is not held. -/
def KeptBy (heap : Heap) (list id : Nat) : Prop :=
  id < heap.fresh ∧ (id = list → Held heap list)

/-- Batches nested to a depth do what is meant. -/
def BatchesSimulate (command : TableCommand State) (table depth : Nat) : Prop :=
  ∀ heap state list, Ready heap list → Plain command depth state (heap.object list).text →
    Simulates (KeptBy heap list) heap (runBatch command table depth heap state list)
      (performBatch command depth state (heap.object list).text)

variable {command : TableCommand State} {table depth : Nat} {state : State}

/-- A command does what its words mean, if the list of a batch is ready. -/
theorem execute_simulates (batches : BatchesSimulate command table depth) {words : List Nat}
    (ready : ∀ option list, words = [option, list] → (heap.object option).text = batchWord →
      Ready heap list ∧ (kept list → Held heap list)
      ∧ Plain command depth state (heap.object list).text)
    (old : ∀ id, kept id → id < heap.fresh)
    : Simulates kept heap (execute command (runBatch command table depth) heap state words)
        (perform command (performBatch command depth) state
          (words.map (fun word => (heap.object word).text))) := by
  have plain : ∀ texts : List Text, Simulates kept heap (some (heap, command.run state texts))
      (some (command.run state texts)) :=
    fun texts => ⟨rfl, fun result same => by cases same; exact .refl⟩
  match words with
  | [option, list] =>
      rw [execute, List.map_cons, List.map_cons, List.map_nil, perform]
      by_cases batch : (heap.object option).text = batchWord
      · obtain ⟨listReady, held, plainly⟩ := ready option list rfl batch
        obtain ⟨same, keeps⟩ := batches heap state list listReady plainly
        rw [if_pos batch, if_pos batch]
        refine ⟨same, fun result ends => (keeps result ends).mono fun id inside => ?_⟩
        exact ⟨old id inside, fun equal => held (equal ▸ inside)⟩
      · rw [if_neg batch, if_neg batch]
        exact plain _
  | [] => exact plain _
  | [_] => exact plain _
  | _ :: _ :: _ :: _ => exact plain _

/-- An element that can be run: it is not taken apart, or shared, with words that are held. -/
def Item (heap : Heap) (element : Nat) : Prop :=
  element < heap.fresh
  ∧ ((heap.object element).elements = none
    ∨ ∃ words, (heap.object element).elements = some words ∧ 1 < (heap.object element).refs
      ∧ (∀ word ∈ words, word < heap.fresh)
      ∧ parse (heap.object element).text
        = some (words.map (fun word => (heap.object word).text))
      ∧ ∀ option list, words = [option, list] → (heap.object option).text = batchWord →
          Held heap list)

/-- What an element keeps: all objects, but for itself if it is a list that is not shared. -/
def KeptByItem (heap : Heap) (element id : Nat) : Prop :=
  id < heap.fresh
  ∧ (id = element → 1 < (heap.object element).refs ∨ parse (heap.object element).text = none)

theorem Simulates.behind {α : Type} {run : Option (Heap × State × α)}
    {meaning : Option (State × α)} (first : Keeps kept before after)
    (simulates : Simulates kept after run meaning)
    : Simulates kept before run meaning :=
  ⟨simulates.1, fun result ends => first.trans (simulates.2 result ends)⟩

theorem performElement_failure {nested : BatchMeaning State} {element : Text}
    (value : parse element = none)
    : performElement command nested state element = some (state, listFailure command element) := by
  rw [performElement, value]

/-- An object that is not taken apart is run by what its text means, and stays if it is no list. -/
theorem runCommand_text (batches : BatchesSimulate command table depth) {cmd : Nat}
    (inside : cmd < heap.fresh) (rep : (heap.object cmd).elements = none)
    (old : ∀ id, kept id → id < heap.fresh ∧ (id = cmd → parse (heap.object cmd).text = none))
    (plain : ∀ list, nestedList (heap.object cmd).text = some list →
      Plain command depth state list)
    : Simulates kept heap (runCommand command table (runBatch command table depth) heap state cmd)
        (performElement command (performBatch command depth) state (heap.object cmd).text) := by
  cases value : parse (heap.object cmd).text with
  | none =>
      rw [runCommand, putFirst_failure rep value, performElement_failure value]
      exact ⟨rfl, fun result same => by cases same; exact .refl⟩
  | some texts =>
      obtain ⟨words, after, put, elements, apart⟩ := @putFirst_text heap cmd table texts inside rep
        value
      have keeps : Keeps kept heap after := by
        refine apart.keeps.mono fun id own => ⟨(old id own).1, fun same => ?_⟩
        rw [(old id own).2 same] at value
        cases value
      rw [runCommand, put]
      simp only [elements, Option.getD_some, List.tail_cons]
      rw [performElement, value]
      simp only
      rw [← apart.values]
      refine .behind keeps (execute_simulates batches ?_ fun id own =>
        Nat.lt_of_lt_of_le (old id own).1 keeps.fresh)
      intro option list same batch
      have member : list ∈ words := same ▸ List.mem_cons_of_mem option List.mem_cons_self
      obtain ⟨newer, bound⟩ := apart.new list member
      refine ⟨.inr ⟨bound, apart.loose list member⟩, fun own => ?_, plain _ ?_⟩
      · exact absurd (old list own).1 (Nat.not_lt.mpr newer)
      · rw [nestedList, value, ← apart.values, same]
        exact if_pos batch

/-- A copy of a list whose words are held is run by what the words mean. -/
theorem runCommand_list (batches : BatchesSimulate command table depth) {element : Nat}
    {words : List Nat} (rep : (heap.object element).elements = some words)
    (bounded : ∀ word ∈ words, word < heap.fresh)
    (value : parse (heap.object element).text
      = some (words.map (fun word => (heap.object word).text)))
    (held : ∀ option list, words = [option, list] → (heap.object option).text = batchWord →
      Held heap list)
    (plain : ∀ list, nestedList (heap.object element).text = some list →
      Plain command depth state list)
    : Simulates (· < heap.fresh) heap
        (runCommand command table (runBatch command table depth) (heap.duplicate element) state
          heap.fresh)
        (performElement command (performBatch command depth) state
          (heap.object element).text) := by
  obtain ⟨copied, -, -, elements⟩ := @duplicate_spec heap element
  obtain ⟨after, put, own, kept⟩ := @putFirst_list (heap.duplicate element) heap.fresh table words
    (elements.trans rep)
  have keeps : Keeps (· < heap.fresh) heap after :=
    copied.trans (kept.mono fun id old => Nat.ne_of_lt old)
  have texts : words.map (fun word => (after.object word).text)
      = words.map (fun word => (heap.object word).text) :=
    List.map_congr_left fun word member => keeps.text word (bounded word member)
  rw [runCommand, put]
  simp only [own, Option.getD_some, List.tail_cons]
  rw [performElement, value]
  simp only
  rw [← texts]
  refine .behind keeps (execute_simulates batches ?_ fun id old =>
    Nat.lt_of_lt_of_le old keeps.fresh)
  intro option list same batch
  have first : option < heap.fresh := bounded option (same ▸ List.mem_cons_self)
  have second : list < heap.fresh :=
    bounded list (same ▸ List.mem_cons_of_mem option List.mem_cons_self)
  rw [keeps.text option first] at batch
  have still := (held option list same batch).keeps keeps
  refine ⟨.inl still, fun _ => still, ?_⟩
  rw [keeps.text list second]
  refine plain _ ?_
  rw [nestedList, value, same]
  exact if_pos batch

/-- An element does what its text means. -/
theorem runElement_simulates (batches : BatchesSimulate command table depth) {element : Nat}
    (item : Item heap element)
    (plain : ∀ list, nestedList (heap.object element).text = some list →
      Plain command depth state list)
    : Simulates (KeptByItem heap element) heap
        (runElement command table (runBatch command table depth) heap state element)
        (performElement command (performBatch command depth) state
          (heap.object element).text) := by
  obtain ⟨inside, rep⟩ := item
  rw [runElement]
  by_cases shared : 1 < (heap.object element).refs
  · rw [if_pos shared]
    obtain rep | ⟨words, rep, -, bounded, value, held⟩ := rep
    · obtain ⟨copied, bound, text, elements⟩ := @duplicate_spec heap element
      have run := @runCommand_text State (· < heap.fresh) (heap.duplicate element) command table
        depth state batches heap.fresh bound (elements.trans rep)
        (fun id old => ⟨Nat.lt_of_lt_of_le old copied.fresh,
          fun same => absurd old (same ▸ Nat.lt_irrefl _)⟩) (text ▸ plain)
      rw [text] at run
      obtain ⟨same, keeps⟩ := Simulates.behind copied run
      exact ⟨same, fun result ends => (keeps result ends).mono fun id kept => kept.1⟩
    · obtain ⟨same, keeps⟩ := runCommand_list batches rep bounded value held plain
      exact ⟨same, fun result ends => (keeps result ends).mono fun id kept => kept.1⟩
  · rw [if_neg shared]
    obtain rep | ⟨words, rep, unshared, -⟩ := rep
    · refine runCommand_text batches inside rep (fun id kept => ⟨kept.1, fun same => ?_⟩) plain
      exact (kept.2 same).resolve_left shared
    · exact absurd unshared shared

/-- The answers that the loop takes for empty are the empty ones, if they are plain. -/
theorem skipped_iff {answer : Answer} (plain : answer.typed = true → answer.text ≠ [])
    : (answer.code = tclOk ∧ answer.typed = false ∧ answer.text = [])
      ↔ answer.code = tclOk ∧ answer.text = [] := by
  constructor
  · intro ⟨code, _, text⟩
    exact ⟨code, text⟩
  · intro ⟨code, text⟩
    refine ⟨code, ?_, text⟩
    cases typed : answer.typed with
    | false => rfl
    | true => exact absurd text (plain typed)

/-- The loop does what the elements mean, by induction on them. `ready` says of the rest of them
what the turns before have left.
-/
theorem runElements_simulates (batches : BatchesSimulate command table depth)
    (ready : Heap → List Nat → Prop)
    (item : ∀ {heap element rest}, ready heap (element :: rest) → Item heap element)
    (next : ∀ {heap after element rest}, ready heap (element :: rest) →
      Keeps (KeptByItem heap element) heap after →
      ready after rest
      ∧ rest.map (fun element => (after.object element).text)
        = rest.map (fun element => (heap.object element).text))
    (keep : ∀ {heap element rest}, ready heap (element :: rest) → ∀ id, kept id →
      KeptByItem heap element id)
    {elements : List Nat} {i : Nat} (all : ready heap elements)
    (plain : PlainElements command (performBatch command depth) (Plain command depth) state
      (elements.map (fun element => (heap.object element).text)))
    : Simulates kept heap
        (runElements command table (runBatch command table depth) heap state i elements)
        (performElements command (performBatch command depth) state i
          (elements.map (fun element => (heap.object element).text))) := by
  induction elements generalizing heap state i with
  | nil => exact ⟨rfl, fun result same => by cases same; exact .refl⟩
  | cons element rest ih =>
      obtain ⟨inner, follows⟩ := plain
      obtain ⟨same, keeps⟩ := runElement_simulates batches (item all) inner
      rw [runElements, List.map_cons, performElements, ← same]
      cases ran : runElement command table (runBatch command table depth) heap state element with
      | none => exact ⟨rfl, nofun⟩
      | some result =>
          obtain ⟨after, later, answer⟩ := result
          rw [ran] at same
          obtain ⟨answers, plainRest⟩ := follows later answer same.symm
          obtain ⟨readyRest, texts⟩ := next all (keeps _ ran)
          rw [← texts] at plainRest ⊢
          obtain ⟨sameRest, keepsRest⟩ := ih readyRest plainRest
          have first := (keeps _ ran).mono (keep all)
          change Simulates kept heap ((runElements _ _ _ _ _ _ _).bind _)
            ((performElements _ _ _ _ _).bind _)
          rw [← sameRest]
          cases ranRest : runElements command table (runBatch command table depth) after later
            (i + 1) rest with
          | none => exact ⟨rfl, nofun⟩
          | some result =>
              obtain ⟨final, last, results⟩ := result
              have second := first.trans (keepsRest _ ranRest)
              simp only [Option.bind_some, Option.map_some, skipped_iff answers]
              split
              · exact ⟨rfl, fun result same => by cases same; exact second⟩
              · exact ⟨rfl, fun result same => by cases same; exact second⟩

/-- The elements of a list that are held stay so in each turn of the loop. -/
structure HeldElements (start heap : Heap) (elements : List Nat) : Prop where
  later : start.fresh ≤ heap.fresh
  items : ∀ element ∈ elements, Item heap element
  kept : ∀ element ∈ elements,
    1 < (heap.object element).refs ∨ parse (heap.object element).text = none

/-- The elements of a list that has been taken apart are new, and there are no two of one. -/
structure NewElements (start heap : Heap) (elements : List Nat) : Prop where
  later : start.fresh ≤ heap.fresh
  new : ∀ element ∈ elements, start.fresh ≤ element ∧ element < heap.fresh
  loose : ∀ element ∈ elements, (heap.object element).elements = none
  apart : elements.Nodup

theorem Item.keeps {element : Nat} (item : Item before element)
    (keeps : Keeps (· < before.fresh) before after)
    : Item after element := by
  obtain ⟨inside, rep⟩ := item
  refine ⟨Nat.lt_of_lt_of_le inside keeps.fresh, ?_⟩
  rw [keeps.elements element inside, keeps.text element inside]
  obtain rep | ⟨words, rep, shared, bounded, value, held⟩ := rep
  · exact .inl rep
  · refine .inr ⟨words, rep, Nat.lt_of_lt_of_le shared (keeps.refs element inside),
      fun word member => Nat.lt_of_lt_of_le (bounded word member) keeps.fresh, ?_, ?_⟩
    · rw [value]
      exact congrArg some
        (List.map_congr_left fun word member => (keeps.text word (bounded word member)).symm)
    · intro option list same batch
      rw [keeps.text option (bounded option (same ▸ List.mem_cons_self))] at batch
      exact (held option list same batch).keeps keeps

theorem HeldElements.next {start : Heap} {element : Nat} {rest : List Nat}
    (held : HeldElements start before (element :: rest))
    (keeps : Keeps (KeptByItem before element) before after)
    : HeldElements start after rest
      ∧ rest.map (fun element => (after.object element).text)
        = rest.map (fun element => (before.object element).text) := by
  have all : Keeps (· < before.fresh) before after :=
    keeps.mono fun id old => ⟨old, fun _ => held.kept element List.mem_cons_self⟩
  have old : ∀ other ∈ rest, other < before.fresh :=
    fun other member => (held.items other (List.mem_cons_of_mem _ member)).1
  refine ⟨⟨Nat.le_trans held.later keeps.fresh, fun other member =>
    (held.items other (List.mem_cons_of_mem _ member)).keeps all, fun other member => ?_⟩,
    List.map_congr_left fun other member => all.text other (old other member)⟩
  rw [all.text other (old other member)]
  exact (held.kept other (List.mem_cons_of_mem _ member)).imp
    (Nat.lt_of_lt_of_le · (all.refs other (old other member))) (fun failed => failed)

theorem NewElements.next {start : Heap} {element : Nat} {rest : List Nat}
    (new : NewElements start before (element :: rest))
    (keeps : Keeps (KeptByItem before element) before after)
    : NewElements start after rest
      ∧ rest.map (fun element => (after.object element).text)
        = rest.map (fun element => (before.object element).text) := by
  obtain ⟨absent, others⟩ := List.nodup_cons.mp new.apart
  have own : ∀ other ∈ rest, KeptByItem before element other := fun other member =>
    ⟨(new.new other (List.mem_cons_of_mem _ member)).2, fun same => absurd (same ▸ member) absent⟩
  refine ⟨⟨Nat.le_trans new.later keeps.fresh, fun other member => ?_, fun other member => ?_,
    others⟩, List.map_congr_left fun other member => keeps.text other (own other member)⟩
  · obtain ⟨first, bound⟩ := new.new other (List.mem_cons_of_mem _ member)
    exact ⟨first, Nat.lt_of_lt_of_le bound keeps.fresh⟩
  · rw [keeps.elements other (own other member)]
    exact new.loose other (List.mem_cons_of_mem _ member)

/-- A batch does what the value of its list means, to every depth of nesting. -/
theorem runBatch_simulates (command : TableCommand State) (table depth : Nat)
    : BatchesSimulate command table depth := by
  induction depth with
  | zero => exact fun heap state list _ _ => ⟨rfl, nofun⟩
  | succ depth ih =>
      intro heap state list ready plain
      -- the loop is run for elements that are held, or for new ones
      have loop : ∀ {elements : List Nat} {after : Heap},
          heap.getElements list = some (elements, after) →
          parse (heap.object list).text
            = some (elements.map (fun element => (after.object element).text)) →
          Keeps (KeptBy heap list) heap after →
          HeldElements heap after elements ∨ NewElements heap after elements →
          Simulates (KeptBy heap list) heap (runBatch command table (depth + 1) heap state list)
            (performBatch command (depth + 1) state (heap.object list).text) := by
        intro elements after taken value keeps of
        have plainly := plain _ value
        have run : Simulates (KeptBy heap list) after
            (runElements command table (runBatch command table depth) after state 0 elements)
            (performElements command (performBatch command depth) state 0
              (elements.map (fun element => (after.object element).text))) := by
          obtain held | new := of
          · refine runElements_simulates ih (HeldElements heap)
              (fun all => all.items _ List.mem_cons_self) (fun all => all.next) ?_ held plainly
            intro heap element rest all id own
            exact ⟨Nat.lt_of_lt_of_le own.1 all.later,
              fun _ => all.kept element List.mem_cons_self⟩
          · refine runElements_simulates ih (NewElements heap)
              (fun all => ⟨(all.new _ List.mem_cons_self).2, .inl (all.loose _ List.mem_cons_self)⟩)
              (fun all => all.next) ?_ new plainly
            intro heap element rest all id own
            refine ⟨Nat.lt_of_lt_of_le own.1 all.later, fun same => ?_⟩
            exact absurd own.1 (Nat.not_lt.mpr (same ▸ (all.new element List.mem_cons_self).1))
        obtain ⟨same, kept⟩ := Simulates.behind keeps run
        rw [runBatch, taken, performBatch, value]
        change Simulates _ heap ((runElements _ _ _ _ _ _ _).bind _)
          ((performElements _ _ _ _ _).bind _)
        rw [← same]
        cases ran : runElements command table (runBatch command table depth) after state 0
          elements with
        | none => exact ⟨rfl, nofun⟩
        | some result => exact ⟨rfl, fun final ends => by cases ends; exact kept _ ran⟩
      have apart : ∀ texts, list < heap.fresh → (heap.object list).elements = none →
          parse (heap.object list).text = some texts → (texts ≠ [] → ¬ Held heap list) →
          Simulates (KeptBy heap list) heap (runBatch command table (depth + 1) heap state list)
            (performBatch command (depth + 1) state (heap.object list).text) := by
        intro texts inside rep value loose
        obtain ⟨elements, after, taken, taken', same⟩ := getElements_text inside rep value
        refine loop taken (taken'.values ▸ value) ?_ (.inr
          ⟨taken'.keeps.fresh, taken'.new, taken'.loose, taken'.apart⟩)
        by_cases empty : texts = []
        · rw [same empty]
          exact .refl
        · exact taken'.keeps.mono fun id own =>
            ⟨own.1, fun equal => loose empty (own.2 equal)⟩
      have failed : (heap.object list).elements = none → parse (heap.object list).text = none →
          Simulates (KeptBy heap list) heap (runBatch command table (depth + 1) heap state list)
            (performBatch command (depth + 1) state (heap.object list).text) := by
        intro rep value
        have none : heap.getElements list = none := by rw [Heap.getElements, rep, value]
        rw [runBatch, none, performBatch, value]
        exact ⟨rfl, fun result ends => by cases ends; exact .refl⟩
      obtain held | ⟨inside, rep⟩ := ready
      · cases held with
        | @list _ elements inside rep value bounded shared words nested =>
            refine loop (by rw [Heap.getElements, rep]) value .refl (.inl ⟨Nat.le_refl _, ?_, ?_⟩)
            · intro element member
              refine ⟨bounded element member, ?_⟩
              cases own : (heap.object element).elements with
              | none => exact .inl rfl
              | some ids =>
                  obtain ⟨within, same⟩ := words element member ids own
                  refine .inr ⟨ids, rfl, ?_, within, same, ?_⟩
                  · refine (shared element member).resolve_right fun failed => ?_
                    rw [own] at failed
                    cases failed.1
                  · intro option inner equal batch
                    exact nested element member option inner (equal ▸ own) batch
            · exact fun element member => (shared element member).imp_right fun failed => failed.2
        | blank inside rep value =>
            obtain value | value := value
            · exact apart [] inside rep value fun nonempty => absurd rfl nonempty
            · exact failed rep value
      · cases value : parse (heap.object list).text with
        | none => exact failed rep value
        | some texts =>
            refine apart texts inside rep value fun nonempty held => ?_
            cases held with
            | list _ own => rw [rep] at own; cases own
            | blank _ _ blank =>
                obtain blank | blank := blank
                · rw [value] at blank
                  exact nonempty (Option.some.inj blank)
                · rw [value] at blank
                  cases blank

-----------------------------------------------------------------------------------------
-- The result
-----------------------------------------------------------------------------------------

/-- A nested list is shorter than the element that it is nested in. -/
theorem length_nestedList {element list : Text} (nested : nestedList element = some list)
    : list.length < element.length := by
  rw [nestedList] at nested
  split at nested
  · next option inner value =>
    split at nested
    · next batch =>
      obtain rfl := Option.some.inj nested
      have total := Lib.TclList.length_parse value
      rw [batch] at total
      simp only [List.map_cons, List.map_nil, List.sum_cons, List.sum_nil, batchWord] at total
      have five : "batch".toList.length = 5 := rfl
      omega
    · cases nested
  · cases nested

/-- An element is run, if its nested list can be. -/
theorem performElement_isSome {nested : BatchMeaning State} {element : Text}
    (runs : ∀ list, nestedList element = some list → (nested state list).isSome = true)
    : (performElement command nested state element).isSome = true := by
  rw [performElement]
  cases value : parse element with
  | none => rfl
  | some words =>
      match words, value with
      | [option, list], value =>
          change (perform command nested state [option, list]).isSome = true
          rw [perform]
          by_cases batch : option = batchWord
          · rw [if_pos batch]
            refine runs list ?_
            rw [nestedList, value]
            exact if_pos batch
          · rw [if_neg batch]
            rfl
      | [], _ => rfl
      | [_], _ => rfl
      | _ :: _ :: _ :: _, _ => rfl

/-- What a batch is to do is defined, with a depth for each character of its list. -/
theorem performBatch_isSome {text : Text} (deep : text.length < depth)
    : (performBatch command depth state text).isSome = true := by
  induction depth generalizing state text with
  | zero => cases deep
  | succ depth ih =>
      have each : ∀ elements : List Text, (∀ element ∈ elements, element.length ≤ text.length) →
          ∀ state i, (performElements command (performBatch command depth) state i
            elements).isSome = true := by
        intro elements
        induction elements with
        | nil => exact fun _ _ _ => rfl
        | cons element rest more =>
            intro short state i
            obtain ⟨own, others⟩ := List.forall_mem_cons.mp short
            have performed : (performElement command (performBatch command depth) state
                element).isSome = true := by
              refine performElement_isSome fun list nested => ih ?_
              have shorter := length_nestedList nested
              omega
            obtain ⟨⟨later, answer⟩, performed⟩ := Option.isSome_iff_exists.mp performed
            obtain ⟨⟨last, results⟩, followed⟩ :=
              Option.isSome_iff_exists.mp (more others later (i + 1))
            rw [performElements, performed]
            change (Option.bind (performElements _ _ _ _ _) _).isSome = true
            rw [followed, Option.bind_some]
            dsimp only
            split
            · rfl
            · rfl
      rw [performBatch]
      cases value : parse text with
      | none => rfl
      | some elements =>
          obtain ⟨⟨later, results⟩, performed⟩ := Option.isSome_iff_exists.mp
            (each elements (fun element member =>
              Lib.TclList.length_le_of_mem_parse value member) state 0)
          change (Option.bind (performElements _ _ _ _ _) _).isSome = true
          rw [performed]
          rfl

/-- A batch whose list is held, and whose commands answer plainly, leaves the table as its elements
do, returns their results, and leaves the value of the list, which is still held.
-/
theorem runBatch_spec (command : TableCommand State) (table : Nat) (heap : Heap) (state : State)
    (list depth : Nat) (held : Held heap list)
    (deep : (heap.object list).text.length < depth)
    (plain : Plain command depth state (heap.object list).text)
    : ∃ after later answer,
        runBatch command table depth heap state list = some (after, later, answer)
        ∧ performBatch command depth state (heap.object list).text = some (later, answer)
        ∧ Keeps (· < heap.fresh) heap after ∧ Held after list := by
  obtain ⟨same, keeps⟩ := runBatch_simulates command table depth heap state list (.inl held) plain
  obtain ⟨⟨later, answer⟩, performed⟩ :=
    Option.isSome_iff_exists.mp (@performBatch_isSome State command depth state _ deep)
  rw [performed] at same
  obtain ⟨⟨after, _⟩, ran, rfl⟩ := Option.map_eq_some_iff.mp same
  have kept : Keeps (· < heap.fresh) heap after :=
    (keeps _ ran).mono fun id old => ⟨old, fun _ => held⟩
  exact ⟨after, later, answer, ran, performed, kept, held.keeps kept⟩

theorem format_ne_nil (text : Text) (texts : List Text) : format (text :: texts) ≠ [] := by
  obtain ⟨c, others, shape, -⟩ := Lib.TclList.formatElement_head true text
  rw [Lib.TclList.format, shape]
  exact List.cons_ne_nil _ _

/-- A batch itself answers plainly: its result is empty if there are no results. -/
theorem performBatch_plain {text : Text} {later : State} {answer : Answer}
    (performed : performBatch command depth state text = some (later, answer))
    (typed : answer.typed = true)
    : answer.text ≠ [] := by
  cases depth with
  | zero => cases performed
  | succ depth =>
      rw [performBatch] at performed
      split at performed
      · cases performed
        cases typed
      · obtain ⟨⟨last, results⟩, -, ends⟩ := Option.bind_eq_some_iff.mp performed
        cases ends
        cases results with
        | nil => cases typed
        | cons result results => exact format_ne_nil _ _

/-- A table whose commands always answer plainly has plain batches. -/
theorem plain_of_command
    (answers : ∀ state words, (command.run state words).2.typed = true →
      (command.run state words).2.text ≠ [])
    (depth : Nat) (state : State) (text : Text)
    : Plain command depth state text := by
  induction depth generalizing state text with
  | zero => trivial
  | succ depth ih =>
      intro elements found
      clear found
      induction elements generalizing state with
      | nil => trivial
      | cons element rest more =>
          refine ⟨fun list _ => ih state list, fun after answer performed => ⟨?_, more after⟩⟩
          intro typed
          rw [performElement] at performed
          split at performed
          · cases performed
            cases typed
          · next words _ =>
            have own : ∀ words, command.run state words = (after, answer) → answer.text ≠ [] := by
              intro words same
              have plain := answers state words
              rw [same] at plain
              exact plain typed
            match words with
            | [option, list] =>
                rw [perform] at performed
                split at performed
                · exact performBatch_plain performed typed
                · exact own _ (Option.some.inj performed)
            | [] => exact own _ (Option.some.inj performed)
            | [_] => exact own _ (Option.some.inj performed)
            | _ :: _ :: _ :: _ => exact own _ (Option.some.inj performed)

/-- A command that keeps a record of what it was asked for. -/
def recorder : TableCommand (List (List Text)) where
  run := fun record words => (record ++ [words], { code := tclOk, text := [], typed := false })
  listError := fun _ => "unmatched open brace in list".toList

/-- A list of `reset` and of a batch of `reset`, held by variables too. -/
def heldHeap : Heap where
  object := fun id =>
    match id with
    | 1 => { refs := 2, text := "reset {batch reset}".toList, elements := some [2, 3] }
    | 2 => { refs := 3, text := "reset".toList, elements := none }
    | 3 => { refs := 2, text := "batch reset".toList, elements := some [4, 5] }
    | 4 => { refs := 1, text := "batch".toList, elements := none }
    | 5 => { refs := 1, text := "reset".toList, elements := some [2] }
    | _ => { refs := 1, text := "t".toList, elements := none }
  fresh := 6

theorem runBatch_held
    : ∃ after later answer,
        runBatch recorder 0 20 heldHeap [] 1 = some (after, later, answer)
        ∧ performBatch recorder 20 [] "reset {batch reset}".toList = some (later, answer)
        ∧ Keeps (· < 6) heldHeap after ∧ Held after 1 := by
  have inner : Held heldHeap 5 := by
    refine .list (by decide) rfl (by decide +kernel) (by decide) (by decide) ?_ ?_
    · intro element member words rep
      obtain rfl := List.mem_singleton.mp member
      cases rep
    · intro element member option list rep
      obtain rfl := List.mem_singleton.mp member
      cases rep
  have held : Held heldHeap 1 := by
    refine .list (by decide) rfl (by decide +kernel) (by decide) (by decide) ?_ ?_
    · intro element member words rep
      obtain rfl | member := List.mem_cons.mp member
      · cases rep
      · obtain rfl := List.mem_singleton.mp member
        obtain rfl := Option.some.inj rep
        decide +kernel
    · intro element member option list rep batch
      obtain rfl | member := List.mem_cons.mp member
      · cases rep
      · obtain rfl := List.mem_singleton.mp member
        cases rep
        exact inner
  exact runBatch_spec recorder 0 heldHeap [] 1 20 held (by decide)
    (plain_of_command (fun _ _ typed => by cases typed) 20 [] _)

/-- A list of one `reset` that nobody else holds. -/
def looseHeap : Heap where
  object := fun id =>
    match id with
    | 1 => { refs := 1, text := "reset".toList, elements := some [2] }
    | 2 => { refs := 1, text := "reset".toList, elements := none }
    | _ => { refs := 1, text := "t".toList, elements := none }
  fresh := 3

/-- Its element is `t reset` behind the run. -/
theorem runBatch_unshared
    : ¬ ∀ (command : TableCommand (List (List Text))) (table : Nat) (heap : Heap)
        (state : List (List Text)) (list depth : Nat),
        (heap.object list).text.length < depth →
        ∃ after later answer,
          runBatch command table depth heap state list = some (after, later, answer)
          ∧ performBatch command depth state (heap.object list).text = some (later, answer)
          ∧ ∀ id < heap.fresh, (after.object id).text = (heap.object id).text := by
  intro claim
  obtain ⟨after, later, answer, ran, -, kept⟩ :=
    claim recorder 0 looseHeap [] 1 6 (by decide)
  have changed : (runBatch recorder 0 6 looseHeap [] 1).map (fun result =>
      (result.1.object 2).text) = some "t reset".toList := by decide +kernel
  rw [ran, Option.map_some, kept 2 (by decide)] at changed
  revert changed
  decide

end SpeedTables.Batch
