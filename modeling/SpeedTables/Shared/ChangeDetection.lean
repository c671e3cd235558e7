import Mathlib
import SpeedTables.Shared.Collector

/-! The row-cycle tests of a shared reader's index search, while the master moves rows. -/

namespace SpeedTables.Shared

variable {ρ κ : Type} [DecidableEq ρ] [LinearOrder κ]

-----------------------------------------------------------------------------------------
-- The master
-----------------------------------------------------------------------------------------

/-- A shared table with one walked index. The rows are in the order of its walk: by value, and in
the order of the bucket list where values are equal.
-/
structure SharedIndex (ρ κ : Type) where
  cycle : Cell
  rowCycle : ρ → Cell
  value : ρ → κ
  rows : List ρ

/-- What the master does in one step. A field is stored while its row is out of the index. -/
inductive MasterStep (ρ κ : Type) where
  | writeLock
  | stamp (row : ρ)
  | takeOut (row : ρ)
  | assign (row : ρ) (value : κ)
  | putIn (row : ρ)

/-- One step: `write_lock`, the row cycle that `_set` stores, `ctable_RemoveFromIndex`, the store
of the field, or `ctable_InsertIntoIndex`, which puts the row at the head of its bucket.
-/
def SharedIndex.step (index : SharedIndex ρ κ) : MasterStep ρ κ → SharedIndex ρ κ
  | .writeLock => { index with cycle := nextCycle index.cycle }
  | .stamp row => { index with rowCycle := Function.update index.rowCycle row index.cycle }
  | .takeOut row => { index with rows := index.rows.erase row }
  | .assign row value => { index with value := Function.update index.value row value }
  | .putIn row =>
      if row ∈ index.rows then index
      else
        { index with
          rows := index.rows.orderedInsert
            (fun row other => index.value row ≤ index.value other) row }

/-- The commands that move a row. -/
inductive MoveCommand (ρ κ : Type) where
  | set (row : ρ) (value : κ)
  | cursorSet (row : ρ) (value : κ)
  | searchUpdate (row : ρ) (value : κ)
  | incr (row : ρ) (value : κ)
  | null (row : ρ) (value : κ)
  | delete (row : ρ)
  | searchDelete (row : ρ)
  | rekey (row : ρ)

/-- `begin_write`, which does nothing while the table has cursors. -/
def beginWrite (cursors : Bool) : List (MasterStep ρ κ) :=
  if cursors then [] else [.writeLock]

/-- The steps of a command. `search` is in `readonly_options`, only `_set` stamps a row, and a new
key leaves the row where it is in the index.
-/
def MoveCommand.steps (cursors : Bool) : MoveCommand ρ κ → List (MasterStep ρ κ)
  | set row value => beginWrite cursors ++ [.stamp row, .takeOut row, .assign row value, .putIn row]
  | cursorSet row value => [.stamp row, .takeOut row, .assign row value, .putIn row]
  | searchUpdate row value => [.stamp row, .takeOut row, .assign row value, .putIn row]
  | incr row value => beginWrite cursors ++ [.takeOut row, .assign row value, .putIn row]
  | null row value => beginWrite cursors ++ [.takeOut row, .assign row value, .putIn row]
  | delete row => beginWrite cursors ++ [.takeOut row]
  | searchDelete row => [.takeOut row]
  | rekey row => beginWrite cursors ++ [.stamp row]

-----------------------------------------------------------------------------------------
-- Restart conditions
-----------------------------------------------------------------------------------------

/-- `skipStart_e` -/
inductive RestartStart where
  | none
  | geRow1
  | gtRow1
  | eqRow1
  | reset

/-- `skipEnd_e` -/
inductive RestartEnd where
  | none
  | neRow1
  | geRow1
  | gtRow1
  | geRow2

/-- `restart_t`, with the values of its rows. -/
structure Restart (κ : Type) where
  row1 : κ
  row2 : κ
  skipStart : RestartStart
  skipEnd : RestartEnd

/-- The terminating conditions of a walk. -/
def Restart.pastEnd (restart : Restart κ) (value : κ) : Bool :=
  match restart.skipEnd with
  | .geRow1 => restart.row1 ≤ value
  | .gtRow1 => restart.row1 < value
  | .geRow2 => restart.row2 ≤ value
  | .neRow1 => false
  | .none => false

/-- `ctable_SearchRestartNeeded` -/
def searchRestartNeeded (value : κ) (restart : Restart κ) : Bool :=
  restart.pastEnd value
    || match restart.skipStart with
      | .geRow1 => value < restart.row1
      | .gtRow1 => value ≤ restart.row1
      | .eqRow1 => value ≠ restart.row1
      | .none => false
      | .reset => false

/-- `loop_restart`: an exact match with the row itself. -/
def loopRestart (value : κ) : Restart κ where
  row1 := value
  row2 := value
  skipStart := .eqRow1
  skipEnd := .neRow1

/-- Whether a row changed after the search started, by the cycles. -/
def changedSince (mainCycle rowCycle : Cell) : Bool :=
  mainCycle ≠ lostHorizon && rowCycle ≠ lostHorizon && 0 < Cell.toInt32 (rowCycle - mainCycle)

-----------------------------------------------------------------------------------------
-- The reader
-----------------------------------------------------------------------------------------

/-- An index search: its restart condition, and the values if it is a search by `in`. -/
structure SharedSearch (κ : Type) where
  restart : Restart κ
  inList : Option (List κ)

/-- Where the search is: before its sample of the cycle, before it finds its first row or the row
of the next `in` value, at a bucket by its first row, at a row of the bucket, or at its end. It is
`misled` when it has followed a link of a row that was moved; what it does then is not modelled.
-/
inductive TestPhase (ρ κ : Type) where
  | samples
  | starts
  | probes
  | seeks (value : κ)
  | tests (row : ρ)
  | judges (row : ρ)
  | bounds (row : ρ)
  | walks (row walkRow : ρ)
  | follows (row walkRow : ρ)
  | leaves (row : ρ)
  | complete
  | exceeded
  | misled
  deriving DecidableEq

/-- The search in a reader, and the rows taken out of the index since its last sample. -/
structure TestReader (ρ κ : Type) where
  mainCycle : Cell
  restarts : Nat
  inValues : List κ
  phase : TestPhase ρ κ
  visited : List ρ
  moved : List ρ

/-- `MAX_RESTARTS` -/
def maxRestarts : Nat := 1000

def TestReader.start : TestReader ρ κ where
  mainCycle := lostHorizon
  restarts := 0
  inValues := []
  phase := .samples
  visited := []
  moved := []

namespace SharedSearch

/-- The jump to `restart_search`. -/
def restartSearch (reader : TestReader ρ κ) : TestReader ρ κ :=
  if maxRestarts < reader.restarts + 1 then
    { reader with restarts := reader.restarts + 1, phase := .exceeded }
  else
    { reader with restarts := reader.restarts + 1, phase := .samples, visited := [] }

/-- `jsw_sfind`, `jsw_sfind_equal_or_greater` or `jsw_sreset`, by the start of the search. -/
def startRow (search : SharedSearch κ) (index : SharedIndex ρ κ) : Option ρ :=
  index.rows.find? fun row =>
    match search.restart.skipStart with
    | .geRow1 => search.restart.row1 ≤ index.value row
    | .eqRow1 => search.restart.row1 ≤ index.value row
    | .gtRow1 => search.restart.row1 < index.value row
    | .none => true
    | .reset => true

/-- The row behind a row in its bucket list. -/
def nextRow (index : SharedIndex ρ κ) (row : ρ) : Option ρ :=
  match index.rows.dropWhile (· ≠ row) with
  | _ :: next :: _ => if index.value next = index.value row then some next else none
  | _ => none

/-- The first row of the bucket behind that of a row. -/
def nextBucket (index : SharedIndex ρ κ) (row : ρ) : Option ρ :=
  index.rows.find? fun other => index.value row < index.value other

/-- The phase at the first row of a bucket, if there is one. -/
def atBucket : Option ρ → TestPhase ρ κ
  | some row => .tests row
  | none => .complete

/-- One step of the search. -/
def step (search : SharedSearch κ) (index : SharedIndex ρ κ) (reader : TestReader ρ κ)
    : TestReader ρ κ :=
  match reader.phase with
  | .samples =>
      { reader with
        mainCycle := index.cycle
        moved := []
        inValues := search.inList.getD []
        phase := if search.inList.isSome then .probes else .starts }
  | .starts => { reader with phase := atBucket (startRow search index) }
  | .probes =>
      match reader.inValues with
      | [] => { reader with phase := .complete }
      | value :: rest =>
          if reader.mainCycle = lostHorizon then
            { reader with inValues := rest, phase := .seeks value }
          else
            { reader with
              mainCycle := index.cycle, moved := [], inValues := rest, phase := .seeks value }
  | .seeks value =>
      match index.rows.find? (fun row => index.value row = value) with
      | some row => { reader with phase := .tests row }
      | none => { reader with phase := .probes }
  | .tests row =>
      if changedSince reader.mainCycle (index.rowCycle row) then
        { reader with phase := .judges row }
      else { reader with phase := .bounds row }
  | .judges row =>
      if searchRestartNeeded (index.value row) search.restart then restartSearch reader
      else { reader with phase := .bounds row }
  | .bounds row =>
      if search.restart.pastEnd (index.value row) then { reader with phase := .complete }
      else { reader with phase := .walks row row }
  | .walks row walkRow =>
      if changedSince reader.mainCycle (index.rowCycle row)
          && searchRestartNeeded (index.value row) (loopRestart (index.value row)) then
        restartSearch reader
      else
        { reader with visited := reader.visited ++ [walkRow], phase := .follows row walkRow }
  | .follows row walkRow =>
      if walkRow ∈ reader.moved then { reader with phase := .misled }
      else
        match nextRow index walkRow with
        | some next => { reader with phase := .walks row next }
        | none => { reader with phase := .leaves row }
  | .leaves row =>
      if search.inList.isSome then { reader with phase := .probes }
      else if row ∈ reader.moved then { reader with phase := .misled }
      else { reader with phase := atBucket (nextBucket index row) }
  | .complete | .exceeded | .misled => reader

end SharedSearch

-----------------------------------------------------------------------------------------
-- Runs
-----------------------------------------------------------------------------------------

/-- The table and a search in a reader. -/
structure TestScene (ρ κ : Type) where
  index : SharedIndex ρ κ
  reader : TestReader ρ κ

inductive TestEvent (ρ κ : Type) where
  | master (step : MasterStep ρ κ)
  | reader

/-- One step of either process. A row that is taken out of the index counts as moved. -/
def TestScene.step (search : SharedSearch κ) (scene : TestScene ρ κ)
    : TestEvent ρ κ → TestScene ρ κ
  | .reader => { scene with reader := search.step scene.index scene.reader }
  | .master (.takeOut row) =>
      { index := scene.index.step (.takeOut row)
        reader :=
          if row ∈ scene.index.rows then
            { scene.reader with moved := row :: scene.reader.moved }
          else scene.reader }
  | .master step => { scene with index := scene.index.step step }

def TestScene.run (search : SharedSearch κ) (scene : TestScene ρ κ)
    (events : List (TestEvent ρ κ))
    : TestScene ρ κ :=
  events.foldl (TestScene.step search) scene

/-- The search is at the row: it has fetched it and has not yet followed its links. -/
def TestPhase.At (row : ρ) : TestPhase ρ κ → Prop
  | tests here => row = here
  | judges here => row = here
  | bounds here => row = here
  | walks here walkRow => row = here ∨ row = walkRow
  | follows here walkRow => row = here ∨ row = walkRow
  | leaves here => row = here
  | _ => False

/-- A step of the master that the tests of the reader are made for: it takes no row out that the
search is at, it stamps a moved row in a later cycle than the search started in, before it puts it
in, and it puts it where the search would have to restart, at the end of no list with another row
that was moved.
-/
def Detectable (search : SharedSearch κ) (scene : TestScene ρ κ) : TestEvent ρ κ → Prop
  | .reader => True
  | .master .writeLock => True
  | .master (.stamp row) =>
      row ∈ scene.reader.moved
      → row ∈ scene.index.rows
      → changedSince scene.reader.mainCycle scene.index.cycle
  | .master (.takeOut row) => ¬ scene.reader.phase.At row
  | .master (.assign row _) => row ∉ scene.index.rows
  | .master (.putIn row) =>
      (row ∈ scene.reader.moved
        → changedSince scene.reader.mainCycle (scene.index.rowCycle row)
          ∧ searchRestartNeeded (scene.index.value row) search.restart)
      ∧ ∀ other ∈ scene.index.rows,
          other ∈ scene.reader.moved → scene.index.value other ≠ scene.index.value row

instance (row : ρ) (phase : TestPhase ρ κ) : Decidable (phase.At row) :=
  match phase with
  | .tests here => inferInstanceAs (Decidable (row = here))
  | .judges here => inferInstanceAs (Decidable (row = here))
  | .bounds here => inferInstanceAs (Decidable (row = here))
  | .walks here walkRow => inferInstanceAs (Decidable (row = here ∨ row = walkRow))
  | .follows here walkRow => inferInstanceAs (Decidable (row = here ∨ row = walkRow))
  | .leaves here => inferInstanceAs (Decidable (row = here))
  | .samples => isFalse id
  | .starts => isFalse id
  | .probes => isFalse id
  | .seeks _ => isFalse id
  | .complete => isFalse id
  | .exceeded => isFalse id
  | .misled => isFalse id

instance (search : SharedSearch κ) (scene : TestScene ρ κ) (event : TestEvent ρ κ)
    : Decidable (Detectable search scene event) :=
  match event with
  | .reader => isTrue trivial
  | .master .writeLock => isTrue trivial
  | .master (.stamp _) => inferInstanceAs (Decidable (_ → _ → _ = true))
  | .master (.takeOut row) => inferInstanceAs (Decidable (¬ scene.reader.phase.At row))
  | .master (.assign row _) => inferInstanceAs (Decidable (row ∉ scene.index.rows))
  | .master (.putIn row) =>
      inferInstanceAs (Decidable ((_ → _ = true ∧ _ = true)
        ∧ ∀ other ∈ scene.index.rows,
            other ∈ scene.reader.moved → scene.index.value other ≠ scene.index.value row))

/-- Every step of a run is such a step. -/
def DetectableRun (search : SharedSearch κ) : TestScene ρ κ → List (TestEvent ρ κ) → Prop
  | _, [] => True
  | scene, event :: rest =>
      Detectable search scene event ∧ DetectableRun search (scene.step search event) rest

instance decidableDetectableRun (search : SharedSearch κ)
    : (scene : TestScene ρ κ) → (events : List (TestEvent ρ κ))
      → Decidable (DetectableRun search scene events)
  | _, [] => isTrue trivial
  | scene, event :: rest =>
      have := decidableDetectableRun search (scene.step search event) rest
      inferInstanceAs (Decidable (_ ∧ _))

-----------------------------------------------------------------------------------------
-- What detectable steps keep
-----------------------------------------------------------------------------------------

section Detecting

variable {search : SharedSearch κ} {scene : TestScene ρ κ} {index : SharedIndex ρ κ}
  {reader : TestReader ρ κ}

/-- A row that was moved makes the tests restart the search. -/
def Alarms (search : SharedSearch κ) (index : SharedIndex ρ κ) (reader : TestReader ρ κ) (row : ρ)
    : Prop :=
  changedSince reader.mainCycle (index.rowCycle row)
    ∧ searchRestartNeeded (index.value row) search.restart

/-- The rows that the search is at are in the index, and behind the tests they were not moved. -/
def TestPhase.Sound (listed unmoved : ρ → Prop) : TestPhase ρ κ → Prop
  | tests row => listed row
  | judges row => listed row
  | bounds row => listed row ∧ unmoved row
  | walks row walkRow => (listed row ∧ unmoved row) ∧ listed walkRow ∧ unmoved walkRow
  | follows row walkRow => (listed row ∧ unmoved row) ∧ listed walkRow ∧ unmoved walkRow
  | leaves row => listed row ∧ unmoved row
  | misled => False
  | _ => True

/-- Every moved row in the index is the first one of its bucket and makes the tests restart the
search, and the search is at no other moved row.
-/
structure Detecting (search : SharedSearch κ) (scene : TestScene ρ κ) : Prop where
  distinct : scene.index.rows.Nodup
  alarms
    : ∀ row ∈ scene.index.rows,
        row ∈ scene.reader.moved → Alarms search scene.index scene.reader row
  first
    : scene.index.rows.Pairwise fun other row =>
        row ∈ scene.reader.moved → scene.index.value other ≠ scene.index.value row
  sound
    : scene.reader.phase.Sound (· ∈ scene.index.rows) (· ∉ scene.reader.moved)

omit [DecidableEq ρ] in
/-- The loop test compares a row with itself. -/
theorem loopRestart_never (value : κ) : searchRestartNeeded value (loopRestart value) = false := by
  simp [searchRestartNeeded, loopRestart, Restart.pastEnd]

omit [LinearOrder κ] [DecidableEq ρ] in
/-- A phase stays sound when the rows it is at are still in the index and not moved. -/
theorem TestPhase.Sound.imp {listed listed' unmoved unmoved' : ρ → Prop} {phase : TestPhase ρ κ}
    (sound : phase.Sound listed unmoved)
    (still : ∀ row, phase.At row → listed row → listed' row)
    (unmoved_still : ∀ row, phase.At row → unmoved row → unmoved' row)
    : phase.Sound listed' unmoved' := by
  cases phase with
  | tests row => exact still row rfl sound
  | judges row => exact still row rfl sound
  | bounds row => exact ⟨still row rfl sound.1, unmoved_still row rfl sound.2⟩
  | leaves row => exact ⟨still row rfl sound.1, unmoved_still row rfl sound.2⟩
  | walks row walkRow =>
      obtain ⟨⟨listed, unmoved⟩, listed', unmoved'⟩ := sound
      exact ⟨⟨still row (Or.inl rfl) listed, unmoved_still row (Or.inl rfl) unmoved⟩,
        still walkRow (Or.inr rfl) listed', unmoved_still walkRow (Or.inr rfl) unmoved'⟩
  | follows row walkRow =>
      obtain ⟨⟨listed, unmoved⟩, listed', unmoved'⟩ := sound
      exact ⟨⟨still row (Or.inl rfl) listed, unmoved_still row (Or.inl rfl) unmoved⟩,
        still walkRow (Or.inr rfl) listed', unmoved_still walkRow (Or.inr rfl) unmoved'⟩
  | samples => trivial
  | starts => trivial
  | probes => trivial
  | seeks value => trivial
  | complete => trivial
  | exceeded => trivial
  | misled => exact sound

/-- The row behind a row in its bucket list is in the index, directly behind it. -/
theorem nextRow_split {row next : ρ} (found : SharedSearch.nextRow index row = some next)
    : ∃ before after,
        index.rows = before ++ row :: next :: after ∧ index.value next = index.value row := by
  unfold SharedSearch.nextRow at found
  split at found
  · rename_i here other rest dropped
    split at found
    · rename_i same
      obtain rfl : other = next := by simpa using found
      have head := List.head?_dropWhile_not (· ≠ row) index.rows
      rw [dropped] at head
      obtain rfl : here = row := by simpa using head
      refine ⟨index.rows.takeWhile (· ≠ here), rest, ?_, same⟩
      rw [← dropped, List.takeWhile_append_dropWhile]
    · cases found
  · cases found

omit [DecidableEq ρ] in
/-- A reader that keeps its sample, or that takes a new one. -/
theorem Detecting.of_reader (detecting : Detecting search scene) {reader' : TestReader ρ κ}
    (sampled
      : reader'.moved = scene.reader.moved ∧ reader'.mainCycle = scene.reader.mainCycle
        ∨ reader'.moved = [])
    (sound : reader'.phase.Sound (· ∈ scene.index.rows) (· ∉ reader'.moved))
    : Detecting search { scene with reader := reader' } where
  distinct := detecting.distinct
  alarms := by
    intro row listed moved
    rcases sampled with ⟨same, cycle⟩ | none
    · change row ∈ reader'.moved at moved
      rw [same] at moved
      have alarms := detecting.alarms row listed moved
      unfold Alarms at alarms ⊢
      rwa [← cycle] at alarms
    · change row ∈ reader'.moved at moved
      simp [none] at moved
  first := by
    rcases sampled with ⟨same, -⟩ | none
    · change scene.index.rows.Pairwise fun other row =>
        row ∈ reader'.moved → scene.index.value other ≠ scene.index.value row
      rw [same]
      exact detecting.first
    · change scene.index.rows.Pairwise fun other row =>
        row ∈ reader'.moved → scene.index.value other ≠ scene.index.value row
      refine List.pairwise_of_forall fun other row moved => ?_
      simp [none] at moved
  sound := sound

omit [DecidableEq ρ] in
/-- A jump to the start of the search. -/
theorem Detecting.restart (detecting : Detecting search scene)
    : Detecting search { scene with reader := SharedSearch.restartSearch scene.reader } := by
  unfold SharedSearch.restartSearch
  split
  · exact detecting.of_reader (Or.inl ⟨rfl, rfl⟩) trivial
  · exact detecting.of_reader (Or.inl ⟨rfl, rfl⟩) trivial

omit [LinearOrder κ] [DecidableEq ρ] in
/-- A bucket is entered by a row of the index. -/
theorem atBucket_sound {listed unmoved : ρ → Prop} {found : Option ρ}
    (from_index : ∀ row, found = some row → listed row)
    : (SharedSearch.atBucket found : TestPhase ρ κ).Sound listed unmoved := by
  cases found with
  | none => trivial
  | some row => exact from_index row rfl

/-- A step of the search keeps what the tests need, by the phases. -/
theorem Detecting.search_step (detecting : Detecting search scene)
    : Detecting search (scene.step search .reader) := by
  obtain ⟨index, mainCycle, restarts, inValues, phase, visited, moved⟩ := scene
  have sound := detecting.sound
  unfold TestScene.step SharedSearch.step
  cases phase with
  | samples =>
      refine detecting.of_reader (Or.inr rfl) ?_
      simp only
      split <;> trivial
  | starts =>
      refine detecting.of_reader (Or.inl ⟨rfl, rfl⟩) (atBucket_sound fun row found => ?_)
      exact List.mem_of_find?_eq_some found
  | probes =>
      cases inValues with
      | nil => exact detecting.of_reader (Or.inl ⟨rfl, rfl⟩) trivial
      | cons value rest =>
          simp only
          split
          · exact detecting.of_reader (Or.inl ⟨rfl, rfl⟩) trivial
          · exact detecting.of_reader (Or.inr rfl) trivial
  | seeks value =>
      simp only
      split
      · rename_i row found
        exact detecting.of_reader (Or.inl ⟨rfl, rfl⟩) (List.mem_of_find?_eq_some found)
      · exact detecting.of_reader (Or.inl ⟨rfl, rfl⟩) trivial
  | tests row =>
      simp only
      split
      · exact detecting.of_reader (Or.inl ⟨rfl, rfl⟩) sound
      · rename_i unchanged
        refine detecting.of_reader (Or.inl ⟨rfl, rfl⟩) ⟨sound, fun moved => ?_⟩
        exact unchanged (detecting.alarms row sound moved).1
  | judges row =>
      simp only
      split
      · exact detecting.restart
      · rename_i inRange
        refine detecting.of_reader (Or.inl ⟨rfl, rfl⟩) ⟨sound, fun moved => ?_⟩
        exact inRange (detecting.alarms row sound moved).2
  | bounds row =>
      simp only
      split
      · exact detecting.of_reader (Or.inl ⟨rfl, rfl⟩) trivial
      · exact detecting.of_reader (Or.inl ⟨rfl, rfl⟩) ⟨sound, sound⟩
  | walks row walkRow =>
      simp only
      split
      · exact detecting.restart
      · exact detecting.of_reader (Or.inl ⟨rfl, rfl⟩) sound
  | follows row walkRow =>
      obtain ⟨here, walked⟩ := sound
      simp only
      split
      · rename_i moved
        exact absurd moved walked.2
      · split
        · rename_i next found
          obtain ⟨before, after, split, same⟩ := nextRow_split found
          have listed : next ∈ index.rows := by simp [split]
          have first := detecting.first
          change index.rows.Pairwise _ at first
          rw [split] at first
          have behind := (List.pairwise_cons.mp (List.pairwise_append.mp first).2.1).1 next (by simp)
          refine detecting.of_reader (Or.inl ⟨rfl, rfl⟩) ⟨here, listed, fun moved => ?_⟩
          exact behind moved same.symm
        · exact detecting.of_reader (Or.inl ⟨rfl, rfl⟩) here
  | leaves row =>
      simp only
      split
      · exact detecting.of_reader (Or.inl ⟨rfl, rfl⟩) trivial
      · split
        · rename_i moved
          exact absurd moved sound.2
        · refine detecting.of_reader (Or.inl ⟨rfl, rfl⟩) (atBucket_sound fun next found => ?_)
          exact List.mem_of_find?_eq_some found
  | complete => exact detecting
  | exceeded => exact detecting
  | misled => exact sound.elim

/-- A step of the master keeps what the tests need. -/
theorem Detecting.master_step (detecting : Detecting search scene) {step : MasterStep ρ κ}
    (detectable : Detectable search scene (.master step))
    : Detecting search (scene.step search (.master step)) := by
  cases step with
  | writeLock =>
      exact ⟨detecting.distinct, detecting.alarms, detecting.first, detecting.sound⟩
  | stamp row =>
      refine ⟨detecting.distinct, ?_, detecting.first, detecting.sound⟩
      intro other listed moved
      have alarms := detecting.alarms other listed moved
      refine ⟨?_, alarms.2⟩
      change changedSince _ (Function.update scene.index.rowCycle row scene.index.cycle other) = true
      by_cases same : other = row
      · subst same
        rw [Function.update_self]
        exact detectable moved listed
      · rw [Function.update_of_ne same]
        exact alarms.1
  | takeOut row =>
      by_cases listed : row ∈ scene.index.rows
      · have still (other : ρ) (member : other ∈ scene.index.rows.erase row)
            : other ≠ row ∧ other ∈ scene.index.rows :=
          detecting.distinct.mem_erase_iff.mp member
        have unmoved {other : ρ} (different : other ≠ row) (moved : other ∈ row :: scene.reader.moved)
            : other ∈ scene.reader.moved :=
          (List.mem_cons.mp moved).resolve_left different
        simp only [TestScene.step, if_pos listed, SharedIndex.step]
        refine ⟨detecting.distinct.erase row, ?_, ?_, ?_⟩
        · intro other member moved
          obtain ⟨different, member⟩ := still other member
          exact detecting.alarms other member (unmoved different moved)
        · refine (detecting.first.sublist List.erase_sublist).imp_of_mem ?_
          intro other moved here there apart member
          exact apart (unmoved (still moved there).1 member)
        · refine detecting.sound.imp ?_ ?_
          · intro other here member
            refine detecting.distinct.mem_erase_iff.mpr ⟨?_, member⟩
            rintro rfl
            exact detectable here
          · intro other here apart moved
            refine apart (unmoved ?_ moved)
            rintro rfl
            exact detectable here
      · simp only [TestScene.step, if_neg listed, SharedIndex.step,
          List.erase_of_not_mem listed]
        exact detecting
  | assign row value =>
      have same : ∀ other ∈ scene.index.rows,
          Function.update scene.index.value row value other = scene.index.value other := by
        intro other listed
        refine Function.update_of_ne ?_ ..
        rintro rfl
        exact detectable listed
      refine ⟨detecting.distinct, ?_, ?_, detecting.sound⟩
      · intro other listed moved
        have alarms := detecting.alarms other listed moved
        refine ⟨alarms.1, ?_⟩
        change searchRestartNeeded (Function.update scene.index.value row value other) _ = true
        rw [same other listed]
        exact alarms.2
      · refine detecting.first.imp_of_mem fun {other listed} here there apart moved => ?_
        change Function.update scene.index.value row value _
          ≠ Function.update scene.index.value row value _
        rw [same _ here, same _ there]
        exact apart moved
  | putIn row =>
      by_cases listed : row ∈ scene.index.rows
      · simp only [TestScene.step, SharedIndex.step, if_pos listed]
        exact detecting
      · obtain ⟨alarms, apart⟩ := detectable
        simp only [TestScene.step, SharedIndex.step, if_neg listed]
        refine ⟨?_, ?_, ?_, ?_⟩
        · exact (List.perm_orderedInsert _ row _).nodup_iff.mpr
            (List.nodup_cons.mpr ⟨listed, detecting.distinct⟩)
        · intro other member moved
          rcases (List.mem_orderedInsert _).mp member with rfl | member
          · exact alarms moved
          · exact detecting.alarms other member moved
        · have parts : scene.index.rows.takeWhile
                (fun other => ¬ scene.index.value row ≤ scene.index.value other)
              ++ scene.index.rows.dropWhile
                (fun other => ¬ scene.index.value row ≤ scene.index.value other)
              = scene.index.rows :=
            List.takeWhile_append_dropWhile
          have first := detecting.first
          rw [← parts] at first
          obtain ⟨earlier, later, across⟩ := List.pairwise_append.mp first
          simp only [List.orderedInsert_eq_take_drop]
          refine List.pairwise_append.mpr ⟨earlier, List.pairwise_cons.mpr ⟨?_, later⟩, ?_⟩
          · intro other member moved same
            exact apart other ((List.dropWhile_sublist _).mem member) moved same.symm
          · intro other member next behind
            rcases List.mem_cons.mp behind with rfl | behind
            · intro _ same
              have lower := List.mem_takeWhile_imp member
              simp [same] at lower
            · exact across other member next behind
        · refine detecting.sound.imp (fun other _ member => ?_) fun _ _ unmoved => unmoved
          exact (List.mem_orderedInsert _).mpr (Or.inr member)

/-- What the tests need holds behind a run, by induction on the events. -/
theorem Detecting.run (detecting : Detecting search scene) {events : List (TestEvent ρ κ)}
    (detectable : DetectableRun search scene events)
    : Detecting search (scene.run search events) := by
  induction events generalizing scene with
  | nil => exact detecting
  | cons event rest ih =>
      obtain ⟨here, later⟩ := detectable
      refine ih ?_ later
      cases event with
      | reader => exact detecting.search_step
      | master step => exact detecting.master_step here

/-- In every run whose steps are made for the tests of the reader, it follows no link of a row that
was moved since it sampled the cycle.
-/
theorem detectableRun_neverMisled (search : SharedSearch κ) (index : SharedIndex ρ κ)
    (distinct : index.rows.Nodup) (events : List (TestEvent ρ κ))
    (detectable : DetectableRun search { index := index, reader := .start } events)
    : (TestScene.run search { index := index, reader := .start } events).reader.phase
        ≠ .misled := by
  have start : Detecting search { index := index, reader := .start } := by
    refine ⟨distinct, nofun, ?_, trivial⟩
    exact List.pairwise_of_forall fun other row => nofun
  intro misled
  have sound := (start.run detectable).sound
  rw [misled] at sound
  exact sound

end Detecting

-----------------------------------------------------------------------------------------
-- Two runs
-----------------------------------------------------------------------------------------

/-- Two rows, 5 and 7, that are their own values, in cycle 3. -/
def twoRows : SharedIndex Nat Nat where
  cycle := 3
  rowCycle := fun _ => 1
  value := id
  rows := [5, 7]

/-- A search for the values from 5 on. -/
def fromFive : SharedSearch Nat where
  restart := { row1 := 5, row2 := 5, skipStart := .geRow1, skipEnd := .none }
  inList := none

/-- Row 7 is set to 1 while the search is at row 5. -/
def movedAhead : List (TestEvent Nat Nat) :=
  List.replicate 4 .reader ++ ((MoveCommand.set 7 1).steps false).map .master
    ++ List.replicate 4 .reader

theorem detectableRun_neverMisled_twoRows
    : (TestScene.run fromFive { index := twoRows, reader := .start } movedAhead).reader.phase
        ≠ .misled :=
  detectableRun_neverMisled fromFive twoRows (by decide) movedAhead (by decide)

/-- Row 5 is set to 1 while the search is at it: the loop test compares the row with itself, and the
search follows its links.
-/
theorem movedRow_misleads
    : twoRows.rows.Nodup
      ∧ (TestScene.run fromFive { index := twoRows, reader := .start }
          (List.replicate 4 .reader ++ ((MoveCommand.set 5 1).steps false).map .master
            ++ List.replicate 2 .reader)).reader.phase
          = .misled := by
  decide

end SpeedTables.Shared
