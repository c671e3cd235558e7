import Mathlib

/-! The garbage queue of a shared segment, its cycle counter and its readers, step by step. -/

namespace SpeedTables.Shared

-----------------------------------------------------------------------------------------
-- Cells
-----------------------------------------------------------------------------------------

/-- `cell_t`: 64 bits, unsigned. -/
abbrev Cell := BitVec 64

/-- The conversion of a cell to a C `int`. -/
def Cell.toInt32 (cell : Cell) : Int :=
  (cell.setWidth 32).toInt

/-- `LOST_HORIZON` -/
def lostHorizon : Cell := 0

/-- `TWILIGHT_ZONE` -/
def twilightZone : Nat := 64

/-- `LAZY_GC` -/
def lazyGc : Nat := 1000

-----------------------------------------------------------------------------------------
-- State
-----------------------------------------------------------------------------------------

/-- A process id. The id 0 marks a free reader slot. -/
abbrev Pid := Nat

/-- `reader_t` -/
structure ReaderSlot where
  pid : Pid
  cycle : Cell

/-- Where a reader stands in `read_lock` and `read_unlock`: `loaded` has read the cycle and
not yet stored it in its slot.
-/
inductive ReaderPhase where
  | idle
  | loaded (cycle : Cell)
  | holding (cycle : Cell)

/-- A reader process, with the slot it has found. -/
structure Reader where
  alive : Bool
  self : Option Nat
  phase : ReaderPhase

/-- `garbage_t` -/
structure Garbage where
  cycle : Cell
  memory : Nat
  deriving DecidableEq

/-- Where the master stands: between calls, in `oldest_reader_cycle` at a slot whose process it
may have found alive, or in `garbage_collect`.
-/
inductive MasterTask where
  | idle
  | scanning (index : Nat) (checked : Bool) (mapCycle newCycle : Cell) (oldestAge : Int)
  | collecting (horizon : Cell)

/-- A shared segment with its master and readers. `freed` lists the blocks returned to the
allocator.
-/
structure Segment where
  cycle : Cell
  slots : Nat → ReaderSlot
  readers : Pid → Reader
  garbage : List Garbage
  horizon : Cell
  strikes : Nat
  task : MasterTask
  freed : List Nat

/-- A new segment. -/
def Segment.new : Segment where
  cycle := lostHorizon
  slots := fun _ => { pid := 0, cycle := lostHorizon }
  readers := fun _ => { alive := true, self := none, phase := .idle }
  garbage := []
  horizon := lostHorizon
  strikes := 0
  task := .idle
  freed := []

-----------------------------------------------------------------------------------------
-- Steps
-----------------------------------------------------------------------------------------

/-- One step of the master or of a reader. `proceed` is the next step of a `write_unlock`. -/
inductive SegmentEvent where
  | attach (pid : Pid)
  | writeLock
  | shmfree (memory : Nat)
  | writeUnlock
  | proceed
  | load (pid : Pid)
  | store (pid : Pid)
  | unlock (pid : Pid)
  | die (pid : Pid)
  deriving DecidableEq

/-- `pid2reader` over the given number of slots. -/
def Segment.pid2reader (segment : Segment) (slots : Nat) (pid : Pid) : Option Nat :=
  (List.range slots).find? (fun index => (segment.slots index).pid = pid)

/-- `shmattachpid` -/
def Segment.attachPid (segment : Segment) (slots : Nat) (pid : Pid) : Segment :=
  if pid = 0 ∨ (segment.pid2reader slots pid).isSome then segment
  else
    match segment.pid2reader slots 0 with
    | some index =>
        { segment with
          slots := Function.update segment.slots index { pid := pid, cycle := lostHorizon } }
    | none => segment

/-- `write_lock`: the counter skips 0. -/
def nextCycle (cycle : Cell) : Cell :=
  if cycle + 1 = lostHorizon then cycle + 2 else cycle + 1

/-- `write_unlock` up to its scan of the readers, which only some calls make. -/
def Segment.beginUnlock (segment : Segment) : Segment :=
  if segment.strikes + 1 < lazyGc then { segment with strikes := segment.strikes + 1 }
  else
    { segment with
      strikes := 0
      task := .scanning 0 false segment.cycle lostHorizon 0 }

/-- The comparison of a slot's cycle with the oldest one so far. -/
def olderCycle (mapCycle newCycle : Cell) (oldestAge : Int) (slot : Cell) : Cell × Int :=
  let age := Cell.toInt32 (mapCycle - slot)
  if slot = lostHorizon then (newCycle, oldestAge)
  else if newCycle = lostHorizon ∨ oldestAge ≤ age then (slot, age)
  else (newCycle, oldestAge)

/-- The horizon below which `garbage_collect` frees. -/
def collectHorizon (horizon : Cell) : Cell :=
  if horizon = lostHorizon then horizon
  else if horizon - 64 = lostHorizon then horizon - 64 - 1
  else horizon - 64

/-- The end of `write_unlock` after the scan. -/
def Segment.decide (segment : Segment) (newCycle : Cell) : Segment :=
  let newHorizon := if newCycle = lostHorizon then segment.cycle else newCycle
  if (twilightZone : Int) < Cell.toInt32 (newHorizon - segment.horizon) then
    { segment with horizon := newHorizon, task := .collecting (collectHorizon newHorizon) }
  else { segment with task := .idle }

/-- Whether `garbage_collect` frees a block. -/
def collectable (horizon : Cell) (garbage : Garbage) : Prop :=
  horizon = lostHorizon ∨ garbage.cycle = lostHorizon ∨ 0 < Cell.toInt32 (horizon - garbage.cycle)

instance (horizon : Cell) (garbage : Garbage) : Decidable (collectable horizon garbage) :=
  inferInstanceAs (Decidable (_ ∨ _ ∨ _))

/-- The next step of the master in `write_unlock`: at a slot it first asks whether the process
is there, removing a dead one, and then reads the slot's cycle.
-/
def Segment.proceed (segment : Segment) (slots : Nat) : Option Segment :=
  match segment.task with
  | .idle => none
  | .scanning index checked mapCycle newCycle oldestAge =>
      if slots ≤ index then some (segment.decide newCycle)
      else
        let slot := segment.slots index
        if checked then
          let (newCycle, oldestAge) := olderCycle mapCycle newCycle oldestAge slot.cycle
          some { segment with task := .scanning (index + 1) false mapCycle newCycle oldestAge }
        else if slot.pid = 0 then
          some { segment with task := .scanning (index + 1) false mapCycle newCycle oldestAge }
        else if (segment.readers slot.pid).alive then
          some { segment with task := .scanning index true mapCycle newCycle oldestAge }
        else
          some { segment with
            slots := Function.update segment.slots index { pid := 0, cycle := lostHorizon }
            task := .scanning (index + 1) false mapCycle newCycle oldestAge }
  | .collecting horizon =>
      match segment.garbage with
      | [] => some { segment with task := .idle }
      | first :: rest =>
          if collectable horizon first then
            some { segment with garbage := rest, freed := first.memory :: segment.freed }
          else some { segment with task := .idle }

/-- Change the state of a reader. -/
def Segment.setReader (segment : Segment) (pid : Pid) (reader : Reader) : Segment :=
  { segment with readers := Function.update segment.readers pid reader }

/-- Store a cycle in a slot. -/
def Segment.setSlotCycle (segment : Segment) (index : Nat) (cycle : Cell) : Segment :=
  { segment with
    slots := Function.update segment.slots index { segment.slots index with cycle := cycle } }

/-- A reader loads the cycle in `read_lock`, once it has its slot. -/
def Segment.load (segment : Segment) (slots : Nat) (pid : Pid) : Segment :=
  let reader := segment.readers pid
  match reader.self.or (segment.pid2reader slots pid) with
  | some index =>
      segment.setReader pid { reader with self := some index, phase := .loaded segment.cycle }
  | none => segment

/-- One step, when it can happen: the master's calls follow each other, and a living reader
goes through load, store and unlock.
-/
def Segment.step (slots : Nat) (segment : Segment) : SegmentEvent → Option Segment
  | .attach pid =>
      match segment.task with
      | .idle => some (segment.attachPid slots pid)
      | _ => none
  | .writeLock =>
      match segment.task with
      | .idle => some { segment with cycle := nextCycle segment.cycle }
      | _ => none
  | .shmfree memory =>
      match segment.task with
      | .idle =>
          some { segment with
            garbage := segment.garbage ++ [{ cycle := segment.cycle, memory := memory }] }
      | _ => none
  | .writeUnlock =>
      match segment.task with
      | .idle => some segment.beginUnlock
      | _ => none
  | .proceed => segment.proceed slots
  | .load pid =>
      match segment.readers pid with
      | { alive := true, phase := .idle, .. } =>
          if pid = 0 then none else some (segment.load slots pid)
      | _ => none
  | .store pid =>
      match segment.readers pid with
      | { alive := true, self := some index, phase := .loaded cycle } =>
          some ((segment.setSlotCycle index cycle).setReader pid
            { alive := true, self := some index, phase := .holding cycle })
      | _ => none
  | .unlock pid =>
      match segment.readers pid with
      | { alive := true, self := some index, phase := .holding _ } =>
          some ((segment.setSlotCycle index lostHorizon).setReader pid
            { alive := true, self := some index, phase := .idle })
      | _ => none
  | .die pid => some (segment.setReader pid { segment.readers pid with alive := false })

-----------------------------------------------------------------------------------------
-- The assumptions on a run
-----------------------------------------------------------------------------------------

/-- The number of cycles since a cycle. -/
def Segment.since (segment : Segment) (cycle : Cell) : Nat :=
  (segment.cycle - cycle).toNat

/-- The cycle a reader has loaded and not yet given up. -/
def ReaderPhase.cycle : ReaderPhase → Option Cell
  | .idle => none
  | .loaded cycle => some cycle
  | .holding cycle => some cycle

/-- Fewer than the given number of cycles have passed since any living reader's load. -/
def Segment.Timely (bound : Nat) (segment : Segment) : Prop :=
  ∀ pid, (segment.readers pid).alive = true →
    ∀ cycle ∈ (segment.readers pid).phase.cycle, segment.since cycle < bound

/-- A step under the assumptions: readers are attached after the first advance of the cycle
counter, and no reader holds its lock for too many cycles.
-/
def Segment.Moves (slots bound : Nat) (event : SegmentEvent) (before after : Segment) : Prop :=
  before.step slots event = some after ∧ after.Timely bound
    ∧ ∀ pid, event = .attach pid → before.cycle ≠ lostHorizon

/-- A run under the assumptions, of steps other than an excluded one. -/
def Segment.Runs (slots bound : Nat) (excluded : SegmentEvent → Prop)
    : Segment → Segment → Prop :=
  Relation.ReflTransGen (fun before after =>
    ∃ event, ¬ excluded event ∧ Segment.Moves slots bound event before after)

end SpeedTables.Shared
