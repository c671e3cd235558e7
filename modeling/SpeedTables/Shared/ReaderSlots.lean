import Mathlib
import SpeedTables.Shared.Collector

/-! The reader slots of a share: who stands in them, from registration to unmapping or death. -/

namespace SpeedTables.Shared

-----------------------------------------------------------------------------------------
-- State
-----------------------------------------------------------------------------------------

/-- A process that has, or had, the pid: whether `kill` may not signal it, whether the master has
registered it, the slot it has found, where it stands in its lock, and the slot it is clearing while
it unmaps the share.
-/
structure SlotProcess where
  alive : Bool
  foreign : Bool
  registered : Bool
  self : Option Nat
  phase : ReaderPhase
  unmapping : Option Nat

/-- A pid without a process. -/
def SlotProcess.dead : SlotProcess where
  alive := false
  foreign := false
  registered := false
  self := none
  phase := .idle
  unmapping := none

/-- Where the master stands: between calls, in `shmattachpid` or in `oldest_reader_cycle` at a slot,
and there behind its write of the pid, with the cycle still to be written.
-/
inductive SlotTask where
  | idle
  | claiming (index : Nat)
  | scanning (index : Nat)
  | reaping (index : Nat)

/-- The reader table of a share with its processes. -/
structure SlotTable where
  cycle : Cell
  slots : Nat → ReaderSlot
  processes : Pid → SlotProcess
  task : SlotTask

/-- A new share, before any process. -/
def SlotTable.new : SlotTable where
  cycle := lostHorizon
  slots := fun _ => { pid := 0, cycle := lostHorizon }
  processes := fun _ => .dead
  task := .idle

-----------------------------------------------------------------------------------------
-- Steps
-----------------------------------------------------------------------------------------

/-- One write of the master or of a process. `proceed` is the master's next step in the call it is
in; `clear` is the second write of an unmapping.
-/
inductive SlotEvent where
  | spawn (pid : Pid) (foreign : Bool)
  | die (pid : Pid)
  | attach (pid : Pid)
  | writeLock
  | writeUnlock
  | proceed
  | load (pid : Pid)
  | store (pid : Pid)
  | unlock (pid : Pid)
  | unmap (pid : Pid)
  | clear (pid : Pid)

namespace SlotTable

/-- `pid2reader` over the given number of slots. -/
def pid2reader (table : SlotTable) (count : Nat) (pid : Pid) : Option Nat :=
  (List.range count).find? (fun index => (table.slots index).pid = pid)

def setPid (table : SlotTable) (index : Nat) (pid : Pid) : SlotTable :=
  { table with
    slots := Function.update table.slots index { table.slots index with pid := pid } }

def setCycle (table : SlotTable) (index : Nat) (cycle : Cell) : SlotTable :=
  { table with
    slots := Function.update table.slots index { table.slots index with cycle := cycle } }

def setProcess (table : SlotTable) (pid : Pid) (process : SlotProcess) : SlotTable :=
  { table with processes := Function.update table.processes pid process }

/-- `kill(pid, 0) == -1`: there is no such process, or it may not be signalled. -/
def killFails (table : SlotTable) (pid : Pid) : Bool :=
  !(table.processes pid).alive || (table.processes pid).foreign

/-- A process that lives is registered once its pid has been written, or found. -/
def register (table : SlotTable) (pid : Pid) : SlotTable :=
  table.setProcess pid
    { table.processes pid with registered := (table.processes pid).alive }

/-- `shmattachpid` up to its write of the cycle. -/
def attachPid (table : SlotTable) (count : Nat) (pid : Pid) : SlotTable :=
  if pid = 0 then table
  else if (table.pid2reader count pid).isSome then table.register pid
  else
    match table.pid2reader count 0 with
    | some index => { (table.setPid index pid).register pid with task := .claiming index }
    | none => table

/-- The next step of the master in `shmattachpid` or `oldest_reader_cycle`. A slot whose process
cannot be signalled is taken for one of a dead process.
-/
def proceed (table : SlotTable) (count : Nat) : SlotTable :=
  match table.task with
  | .idle => table
  | .claiming index => { table.setCycle index lostHorizon with task := .idle }
  | .scanning index =>
      if count ≤ index then { table with task := .idle }
      else if (table.slots index).pid = 0 then { table with task := .scanning (index + 1) }
      else if table.killFails (table.slots index).pid then
        { table.setPid index 0 with task := .reaping index }
      else { table with task := .scanning (index + 1) }
  | .reaping index =>
      { table.setCycle index lostHorizon with task := .scanning (index + 1) }

/-- The load of `read_lock`, once the slot has been found. -/
def load (table : SlotTable) (count : Nat) (pid : Pid) : SlotTable :=
  let process := table.processes pid
  match process.self.or (table.pid2reader count pid) with
  | some index =>
      table.setProcess pid { process with self := some index, phase := .loaded table.cycle }
  | none => table

/-- `unmap_file` of the last attachment, up to its write of the cycle. -/
def unmap (table : SlotTable) (count : Nat) (pid : Pid) : SlotTable :=
  let process := { table.processes pid with self := none, phase := .idle, registered := false }
  match table.pid2reader count pid with
  | some index =>
      (table.setPid index 0).setProcess pid { process with unmapping := some index }
  | none => table.setProcess pid process

/-- One step. What cannot happen changes nothing: the master's calls follow each other, and a living
process goes through load, store and unlock, and does nothing else while it unmaps.
-/
def step (count : Nat) (table : SlotTable) : SlotEvent → SlotTable
  | .spawn pid foreign =>
      if pid = 0 ∨ (table.processes pid).alive then table
      else table.setProcess pid { SlotProcess.dead with alive := true, foreign := foreign }
  | .die pid => table.setProcess pid .dead
  | .attach pid =>
      match table.task with
      | .idle => table.attachPid count pid
      | _ => table
  | .writeLock =>
      match table.task with
      | .idle => { table with cycle := nextCycle table.cycle }
      | _ => table
  | .writeUnlock =>
      match table.task with
      | .idle => { table with task := .scanning 0 }
      | _ => table
  | .proceed => table.proceed count
  | .load pid =>
      match table.processes pid with
      | { alive := true, phase := .idle, unmapping := none, .. } => table.load count pid
      | _ => table
  | .store pid =>
      match table.processes pid with
      | { alive := true, self := some index, phase := .loaded cycle, .. } =>
          (table.setCycle index cycle).setProcess pid
            { table.processes pid with phase := .holding cycle }
      | _ => table
  | .unlock pid =>
      match table.processes pid with
      | { alive := true, self := some index, phase := .holding _, .. } =>
          (table.setCycle index lostHorizon).setProcess pid
            { table.processes pid with phase := .idle }
      | _ => table
  | .unmap pid =>
      match table.processes pid with
      | { alive := true, unmapping := none, .. } => table.unmap count pid
      | _ => table
  | .clear pid =>
      match table.processes pid with
      | { alive := true, unmapping := some index, .. } =>
          (table.setCycle index lostHorizon).setProcess pid
            { table.processes pid with unmapping := none }
      | _ => table

def run (count : Nat) (table : SlotTable) (events : List SlotEvent) : SlotTable :=
  events.foldl (step count) table

-----------------------------------------------------------------------------------------
-- What is to hold
-----------------------------------------------------------------------------------------

/-- A live process holds a slot that its pid stands in or that it has found. -/
def Holds (table : SlotTable) (pid : Pid) (index : Nat) : Prop :=
  (table.processes pid).alive = true
    ∧ ((table.slots index).pid = pid ∨ (table.processes pid).self = some index)

/-- A registered reader that lives has one slot, which is the one it has found, no slot is held by
two live processes, and a lock that is held stands in a slot that `oldest_reader_cycle` looks at.
-/
structure Owned (count : Nat) (table : SlotTable) : Prop where
  stands : ∀ pid, (table.processes pid).alive = true → (table.processes pid).registered = true →
    ∃ index < count, (table.slots index).pid = pid
      ∧ (∀ other < count, (table.slots other).pid = pid → other = index)
      ∧ ∀ found ∈ (table.processes pid).self, found = index
  apart : ∀ index < count, ∀ first second, table.Holds first index → table.Holds second index →
    first = second
  visible : ∀ pid cycle, (table.processes pid).alive = true →
    (table.processes pid).phase = .holding cycle →
      ∃ index < count, (table.slots index).pid ≠ 0 ∧ (table.processes pid).self = some index
        ∧ (table.slots index).cycle = cycle ∧ cycle ≠ lostHorizon

/-- The master does not reap the slot of a live process, which `kill` fails for if that belongs to
another user; when a registration or an unmapping comes to write the cycle of its slot, no live
process has stored a lock there since; and no lock is taken before the first `write_lock`.
-/
def Spares (table : SlotTable) : SlotEvent → Prop
  | .proceed =>
      match table.task with
      | .scanning index => (table.processes (table.slots index).pid).alive = true →
          (table.processes (table.slots index).pid).foreign = false
      | .claiming index => ∀ pid cycle, (table.processes pid).alive = true →
          (table.processes pid).self = some index → (table.processes pid).phase ≠ .holding cycle
      | _ => True
  | .clear pid => ∀ index ∈ (table.processes pid).unmapping,
      ∀ other cycle, (table.processes other).alive = true →
        (table.processes other).self = some index → (table.processes other).phase ≠ .holding cycle
  | .load _ => table.cycle ≠ lostHorizon
  | _ => True

/-- Every step of a run meets a condition. -/
def Along (count : Nat) (meets : SlotTable → SlotEvent → Prop) : SlotTable → List SlotEvent → Prop
  | _, [] => True
  | table, event :: rest => meets table event ∧ (table.step count event).Along count meets rest

-----------------------------------------------------------------------------------------
-- The invariant
-----------------------------------------------------------------------------------------

variable {count : Nat} {table : SlotTable} {pid : Pid}

/-- What every step keeps: a pid stands in one slot at most, a slot that a live process has found or
is registered for has its pid, and a held lock is in the slot's cycle.
-/
structure Kept (count : Nat) (table : SlotTable) : Prop where
  zero : (table.processes 0).alive = false
  distinct : ∀ first < count, ∀ second < count, (table.slots first).pid = (table.slots second).pid →
    (table.slots first).pid ≠ 0 → first = second
  registered : ∀ pid, (table.processes pid).alive = true →
    (table.processes pid).registered = true → ∃ index < count, (table.slots index).pid = pid
  found : ∀ pid, (table.processes pid).alive = true → ∀ index ∈ (table.processes pid).self,
    index < count ∧ (table.slots index).pid = pid
  loaded : ∀ pid cycle, (table.processes pid).phase = .loaded cycle → cycle ≠ lostHorizon
  held : ∀ pid cycle, (table.processes pid).alive = true →
    (table.processes pid).phase = .holding cycle → cycle ≠ lostHorizon
      ∧ ∃ index, (table.processes pid).self = some index ∧ (table.slots index).cycle = cycle
  reaped : ∀ index, table.task = .reaping index → (table.slots index).pid = 0

theorem pid2reader_some {index : Nat} (found : table.pid2reader count pid = some index)
    : index < count ∧ (table.slots index).pid = pid :=
  ⟨List.mem_range.mp (List.mem_of_find?_eq_some found), by simpa using List.find?_some found⟩

theorem pid2reader_none (absent : table.pid2reader count pid = none)
    : ∀ index < count, (table.slots index).pid ≠ pid := by
  intro index inside
  simpa using List.find?_eq_none.mp absent index (List.mem_range.mpr inside)

theorem Kept.alive_ne_zero (kept : table.Kept count) (alive : (table.processes pid).alive = true)
    : pid ≠ 0 := by
  intro zero
  rw [zero, kept.zero] at alive
  cases alive

/-- The property follows from what is kept. -/
theorem Kept.owned (kept : table.Kept count) : table.Owned count where
  stands := by
    intro pid alive registered
    obtain ⟨index, inside, stands⟩ := kept.registered pid alive registered
    have nonzero := kept.alive_ne_zero alive
    have only : ∀ other < count, (table.slots other).pid = pid → other = index :=
      fun other within same => kept.distinct other within index inside (same.trans stands.symm)
        (same ▸ nonzero)
    refine ⟨index, inside, stands, only, fun found self => ?_⟩
    obtain ⟨within, same⟩ := kept.found pid alive found self
    exact only found within same
  apart := by
    have pids {pid : Pid} {index : Nat} (holds : table.Holds pid index)
        : (table.slots index).pid = pid := by
      rcases holds.2 with stands | self
      · exact stands
      · exact (kept.found pid holds.1 index self).2
    exact fun index _ first second one other => (pids one).symm.trans (pids other)
  visible := by
    intro pid cycle alive holds
    obtain ⟨nonzero, index, self, stored⟩ := kept.held pid cycle alive holds
    obtain ⟨inside, stands⟩ := kept.found pid alive index self
    exact ⟨index, inside, stands ▸ kept.alive_ne_zero alive, self, stored, nonzero⟩

theorem new_kept (count : Nat) : SlotTable.new.Kept count where
  zero := rfl
  distinct := fun _ _ _ _ _ nonzero => absurd rfl nonzero
  registered := nofun
  found := nofun
  loaded := nofun
  held := nofun
  reaped := nofun

-----------------------------------------------------------------------------------------
-- Writes
-----------------------------------------------------------------------------------------

/-- What a process may say of itself: what it has found and holds agrees with the slots. -/
structure Agrees (count : Nat) (table : SlotTable) (pid : Pid) (process : SlotProcess) : Prop where
  zero : pid = 0 → process.alive = false
  registered : process.alive = true → process.registered = true →
    ∃ index < count, (table.slots index).pid = pid
  found : process.alive = true → ∀ index ∈ process.self,
    index < count ∧ (table.slots index).pid = pid
  loaded : ∀ cycle, process.phase = .loaded cycle → cycle ≠ lostHorizon
  held : ∀ cycle, process.alive = true → process.phase = .holding cycle → cycle ≠ lostHorizon
    ∧ ∃ index, process.self = some index ∧ (table.slots index).cycle = cycle

theorem Kept.agrees (kept : table.Kept count) (pid : Pid)
    : table.Agrees count pid (table.processes pid) where
  zero := fun zero => zero ▸ kept.zero
  registered := kept.registered pid
  found := kept.found pid
  loaded := kept.loaded pid
  held := kept.held pid

theorem Agrees.of_slots {other : SlotTable} {process : SlotProcess}
    (agrees : table.Agrees count pid process) (same : other.slots = table.slots)
    : other.Agrees count pid process where
  zero := agrees.zero
  registered := by simpa only [same] using agrees.registered
  found := by simpa only [same] using agrees.found
  loaded := agrees.loaded
  held := by simpa only [same] using agrees.held

theorem Agrees.dead (count : Nat) (table : SlotTable) (pid : Pid)
    : table.Agrees count pid .dead where
  zero := fun _ => rfl
  registered := nofun
  found := nofun
  loaded := nofun
  held := nofun

/-- The state of a process changes. -/
theorem Kept.setProcess {process : SlotProcess} (kept : table.Kept count)
    (agrees : table.Agrees count pid process)
    : (table.setProcess pid process).Kept count := by
  have all (other : Pid)
      : table.Agrees count other ((table.setProcess pid process).processes other) := by
    by_cases this : other = pid
    · simpa [SlotTable.setProcess, this] using agrees
    · simpa [SlotTable.setProcess, Function.update, this] using kept.agrees other
  exact {
    zero := (all 0).zero rfl
    distinct := kept.distinct
    registered := fun other => (all other).registered
    found := fun other => (all other).found
    loaded := fun other => (all other).loaded
    held := fun other => (all other).held
    reaped := kept.reaped }

/-- The master goes on to another task. -/
theorem Kept.setTask {task : SlotTask} (kept : table.Kept count)
    (reaped : ∀ index, task = .reaping index → (table.slots index).pid = 0)
    : ({ table with task := task } : SlotTable).Kept count :=
  { kept with reaped := reaped }

@[simp]
theorem setCycle_processes (table : SlotTable) (index : Nat) (cycle : Cell)
    : (table.setCycle index cycle).processes = table.processes :=
  rfl

@[simp]
theorem setCycle_task (table : SlotTable) (index : Nat) (cycle : Cell)
    : (table.setCycle index cycle).task = table.task :=
  rfl

@[simp]
theorem setPid_processes (table : SlotTable) (index : Nat) (pid : Pid)
    : (table.setPid index pid).processes = table.processes :=
  rfl

@[simp]
theorem setCycle_pid (table : SlotTable) (index : Nat) (cycle : Cell) (other : Nat)
    : ((table.setCycle index cycle).slots other).pid = (table.slots other).pid := by
  by_cases this : other = index <;> simp [setCycle, Function.update, this]

@[simp]
theorem setPid_cycle (table : SlotTable) (index : Nat) (pid : Pid) (other : Nat)
    : ((table.setPid index pid).slots other).cycle = (table.slots other).cycle := by
  by_cases this : other = index <;> simp [setPid, Function.update, this]

theorem setPid_pid (table : SlotTable) (index : Nat) (pid : Pid) (other : Nat)
    : ((table.setPid index pid).slots other).pid
      = if other = index then pid else (table.slots other).pid := by
  by_cases this : other = index <;> simp [setPid, Function.update, this]

/-- The cycle of a slot changes, in which no live process holds a lock. -/
theorem Kept.setCycle {index : Nat} (kept : table.Kept count) (cycle : Cell)
    (free : ∀ pid held, (table.processes pid).alive = true →
      (table.processes pid).self = some index → (table.processes pid).phase ≠ .holding held)
    : (table.setCycle index cycle).Kept count where
  zero := kept.zero
  distinct := by simpa using kept.distinct
  registered := by simpa using kept.registered
  found := by simpa using kept.found
  loaded := kept.loaded
  held := by
    intro pid held alive holds
    obtain ⟨nonzero, slot, self, stored⟩ := kept.held pid held alive holds
    have other : slot ≠ index := fun same => free pid held alive (same ▸ self) holds
    exact ⟨nonzero, slot, self, by simpa [SlotTable.setCycle, Function.update, other] using stored⟩
  reaped := by simpa using kept.reaped

/-- The pid of a slot changes, which no live process is registered for or has found, to none or to
one that stands nowhere.
-/
theorem Kept.setPid {index : Nat} {pid : Pid} (kept : table.Kept count)
    (absent : pid = 0 ∨ ((∀ other < count, (table.slots other).pid ≠ pid)
      ∧ ∀ other, table.task ≠ .reaping other))
    (free : ∀ owner, (table.processes owner).alive = true → (table.slots index).pid = owner →
      (table.processes owner).registered = false ∧ (table.processes owner).self = none)
    : (table.setPid index pid).Kept count where
  zero := kept.zero
  distinct := by
    intro first inside second within
    simp only [setPid_pid]
    have only := kept.distinct first inside second within
    split <;> split <;> grind
  registered := by
    intro owner alive registered
    obtain ⟨slot, inside, stands⟩ := kept.registered owner alive registered
    refine ⟨slot, inside, ?_⟩
    have other : slot ≠ index := by
      intro same
      have unregistered := (free owner alive (same ▸ stands)).1
      exact absurd (registered.symm.trans unregistered) (by simp)
    rw [setPid_pid, if_neg other, stands]
  found := by
    intro owner alive slot self
    obtain ⟨inside, stands⟩ := kept.found owner alive slot self
    refine ⟨inside, ?_⟩
    have other : slot ≠ index := by
      intro same
      have none := (free owner alive (same ▸ stands)).2
      exact absurd ((show _ = some slot from self).symm.trans none) (by simp)
    rw [setPid_pid, if_neg other, stands]
  loaded := kept.loaded
  held := by
    intro owner cycle alive holds
    simpa using kept.held owner cycle alive holds
  reaped := by
    intro slot task
    rw [setPid_pid]
    split
    · exact absent.elim id (fun absent => absurd task (absent.2 slot))
    · exact kept.reaped slot task

-----------------------------------------------------------------------------------------
-- One step
-----------------------------------------------------------------------------------------

theorem Kept.register (kept : table.Kept count) (stands : ∃ index < count,
    (table.slots index).pid = pid)
    : (table.register pid).Kept count :=
  kept.setProcess { kept.agrees pid with registered := fun _ _ => stands }

theorem Kept.attachPid (kept : table.Kept count) (idle : table.task = .idle)
    : (table.attachPid count pid).Kept count := by
  unfold SlotTable.attachPid
  split
  case isTrue => exact kept
  case isFalse nonzero =>
    split
    case isTrue found =>
      obtain ⟨index, found⟩ := Option.isSome_iff_exists.mp found
      exact kept.register ⟨index, pid2reader_some found⟩
    case isFalse absent =>
      split
      case h_2 => exact kept
      case h_1 index empty =>
        obtain ⟨inside, unused⟩ := pid2reader_some empty
        have nowhere := pid2reader_none (Option.not_isSome_iff_eq_none.mp absent)
        have written : (table.setPid index pid).Kept count := by
          refine kept.setPid (.inr ⟨nowhere, fun other => by simp [idle]⟩) ?_
          intro owner alive same
          exact absurd (same.symm.trans unused) (kept.alive_ne_zero alive)
        have stands : ((table.setPid index pid).slots index).pid = pid := by
          rw [setPid_pid, if_pos rfl]
        exact (written.register ⟨index, inside, stands⟩).setTask nofun

theorem Kept.proceed (kept : table.Kept count) (spares : table.Spares .proceed)
    : (table.proceed count).Kept count := by
  unfold SlotTable.proceed
  cases task : table.task with
  | idle => exact kept
  | claiming index =>
      simp only [SlotTable.Spares, task] at spares
      exact (kept.setCycle lostHorizon spares).setTask nofun
  | reaping index =>
      refine (kept.setCycle lostHorizon ?_).setTask nofun
      intro pid held alive self
      have stands := (kept.found pid alive index self).2
      rw [kept.reaped index task] at stands
      exact absurd stands.symm (kept.alive_ne_zero alive)
  | scanning index =>
      simp only [SlotTable.Spares, task] at spares
      dsimp only
      split
      case isTrue => exact kept.setTask nofun
      split
      case isTrue => exact kept.setTask nofun
      split
      case isFalse => exact kept.setTask nofun
      case isTrue fails =>
        have dead : (table.processes (table.slots index).pid).alive = false := by
          simp only [killFails, Bool.or_eq_true, Bool.not_eq_true'] at fails
          grind
        have cleared : (table.setPid index 0).Kept count := by
          refine kept.setPid (.inl rfl) ?_
          intro owner alive same
          rw [same, alive] at dead
          cases dead
        refine cleared.setTask ?_
        intro other same
        cases same
        rw [setPid_pid, if_pos rfl]

theorem Kept.load (kept : table.Kept count) (begun : table.cycle ≠ lostHorizon)
    : (table.load count pid).Kept count := by
  simp only [SlotTable.load]
  split
  case h_2 => exact kept
  case h_1 index located =>
    refine kept.setProcess { kept.agrees pid with found := ?_, loaded := ?_, held := nofun }
    · intro alive found same
      cases same
      cases self : (table.processes pid).self with
      | some known =>
          rw [self] at located
          cases located
          exact kept.found pid alive index self
      | none =>
          rw [self] at located
          exact pid2reader_some located
    · intro cycle same
      cases same
      exact begun

/-- A process writes the cycle of the slot that it has found, and no other process has found it. -/
theorem Kept.writeOwn {index : Nat} {process : SlotProcess} (cycle : Cell) (kept : table.Kept count)
    (alive : (table.processes pid).alive = true) (self : (table.processes pid).self = some index)
    (agrees : (table.setCycle index cycle).Agrees count pid process)
    : ((table.setCycle index cycle).setProcess pid process).Kept count := by
  have quiet := kept.setProcess
    (show table.Agrees count pid { table.processes pid with phase := .idle } from
      { kept.agrees pid with loaded := nofun, held := nofun })
  have written := @Kept.setCycle count _ index quiet cycle (by
    intro owner held ownerAlive ownerSelf
    by_cases same : owner = pid
    · simp [SlotTable.setProcess, same]
    · simp only [SlotTable.setProcess, Function.update_of_ne same] at ownerAlive ownerSelf
      have stands := (kept.found owner ownerAlive index ownerSelf).2
      exact absurd (stands.symm.trans (kept.found pid alive index self).2) same)
  have final := written.setProcess (agrees.of_slots rfl)
  simpa [SlotTable.setProcess, SlotTable.setCycle] using final

theorem Kept.unmap (kept : table.Kept count) (alive : (table.processes pid).alive = true)
    : (table.unmap count pid).Kept count := by
  have left (unmapping : Option Nat) : table.Agrees count pid { table.processes pid with
      self := none, phase := .idle, registered := false, unmapping := unmapping } :=
    { zero := fun zero => absurd zero (kept.alive_ne_zero alive)
      registered := nofun
      found := nofun
      loaded := nofun
      held := nofun }
  simp only [SlotTable.unmap]
  split
  case h_2 => exact kept.setProcess (left _)
  case h_1 index located =>
    refine @Kept.setPid count _ index 0 (kept.setProcess (left (some index))) (.inl rfl) ?_
    intro owner ownerAlive same
    have owns : owner = pid := same.symm.trans (pid2reader_some located).2
    subst owns
    simp [SlotTable.setProcess]

theorem Kept.step (kept : table.Kept count) (event : SlotEvent) (spares : table.Spares event)
    : (table.step count event).Kept count := by
  cases event with
  | spawn pid foreign =>
      simp only [SlotTable.step]
      split
      case isTrue => exact kept
      case isFalse fresh =>
        refine kept.setProcess { Agrees.dead count table pid with
          zero := fun zero => absurd (.inl zero) fresh
          registered := nofun
          found := nofun
          held := nofun }
  | die pid => exact kept.setProcess (.dead count table pid)
  | attach pid =>
      simp only [SlotTable.step]
      split
      case h_1 idle => exact kept.attachPid idle
      case h_2 => exact kept
  | writeLock =>
      simp only [SlotTable.step]
      split
      case h_1 => exact { kept with }
      case h_2 => exact kept
  | writeUnlock =>
      simp only [SlotTable.step]
      split
      case h_1 => exact kept.setTask nofun
      case h_2 => exact kept
  | proceed => exact kept.proceed spares
  | load pid =>
      simp only [SlotTable.step]
      split
      case h_1 => exact kept.load spares
      case h_2 => exact kept
  | store pid =>
      simp only [SlotTable.step]
      split
      case h_2 => exact kept
      case h_1 index cycle unmapping process =>
        have self : (table.processes pid).self = some index := by rw [process]
        have nonzero := kept.loaded pid cycle (by rw [process])
        have agrees := kept.agrees pid
        refine kept.writeOwn cycle (by rw [process]) self { agrees with
          registered := by simpa using agrees.registered
          found := by simpa using agrees.found
          loaded := nofun
          held := ?_ }
        intro stored _ same
        cases same
        exact ⟨nonzero, index, self, by simp [SlotTable.setCycle]⟩
  | unlock pid =>
      simp only [SlotTable.step]
      split
      case h_2 => exact kept
      case h_1 index cycle unmapping process =>
        have agrees := kept.agrees pid
        exact kept.writeOwn lostHorizon (by rw [process]) (by rw [process]) { agrees with
          registered := by simpa using agrees.registered
          found := by simpa using agrees.found
          loaded := nofun
          held := nofun }
  | unmap pid =>
      simp only [SlotTable.step]
      split
      case h_1 process => exact kept.unmap (by rw [process])
      case h_2 => exact kept
  | clear pid =>
      simp only [SlotTable.step]
      split
      case h_2 => exact kept
      case h_1 index process =>
        have free := spares index (by rw [process]; rfl)
        have cleared := kept.setCycle lostHorizon free
        exact cleared.setProcess { cleared.agrees pid with }

-----------------------------------------------------------------------------------------
-- Runs
-----------------------------------------------------------------------------------------

theorem run_kept {events : List SlotEvent} (kept : table.Kept count)
    (along : table.Along count Spares events)
    : (table.run count events).Kept count := by
  induction events generalizing table with
  | nil => exact kept
  | cons event rest ih => exact ih (kept.step event along.1) along.2

/-- In every run that spares the slots of live processes, the registered readers that live own their
slots.
-/
theorem run_owned (count : Nat) (events : List SlotEvent)
    (along : SlotTable.new.Along count Spares events)
    : (SlotTable.new.run count events).Owned count :=
  (run_kept (new_kept count) along).owned

/-- A reader of the master's own user keeps its slot over a lock and a scan. -/
theorem run_owned_sameUser
    : (SlotTable.new.run 2 [.spawn 7 false, .attach 7, .proceed, .writeLock, .load 7, .store 7,
        .writeUnlock, .proceed]).Owned 2 :=
  run_owned 2 _ (by
    refine ⟨trivial, trivial, ?_, trivial, ?_, trivial, trivial, ?_, trivial⟩
    · intro pid cycle _ self
      have unfound : ∀ pid, ((((SlotTable.new.step 2 (.spawn 7 false)).step 2
          (.attach 7)).processes pid).self = none) := by
        intro pid
        by_cases same : pid = 7
        · rw [same]
          rfl
        · show (Function.update (Function.update SlotTable.new.processes 7 _) 7 _ pid).self = none
          rw [Function.update_of_ne same, Function.update_of_ne same]
          rfl
      cases (unfound pid).symm.trans self
    · show nextCycle lostHorizon ≠ lostHorizon
      decide
    · intro _
      rfl)

/-- The slot of a live reader of another user is taken away under its lock. -/
theorem otherUser_reaped
    : ¬ (SlotTable.new.run 2 [.spawn 7 true, .attach 7, .proceed, .writeLock, .load 7, .store 7,
        .writeUnlock, .proceed]).Owned 2 := by
  intro owned
  obtain ⟨index, inside, stands, -⟩ := owned.stands 7 rfl rfl
  interval_cases index <;> cases stands

end SlotTable

end SpeedTables.Shared
