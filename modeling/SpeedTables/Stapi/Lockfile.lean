import Mathlib

/-! The lock files of stapi: processes that lock and unlock names by creating and deleting files. -/

namespace SpeedTables.Stapi

-----------------------------------------------------------------------------------------
-- The state
-----------------------------------------------------------------------------------------

/-- The name given to `lockfile`, and a file name. -/
abbrev Name := List Char

/-- A process id. -/
abbrev Pid := Nat

/-- The file that locks a name: `$name.lock`. -/
def lockFile (name : Name) : Name :=
  name ++ ['.', 'l', 'o', 'c', 'k']

/-- A lock file: the process that created it, and whether it has written its id into it. -/
structure LockFile where
  creator : Pid
  recorded : Bool
  deriving DecidableEq, Repr

/-- A plain call of `lockfile`: its name, and the tries it has left. -/
structure LockCall where
  name : Name
  retries : Nat
  deriving DecidableEq, Repr

/-- What a call of `lockfile` with `recursing` set is made for: by the script, or by a plain call
to create the lock file of its name, or to check it for a stale lock.
-/
inductive Purpose where
  | script
  | create (call : LockCall)
  | check (call : LockCall)
  deriving DecidableEq, Repr

/-- How a plain call's creation of its lock file went. `refused` is any error but `EEXIST`. -/
inductive Creation where
  | made
  | exists
  | refused
  deriving DecidableEq, Repr

/-- Where a process is, named by the file-system operation it makes next. -/
inductive Control where
  | script
  | createRecursing (name : Name) (purpose : Purpose) (retries : Nat)
  | recordRecursing (name : Name) (purpose : Purpose)
  | create (call : LockCall)
  | record (call : LockCall)
  | release (call : LockCall) (creation : Creation)
  | stat (call : LockCall)
  | read (call : LockCall)
  | judge (call : LockCall) (pid : Pid)
  | delete (call : LockCall)
  | retry (call : LockCall)
  | dead
  deriving DecidableEq, Repr

/-- The lock files, and of each process its `lock_level` and `locking` variables. -/
structure LockState where
  files : Name → Option LockFile
  level : Pid → Name → Nat
  locking : Pid → Bool
  control : Pid → Control

/-- Nothing is locked, and every process runs its script. -/
def LockState.initial : LockState where
  files := fun _ => none
  level := fun _ _ => 0
  locking := fun _ => false
  control := fun _ => .script

-----------------------------------------------------------------------------------------
-- Operations
-----------------------------------------------------------------------------------------

def LockState.goTo (state : LockState) (pid : Pid) (control : Control) : LockState :=
  { state with control := Function.update state.control pid control }

def LockState.setLocking (state : LockState) (pid : Pid) (locking : Bool) : LockState :=
  { state with locking := Function.update state.locking pid locking }

def LockState.setLevel (state : LockState) (pid : Pid) (name : Name) (level : Nat) : LockState :=
  { state with
    level := Function.update state.level pid (Function.update (state.level pid) name level) }

def LockState.setFile (state : LockState) (file : Name) (contents : Option LockFile)
    : LockState :=
  { state with files := Function.update state.files file contents }

/-- Write the own process id into a file that this process has just created. -/
def LockState.writePid (state : LockState) (pid : Pid) (file : Name) : LockState :=
  match state.files file with
  | some contents =>
      if contents.creator = pid then state.setFile file (some { contents with recorded := true })
      else state
  | none => state

/-- `sleep_time`, in milliseconds. -/
def sleepTime (pid : Pid) : Nat :=
  4500 + pid % 1000

/-- The number of tries in a time of so many seconds. -/
def tries (pid : Pid) (timeout : Nat) : Nat :=
  timeout * 10000 / sleepTime pid

/-- Where a process goes with a lock that it took with `recursing` set. -/
def Purpose.locked : Purpose → Control
  | .script => .script
  | .create call => .create call
  | .check call => .stat call

/-- `lockfile` with `recursing` set, up to its first operation. -/
def LockState.lockRecursing (state : LockState) (pid : Pid) (name : Name) (purpose : Purpose)
    (timeout : Nat) : LockState :=
  if 0 < state.level pid name then
    (state.setLevel pid name (state.level pid name + 1)).goTo pid purpose.locked
  else
    state.goTo pid (.createRecursing name purpose (tries pid timeout))

/-- A lock with `recursing` set could not be taken. To create a lock file, the call goes on as if
the file existed, and to check one, it ends with an error.
-/
def LockState.notLocked (state : LockState) (pid : Pid) : Purpose → LockState
  | .script => state.goTo pid .script
  | .create call => state.lockRecursing pid (lockFile call.name) (.check call) 20
  | .check _ => state.goTo pid .script

/-- `unlockfile`, which has an effect on a locked name only. -/
def LockState.unlock (state : LockState) (pid : Pid) (name : Name) : LockState :=
  match state.level pid name with
  | 0 => state
  | 1 => (state.setLevel pid name 0).setFile (lockFile name) none
  | level + 2 => state.setLevel pid name (level + 1)

/-- The head of the loop of a plain call. -/
def LockState.loop (state : LockState) (pid : Pid) (call : LockCall) : LockState :=
  if call.retries = 0 then (state.setLocking pid false).goTo pid .script
  else state.lockRecursing pid (lockFile call.name) (.create call) 20

/-- `lockfile` without `recursing`, up to its first operation. -/
def LockState.lock (state : LockState) (pid : Pid) (name : Name) (timeout : Nat) : LockState :=
  if 0 < state.level pid name then state.setLevel pid name (state.level pid name + 1)
  else if state.locking pid then state
  else (state.setLocking pid true).loop pid { name := name, retries := tries pid timeout }

-----------------------------------------------------------------------------------------
-- Steps
-----------------------------------------------------------------------------------------

/-- What a process does: its script calls `lockfile` or `unlockfile`, the call goes on with its next
operation, or the process dies. The file system may refuse to create a file, and a file may be
older than the sleep time.
-/
inductive LockStep where
  | lock (name : Name) (timeout : Nat) (recursing : Bool)
  | unlock (name : Name)
  | advance (refused old : Bool)
  | die
  deriving DecidableEq, Repr

/-- The next operation of a process inside `lockfile`. -/
def LockState.advance (state : LockState) (pid : Pid) (refused old : Bool) : LockState :=
  match state.control pid with
  | .script => state
  | .createRecursing name purpose retries =>
      if retries = 0 ∨ refused then state.notLocked pid purpose
      else
        match state.files (lockFile name) with
        | some _ => state.goTo pid (.createRecursing name purpose (retries - 1))
        | none =>
            (state.setFile (lockFile name) (some { creator := pid, recorded := false })).goTo pid
              (.recordRecursing name purpose)
  | .recordRecursing name purpose =>
      ((state.writePid pid (lockFile name)).setLevel pid name (state.level pid name + 1)).goTo pid
        purpose.locked
  | .create call =>
      if refused then state.goTo pid (.release call .refused)
      else
        match state.files (lockFile call.name) with
        | some _ => state.goTo pid (.release call .exists)
        | none =>
            (state.setFile (lockFile call.name)
              (some { creator := pid, recorded := false })).goTo pid (.record call)
  | .record call =>
      (state.writePid pid (lockFile call.name)).goTo pid (.release call .made)
  | .release call .made =>
      let released := state.unlock pid (lockFile call.name)
      ((released.setLevel pid call.name (released.level pid call.name + 1)).setLocking pid
        false).goTo pid .script
  | .release call .exists =>
      (state.unlock pid (lockFile call.name)).lockRecursing pid (lockFile call.name)
        (.check call) 20
  | .release call .refused =>
      ((state.unlock pid (lockFile call.name)).setLocking pid false).goTo pid .script
  | .stat call =>
      if (state.files (lockFile call.name)).isSome && old then state.goTo pid (.read call)
      else state.goTo pid (.retry call)
  | .read call =>
      match state.files (lockFile call.name) with
      -- the uncaught error of `open` leaves `locking` and the inner lock set
      | none => state.goTo pid .script
      | some contents =>
          if contents.recorded then state.goTo pid (.judge call contents.creator)
          else state.goTo pid (.retry call)
  | .judge call owner =>
      if state.control owner = .dead then state.goTo pid (.delete call)
      else state.goTo pid (.retry call)
  | .delete call =>
      (state.setFile (lockFile call.name) none).goTo pid (.retry call)
  | .retry call =>
      (state.unlock pid (lockFile call.name)).loop pid { call with retries := call.retries - 1 }
  | .dead => state

/-- A step of a process. Only a script calls, and a dead process does nothing. -/
def LockState.step (state : LockState) (pid : Pid) : LockStep → LockState
  | .lock name timeout recursing =>
      if state.control pid = .script then
        if recursing then state.lockRecursing pid name .script timeout
        else state.lock pid name timeout
      else state
  | .unlock name =>
      if state.control pid = .script then state.unlock pid name else state
  | .advance refused old => state.advance pid refused old
  | .die => state.goTo pid .dead

/-- A run: steps of the processes in any order. -/
def LockState.run (state : LockState) (steps : List (Pid × LockStep)) : LockState :=
  steps.foldl (fun state step => state.step step.1 step.2) state

-----------------------------------------------------------------------------------------
-- Who holds a lock
-----------------------------------------------------------------------------------------

/-- A process that can still act. -/
def LockState.Alive (state : LockState) (pid : Pid) : Prop :=
  state.control pid ≠ .dead

/-- A process is between a successful `lockfile` on a name and the matching last `unlockfile`. -/
def LockState.Locked (state : LockState) (pid : Pid) (name : Name) : Prop :=
  0 < state.level pid name

/-- No two live processes have a name locked, and no lock that is about to be deleted as stale
belongs to a live process.
-/
def LockState.Exclusive (state : LockState) : Prop :=
  (∀ left right name,
      state.Alive left → state.Alive right → state.Locked left name → state.Locked right name
      → left = right)
    ∧ ∀ breaker call owner,
      state.control breaker = .delete call → state.Alive owner → ¬ state.Locked owner call.name

/-- A call keeps to the names that are locked plainly: a lock file whose stale locks are checked
for is never itself the name of a plain call, nor locked with `recursing` by a script.
-/
def LockStep.Separate (plain : Name → Prop) : LockStep → Prop
  | .lock name _ true => ¬ plain name
  | .lock name _ false => plain name ∧ ¬ plain (lockFile name)
  | _ => True

instance (plain : Name → Prop) [DecidablePred plain]
    : (step : LockStep) → Decidable (step.Separate plain)
  | .lock name _ true => inferInstanceAs (Decidable (¬ plain name))
  | .lock name _ false => inferInstanceAs (Decidable (plain name ∧ ¬ plain (lockFile name)))
  | .unlock _ | .advance _ _ | .die => inferInstanceAs (Decidable True)

/-- A process has created the lock file of a name, and is about to count it. -/
def Control.Created (name : Name) : Control → Prop
  | .recordRecursing created _ => created = name
  | .record call => call.name = name
  | .release call .made => call.name = name
  | _ => False

/-- The plain call of a process that holds the lock around its lock file. -/
def Control.guarded : Control → Option LockCall
  | .create call | .record call | .release call _ | .stat call | .read call | .judge call _
  | .delete call | .retry call => some call
  | _ => none

/-- The lock that a purpose needs is the one around its call's lock file. -/
def Purpose.Fits (plain : Name → Prop) (name : Name) : Purpose → Prop
  | .script => True
  | .create call | .check call => name = lockFile call.name ∧ plain call.name

/-- Plain calls and recursing ones are about different names. -/
def Control.Fits (plain : Name → Prop) : Control → Prop
  | .createRecursing name purpose _ | .recordRecursing name purpose =>
      ¬ plain name ∧ purpose.Fits plain name
  | .create call | .record call | .release call _ | .stat call | .read call | .judge call _
  | .delete call | .retry call => plain call.name ∧ ¬ plain (lockFile call.name)
  | _ => True

/-- A process has the lock of a name, counted or not. -/
def LockState.Owns (state : LockState) (pid : Pid) (name : Name) : Prop :=
  state.Locked pid name ∨ (state.control pid).Created name

/-- The process that created a file. -/
def LockState.creator (state : LockState) (file : Name) : Option Pid :=
  (state.files file).map LockFile.creator

/-- What holds between the live processes: who owns a lock created its file, who is inside a plain
call holds the lock around its lock file, and who judges a lock has read the id of its owner.
-/
structure LockState.Guarded (plain : Name → Prop) (state : LockState) : Prop where
  fits : ∀ pid, (state.control pid).Fits plain
  inner : ∀ pid call, (state.control pid).guarded = some call →
    state.Locked pid (lockFile call.name)
  owner : ∀ pid name, state.Alive pid → state.Owns pid name →
    state.creator (lockFile name) = some pid
  judged : ∀ pid call read, state.control pid = .judge call read →
    ∀ owner, state.Alive owner → state.Owns owner call.name → owner = read
  deleted : ∀ pid call, state.control pid = .delete call →
    ∀ owner, state.Alive owner → ¬ state.Owns owner call.name

@[simp]
theorem goTo_control (state : LockState) (pid other : Pid) (control : Control)
    : (state.goTo pid control).control other
        = if other = pid then control else state.control other := by
  simp [LockState.goTo, Function.update_apply]

@[simp]
theorem setFile_creator (state : LockState) (file other : Name) (contents : Option LockFile)
    : (state.setFile file contents).creator other
        = if other = file then contents.map LockFile.creator else state.creator other := by
  unfold LockState.setFile LockState.creator
  dsimp only
  rw [Function.update_apply]
  split <;> rfl

/-- Writing an id leaves the creators as they are. -/
@[simp]
theorem writePid_creator (state : LockState) (pid : Pid) (file other : Name)
    : (state.writePid pid file).creator other = state.creator other := by
  unfold LockState.writePid
  split
  next contents found =>
    split
    · rw [setFile_creator]
      split
      next same =>
        subst same
        simp [LockState.creator, found]
      next => rfl
    · rfl
  next => rfl

@[simp]
theorem writePid_control (state : LockState) (pid : Pid) (file : Name)
    : (state.writePid pid file).control = state.control := by
  unfold LockState.writePid
  split
  · split <;> rfl
  · rfl

@[simp]
theorem writePid_level (state : LockState) (pid : Pid) (file : Name)
    : (state.writePid pid file).level = state.level := by
  unfold LockState.writePid
  split
  · split <;> rfl
  · rfl

@[simp]
theorem setLevel_level (state : LockState) (pid other : Pid) (name which : Name) (level : Nat)
    : (state.setLevel pid name level).level other which
        = if other = pid ∧ which = name then level else state.level other which := by
  unfold LockState.setLevel
  dsimp only
  by_cases here : other = pid
  · subst here
    simp [Function.update_apply]
  · simp [here]

@[simp]
theorem unlock_control (state : LockState) (pid : Pid) (name : Name)
    : (state.unlock pid name).control = state.control := by
  unfold LockState.unlock
  split <;> rfl

@[simp]
theorem unlock_level (state : LockState) (pid other : Pid) (name which : Name)
    : (state.unlock pid name).level other which
        = if other = pid ∧ which = name then state.level pid name - 1
          else state.level other which := by
  unfold LockState.unlock
  split
  next none =>
    split
    next here =>
      obtain ⟨rfl, rfl⟩ := here
      omega
    next => rfl
  next one =>
    show ((state.setLevel pid name 0)).level other which = _
    rw [setLevel_level, one]
  next level more =>
    rw [setLevel_level, more]
    rfl

/-- Only the last `unlockfile` deletes the lock file. -/
theorem unlock_creator (state : LockState) (pid : Pid) (name file : Name)
    : (state.unlock pid name).creator file
        = if file = lockFile name ∧ state.level pid name = 1 then none
          else state.creator file := by
  unfold LockState.unlock
  split
  next none => rw [if_neg (by omega)]
  next one =>
    rw [setFile_creator]
    by_cases here : file = lockFile name
    · rw [if_pos here, if_pos ⟨here, one⟩]
      rfl
    · rw [if_neg here, if_neg fun both => here both.1]
      rfl
  next level more =>
    rw [if_neg (by omega)]
    rfl

theorem lockFile_injective {left right : Name} (same : lockFile left = lockFile right)
    : left = right :=
  List.append_cancel_right same

theorem lockFile_ne (name : Name) : lockFile name ≠ name := by
  intro same
  have lengths := congrArg List.length same
  simp [lockFile] at lengths

section Guarded

variable {plain : Name → Prop} {state after : LockState} {pid : Pid}

/-- No other process is about to judge or to delete the lock of a name. -/
def LockState.Unjudged (state : LockState) (pid : Pid) (name : Name) : Prop :=
  ∀ other call, other ≠ pid →
    ((∃ read, state.control other = .judge call read) ∨ state.control other = .delete call)
    → call.name ≠ name

/-- What one process may do without breaking the invariant. -/
theorem LockState.Guarded.act (guarded : state.Guarded plain)
    (controls : ∀ other, other ≠ pid → after.control other = state.control other)
    (levels : ∀ other, other ≠ pid → after.level other = state.level other)
    (fits : (after.control pid).Fits plain)
    (inner : ∀ call, (after.control pid).guarded = some call →
      after.Locked pid (lockFile call.name))
    (owner : after.Alive pid → ∀ name, after.Owns pid name →
      after.creator (lockFile name) = some pid)
    (kept : ∀ other name, other ≠ pid → state.Alive other → state.Owns other name →
      after.creator (lockFile name) = some other)
    (enters : after.Alive pid → ∀ name, after.Owns pid name →
      (state.Alive pid ∧ state.Owns pid name) ∨ state.Unjudged pid name)
    (judged : ∀ call read, after.control pid = .judge call read →
      ∀ owner, after.Alive owner → after.Owns owner call.name → owner = read)
    (deleted : ∀ call, after.control pid = .delete call →
      ∀ owner, after.Alive owner → ¬ after.Owns owner call.name)
    : after.Guarded plain := by
  have alive {other : Pid} (different : other ≠ pid)
      : after.Alive other ↔ state.Alive other := by
    rw [LockState.Alive, LockState.Alive, controls other different]
  have owns {other : Pid} (different : other ≠ pid) (name : Name)
      : after.Owns other name ↔ state.Owns other name := by
    rw [LockState.Owns, LockState.Owns, LockState.Locked, LockState.Locked,
      controls other different, levels other different]
  constructor
  · intro other
    rcases eq_or_ne other pid with rfl | different
    · exact fits
    · rw [controls other different]
      exact guarded.fits other
  · intro other call within
    rcases eq_or_ne other pid with rfl | different
    · exact inner call within
    · rw [controls other different] at within
      rw [LockState.Locked, levels other different]
      exact guarded.inner other call within
  · intro other name lives holds
    rcases eq_or_ne other pid with rfl | different
    · exact owner lives name holds
    · exact kept other name different ((alive different).mp lives) ((owns different name).mp holds)
  · intro other call read judges who lives holds
    rcases eq_or_ne other pid with rfl | different
    · exact judged call read judges who lives holds
    · rw [controls other different] at judges
      rcases eq_or_ne who pid with rfl | apart
      · rcases enters lives call.name holds with ⟨before, old⟩ | unjudged
        · exact guarded.judged other call read judges who before old
        · exact absurd rfl (unjudged other call different (.inl ⟨read, judges⟩))
      · exact guarded.judged other call read judges who ((alive apart).mp lives)
          ((owns apart _).mp holds)
  · intro other call deletes who lives holds
    rcases eq_or_ne other pid with rfl | different
    · exact deleted call deletes who lives holds
    · rw [controls other different] at deletes
      rcases eq_or_ne who pid with rfl | apart
      · rcases enters lives call.name holds with ⟨before, old⟩ | unjudged
        · exact guarded.deleted other call deletes who before old
        · exact unjudged other call different (.inr deletes) rfl
      · exact guarded.deleted other call deletes who ((alive apart).mp lives)
          ((owns apart _).mp holds)

/-- A process that creates and deletes no file, and owns no more than before. -/
theorem LockState.Guarded.quiet (guarded : state.Guarded plain) (lives : state.Alive pid)
    (controls : ∀ other, other ≠ pid → after.control other = state.control other)
    (levels : ∀ other, other ≠ pid → after.level other = state.level other)
    (fits : (after.control pid).Fits plain)
    (inner : ∀ call, (after.control pid).guarded = some call →
      after.Locked pid (lockFile call.name))
    (creators : ∀ file, after.creator file = state.creator file)
    (owns : after.Alive pid → ∀ name, after.Owns pid name → state.Owns pid name)
    (judges : ∀ call read, after.control pid ≠ .judge call read)
    (deletes : ∀ call, after.control pid ≠ .delete call)
    : after.Guarded plain := by
  apply guarded.act controls levels fits inner
  · intro alive name holds
    rw [creators]
    exact guarded.owner pid name lives (owns alive name holds)
  · intro other name different alive holds
    rw [creators]
    exact guarded.owner other name alive holds
  · exact fun alive name holds => .inl ⟨lives, owns alive name holds⟩
  · exact fun call read judging => absurd judging (judges call read)
  · exact fun call deleting => absurd deleting (deletes call)

/-- A process that creates the lock file of a name whose lock nobody else judges. -/
theorem LockState.Guarded.creates (guarded : state.Guarded plain) (lives : state.Alive pid)
    {name : Name} {control : Control} (absent : state.files (lockFile name) = none)
    (unjudged : state.Unjudged pid name)
    (fits : control.Fits plain)
    (inner : ∀ call, control.guarded = some call → state.Locked pid (lockFile call.name))
    (creates : ∀ other, control.Created other → other = name)
    (judges : ∀ call read, control ≠ .judge call read)
    (deletes : ∀ call, control ≠ .delete call)
    : ((state.setFile (lockFile name) (some { creator := pid, recorded := false })).goTo pid
        control).Guarded plain := by
  have missing : state.creator (lockFile name) = none := by
    rw [LockState.creator, absent]
    rfl
  have elsewhere {other : Pid} {which : Name} (created : state.creator (lockFile which) = some other)
      : lockFile which ≠ lockFile name := by
    intro same
    rw [same, missing] at created
    cases created
  have controls : ∀ other, ((state.setFile (lockFile name)
      (some { creator := pid, recorded := false })).goTo pid control).control other
        = if other = pid then control else state.control other :=
    fun other => goTo_control _ pid other control
  have here := controls pid
  rw [if_pos rfl] at here
  have owns {which : Name} (holds : ((state.setFile (lockFile name)
      (some { creator := pid, recorded := false })).goTo pid control).Owns pid which)
      : which = name ∨ state.Owns pid which := by
    rcases holds with counted | created
    · exact .inr (.inl counted)
    · rw [here] at created
      exact .inl (creates which created)
  apply guarded.act
  · exact fun other different => (controls other).trans (if_neg different)
  · exact fun other different => rfl
  · rw [here]
    exact fits
  · rw [here]
    exact inner
  · intro alive which holds
    show (state.setFile _ _).creator _ = _
    rw [setFile_creator]
    rcases owns holds with rfl | old
    · rw [if_pos rfl]
      rfl
    · have created := guarded.owner pid which lives old
      rw [if_neg (elsewhere created)]
      exact created
  · intro other which different alive holds
    have created := guarded.owner other which alive holds
    show (state.setFile _ _).creator _ = _
    rw [setFile_creator, if_neg (elsewhere created)]
    exact created
  · intro alive which holds
    rcases owns holds with rfl | old
    · exact .inr unjudged
    · exact .inl ⟨lives, old⟩
  · intro call read judging
    rw [here] at judging
    exact absurd judging (judges call read)
  · intro call deleting
    rw [here] at deleting
    exact absurd deleting (deletes call)

/-- A live process whose script is made to go on at once keeps what it has counted. -/
theorem LockState.Guarded.interrupt (guarded : state.Guarded plain) (lives : state.Alive pid)
    : (state.goTo pid .script).Guarded plain := by
  have here : (state.goTo pid .script).control pid = .script := by simp
  apply guarded.quiet lives
  · intro other different
    simp [different]
  · exact fun _ _ => rfl
  · rw [here]
    trivial
  · rw [here]
    exact nofun
  · exact fun _ => rfl
  · rintro alive name (counted | created)
    · exact .inl counted
    · rw [here] at created
      exact created.elim
  · rw [here]
    exact nofun
  · rw [here]
    exact nofun

/-- A script that goes on inside a call that owns nothing more. -/
theorem LockState.Guarded.enter (guarded : state.Guarded plain)
    (script : state.control pid = .script) {control : Control} (fits : control.Fits plain)
    (inner : ∀ call, control.guarded = some call → state.Locked pid (lockFile call.name))
    (creates : ∀ name, ¬ control.Created name)
    (judges : ∀ call read, control ≠ .judge call read) (deletes : ∀ call, control ≠ .delete call)
    : (state.goTo pid control).Guarded plain := by
  have lives : state.Alive pid := by
    rw [LockState.Alive, script]
    exact nofun
  have here : (state.goTo pid control).control pid = control := by simp
  apply guarded.quiet lives
  · intro other different
    simp [different]
  · exact fun _ _ => rfl
  · rw [here]
    exact fits
  · rw [here]
    exact inner
  · exact fun _ => rfl
  · rintro alive name (counted | created)
    · exact .inl counted
    · rw [here] at created
      exact absurd created (creates name)
  · rw [here]
    exact judges
  · rw [here]
    exact deletes

/-- Counting a lock once more, or some locks of a script less, changes nothing else. -/
theorem LockState.Guarded.count (guarded : state.Guarded plain)
    (script : state.control pid = .script) {name : Name} {level : Nat}
    (counted : 0 < level → state.Locked pid name)
    : (state.setLevel pid name level).Guarded plain := by
  have lives : state.Alive pid := by
    rw [LockState.Alive, script]
    exact nofun
  have here : (state.setLevel pid name level).control pid = .script := script
  apply guarded.quiet lives
  · exact fun _ _ => rfl
  · intro other different
    funext which
    simp [different]
  · rw [here]
    trivial
  · rw [here]
    exact nofun
  · exact fun _ => rfl
  · rintro alive which (more | created)
    · rw [LockState.Locked, setLevel_level] at more
      split at more
      next same =>
        obtain ⟨-, rfl⟩ := same
        exact .inl (counted more)
      next => exact .inl more
    · rw [here] at created
      exact created.elim
  · rw [here]
    exact nofun
  · rw [here]
    exact nofun

-----------------------------------------------------------------------------------------
-- The calls keep the invariant
-----------------------------------------------------------------------------------------

@[simp]
theorem goTo_goTo (pid : Pid) (control next : Control)
    : (state.goTo pid control).goTo pid next = state.goTo pid next := by
  simp [LockState.goTo]

theorem lockRecursing_goTo (control : Control) (name : Name) (purpose : Purpose) (timeout : Nat)
    : (state.goTo pid control).lockRecursing pid name purpose timeout
        = state.lockRecursing pid name purpose timeout := by
  unfold LockState.lockRecursing
  have commute : ∀ level, ((state.goTo pid control).setLevel pid name level).goTo pid
      purpose.locked = (state.setLevel pid name level).goTo pid purpose.locked := by
    intro level
    simp [LockState.goTo, LockState.setLevel]
  show (if 0 < state.level pid name then _ else _) = _
  split
  · exact commute _
  · exact goTo_goTo pid control _

theorem unlock_goTo (control : Control) (name : Name)
    : (state.goTo pid control).unlock pid name = (state.unlock pid name).goTo pid control := by
  unfold LockState.unlock
  show (match state.level pid name with | 0 => _ | 1 => _ | level + 2 => _) = _
  split <;> rfl

theorem loop_goTo (control : Control) (call : LockCall)
    : (state.goTo pid control).loop pid call = state.loop pid call := by
  unfold LockState.loop
  split
  · show ((state.setLocking pid false).goTo pid control).goTo pid .script = _
    exact goTo_goTo pid control .script
  · exact lockRecursing_goTo control _ _ _

/-- A script that takes a lock with `recursing` set, or begins to. -/
theorem LockState.Guarded.lockRecursing (guarded : state.Guarded plain)
    (script : state.control pid = .script) {name : Name} {purpose : Purpose} {timeout : Nat}
    (other : ¬ plain name) (fits : purpose.Fits plain name)
    : (state.lockRecursing pid name purpose timeout).Guarded plain := by
  unfold LockState.lockRecursing
  split
  next counted =>
    have more : (state.setLevel pid name (state.level pid name + 1)).Guarded plain :=
      guarded.count script fun _ => counted
    have held : (state.setLevel pid name (state.level pid name + 1)).Locked pid name := by
      simp [LockState.Locked]
    cases purpose with
    | script => exact more.enter script trivial nofun nofun nofun nofun
    | create call =>
        obtain ⟨rfl, isPlain⟩ := fits
        refine more.enter script ⟨isPlain, other⟩ ?_ nofun nofun nofun
        rintro _ ⟨⟩
        exact held
    | check call =>
        obtain ⟨rfl, isPlain⟩ := fits
        refine more.enter script ⟨isPlain, other⟩ ?_ nofun nofun nofun
        rintro _ ⟨⟩
        exact held
  next => exact guarded.enter script ⟨other, fits⟩ nofun nofun nofun nofun

theorem LockState.Guarded.notLocked (guarded : state.Guarded plain)
    (script : state.control pid = .script) {name : Name} {purpose : Purpose}
    (other : ¬ plain name) (fits : purpose.Fits plain name)
    : (state.notLocked pid purpose).Guarded plain := by
  have stays : state.goTo pid .script = state := by
    simp [LockState.goTo, ← script]
  cases purpose with
  | script =>
      show (state.goTo pid .script).Guarded plain
      rwa [stays]
  | create call =>
      obtain ⟨rfl, isPlain⟩ := fits
      exact guarded.lockRecursing script other ⟨rfl, isPlain⟩
  | check call =>
      show (state.goTo pid .script).Guarded plain
      rwa [stays]

theorem LockState.Guarded.unlock (guarded : state.Guarded plain)
    (script : state.control pid = .script) (name : Name)
    : (state.unlock pid name).Guarded plain := by
  have lives : state.Alive pid := by
    rw [LockState.Alive, script]
    exact nofun
  have here : (state.unlock pid name).control pid = .script := by
    rw [unlock_control, script]
  have locked {which : Name} (more : (state.unlock pid name).Locked pid which)
      : state.Locked pid which
        ∧ (which = name → state.level pid name ≠ 1) := by
    rw [LockState.Locked, unlock_level] at more
    rw [LockState.Locked]
    split at more
    next same =>
      obtain ⟨-, rfl⟩ := same
      exact ⟨by omega, fun _ => by omega⟩
    next different =>
      exact ⟨more, fun same => absurd ⟨rfl, same⟩ different⟩
  apply @LockState.Guarded.act plain state _ pid guarded
  · intro other _
    rw [unlock_control]
  · intro other different
    funext which
    simp [different]
  · rw [here]
    trivial
  · rw [here]
    exact nofun
  · rintro alive which (more | created)
    · obtain ⟨before, stays⟩ := locked more
      rw [unlock_creator, if_neg fun gone => stays (lockFile_injective gone.1) gone.2]
      exact guarded.owner pid which lives (.inl before)
    · rw [here] at created
      exact created.elim
  · intro other which different alive holds
    have created := guarded.owner other which alive holds
    rw [unlock_creator, if_neg ?_]
    · exact created
    · rintro ⟨same, last⟩
      have mine := guarded.owner pid name lives (.inl (by rw [LockState.Locked]; omega))
      rw [same, mine] at created
      exact different (Option.some.inj created).symm
  · rintro alive which (more | created)
    · exact .inl ⟨lives, .inl (locked more).1⟩
    · rw [here] at created
      exact created.elim
  · rw [here]
    exact nofun
  · rw [here]
    exact nofun

theorem LockState.Guarded.setLocking (guarded : state.Guarded plain) (locking : Bool)
    : (state.setLocking pid locking).Guarded plain :=
  { guarded with }

theorem LockState.Guarded.loop (guarded : state.Guarded plain)
    (script : state.control pid = .script) {call : LockCall} (isPlain : plain call.name)
    (other : ¬ plain (lockFile call.name))
    : (state.loop pid call).Guarded plain := by
  unfold LockState.loop
  split
  · exact (guarded.setLocking false).enter script trivial nofun nofun nofun nofun
  · exact guarded.lockRecursing script other ⟨rfl, isPlain⟩

theorem LockState.Guarded.lock (guarded : state.Guarded plain)
    (script : state.control pid = .script) {name : Name} {timeout : Nat} (isPlain : plain name)
    (other : ¬ plain (lockFile name))
    : (state.lock pid name timeout).Guarded plain := by
  unfold LockState.lock
  split
  next counted => exact guarded.count script fun _ => counted
  next =>
    split
    · exact guarded
    · exact (guarded.setLocking true).loop script isPlain other

/-- Two live processes inside the lock around one lock file are one. -/
theorem LockState.Guarded.inner_unique (guarded : state.Guarded plain) {left right : Pid}
    {call other : LockCall} (leftLives : state.Alive left) (rightLives : state.Alive right)
    (leftInside : (state.control left).guarded = some call)
    (rightInside : (state.control right).guarded = some other) (same : other.name = call.name)
    : right = left := by
  have leftFile := guarded.owner left _ leftLives (.inl (guarded.inner left call leftInside))
  have rightFile := guarded.owner right _ rightLives (.inl (guarded.inner right other rightInside))
  rw [same, leftFile] at rightFile
  exact (Option.some.inj rightFile).symm

/-- No process judges the lock of a name that is not locked plainly. -/
theorem LockState.Guarded.unjudged_other (guarded : state.Guarded plain) {name : Name}
    (other : ¬ plain name)
    : state.Unjudged pid name := by
  rintro judge call - (⟨read, judging⟩ | deleting) rfl
  · have fits := guarded.fits judge
    rw [judging] at fits
    exact other fits.1
  · have fits := guarded.fits judge
    rw [deleting] at fits
    exact other fits.1

/-- While a process holds the lock around a lock file, no other one judges that lock. -/
theorem LockState.Guarded.unjudged_inside (guarded : state.Guarded plain)
    (lives : state.Alive pid) {call : LockCall}
    (inside : (state.control pid).guarded = some call)
    : state.Unjudged pid call.name := by
  rintro judge other different judging same
  have within : (state.control judge).guarded = some other := by
    rcases judging with ⟨read, judging⟩ | deleting
    · rw [judging]
      rfl
    · rw [deleting]
      rfl
  have alive : state.Alive judge := by
    intro dead
    rw [dead] at within
    cases within
  exact different (guarded.inner_unique lives alive inside within same)

/-- A process inside a plain call that goes on without another file. -/
theorem LockState.Guarded.goOn (guarded : state.Guarded plain) {call : LockCall}
    (inside : (state.control pid).guarded = some call) {control : Control}
    (within : control.guarded = some call)
    (fits : control.Fits plain ↔ plain call.name ∧ ¬ plain (lockFile call.name))
    (creates : ∀ name, control.Created name → (state.control pid).Created name)
    (judged : ∀ other read, control = .judge other read →
      ∀ owner, state.Alive owner → state.Owns owner other.name → owner = read)
    (deleted : ∀ other, control = .delete other →
      ∀ owner, state.Alive owner → ¬ state.Owns owner other.name)
    : (state.goTo pid control).Guarded plain := by
  have here : (state.goTo pid control).control pid = control := by simp
  have lives : state.Alive pid := by
    intro dead
    rw [dead] at inside
    cases inside
  have owns {owner : Pid} {name : Name} (holds : (state.goTo pid control).Owns owner name)
      : state.Owns owner name := by
    rcases holds with counted | created
    · exact .inl counted
    · rcases eq_or_ne owner pid with rfl | different
      · rw [here] at created
        exact .inr (creates name created)
      · rw [goTo_control, if_neg different] at created
        exact .inr created
  have alive {owner : Pid} (active : (state.goTo pid control).Alive owner)
      : state.Alive owner := by
    rcases eq_or_ne owner pid with rfl | different
    · exact lives
    · rwa [LockState.Alive, goTo_control, if_neg different] at active
  apply @LockState.Guarded.act plain state _ pid guarded
  · intro other different
    simp [different]
  · exact fun _ _ => rfl
  · rw [here, fits]
    have before := guarded.fits pid
    cases control' : state.control pid <;> rw [control'] at before inside <;>
      simp only [Control.guarded, Option.some.injEq, reduceCtorEq] at inside <;>
      exact inside ▸ before
  · intro other entered
    rw [here, within] at entered
    obtain rfl := Option.some.inj entered
    exact guarded.inner pid call inside
  · exact fun _ name holds => guarded.owner pid name lives (owns holds)
  · exact fun other name _ active holds => guarded.owner other name active holds
  · exact fun _ name holds => .inl ⟨lives, owns holds⟩
  · intro other read judging owner active holds
    rw [here] at judging
    exact judged other read judging owner (alive active) (owns holds)
  · intro other deleting owner active holds
    rw [here] at deleting
    exact deleted other deleting owner (alive active) (owns holds)

/-- The lock taken with `recursing` set is recorded and counted. -/
theorem LockState.Guarded.recordRecursing (guarded : state.Guarded plain) {name : Name}
    {purpose : Purpose} (recording : state.control pid = .recordRecursing name purpose)
    : (((state.writePid pid (lockFile name)).setLevel pid name (state.level pid name + 1)).goTo pid
        purpose.locked).Guarded plain := by
  have lives : state.Alive pid := by
    rw [LockState.Alive, recording]
    exact nofun
  obtain ⟨other, fits⟩ : ¬ plain name ∧ purpose.Fits plain name := by
    have before := guarded.fits pid
    rw [recording] at before
    exact before
  have here : (((state.writePid pid (lockFile name)).setLevel pid name
      (state.level pid name + 1)).goTo pid purpose.locked).control pid = purpose.locked := by
    simp
  have level (which : Name) : (((state.writePid pid (lockFile name)).setLevel pid name
      (state.level pid name + 1)).goTo pid purpose.locked).level pid which
        = if which = name then state.level pid name + 1 else state.level pid which := by
    show ((state.writePid pid (lockFile name)).setLevel pid name _).level pid which = _
    rw [setLevel_level, writePid_level]
    simp
  apply @LockState.Guarded.quiet plain state _ pid guarded lives
  · intro who different
    rw [goTo_control, if_neg different]
    show (state.writePid pid (lockFile name)).control who = _
    rw [writePid_control]
  · intro who different
    funext which
    show ((state.writePid pid (lockFile name)).setLevel pid name _).level who which = _
    rw [setLevel_level, writePid_level, if_neg fun both => different both.1]
  · rw [here]
    cases purpose with
    | script => trivial
    | create call | check call =>
        obtain ⟨rfl, isPlain⟩ := fits
        exact ⟨isPlain, other⟩
  · intro call inside
    rw [here] at inside
    rw [LockState.Locked, level]
    cases purpose with
    | script => cases inside
    | create call | check call =>
        obtain ⟨rfl, isPlain⟩ := fits
        cases inside
        rw [if_pos rfl]
        exact Nat.succ_pos _
  · exact fun file => writePid_creator state pid (lockFile name) file
  · intro alive which holds
    rcases holds with counted | created
    · rw [LockState.Locked, level] at counted
      split at counted
      next same => exact .inr (by rw [recording, same]; rfl)
      next => exact .inl counted
    · rw [here] at created
      cases purpose <;> exact created.elim
  · rw [here]
    cases purpose <;> exact nofun
  · rw [here]
    cases purpose <;> exact nofun

/-- A plain call that has created its lock file records it. -/
theorem LockState.Guarded.writePid (guarded : state.Guarded plain) (file : Name)
    : (state.writePid pid file).Guarded plain where
  fits := by
    rw [writePid_control]
    exact guarded.fits
  inner := by
    unfold LockState.Locked
    rw [writePid_control, writePid_level]
    exact guarded.inner
  owner := by
    unfold LockState.Alive LockState.Owns LockState.Locked
    simp only [writePid_control, writePid_level, writePid_creator]
    exact guarded.owner
  judged := by
    unfold LockState.Alive LockState.Owns LockState.Locked
    rw [writePid_control, writePid_level]
    exact guarded.judged
  deleted := by
    unfold LockState.Alive LockState.Owns LockState.Locked
    rw [writePid_control, writePid_level]
    exact guarded.deleted

/-- A plain call that has created its lock file gives up the lock around it and returns. -/
theorem LockState.Guarded.return (guarded : state.Guarded plain) {call : LockCall}
    (releasing : state.control pid = .release call .made)
    : (((((state.unlock pid (lockFile call.name)).setLevel pid call.name
        ((state.unlock pid (lockFile call.name)).level pid call.name + 1)).setLocking pid
        false).goTo pid .script)).Guarded plain := by
  have lives : state.Alive pid := by
    rw [LockState.Alive, releasing]
    exact nofun
  have inner : state.Locked pid (lockFile call.name) :=
    guarded.inner pid call (by rw [releasing]; rfl)
  have creating : state.Owns pid call.name := .inr (by rw [releasing]; rfl)
  generalize next : (((state.unlock pid (lockFile call.name)).setLevel pid call.name
      ((state.unlock pid (lockFile call.name)).level pid call.name + 1)).setLocking pid
      false).goTo pid .script = after
  have here : after.control pid = .script := by
    rw [← next]
    simp
  have creators (file : Name) : after.creator file
      = if file = lockFile (lockFile call.name) ∧ state.level pid (lockFile call.name) = 1 then none
        else state.creator file := by
    rw [← next]
    exact unlock_creator state pid (lockFile call.name) file
  have levels (who : Pid) (which : Name) : after.level who which
      = if who = pid ∧ which = call.name then state.level pid call.name + 1
        else if who = pid ∧ which = lockFile call.name then state.level pid (lockFile call.name) - 1
        else state.level who which := by
    rw [← next]
    show ((state.unlock pid (lockFile call.name)).setLevel pid call.name _).level who which = _
    have same : (state.unlock pid (lockFile call.name)).level pid call.name
        = state.level pid call.name := by
      rw [unlock_level, if_neg fun both => lockFile_ne call.name both.2.symm]
    rw [setLevel_level, same, unlock_level]
  have owns {which : Name} (holds : after.Owns pid which)
      : state.Owns pid which ∧ (which = lockFile call.name →
        state.level pid (lockFile call.name) ≠ 1) := by
    rcases holds with counted | created
    · rw [LockState.Locked, levels] at counted
      split at counted
      next same =>
        obtain ⟨-, rfl⟩ := same
        exact ⟨creating, fun same => absurd same.symm (lockFile_ne call.name)⟩
      next =>
        split at counted
        next same =>
          obtain ⟨-, rfl⟩ := same
          exact ⟨.inl inner, fun _ => by omega⟩
        next different => exact ⟨.inl counted, fun same => absurd ⟨rfl, same⟩ different⟩
    · rw [here] at created
      exact created.elim
  apply @LockState.Guarded.act plain state _ pid guarded
  · intro other different
    rw [← next]
    simp [different, LockState.setLocking, LockState.setLevel]
  · intro other different
    funext which
    rw [levels, if_neg fun both => different both.1, if_neg fun both => different both.1]
  · rw [here]
    trivial
  · rw [here]
    exact nofun
  · intro alive which holds
    obtain ⟨before, stays⟩ := owns holds
    rw [creators, if_neg fun gone => stays (lockFile_injective gone.1) gone.2]
    exact guarded.owner pid which lives before
  · intro other which different alive holds
    have created := guarded.owner other which alive holds
    rw [creators, if_neg ?_]
    · exact created
    · rintro ⟨same, last⟩
      have mine := guarded.owner pid (lockFile call.name) lives (.inl inner)
      rw [same, mine] at created
      exact different (Option.some.inj created).symm
  · exact fun alive which holds => .inl ⟨lives, (owns holds).1⟩
  · rw [here]
    exact nofun
  · rw [here]
    exact nofun

/-- A stale lock file is deleted: no live process owns its lock. -/
theorem LockState.Guarded.delete (guarded : state.Guarded plain) {call : LockCall}
    (deleting : state.control pid = .delete call)
    : ((state.setFile (lockFile call.name) none).goTo pid (.retry call)).Guarded plain := by
  have inside : (state.control pid).guarded = some call := by
    rw [deleting]
    rfl
  have free := guarded.deleted pid call deleting
  have next : (state.goTo pid (.retry call)).Guarded plain :=
    guarded.goOn inside rfl Iff.rfl nofun nofun nofun
  have alive {owner : Pid} (active : (state.goTo pid (.retry call)).Alive owner)
      : state.Alive owner := by
    rcases eq_or_ne owner pid with rfl | different
    · rw [LockState.Alive, deleting]
      exact nofun
    · rwa [LockState.Alive, goTo_control, if_neg different] at active
  have owns {owner : Pid} {name : Name} (holds : (state.goTo pid (.retry call)).Owns owner name)
      : state.Owns owner name := by
    rcases holds with counted | created
    · exact .inl counted
    · rcases eq_or_ne owner pid with rfl | different
      · rw [goTo_control, if_pos rfl] at created
        exact created.elim
      · rw [goTo_control, if_neg different] at created
        exact .inr created
  refine { next with owner := ?_ }
  intro owner name active holds
  have created := next.owner owner name active holds
  show (state.setFile (lockFile call.name) none).creator (lockFile name) = _
  rw [setFile_creator, if_neg ?_]
  · exact created
  · intro same
    rw [lockFile_injective same] at holds
    exact free owner (alive active) (owns holds)

/-- A process that dies acts no more. -/
theorem LockState.Guarded.die (guarded : state.Guarded plain)
    : (state.goTo pid .dead).Guarded plain := by
  have here : (state.goTo pid .dead).control pid = .dead := by simp
  have dead : ¬ (state.goTo pid .dead).Alive pid := fun alive => alive here
  apply @LockState.Guarded.act plain state _ pid guarded
  · intro other different
    simp [different]
  · exact fun _ _ => rfl
  · rw [here]
    trivial
  · rw [here]
    exact nofun
  · exact fun alive => absurd alive dead
  · exact fun other name _ active holds => guarded.owner other name active holds
  · exact fun alive => absurd alive dead
  · rw [here]
    exact nofun
  · rw [here]
    exact nofun

/-- The next operation of a call keeps the invariant, by cases on where the process is. -/
theorem LockState.Guarded.advance (guarded : state.Guarded plain) (refused old : Bool)
    : (state.advance pid refused old).Guarded plain := by
  have fits := guarded.fits pid
  have script : (state.goTo pid .script).control pid = .script := by simp
  unfold LockState.advance
  split
  next => exact guarded
  next name purpose retries creating =>
    rw [creating] at fits
    have lives : state.Alive pid := by
      rw [LockState.Alive, creating]
      exact nofun
    obtain ⟨other, fits⟩ := fits
    have waiting := guarded.interrupt lives
    split
    · have given := waiting.notLocked script other fits
      cases purpose with
      | script => simpa [LockState.notLocked] using given
      | create call => simpa [LockState.notLocked, lockRecursing_goTo] using given
      | check call => simpa [LockState.notLocked] using given
    · split
      next =>
        have again : ((state.goTo pid .script).goTo pid
            (.createRecursing name purpose (retries - 1))).Guarded plain :=
          waiting.enter script ⟨other, fits⟩ nofun nofun nofun nofun
        rwa [goTo_goTo] at again
      next absent =>
        have recordFits : (Control.recordRecursing name purpose).Fits plain := ⟨other, fits⟩
        apply guarded.creates lives absent (guarded.unjudged_other other) recordFits nofun
        · exact fun _ same => same.symm
        · exact nofun
        · exact nofun
  next name purpose recording => exact guarded.recordRecursing recording
  next call creating =>
    rw [creating] at fits
    have inside : (state.control pid).guarded = some call := by
      rw [creating]
      rfl
    split
    · exact guarded.goOn inside rfl Iff.rfl nofun nofun nofun
    · split
      next => exact guarded.goOn inside rfl Iff.rfl nofun nofun nofun
      next absent =>
        have lives : state.Alive pid := by
          rw [LockState.Alive, creating]
          exact nofun
        have recordFits : (Control.record call).Fits plain := fits
        apply guarded.creates lives absent (guarded.unjudged_inside lives inside) recordFits
        · rintro _ ⟨⟩
          exact guarded.inner pid call inside
        · exact fun _ same => same.symm
        · exact nofun
        · exact nofun
  next call recording =>
    have recorded : (state.writePid pid (lockFile call.name)).Guarded plain :=
      guarded.writePid _
    have same : (state.writePid pid (lockFile call.name)).control pid = .record call := by
      rw [writePid_control, recording]
    have inside : ((state.writePid pid (lockFile call.name)).control pid).guarded = some call := by
      rw [same]
      rfl
    refine recorded.goOn inside rfl Iff.rfl ?_ nofun nofun
    intro name created
    rw [same]
    exact created
  next call releasing => exact guarded.return releasing
  next call releasing =>
    rw [releasing] at fits
    have lives : state.Alive pid := by
      rw [LockState.Alive, releasing]
      exact nofun
    have released := (guarded.interrupt lives).unlock script (lockFile call.name)
    rw [unlock_goTo] at released
    have again : (((state.unlock pid (lockFile call.name)).goTo pid .script).lockRecursing pid
        (lockFile call.name) (.check call) 20).Guarded plain :=
      released.lockRecursing (by simp) fits.2 ⟨rfl, fits.1⟩
    rwa [lockRecursing_goTo] at again
  next call releasing =>
    have lives : state.Alive pid := by
      rw [LockState.Alive, releasing]
      exact nofun
    have released := (guarded.interrupt lives).unlock script (lockFile call.name)
    rw [unlock_goTo] at released
    exact released.setLocking false
  next call checking =>
    have inside : (state.control pid).guarded = some call := by
      rw [checking]
      rfl
    split
    · exact guarded.goOn inside rfl Iff.rfl nofun nofun nofun
    · exact guarded.goOn inside rfl Iff.rfl nofun nofun nofun
  next call reading =>
    have inside : (state.control pid).guarded = some call := by
      rw [reading]
      rfl
    have lives : state.Alive pid := by
      rw [LockState.Alive, reading]
      exact nofun
    split
    next => exact guarded.interrupt lives
    next contents found =>
      split
      · refine guarded.goOn inside rfl Iff.rfl nofun ?_ nofun
        rintro _ _ ⟨⟩ owner active holds
        have created := guarded.owner owner call.name active holds
        rw [LockState.creator, found] at created
        exact (Option.some.inj created).symm
      · exact guarded.goOn inside rfl Iff.rfl nofun nofun nofun
  next call read judging =>
    have inside : (state.control pid).guarded = some call := by
      rw [judging]
      rfl
    split
    next dead =>
      refine guarded.goOn inside rfl Iff.rfl nofun nofun ?_
      rintro _ ⟨⟩ owner active holds
      rw [guarded.judged pid call read judging owner active holds] at active
      exact active dead
    next => exact guarded.goOn inside rfl Iff.rfl nofun nofun nofun
  next call deleting => exact guarded.delete deleting
  next call retrying =>
    rw [retrying] at fits
    have lives : state.Alive pid := by
      rw [LockState.Alive, retrying]
      exact nofun
    have released := (guarded.interrupt lives).unlock script (lockFile call.name)
    rw [unlock_goTo] at released
    have again : (((state.unlock pid (lockFile call.name)).goTo pid .script).loop pid
        { call with retries := call.retries - 1 }).Guarded plain :=
      released.loop (by simp) fits.1 fits.2
    rwa [loop_goTo] at again
  next => exact guarded

theorem LockState.Guarded.step (guarded : state.Guarded plain) {step : LockStep}
    (separate : step.Separate plain)
    : (state.step pid step).Guarded plain := by
  cases step with
  | lock name timeout recursing =>
      show (if _ then _ else _ : LockState).Guarded plain
      split
      next script =>
        cases recursing with
        | true => exact guarded.lockRecursing script separate trivial
        | false => exact guarded.lock script separate.1 separate.2
      next => exact guarded
  | unlock name =>
      show (if _ then _ else _ : LockState).Guarded plain
      split
      next script => exact guarded.unlock script name
      next => exact guarded
  | advance refused old => exact guarded.advance refused old
  | die => exact guarded.die

theorem LockState.Guarded.run (guarded : state.Guarded plain) {steps : List (Pid × LockStep)}
    (separate : ∀ step ∈ steps, step.2.Separate plain)
    : (state.run steps).Guarded plain := by
  induction steps generalizing state with
  | nil => exact guarded
  | cons step rest ih =>
      have next : (state.step step.1 step.2).Guarded plain :=
        guarded.step (separate step (by simp))
      exact ih next fun other member => separate other (by simp [member])

theorem LockState.initial_guarded (plain : Name → Prop) : LockState.initial.Guarded plain where
  fits := fun _ => trivial
  inner := nofun
  owner := by
    rintro pid name - (counted | created)
    · exact absurd counted (by simp [LockState.Locked, LockState.initial])
    · exact created.elim
  judged := nofun
  deleted := nofun

/-- Processes that own the lock of a name have created its one file. -/
theorem LockState.Guarded.exclusive (guarded : state.Guarded plain) : state.Exclusive := by
  constructor
  · intro left right name leftLives rightLives leftLocked rightLocked
    have leftFile := guarded.owner left name leftLives (.inl leftLocked)
    have rightFile := guarded.owner right name rightLives (.inl rightLocked)
    rw [leftFile] at rightFile
    exact Option.some.inj rightFile
  · intro breaker call owner deleting lives locked
    exact guarded.deleted breaker call deleting owner lives (.inl locked)

end Guarded

/-- In every run that never locks a name both plainly and as the lock around a lock file, no two
live processes have a name locked, and no stale lock that is deleted is that of a live process.
-/
theorem lockfile_exclusive (plain : Name → Prop) (steps : List (Pid × LockStep))
    (separate : ∀ step ∈ steps, step.2.Separate plain)
    : (LockState.initial.run steps).Exclusive :=
  ((LockState.initial_guarded plain).run separate).exclusive

/-- A process that locks a name for itself, with nothing in its way. -/
def lockAlone (pid : Pid) (name : Name) : List (Pid × LockStep) :=
  (pid, .lock name 120 false) :: List.replicate 5 (pid, .advance false false)

theorem lockfile_exclusive_waiting
    : (LockState.initial.run
        (lockAlone 1 ['x'] ++ [(2, .lock ['x'] 120 false), (1, .die)])).Exclusive :=
  lockfile_exclusive (· = ['x']) _ (by decide)

/-- Process 2 finds that process 1 holds the lock of `x.lock`. Before it tests whether process 1 is
alive, process 1 unlocks the name and dies, and process 3 creates the same file as the lock around
the lock file of `x`. Process 2 deletes that file and locks `x.lock`. Process 3, done with its
lock, deletes the file of process 2, so that process 4 can lock `x.lock` as well.
-/
def brokenFresh : List (Pid × LockStep) :=
  lockAlone 1 ['x', '.', 'l', 'o', 'c', 'k']
    ++ (2, .lock ['x', '.', 'l', 'o', 'c', 'k'] 120 false)
      :: List.replicate 8 (2, .advance false true)
    ++ [(1, .unlock ['x', '.', 'l', 'o', 'c', 'k']),
      (3, .lock ['x'] 120 false), (3, .advance false false), (3, .advance false false),
      (1, .die)]
    ++ List.replicate 8 (2, .advance false false)
    ++ List.replicate 3 (3, .advance false false)
    ++ lockAlone 4 ['x', '.', 'l', 'o', 'c', 'k']

theorem lockfile_brokenFresh : ¬ ∀ steps, (LockState.initial.run steps).Exclusive := by
  intro claim
  have left : (LockState.initial.run brokenFresh).control 2 = .script := by decide +kernel
  have right : (LockState.initial.run brokenFresh).control 4 = .script := by decide +kernel
  have leftLocked : 0 < (LockState.initial.run brokenFresh).level 2
      ['x', '.', 'l', 'o', 'c', 'k'] := by
    decide +kernel
  have rightLocked : 0 < (LockState.initial.run brokenFresh).level 4
      ['x', '.', 'l', 'o', 'c', 'k'] := by
    decide +kernel
  have same := (claim brokenFresh).1 2 4 ['x', '.', 'l', 'o', 'c', 'k']
    (by rw [LockState.Alive, left]; exact nofun) (by rw [LockState.Alive, right]; exact nofun)
    leftLocked rightLocked
  exact absurd same (by decide)

end SpeedTables.Stapi
