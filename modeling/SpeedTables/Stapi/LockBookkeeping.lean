import SpeedTables.Stapi.Lockfile

/-! What a call of `lockfile` leaves behind: the flag, and the lock around the lock file. -/

namespace SpeedTables.Stapi

-----------------------------------------------------------------------------------------
-- The return of a call
-----------------------------------------------------------------------------------------

/-- The plain call for which a lock is taken with `recursing` set. -/
def Purpose.call : Purpose → Option LockCall
  | .script => none
  | .create call | .check call => some call

/-- The plain call that a process is in. -/
def Control.plainCall : Control → Option LockCall
  | .createRecursing _ purpose _ | .recordRecursing _ purpose => purpose.call
  | .create call | .record call | .release call _ | .stat call | .read call | .judge call _
  | .delete call | .retry call => some call
  | .script | .dead => none

/-- The flag is cleared, and neither the level nor the file of the lock around the lock file is left
over.
-/
def LockState.Restored (state : LockState) (pid : Pid) (name : Name) : Prop :=
  state.locking pid = false ∧ state.level pid (lockFile name) = 0
    ∧ state.creator (lockFile (lockFile name)) ≠ some pid

/-- The step after which a plain call on a name is over: its first one, or a later one. -/
def LockState.Returns (state : LockState) (pid : Pid) (step : LockStep) (name : Name) : Prop :=
  (state.step pid step).control pid = .script
    ∧ ((∃ timeout, step = .lock name timeout false ∧ state.control pid = .script)
      ∨ ∃ call, (state.control pid).plainCall = some call ∧ call.name = name)

/-- A step that keeps the bookkeeping in order. A script that calls `lockfile` does not hold the
lock around the lock file itself, that lock is not refused when it is needed to check the lock
file, and a lock file that is opened to read the id of its owner still exists.
-/
def LockState.Careful (state : LockState) (pid : Pid) : LockStep → Prop
  | .lock name _ false => state.control pid = .script → state.level pid (lockFile name) = 0
  | .advance refused _ =>
      match state.control pid with
      | .createRecursing _ (.check _) retries => retries ≠ 0 ∧ refused = false
      | .read call => (state.files (lockFile call.name)).isSome
      | _ => True
  | _ => True

instance (state : LockState) (pid : Pid) : (step : LockStep) → Decidable (state.Careful pid step)
  | .lock name _ false =>
      inferInstanceAs
        (Decidable (state.control pid = .script → state.level pid (lockFile name) = 0))
  | .lock _ _ true | .unlock _ | .die => inferInstanceAs (Decidable True)
  | .advance refused _ =>
      match same : state.control pid with
      | .createRecursing _ (.check _) retries =>
          decidable_of_iff (retries ≠ 0 ∧ refused = false) (by simp [LockState.Careful, same])
      | .read call =>
          decidable_of_iff ((state.files (lockFile call.name)).isSome)
            (by simp [LockState.Careful, same])
      | .createRecursing _ .script _ | .createRecursing _ (.create _) _ | .recordRecursing _ _
      | .create _ | .record _ | .release _ _ | .stat _ | .judge _ _ | .delete _ | .retry _
      | .script | .dead =>
          isTrue (by simp [LockState.Careful, same])

/-- A run in which the steps of one process are careful. -/
def LockState.CarefulRun (pid : Pid) : LockState → List (Pid × LockStep) → Prop
  | _, [] => True
  | state, step :: rest =>
      (step.1 = pid → state.Careful pid step.2)
        ∧ (state.step step.1 step.2).CarefulRun pid rest

instance instDecidableCarefulRun (pid : Pid)
    : (steps : List (Pid × LockStep)) → (state : LockState) →
      Decidable (state.CarefulRun pid steps)
  | [], _ => inferInstanceAs (Decidable True)
  | step :: rest, state =>
      haveI : Decidable ((state.step step.1 step.2).CarefulRun pid rest) :=
        instDecidableCarefulRun pid rest _
      inferInstanceAs (Decidable (_ ∧ _))

-----------------------------------------------------------------------------------------
-- The books of a process
-----------------------------------------------------------------------------------------

/-- The lock taken with `recursing` set is the one around the lock file. -/
def Control.About : Control → Prop
  | .createRecursing name purpose _ | .recordRecursing name purpose =>
      ∀ call, purpose.call = some call → name = lockFile call.name
  | _ => True

/-- The variables of a process at a place: the flag is set in a plain call, the lock around the lock
file is held once where the call needs it, and only files of owned locks are left.
-/
structure LockState.BookedAt (state : LockState) (pid : Pid) (control : Control) : Prop where
  locking : state.locking pid = control.plainCall.isSome
  about : control.About
  level : ∀ call, control.plainCall = some call →
    state.level pid (lockFile call.name) = if control.guarded.isSome then 1 else 0
  files : ∀ name, state.creator (lockFile name) = some pid →
    state.Locked pid name ∨ control.Created name

/-- The books of a live process are in order. -/
def LockState.Booked (state : LockState) (pid : Pid) : Prop :=
  state.Alive pid → state.BookedAt pid (state.control pid)

/-- What a process has is not changed by the others: they may delete its files. -/
structure LockState.Undisturbed (before after : LockState) (pid : Pid) : Prop where
  control : after.control pid = before.control pid
  locking : after.locking pid = before.locking pid
  level : after.level pid = before.level pid
  files : ∀ file, after.creator file = some pid → before.creator file = some pid

section Books

variable {state after : LockState} {pid other : Pid} {control : Control} {name : Name}

theorem LockState.Undisturbed.refl : state.Undisturbed state pid :=
  ⟨rfl, rfl, rfl, fun _ => id⟩

theorem LockState.Undisturbed.trans {middle : LockState} (first : state.Undisturbed middle pid)
    (second : middle.Undisturbed after pid)
    : state.Undisturbed after pid where
  control := second.control.trans first.control
  locking := second.locking.trans first.locking
  level := second.level.trans first.level
  files file created := first.files file (second.files file created)

theorem LockState.Undisturbed.booked (same : state.Undisturbed after pid)
    (booked : state.Booked pid)
    : after.Booked pid := by
  intro alive
  rw [LockState.Alive, same.control] at alive
  obtain ⟨locking, about, level, files⟩ := booked alive
  rw [same.control]
  refine ⟨same.locking.trans locking, about, ?_, ?_⟩
  · intro call inside
    rw [same.level]
    exact level call inside
  · intro name created
    rw [LockState.Locked, same.level]
    exact files name (same.files _ created)

variable (different : other ≠ pid)
include different

theorem undisturbed_goTo : state.Undisturbed (state.goTo other control) pid :=
  ⟨by simp [Ne.symm different], rfl, rfl, fun _ => id⟩

theorem undisturbed_setLocking (locking : Bool)
    : state.Undisturbed (state.setLocking other locking) pid :=
  ⟨rfl, by simp [LockState.setLocking, Ne.symm different], rfl, fun _ => id⟩

theorem undisturbed_setLevel (level : Nat)
    : state.Undisturbed (state.setLevel other name level) pid :=
  ⟨rfl, rfl, by simp [LockState.setLevel, Ne.symm different], fun _ => id⟩

theorem undisturbed_setFile {contents : Option LockFile}
    (creator : ∀ file ∈ contents, file.creator = other)
    : state.Undisturbed (state.setFile name contents) pid := by
  refine ⟨rfl, rfl, rfl, fun file created => ?_⟩
  rw [setFile_creator] at created
  split at created
  · obtain ⟨file, inside, isPid⟩ := Option.map_eq_some_iff.mp created
    exact absurd ((creator file inside).symm.trans isPid) different
  · exact created

omit different in
theorem undisturbed_writePid : state.Undisturbed (state.writePid other name) pid :=
  ⟨by simp, by unfold LockState.writePid; split <;> (try split) <;> rfl, by simp, by simp⟩

theorem undisturbed_unlock : state.Undisturbed (state.unlock other name) pid := by
  unfold LockState.unlock
  split
  · exact .refl
  · exact (undisturbed_setLevel different 0).trans (undisturbed_setFile different nofun)
  · exact undisturbed_setLevel different _

theorem undisturbed_lockRecursing {purpose : Purpose} {timeout : Nat}
    : state.Undisturbed (state.lockRecursing other name purpose timeout) pid := by
  unfold LockState.lockRecursing
  split
  · exact (undisturbed_setLevel different _).trans (undisturbed_goTo different)
  · exact undisturbed_goTo different

theorem undisturbed_notLocked {purpose : Purpose}
    : state.Undisturbed (state.notLocked other purpose) pid := by
  cases purpose with
  | script => exact undisturbed_goTo different
  | create call => exact undisturbed_lockRecursing different
  | check call => exact undisturbed_goTo different

theorem undisturbed_loop {call : LockCall} : state.Undisturbed (state.loop other call) pid := by
  unfold LockState.loop
  split
  · exact (undisturbed_setLocking different false).trans (undisturbed_goTo different)
  · exact undisturbed_lockRecursing different

theorem undisturbed_lock {timeout : Nat}
    : state.Undisturbed (state.lock other name timeout) pid := by
  unfold LockState.lock
  split
  · exact undisturbed_setLevel different _
  · split
    · exact .refl
    · exact (undisturbed_setLocking different true).trans (undisturbed_loop different)

theorem undisturbed_advance {refused old : Bool}
    : state.Undisturbed (state.advance other refused old) pid := by
  have goesTo {before : LockState} (same : state.Undisturbed before pid) (control : Control)
      : state.Undisturbed (before.goTo other control) pid :=
    same.trans (undisturbed_goTo different)
  have creates : ∀ file ∈ some { creator := other, recorded := false : LockFile },
      file.creator = other := by
    intro file isFile
    cases isFile
    rfl
  have deletes : ∀ file ∈ (none : Option LockFile), file.creator = other := nofun
  unfold LockState.advance
  split
  · exact .refl
  · split
    · exact undisturbed_notLocked different
    · split
      · exact goesTo .refl _
      · exact goesTo (undisturbed_setFile different creates) _
  · exact goesTo (undisturbed_writePid.trans (undisturbed_setLevel different _)) _
  · split
    · exact goesTo .refl _
    · split
      · exact goesTo .refl _
      · exact goesTo (undisturbed_setFile different creates) _
  · exact goesTo undisturbed_writePid _
  · exact goesTo (((undisturbed_unlock different).trans (undisturbed_setLevel different _)).trans
      (undisturbed_setLocking different _)) _
  · exact (undisturbed_unlock different).trans (undisturbed_lockRecursing different)
  · exact goesTo ((undisturbed_unlock different).trans (undisturbed_setLocking different _)) _
  · split
    · exact goesTo .refl _
    · exact goesTo .refl _
  · split
    · exact goesTo .refl _
    · split
      · exact goesTo .refl _
      · exact goesTo .refl _
  · split
    · exact goesTo .refl _
    · exact goesTo .refl _
  · exact goesTo (undisturbed_setFile different deletes) _
  · exact (undisturbed_unlock different).trans (undisturbed_loop different)
  · exact .refl

theorem undisturbed_step {step : LockStep} : state.Undisturbed (state.step other step) pid := by
  cases step with
  | lock name timeout recursing =>
      show state.Undisturbed (if _ then _ else _) pid
      split
      · cases recursing with
        | true => exact undisturbed_lockRecursing different
        | false => exact undisturbed_lock different
      · exact .refl
  | unlock name =>
      show state.Undisturbed (if _ then _ else _) pid
      split
      · exact undisturbed_unlock different
      · exact .refl
  | advance refused old => exact undisturbed_advance different
  | die => exact undisturbed_goTo different

end Books

-----------------------------------------------------------------------------------------
-- The steps of the process itself
-----------------------------------------------------------------------------------------

section OwnSteps

variable {state : LockState} {pid : Pid} {control next : Control} {name : Name} {call : LockCall}

/-- Operations that create and count nothing. -/
theorem LockState.BookedAt.goOn (booked : state.BookedAt pid control)
    (same : next.plainCall = control.plainCall)
    (inner : next.guarded.isSome = control.guarded.isSome) (about : next.About)
    (created : ∀ name, control.Created name → next.Created name)
    : state.BookedAt pid next where
  locking := by rw [booked.locking, same]
  about := about
  level call inside := by
    rw [inner]
    exact booked.level call (same ▸ inside)
  files name isPid := (booked.files name isPid).imp_right (created name)

theorem LockState.BookedAt.drop (booked : state.BookedAt pid control)
    : (state.setFile name none).BookedAt pid control where
  locking := booked.locking
  about := booked.about
  level := booked.level
  files other isPid := by
    rw [setFile_creator] at isPid
    split at isPid
    · cases isPid
    · exact booked.files other isPid

theorem LockState.BookedAt.writePid (booked : state.BookedAt pid control)
    : (state.writePid pid name).BookedAt pid control where
  locking := (@undisturbed_writePid state pid pid name).locking.trans booked.locking
  about := booked.about
  level := by
    rw [writePid_level]
    exact booked.level
  files other isPid := by
    rw [writePid_creator] at isPid
    rw [LockState.Locked, writePid_level]
    exact booked.files other isPid

/-- The lock around the lock file is held, and counted. -/
theorem LockState.BookedAt.hold {purpose : Purpose}
    (booked : state.BookedAt pid (.recordRecursing name purpose))
    : (state.setLevel pid name (state.level pid name + 1)).BookedAt pid purpose.locked where
  locking := by
    refine booked.locking.trans ?_
    cases purpose <;> rfl
  about := by cases purpose <;> trivial
  level call inside := by
    have isCall : purpose.call = some call := by
      cases purpose with
      | script => cases inside
      | create other => exact inside
      | check other => exact inside
    have isName : name = lockFile call.name := booked.about call isCall
    have free : state.level pid (lockFile call.name) = 0 := booked.level call isCall
    have held : purpose.locked.guarded.isSome = true := by
      cases purpose with
      | script => cases inside
      | create other => rfl
      | check other => rfl
    simp [isName, free, held]
  files other isPid := by
    refine .inl ?_
    simp only [LockState.Locked, setLevel_level, true_and]
    split
    · omega
    · rename_i apart
      refine (booked.files other isPid).resolve_right ?_
      exact fun created => apart created.symm

/-- The lock around the lock file is given up. -/
theorem LockState.BookedAt.giveUp (booked : state.BookedAt pid control)
    (inside : control.plainCall = some call) (held : control.guarded.isSome = true)
    : (state.unlock pid (lockFile call.name)).level pid (lockFile call.name) = 0
      ∧ (state.unlock pid (lockFile call.name)).locking pid = true
      ∧ ∀ name, (state.unlock pid (lockFile call.name)).creator (lockFile name) = some pid →
        (state.unlock pid (lockFile call.name)).Locked pid name ∨ control.Created name := by
  have level := booked.level call inside
  rw [if_pos held] at level
  refine ⟨by simp [level], ?_, ?_⟩
  · have same : (state.unlock pid (lockFile call.name)).locking pid = state.locking pid := by
      unfold LockState.unlock
      split <;> rfl
    rw [same, booked.locking, inside]
    rfl
  · intro name isPid
    rw [unlock_creator] at isPid
    split at isPid
    · cases isPid
    · rename_i apart
      have other : name ≠ lockFile call.name := fun same => apart ⟨by rw [same], level⟩
      simpa [LockState.Locked, other] using booked.files name isPid

/-- The call goes on to take the lock around the lock file. -/
theorem LockState.BookedAt.wants {purpose : Purpose} {tries : Nat}
    (free : state.level pid (lockFile call.name) = 0) (locking : state.locking pid = true)
    (files : ∀ name, state.creator (lockFile name) = some pid → state.Locked pid name)
    (isCall : purpose.call = some call)
    : state.BookedAt pid (.createRecursing (lockFile call.name) purpose tries) where
  locking := by rw [locking, Control.plainCall, isCall]; rfl
  about other inside := by rw [Option.some.inj (isCall.symm.trans inside)]
  level other inside := by
    rw [← Option.some.inj (isCall.symm.trans inside)]
    exact free
  files name isPid := .inl (files name isPid)

/-- Outside of a call, only the flag and the files count. -/
theorem LockState.BookedAt.leave (locking : state.locking pid = false)
    (files : ∀ name, state.creator (lockFile name) = some pid → state.Locked pid name)
    : state.BookedAt pid .script where
  locking := locking
  about := trivial
  level := nofun
  files name isPid := .inl (files name isPid)

/-- What a step leaves in order, and what it frees when it ends the plain call. -/
structure LockState.Kept (after : LockState) (pid : Pid) (control : Control) : Prop where
  booked : after.BookedAt pid (after.control pid)
  freed : after.control pid = .script → ∀ call, control.plainCall = some call →
    after.level pid (lockFile call.name) = 0

theorem LockState.BookedAt.kept (booked : state.BookedAt pid next) (inside : next ≠ .script)
    : (state.goTo pid next).Kept pid control := by
  have here : (state.goTo pid next).control pid = next := by simp
  refine ⟨?_, fun returned => absurd (here.symm.trans returned) inside⟩
  rw [here]
  exact ⟨booked.locking, booked.about, booked.level, booked.files⟩

theorem LockState.BookedAt.returned (booked : state.BookedAt pid .script)
    (freed : ∀ call, control.plainCall = some call →
      state.level pid (lockFile call.name) = 0)
    : (state.goTo pid .script).Kept pid control := by
  have here : (state.goTo pid .script).control pid = .script := by simp
  refine ⟨?_, fun _ => freed⟩
  rw [here]
  exact ⟨booked.locking, booked.about, booked.level, booked.files⟩

/-- An operation inside of the call that creates and counts nothing. -/
theorem LockState.BookedAt.goesOn (booked : state.BookedAt pid control) (inside : next ≠ .script)
    (same : next.plainCall = control.plainCall)
    (inner : next.guarded.isSome = control.guarded.isSome) (about : next.About)
    (created : ∀ name, control.Created name → next.Created name)
    : (state.goTo pid next).Kept pid control :=
  (booked.goOn same inner about created).kept inside

/-- The file of a lock is created. -/
theorem LockState.BookedAt.create (booked : state.BookedAt pid control)
    (inside : next ≠ .script) (same : next.plainCall = control.plainCall)
    (inner : next.guarded.isSome = control.guarded.isSome) (about : next.About)
    (created : ∀ other, control.Created other → next.Created other) (creates : next.Created name)
    : ((state.setFile (lockFile name) (some { creator := pid, recorded := false })).goTo pid
        next).Kept pid control := by
  have moved := booked.goOn same inner about created
  refine LockState.BookedAt.kept ⟨moved.locking, about, moved.level, ?_⟩ inside
  intro other isPid
  rw [setFile_creator] at isPid
  split at isPid
  · rename_i isName
    exact .inr (lockFile_injective isName ▸ creates)
  · exact moved.files other isPid

theorem lockRecursing_free {purpose : Purpose} {timeout : Nat} (free : state.level pid name = 0)
    : state.lockRecursing pid name purpose timeout
      = state.goTo pid (.createRecursing name purpose (tries pid timeout)) := by
  rw [LockState.lockRecursing, if_neg (by omega)]

/-- The head of the loop, with the lock around the lock file free. -/
theorem loop_kept (free : state.level pid (lockFile call.name) = 0)
    (locking : state.locking pid = true)
    (files : ∀ name, state.creator (lockFile name) = some pid → state.Locked pid name)
    (same : ∀ other, control.plainCall = some other → other.name = call.name)
    : (state.loop pid call).Kept pid control := by
  unfold LockState.loop
  split
  · refine LockState.BookedAt.returned (LockState.BookedAt.leave (by simp [LockState.setLocking])
      files) ?_
    intro other inside
    rw [same other inside]
    exact free
  · rw [lockRecursing_free free]
    exact (LockState.BookedAt.wants free locking files rfl).kept (fun same => by cases same)

/-- The end of a try: the lock around the lock file is given up. -/
theorem LockState.BookedAt.tried (booked : state.BookedAt pid control)
    (inside : control.plainCall = some call) (held : control.guarded.isSome = true)
    (created : ∀ name, ¬ control.Created name)
    : (state.unlock pid (lockFile call.name)).level pid (lockFile call.name) = 0
      ∧ (state.unlock pid (lockFile call.name)).locking pid = true
      ∧ ∀ name, (state.unlock pid (lockFile call.name)).creator (lockFile name) = some pid →
        (state.unlock pid (lockFile call.name)).Locked pid name := by
  obtain ⟨free, locking, files⟩ := booked.giveUp inside held
  exact ⟨free, locking, fun name isPid => (files name isPid).resolve_right (created name)⟩

theorem LockState.BookedAt.advance_createRecursing {purpose : Purpose} {retries : Nat}
    {refused old : Bool} (booked : state.BookedAt pid (.createRecursing name purpose retries))
    (isControl : state.control pid = .createRecursing name purpose retries)
    (careful : state.Careful pid (.advance refused old))
    : (state.advance pid refused old).Kept pid (.createRecursing name purpose retries) := by
  simp only [LockState.advance, isControl]
  split
  · rename_i failed
    cases purpose with
    | script =>
        exact LockState.BookedAt.returned (booked.goOn rfl rfl trivial nofun) nofun
    | create call =>
        have free := booked.level call rfl
        show (state.lockRecursing _ _ _ _).Kept pid _
        rw [lockRecursing_free free]
        exact LockState.BookedAt.kept (.wants free booked.locking
          (fun name isPid => (booked.files name isPid).resolve_right id) rfl) nofun
    | check call =>
        simp only [LockState.Careful, isControl] at careful
        rcases failed with last | isRefused
        · exact absurd last careful.1
        · exact absurd (isRefused.symm.trans careful.2) (by decide)
  · split
    · exact booked.goesOn nofun rfl rfl booked.about nofun
    · exact booked.create nofun rfl rfl booked.about nofun rfl

theorem LockState.BookedAt.advance_release {creation : Creation} {refused old : Bool}
    (booked : state.BookedAt pid (.release call creation))
    (isControl : state.control pid = .release call creation)
    : (state.advance pid refused old).Kept pid (.release call creation) := by
  cases creation with
  | made =>
      simp only [LockState.advance, isControl]
      obtain ⟨free, locking, files⟩ := booked.giveUp rfl rfl
      have apart : call.name ≠ lockFile call.name := (lockFile_ne call.name).symm
      refine LockState.BookedAt.returned (.leave (by simp [LockState.setLocking]) ?_) ?_
      · intro name isPid
        have found := files name isPid
        simp only [LockState.Locked, LockState.setLocking, setLevel_level, true_and]
        split
        · omega
        · rename_i different
          exact found.resolve_right (fun created => different created.symm)
      · intro other inside
        cases inside
        simpa [LockState.setLocking, Ne.symm apart] using free
  | «exists» =>
      simp only [LockState.advance, isControl]
      obtain ⟨free, locking, files⟩ := booked.tried rfl rfl (fun _ same => by cases same)
      rw [lockRecursing_free free]
      exact LockState.BookedAt.kept (.wants free locking files rfl) (fun same => by cases same)
  | refused =>
      simp only [LockState.advance, isControl]
      obtain ⟨free, locking, files⟩ := booked.tried rfl rfl (fun _ same => by cases same)
      refine LockState.BookedAt.returned (.leave (by simp [LockState.setLocking]) files) ?_
      intro other inside
      cases inside
      exact free

/-- A careful operation of a process. -/
theorem LockState.BookedAt.advance {refused old : Bool}
    (booked : state.BookedAt pid (state.control pid))
    (careful : state.Careful pid (.advance refused old))
    : (state.advance pid refused old).Kept pid (state.control pid) := by
  cases isControl : state.control pid with
  | script =>
      rw [isControl] at booked
      simp only [LockState.advance, isControl]
      exact ⟨by rw [isControl]; exact booked, nofun⟩
  | createRecursing name purpose retries =>
      rw [isControl] at booked
      exact booked.advance_createRecursing isControl careful
  | recordRecursing name purpose =>
      rw [isControl] at booked
      simp only [LockState.advance, isControl]
      have held := (@LockState.BookedAt.writePid _ _ _ (lockFile name) booked).hold
      rw [writePid_level] at held
      cases purpose with
      | script => exact held.returned nofun
      | create call => exact held.kept nofun
      | check call => exact held.kept nofun
  | create call =>
      rw [isControl] at booked
      simp only [LockState.advance, isControl]
      split
      · exact booked.goesOn nofun rfl rfl trivial nofun
      · split
        · exact booked.goesOn nofun rfl rfl trivial nofun
        · exact booked.create nofun rfl rfl trivial nofun rfl
  | record call =>
      rw [isControl] at booked
      simp only [LockState.advance, isControl]
      exact booked.writePid.goesOn nofun rfl rfl trivial (fun _ created => created)
  | release call creation =>
      rw [isControl] at booked
      exact booked.advance_release isControl
  | stat call =>
      rw [isControl] at booked
      simp only [LockState.advance, isControl]
      split
      · exact booked.goesOn nofun rfl rfl trivial nofun
      · exact booked.goesOn nofun rfl rfl trivial nofun
  | read call =>
      rw [isControl] at booked
      simp only [LockState.Careful, isControl] at careful
      obtain ⟨contents, found⟩ := Option.isSome_iff_exists.mp careful
      simp only [LockState.advance, isControl, found]
      split
      · exact booked.goesOn nofun rfl rfl trivial nofun
      · exact booked.goesOn nofun rfl rfl trivial nofun
  | judge call owner =>
      rw [isControl] at booked
      simp only [LockState.advance, isControl]
      split
      · exact booked.goesOn nofun rfl rfl trivial nofun
      · exact booked.goesOn nofun rfl rfl trivial nofun
  | delete call =>
      rw [isControl] at booked
      simp only [LockState.advance, isControl]
      exact booked.drop.goesOn nofun rfl rfl trivial nofun
  | retry call =>
      rw [isControl] at booked
      simp only [LockState.advance, isControl]
      obtain ⟨free, locking, files⟩ := booked.tried rfl rfl nofun
      refine loop_kept free locking files ?_
      intro other inside
      cases inside
      rfl
  | dead =>
      rw [isControl] at booked
      simp only [LockState.advance, isControl]
      exact ⟨by rw [isControl]; exact booked, nofun⟩

/-- Outside of a call, every lock file of the process is that of a lock it holds. -/
theorem LockState.BookedAt.script_files (booked : state.BookedAt pid .script) {name : Name}
    (isPid : state.creator (lockFile name) = some pid)
    : state.Locked pid name :=
  (booked.files name isPid).resolve_right id

/-- A script counts a lock that it holds once more. -/
theorem LockState.BookedAt.again (booked : state.BookedAt pid .script)
    : (state.setLevel pid name (state.level pid name + 1)).BookedAt pid .script := by
  refine .leave booked.locking ?_
  intro other isPid
  have found := booked.script_files isPid
  simp only [LockState.Locked, setLevel_level, true_and] at found ⊢
  split
  · omega
  · exact found

theorem LockState.BookedAt.lockRecursing {timeout : Nat}
    (booked : state.BookedAt pid .script)
    : (state.lockRecursing pid name .script timeout).Kept pid .script := by
  unfold LockState.lockRecursing
  split
  · exact booked.again.returned nofun
  · exact booked.goesOn nofun rfl rfl nofun nofun

theorem LockState.BookedAt.unlock (booked : state.BookedAt pid .script)
    : (state.unlock pid name).BookedAt pid .script := by
  have same : (state.unlock pid name).locking pid = state.locking pid := by
    unfold LockState.unlock
    split <;> rfl
  refine .leave (same.trans booked.locking) ?_
  intro other isPid
  rw [unlock_creator] at isPid
  split at isPid
  · cases isPid
  · rename_i apart
    have found := booked.script_files isPid
    simp only [LockState.Locked, unlock_level, true_and] at found ⊢
    split
    · rename_i isName
      subst isName
      have several : state.level pid other ≠ 1 := fun one => apart ⟨rfl, one⟩
      omega
    · exact found

/-- A plain call, when the script does not hold the lock around the lock file. -/
theorem LockState.BookedAt.lock {timeout : Nat} (booked : state.BookedAt pid (state.control pid))
    (script : state.control pid = .script) (free : state.level pid (lockFile name) = 0)
    : (state.lock pid name timeout).BookedAt pid ((state.lock pid name timeout).control pid)
      ∧ ((state.lock pid name timeout).control pid = .script →
        (state.lock pid name timeout).level pid (lockFile name) = 0) := by
  rw [script] at booked
  unfold LockState.lock
  split
  · refine ⟨?_, fun _ => by simpa [lockFile_ne] using free⟩
    show LockState.BookedAt _ pid (state.control pid)
    rw [script]
    exact booked.again
  · split
    · exact ⟨by rw [script]; exact booked, fun _ => free⟩
    · have kept : ((state.setLocking pid true).loop pid
          { name := name, retries := tries pid timeout }).Kept pid
            (.stat { name := name, retries := 0 }) :=
        loop_kept free (by simp [LockState.setLocking]) (fun name => booked.script_files)
          (fun other inside => by cases inside; rfl)
      exact ⟨kept.booked, fun returned => kept.freed returned _ rfl⟩

/-- A careful step of the process. -/
theorem LockState.BookedAt.step {step : LockStep} (booked : state.BookedAt pid (state.control pid))
    (careful : state.Careful pid step) (alive : (state.step pid step).Alive pid)
    : (state.step pid step).BookedAt pid ((state.step pid step).control pid) := by
  cases step with
  | lock name timeout recursing =>
      by_cases script : state.control pid = .script
      · cases recursing with
        | true =>
            rw [script] at booked
            have after := (@LockState.BookedAt.lockRecursing state pid name timeout booked).booked
            simpa [LockState.step, script] using after
        | false =>
            have after := (@LockState.BookedAt.lock state pid name timeout booked script
              (careful script)).1
            simpa [LockState.step, script] using after
      · simpa [LockState.step, script] using booked
  | unlock name =>
      by_cases script : state.control pid = .script
      · rw [script] at booked
        simpa [LockState.step, script] using booked.unlock
      · simpa [LockState.step, script] using booked
  | advance refused old => exact (booked.advance careful).booked
  | die => exact absurd (by simp [LockState.step]) alive

end OwnSteps

-----------------------------------------------------------------------------------------
-- Runs
-----------------------------------------------------------------------------------------

variable {state : LockState} {pid : Pid}

theorem step_alive {step : LockStep} (alive : (state.step pid step).Alive pid)
    : state.Alive pid := by
  intro dead
  refine alive ?_
  cases step with
  | lock name timeout recursing => simp [LockState.step, dead]
  | unlock name => simp [LockState.step, dead]
  | advance refused old => simp [LockState.step, LockState.advance, dead]
  | die => simp [LockState.step]

theorem LockState.Booked.run (booked : state.Booked pid) {steps : List (Pid × LockStep)}
    (careful : state.CarefulRun pid steps)
    : (state.run steps).Booked pid := by
  induction steps generalizing state with
  | nil => exact booked
  | cons step rest ih =>
      refine ih ?_ careful.2
      by_cases same : step.1 = pid
      · subst same
        intro alive
        have before := booked (step_alive alive)
        exact before.step (careful.1 rfl) alive
      · exact (undisturbed_step same).booked booked

theorem LockState.initial_booked : initial.Booked pid := by
  intro alive
  exact .leave rfl nofun

/-- The lock around the lock file keeps its level in a call that returns at once. -/
theorem lock_level {name : Name} {timeout : Nat}
    (returned : (state.lock pid name timeout).control pid = .script)
    : (state.lock pid name timeout).level pid (lockFile name)
      = state.level pid (lockFile name) := by
  unfold LockState.lock at returned ⊢
  split at returned
  · rename_i again
    rw [if_pos again]
    simp [lockFile_ne]
  · rename_i first
    rw [if_neg first]
    split at returned
    · rename_i locking
      rw [if_pos locking]
    · rename_i locking
      rw [if_neg locking]
      unfold LockState.loop at returned ⊢
      split at returned
      · rename_i last
        rw [if_pos last]
        rfl
      · unfold LockState.lockRecursing at returned
        split at returned
        · simp [Purpose.locked] at returned
        · simp at returned

theorem inside_ne_script {call : LockCall} (inside : (state.control pid).plainCall = some call)
    : state.control pid ≠ .script := by
  intro script
  rw [script] at inside
  cases inside

/-- An operation that is not careful leaves the flag set. -/
theorem careful_of_cleared {refused old : Bool} {call : LockCall}
    (booked : state.BookedAt pid (state.control pid))
    (inside : (state.control pid).plainCall = some call)
    (cleared : (state.advance pid refused old).locking pid = false)
    : state.Careful pid (.advance refused old) := by
  have locking : state.locking pid = true := by
    rw [booked.locking, inside]
    rfl
  by_contra careless
  have leaves : state.advance pid refused old = state.goTo pid .script := by
    unfold LockState.Careful at careless
    dsimp only at careless
    split at careless
    · rename_i retries isControl
      have failed : retries = 0 ∨ refused = true := by
        rw [not_and_or, not_not, Bool.not_eq_false] at careless
        exact careless
      simp only [LockState.advance, isControl, if_pos failed]
      rfl
    · rename_i isControl
      have gone := Option.not_isSome_iff_eq_none.mp careless
      simp only [LockState.advance, isControl, gone]
    · exact absurd trivial careless
  rw [leaves] at cleared
  exact absurd (locking.symm.trans cleared) (by decide)

/-- After a run in which the process was careful, a call of it that returns has restored the flag
and the lock around the lock file exactly if its last step was careful.
-/
theorem lockfile_restores_iff (steps : List (Pid × LockStep)) (pid : Pid) (step : LockStep)
    (name : Name) (careful : LockState.initial.CarefulRun pid steps)
    (returns : (LockState.initial.run steps).Returns pid step name)
    : ((LockState.initial.run steps).step pid step).Restored pid name
      ↔ (LockState.initial.run steps).Careful pid step := by
  have books := LockState.initial_booked.run careful
  generalize LockState.initial.run steps = state at books returns ⊢
  obtain ⟨returned, call⟩ := returns
  have alive : (state.step pid step).Alive pid := by
    rw [LockState.Alive, returned]
    exact fun same => by cases same
  have booked := books (step_alive alive)
  -- The level decides: the flag and the files follow from the books after the step.
  have restored (careful : state.Careful pid step)
      (free : (state.step pid step).level pid (lockFile name) = 0)
      : (state.step pid step).Restored pid name := by
    have after := booked.step careful alive
    rw [returned] at after
    refine ⟨after.locking, free, fun isPid => ?_⟩
    exact absurd (after.script_files isPid) (by simp [LockState.Locked, free])
  rcases call with ⟨timeout, rfl, script⟩ | ⟨call, inside, rfl⟩
  · have isLock : state.step pid (.lock name timeout false) = state.lock pid name timeout := by
      simp [LockState.step, script]
    have level := lock_level (isLock ▸ returned)
    constructor
    · rintro ⟨-, free, -⟩ -
      rw [isLock, level] at free
      exact free
    · intro careful
      refine restored careful ?_
      rw [isLock, level]
      exact careful script
  · cases step with
    | lock other timeout recursing =>
        have script := inside_ne_script inside
        simp [LockState.step, script] at returned
    | unlock other =>
        have script := inside_ne_script inside
        simp [LockState.step, script] at returned
    | die => simp [LockState.step] at returned
    | advance refused old =>
        constructor
        · rintro ⟨cleared, -⟩
          exact careful_of_cleared booked inside cleared
        · intro careful
          exact restored careful ((booked.advance careful).freed returned call inside)

/-- Locking a name with nothing in the way, up to the last operation. -/
def almostLocked : List (Pid × LockStep) :=
  (1, .lock ['x'] 120 false) :: List.replicate 4 (1, .advance false false)

theorem lockfile_restores_iff_alone
    : ((LockState.initial.run almostLocked).step 1 (.advance false false)).Restored 1 ['x']
      ↔ (LockState.initial.run almostLocked).Careful 1 (.advance false false) :=
  lockfile_restores_iff almostLocked 1 _ ['x'] (by decide +kernel)
    ⟨by decide +kernel, .inr ⟨{ name := ['x'], retries := tries 1 120 }, by decide +kernel, rfl⟩⟩

/-- Process 2 finds the lock file of `x` old. Before it opens it, process 1 unlocks the name. -/
def goneBeforeRead : List (Pid × LockStep) :=
  lockAlone 1 ['x'] ++ (2, .lock ['x'] 120 false) :: List.replicate 7 (2, .advance false true)
    ++ [(1, .unlock ['x'])]

/-- The error of `open` leaves the flag and the lock around the lock file behind. -/
theorem lockfile_leftLocked
    : ¬ ∀ steps pid step name, (LockState.initial.run steps).Returns pid step name →
      ((LockState.initial.run steps).step pid step).Restored pid name := by
  intro claim
  have restored := claim goneBeforeRead 2 (.advance false true) ['x']
    ⟨by decide +kernel, .inr ⟨{ name := ['x'], retries := tries 2 120 }, by decide +kernel, rfl⟩⟩
  have leftSet : ((LockState.initial.run goneBeforeRead).step 2 (.advance false true)).locking 2
      = true := by
    decide +kernel
  exact absurd (leftSet.symm.trans restored.1) (by decide)

end SpeedTables.Stapi
