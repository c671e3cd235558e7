import SpeedTables.Lib.WeakestPre

/-! The lock on the TSV file of a cached table: what `open_cached` and `save_ctable` leave of it when
one of their steps fails.
-/

namespace SpeedTables.Stapi

open Lib

-----------------------------------------------------------------------------------------
-- Steps
-----------------------------------------------------------------------------------------

/-- The steps that may raise an error. `prepare` is all that comes before the lock, and the `note`
steps are the messages of `debug`.
-/
inductive CacheStep where
  | prepare
  | lock
  | mtime
  | timeout
  | noteStale
  | noteReading
  | openTsv
  | getsFields
  | readTabsep
  | closeTsv
  | deleteTsv
  | openSql
  | readSql
  | closeSql
  | setTimeLimit
  | query
  | destroy
  | noteWriting
  | openSaved
  | putsFields
  | writeTabsep
  | closeSaved
  | deleteLock
  deriving DecidableEq

/-- What happens in one call: the steps that would fail, whether `lockfile` refuses the lock, whether
the files exist, whether there is a time column, and whether the TSV file is recent enough.
-/
structure CacheRun where
  fails : CacheStep → Bool
  refused : Bool
  tsvExists : Bool
  timeColumn : Bool
  recent : Bool
  sqlExists : Bool

/-- A computation on the lock level of the process for the TSV file. An error keeps the level it
happened at.
-/
abbrev CacheM := EStateM Unit Nat

/-- A computation ends at the level it began at, whether it returns or raises an error. -/
def CacheM.Restores {α : Type} (computation : CacheM α) (level : Nat) : Prop :=
  wp computation (fun _ after => after = level) (fun _ after => after = level) level

-----------------------------------------------------------------------------------------
-- The procedures
-----------------------------------------------------------------------------------------

namespace CacheRun

variable (run : CacheRun)

/-- One step. -/
def step (step : CacheStep) : CacheM Unit :=
  if run.fails step then throw () else pure ()

/-- Some steps, one after the other. -/
def steps : List CacheStep → CacheM Unit
  | [] => pure ()
  | first :: rest => do
      run.step first
      steps rest

/-- `lockfile`: an error or a refusal leaves the level. -/
def lockfile : CacheM Bool := do
  run.step .lock
  if run.refused then pure false
  else
    modify (· + 1)
    pure true

/-- `unlockfile` lowers the level before it deletes the lock file. -/
def unlockfile : CacheM Unit := do
  let level ← get
  if level = 0 then throw ()
  else
    set (level - 1)
    if level - 1 = 0 then run.step .deleteLock else pure ()

/-- The part of `save_ctable` that writes the file. -/
def writeTsv : CacheM Unit :=
  run.steps [.noteWriting, .openSaved, .putsFields, .writeTabsep, .closeSaved]

/-- `save_ctable`, with or without the name of the file. -/
def saveCtable (named : Bool) : CacheM Unit := do
  if named then run.writeTsv
  else
    run.step .prepare
    let locked ← run.lockfile
    if locked then
      run.writeTsv
      run.unlockfile
    else throw ()

/-- The TSV file is read unless it is stale. -/
def fresh : Bool :=
  run.timeColumn || run.recent

/-- A fresh file without a time column needs no update. -/
def complete : Bool :=
  run.tsvExists && !run.timeColumn && run.recent

/-- What `open_cached` does with an existing TSV file. -/
def readTsv : CacheM Unit :=
  if run.tsvExists then do
    run.step .mtime
    if run.timeColumn then pure ()
    else
      run.step .timeout
      if run.recent then pure () else run.step .noteStale
    if run.fresh then
      run.steps [.noteReading, .openTsv, .getsFields, .readTabsep, .closeTsv]
    else pure ()
    if run.complete then pure () else run.step .deleteTsv
  else pure ()

/-- What `open_cached` does when the table is not complete. Only the query is guarded. -/
def update : CacheM Unit :=
  if run.sqlExists then do
    run.steps [.openSql, .readSql, .closeSql, .setTimeLimit]
    if run.fails .query then
      run.step .destroy
      run.unlockfile
      throw ()
    else
      run.saveCtable true
      run.unlockfile
  else do
    run.unlockfile
    throw ()

/-- `open_cached` -/
def openCached : CacheM Unit := do
  run.step .prepare
  let locked ← run.lockfile
  if locked then
    run.readTsv
    if run.complete then run.unlockfile else run.update
  else throw ()

end CacheRun

-----------------------------------------------------------------------------------------
-- The level after a step
-----------------------------------------------------------------------------------------

namespace CacheRun

section Rules

variable {run : CacheRun} {level : Nat} {ok : Unit → Nat → Prop} {err : Unit → Nat → Prop}

theorem wp_step {step : CacheStep}
    : wp (run.step step) ok err level ↔ if run.fails step then err () level else ok () level := by
  unfold CacheRun.step
  split <;> simp

/-- Steps after one another end at the first that fails. -/
theorem wp_steps {steps : List CacheStep}
    : wp (run.steps steps) ok err level
      ↔ if steps.any run.fails then err () level else ok () level := by
  induction steps with
  | nil => simp [CacheRun.steps]
  | cons first rest ih =>
      rw [CacheRun.steps, wp_bind, wp_step]
      cases fails : run.fails first <;> simp [fails, ih]

theorem wp_lockfile {ok : Bool → Nat → Prop}
    : wp run.lockfile ok err level
      ↔ if run.fails .lock then err () level
        else if run.refused then ok false level else ok true (level + 1) := by
  unfold CacheRun.lockfile
  rw [wp_bind, wp_step]
  split
  · rfl
  · split
    · rfl
    · exact Iff.rfl

/-- From a level that the lock has raised, the level is lower whether or not the lock file can be
deleted.
-/
theorem wp_unlockfile
    : wp run.unlockfile ok err (level + 1)
      ↔ if level = 0 ∧ run.fails .deleteLock then err () level else ok () level := by
  unfold CacheRun.unlockfile
  by_cases outermost : level = 0 <;> simp [outermost, wp_step]

/-- The steps of `readTsv`. -/
def readSteps (run : CacheRun) : List CacheStep :=
  if run.tsvExists then
    .mtime :: (if run.timeColumn then [] else .timeout :: if run.recent then [] else [.noteStale])
      ++ (if run.fresh then [.noteReading, .openTsv, .getsFields, .readTabsep, .closeTsv] else [])
      ++ (if run.complete then [] else [.deleteTsv])
  else []

/-- The steps of `writeTsv`. -/
def writeSteps : List CacheStep :=
  [.noteWriting, .openSaved, .putsFields, .writeTabsep, .closeSaved]

/-- The steps of `update` whose errors are not caught. -/
def updateSteps (run : CacheRun) : List CacheStep :=
  if run.sqlExists then
    [.openSql, .readSql, .closeSql, .setTimeLimit]
      ++ (if run.fails .query then [.destroy] else writeSteps)
  else []

theorem wp_readTsv
    : wp run.readTsv ok err level
      ↔ if run.readSteps.any run.fails then err () level else ok () level := by
  unfold readTsv readSteps
  cases found : run.tsvExists with
  | false => simp
  | true =>
      cases timeColumn : run.timeColumn <;> cases recent : run.recent <;>
        simp [wp_step, wp_steps, fresh, complete, found, timeColumn, recent, ite_or]

theorem wp_update
    : wp run.update ok err (level + 1)
      ↔ if run.updateSteps.any run.fails then err () (level + 1)
        else if run.sqlExists = false ∨ run.fails .query then err () level
        else if level = 0 ∧ run.fails .deleteLock then err () level else ok () level := by
  unfold update updateSteps saveCtable writeTsv writeSteps
  cases noSql : run.sqlExists with
  | false => simp [wp_unlockfile]
  | true =>
      cases fails : run.fails .query <;>
        simp [wp_step, wp_steps, wp_unlockfile, ite_or]

/-- Both procedures prepare, and go on with the lock only. -/
theorem wp_locked {body : CacheM Unit}
    : wp (do
          run.step .prepare
          let locked ← run.lockfile
          if locked then body else throw ()) ok err level
      ↔ if run.fails .prepare ∨ run.fails .lock ∨ run.refused then err () level
        else wp body ok err (level + 1) := by
  rw [wp_bind, wp_step]
  simp only [ite_or]
  split
  · rfl
  · rw [wp_bind, wp_lockfile]
    simp only [if_true, Bool.false_eq_true, if_false, wp_throw]

end Rules

end CacheRun

-----------------------------------------------------------------------------------------
-- The level after a call
-----------------------------------------------------------------------------------------

/-- A call, of `save_ctable` with or without the name of the file. -/
inductive CacheCall where
  | openCached
  | saveCtable (named : Bool)

def CacheCall.perform (run : CacheRun) : CacheCall → CacheM Unit
  | .openCached => run.openCached
  | .saveCtable named => run.saveCtable named

/-- The steps that a call makes while it has the lock, and whose errors nothing catches. -/
def CacheCall.lockedSteps (run : CacheRun) : CacheCall → List CacheStep
  | .openCached => run.readSteps ++ (if run.complete then [] else run.updateSteps)
  | .saveCtable true => []
  | .saveCtable false => CacheRun.writeSteps

/-- A call ends at the lock level it began at exactly if it does not get the lock, or no step fails
that it makes with the lock and without a guard.
-/
theorem lockLevel_restored_iff (run : CacheRun) (call : CacheCall) (level : Nat)
    : (call.perform run).Restores level
      ↔ run.fails .prepare = true ∨ run.fails .lock = true ∨ run.refused = true
        ∨ ∀ step ∈ call.lockedSteps run, run.fails step = false := by
  have failing (steps : List CacheStep)
      : (∀ step ∈ steps, run.fails step = false) ↔ steps.any run.fails = false := by
    simp
  have raised : ¬ level + 1 = level := by omega
  rw [failing, ← or_assoc, ← or_assoc, or_assoc (a := run.fails .prepare = true)]
  unfold CacheM.Restores CacheCall.perform
  cases call with
  | openCached =>
      unfold CacheCall.lockedSteps CacheRun.openCached
      rw [CacheRun.wp_locked, wp_bind, CacheRun.wp_readTsv, List.any_append]
      split
      · rename_i unlocked
        simp [unlocked]
      · rename_i locked
        simp only [locked, false_or]
        cases read : run.readSteps.any run.fails with
        | true => simp
        | false =>
            cases complete : run.complete with
            | true => simp [CacheRun.wp_unlockfile]
            | false =>
                cases updated : run.updateSteps.any run.fails <;>
                  simp [CacheRun.wp_update, updated]
  | saveCtable named =>
      cases named with
      | true =>
          simp [CacheCall.lockedSteps, CacheRun.saveCtable, CacheRun.writeTsv, CacheRun.wp_steps]
      | false =>
          unfold CacheCall.lockedSteps CacheRun.saveCtable CacheRun.writeTsv CacheRun.writeSteps
          simp only [Bool.false_eq_true, if_false]
          rw [CacheRun.wp_locked, wp_bind, CacheRun.wp_steps]
          split
          · rename_i unlocked
            simp [unlocked]
          · rename_i locked
            simp only [locked, false_or]
            split
            · rename_i failed
              simp [failed]
            · rename_i wrote
              simp [CacheRun.wp_unlockfile, wrote]

/-- A run in which one step fails, with a TSV file to bring up to date. -/
def failingRun (step : CacheStep) : CacheRun where
  fails := (· == step)
  refused := false
  tsvExists := true
  timeColumn := true
  recent := false
  sqlExists := true

/-- A line that cannot be read leaves the file locked. -/
theorem lockLevel_keptLocked
    : ¬ ∀ (run : CacheRun) (call : CacheCall) (level : Nat), (call.perform run).Restores level := by
  intro claim
  have restored := claim (failingRun .readTabsep) .openCached 0
  unfold CacheM.Restores at restored
  simp [CacheCall.perform, CacheRun.openCached, CacheRun.wp_step, CacheRun.wp_lockfile,
    CacheRun.wp_readTsv, failingRun, CacheRun.readSteps, CacheRun.fresh] at restored

end SpeedTables.Stapi
