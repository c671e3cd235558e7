import Mathlib
import SpeedTables.Shared.Collector

/-! The lock of a reader process, shared by its searches and its cursors. -/

namespace SpeedTables.Shared

-----------------------------------------------------------------------------------------
-- State
-----------------------------------------------------------------------------------------

/-- A search of a reader table, with the cycle it has locked. A search that is about to start
or to restart has none.
-/
structure LockingSearch where
  table : Nat
  lock : Option Cell

/-- A cursor, with the cycle its search has left locked for it, or 0. -/
structure LockingCursor where
  name : Nat
  table : Nat
  lockCycle : Cell
  deriving DecidableEq

/-- A reader process: the cycle of the share, the process's own slot, its searches, innermost
first, its cursors, and the tables tagged by `cursorLock`.
-/
structure ReaderProcess where
  cycle : Cell
  slot : Cell
  searches : List LockingSearch
  cursors : List LockingCursor
  cursorLock : Nat → Bool

/-- A process at the present cycle, before its first search. -/
def ReaderProcess.new (cycle : Cell) : ReaderProcess where
  cycle := cycle
  slot := lostHorizon
  searches := []
  cursors := []
  cursorLock := fun _ => false

-----------------------------------------------------------------------------------------
-- Steps
-----------------------------------------------------------------------------------------

/-- What a search leaves behind: nothing, a cursor on its results, or the cursor of a search
without results.
-/
inductive Leaves where
  | nothing
  | cursor (name : Nat)
  | emptyCursor (name : Nat)
  deriving DecidableEq

/-- One step of the process, or of the master's cycle counter. -/
inductive LockEvent where
  | advance
  | start (table : Nat)
  | lock
  | restart
  | finish (leaves : Leaves)
  | destroyCursor (cursor : LockingCursor)
  deriving DecidableEq

/-- `read_lock`, with the slot known. -/
def ReaderProcess.readLock (process : ReaderProcess) : ReaderProcess :=
  { process with slot := process.cycle }

/-- `read_unlock`, with the slot known. -/
def ReaderProcess.readUnlock (process : ReaderProcess) : ReaderProcess :=
  { process with slot := lostHorizon }

/-- The end of `ctable_PerformSearch`. The locked cycle is kept in an `int`. -/
def ReaderProcess.endSearch (process : ReaderProcess) (table : Nat) (locked : Cell)
    : Leaves → ReaderProcess
  | .nothing => if locked.toInt32 ≠ 0 then process.readUnlock else process
  | .cursor name =>
      { process with
        cursors := { name := name, table := table, lockCycle := locked } :: process.cursors }
  | .emptyCursor name =>
      let left :=
        { process with
          cursors :=
            { name := name, table := table, lockCycle := lostHorizon } :: process.cursors }
      if locked.toInt32 ≠ 0 then left.readUnlock else left

/-- Whether a destroyed cursor was the last one of a table that is tagged as locked. -/
def ReaderProcess.lastLocked (process : ReaderProcess) (cursor : LockingCursor) : Bool :=
  (process.cursors.erase cursor).all (fun other => other.table ≠ cursor.table)
    && (process.cursorLock cursor.table || cursor.lockCycle.toInt32 ≠ 0)

/-- `ctable_DestroyCursor` -/
def ReaderProcess.destroyCursor (process : ReaderProcess) (cursor : LockingCursor)
    : ReaderProcess :=
  let tagged := process.cursorLock cursor.table || cursor.lockCycle.toInt32 ≠ 0
  let left :=
    { process with
      cursors := process.cursors.erase cursor
      cursorLock := Function.update process.cursorLock cursor.table
        (tagged && !process.lastLocked cursor) }
  if process.lastLocked cursor then left.readUnlock else left

/-- One step, when it can happen. A search starts outside of all searches, or in a script that
runs inside of the innermost one.
-/
def ReaderProcess.step (process : ReaderProcess) : LockEvent → Option ReaderProcess
  | .advance => some { process with cycle := nextCycle process.cycle }
  | .start table =>
      match process.searches with
      | { lock := none, .. } :: _ => none
      | searches => some { process with searches := { table := table, lock := none } :: searches }
  | .lock =>
      match process.searches with
      | { table := table, lock := none } :: rest =>
          some { process.readLock with
            searches := { table := table, lock := some process.cycle } :: rest }
      | _ => none
  | .restart =>
      match process.searches with
      | { table := table, lock := some _ } :: rest =>
          some { process.readUnlock with
            searches := { table := table, lock := none } :: rest }
      | _ => none
  | .finish leaves =>
      match process.searches with
      | { table := table, lock := some locked } :: rest =>
          some (ReaderProcess.endSearch { process with searches := rest } table locked leaves)
      | _ => none
  | .destroyCursor cursor =>
      if cursor ∈ process.cursors then some (process.destroyCursor cursor) else none

-----------------------------------------------------------------------------------------
-- The law and when it holds
-----------------------------------------------------------------------------------------

/-- The cycles at which the active searches and cursors took their locks. -/
def activeLocks (searches : List LockingSearch) (cursors : List LockingCursor) : List Cell :=
  searches.filterMap LockingSearch.lock
    ++ (cursors.map LockingCursor.lockCycle).filter (· ≠ lostHorizon)

def ReaderProcess.active (process : ReaderProcess) : List Cell :=
  activeLocks process.searches process.cursors

/-- The slot keeps every cycle since the oldest active lock from being collected. -/
def ReaderProcess.Disciplined (process : ReaderProcess) : Prop :=
  ∀ locked ∈ process.active,
    process.slot ≠ lostHorizon
      ∧ (process.cycle - locked).toNat ≤ (process.cycle - process.slot).toNat

/-- The locks that are active beside the one a step gives up. -/
def ReaderProcess.others (process : ReaderProcess) : LockEvent → List Cell
  | .restart | .finish _ => activeLocks process.searches.tail process.cursors
  | .destroyCursor cursor => activeLocks process.searches (process.cursors.erase cursor)
  | _ => process.active

/-- Whether a step calls `read_unlock`. -/
def ReaderProcess.unlocks (process : ReaderProcess) : LockEvent → Bool
  | .restart => true
  | .finish (.cursor _) => false
  | .finish _ =>
      match process.searches with
      | { lock := some locked, .. } :: _ => locked.toInt32 ≠ 0
      | _ => false
  | .destroyCursor cursor => process.lastLocked cursor
  | _ => false

/-- A step that does not disturb another search or cursor: a lock is taken at the cycle that
all active ones hold, and given up when no other one is active.
-/
def ReaderProcess.Undisturbed (process : ReaderProcess) (event : LockEvent) : Prop :=
  (event = .lock → process.cycle ≠ lostHorizon ∧ ∀ locked ∈ process.active, locked = process.cycle)
    ∧ (process.unlocks event = true → process.others event = [])

-----------------------------------------------------------------------------------------
-- Steps that keep the law
-----------------------------------------------------------------------------------------

/-- All active searches and cursors hold the cycle of the slot. -/
def ReaderProcess.Uniform (process : ReaderProcess) : Prop :=
  ∀ locked ∈ process.active, locked ≠ lostHorizon ∧ process.slot = locked

section
variable {process after : ReaderProcess} {event : LockEvent}

theorem ReaderProcess.Uniform.disciplined (uniform : process.Uniform)
    : process.Disciplined := by
  intro locked active
  obtain ⟨present, rfl⟩ := uniform locked active
  exact ⟨present, le_rfl⟩

/-- With an empty slot no search and no cursor may be active. -/
theorem ReaderProcess.disciplined_of_slot (empty : after.slot = lostHorizon)
    : after.Disciplined ↔ after.active = [] := by
  constructor
  · intro disciplined
    refine List.eq_nil_iff_forall_not_mem.mpr fun locked active => ?_
    exact (disciplined locked active).1 empty
  · intro none locked active
    rw [none] at active
    cases active

/-- A step that leaves the slot and adds no lock is harmless. -/
theorem ReaderProcess.Uniform.keep (uniform : process.Uniform)
    (sameSlot : after.slot = process.slot) (fewer : after.active ⊆ process.active)
    : after.Uniform := by
  intro locked active
  rw [sameSlot]
  exact uniform locked (fewer active)

/-- What a step without a call of `read_lock` or `read_unlock` does. -/
theorem ReaderProcess.Uniform.quiet (uniform : process.Uniform)
    (sameSlot : after.slot = process.slot) (fewer : after.active ⊆ process.active)
    (locks : event ≠ .lock) (unlocks : process.unlocks event = false)
    : (after.Disciplined ↔ process.Undisturbed event)
      ∧ (process.Undisturbed event → after.Uniform) := by
  have kept := uniform.keep sameSlot fewer
  refine ⟨⟨fun _ => ⟨fun same => absurd same locks, fun same => ?_⟩,
    fun _ => kept.disciplined⟩, fun _ => kept⟩
  rw [unlocks] at same
  cases same

/-- What a call of `read_unlock` does. -/
theorem ReaderProcess.unlock_iff (empty : after.slot = lostHorizon)
    (left : after.active = process.others event) (locks : event ≠ .lock)
    (unlocks : process.unlocks event = true)
    : (after.Disciplined ↔ process.Undisturbed event)
      ∧ (process.Undisturbed event → after.Uniform) := by
  have exactly : after.Disciplined ↔ process.Undisturbed event := by
    rw [disciplined_of_slot empty, left]
    exact ⟨fun none => ⟨fun same => absurd same locks, fun _ => none⟩,
      fun undisturbed => undisturbed.2 unlocks⟩
  refine ⟨exactly, fun undisturbed locked active => ?_⟩
  rw [(disciplined_of_slot empty).mp (exactly.mpr undisturbed)] at active
  cases active

/-- What the call of `read_lock` does. -/
theorem ReaderProcess.lock_iff (present : after.slot = process.cycle)
    (sameCycle : after.cycle = process.cycle)
    (more : after.active = process.cycle :: process.active)
    : (after.Disciplined ↔ process.Undisturbed .lock)
      ∧ (process.Undisturbed .lock → after.Uniform) := by
  have oldest : ∀ locked, (after.cycle - locked).toNat ≤ (after.cycle - after.slot).toNat ↔
      locked = process.cycle := by
    intro locked
    rw [present, sameCycle]
    bv_omega
  constructor
  · constructor
    · intro disciplined
      rw [Disciplined, more, present] at disciplined
      refine ⟨fun _ => ⟨(disciplined process.cycle List.mem_cons_self).1, ?_⟩, nofun⟩
      intro locked active
      have older := (disciplined locked (List.mem_cons_of_mem _ active)).2
      rw [← present] at older
      exact (oldest locked).mp older
    · rintro ⟨undisturbed, -⟩ locked active
      obtain ⟨started, same⟩ := undisturbed rfl
      rw [more] at active
      rw [oldest, present]
      rcases List.mem_cons.mp active with rfl | active
      · exact ⟨started, rfl⟩
      · exact ⟨started, same locked active⟩
  · rintro ⟨undisturbed, -⟩ locked active
    obtain ⟨started, same⟩ := undisturbed rfl
    rw [more] at active
    rw [present]
    rcases List.mem_cons.mp active with rfl | active
    · exact ⟨started, rfl⟩
    · rw [same locked active]
      exact ⟨started, rfl⟩

-----------------------------------------------------------------------------------------
-- Every step
-----------------------------------------------------------------------------------------

theorem activeLocks_cons {table : Nat} {lock : Option Cell} {searches : List LockingSearch}
    {cursors : List LockingCursor}
    : activeLocks ({ table := table, lock := lock } :: searches) cursors
      = lock.toList ++ activeLocks searches cursors := by
  cases lock <;> rfl

/-- The end of a search passes its lock on to its cursor, or gives it up. -/
theorem ReaderProcess.Uniform.finish {leaves : Leaves} (uniform : process.Uniform)
    (moved : process.step (.finish leaves) = some after)
    : (after.Disciplined ↔ process.Undisturbed (.finish leaves))
      ∧ (process.Undisturbed (.finish leaves) → after.Uniform) := by
  simp only [ReaderProcess.step] at moved
  split at moved
  next table locked rest searches =>
    cases moved
    have before : process.active = locked :: activeLocks rest process.cursors := by
      rw [active, searches, activeLocks_cons]
      rfl
    have others : process.others (.finish leaves) = activeLocks rest process.cursors := by
      rw [ReaderProcess.others, searches]
      rfl
    have fewer : activeLocks rest process.cursors ⊆ process.active := by
      rw [before]
      exact List.subset_cons_self _ _
    cases leaves with
    | cursor name =>
        refine uniform.quiet rfl ?_ nofun rfl
        rw [before]
        intro other active
        have passed : other = locked ∨ other ∈ activeLocks rest process.cursors := by
          simp only [ReaderProcess.active, ReaderProcess.endSearch, activeLocks, List.map_cons,
            List.mem_append, List.mem_filter, List.mem_cons] at active ⊢
          tauto
        exact List.mem_cons.mpr passed
    | nothing =>
        have unlocks : process.unlocks (.finish .nothing) = decide (locked.toInt32 ≠ 0) := by
          simp only [ReaderProcess.unlocks, searches]
        by_cases zero : locked.toInt32 ≠ 0
        · refine unlock_iff ?_ ?_ nofun (by rw [unlocks, decide_eq_true zero])
          · simp only [ReaderProcess.endSearch, if_pos zero, ReaderProcess.readUnlock]
          · rw [others]
            simp only [ReaderProcess.endSearch, if_pos zero, ReaderProcess.readUnlock, active]
        · refine uniform.quiet ?_ ?_ nofun (by rw [unlocks, decide_eq_false zero])
          · simp only [ReaderProcess.endSearch, if_neg zero]
          · simpa only [ReaderProcess.endSearch, if_neg zero, active] using fewer
    | emptyCursor name =>
        have dropped : activeLocks rest
            ({ name := name, table := table, lockCycle := lostHorizon } :: process.cursors)
            = activeLocks rest process.cursors := by
          simp [activeLocks]
        have unlocks : process.unlocks (.finish (.emptyCursor name))
            = decide (locked.toInt32 ≠ 0) := by
          simp only [ReaderProcess.unlocks, searches]
        by_cases zero : locked.toInt32 ≠ 0
        · refine unlock_iff ?_ ?_ nofun (by rw [unlocks, decide_eq_true zero])
          · simp only [ReaderProcess.endSearch, if_pos zero, ReaderProcess.readUnlock]
          · rw [others]
            simpa only [ReaderProcess.endSearch, if_pos zero, ReaderProcess.readUnlock, active]
              using dropped
        · refine uniform.quiet ?_ ?_ nofun (by rw [unlocks, decide_eq_false zero])
          · simp only [ReaderProcess.endSearch, if_neg zero]
          · simp only [ReaderProcess.endSearch, if_neg zero, active]
            rw [dropped]
            exact fewer
  next => cases moved

/-- A destroyed cursor takes the lock with it only if it is the last one of its table. -/
theorem ReaderProcess.Uniform.destroy {cursor : LockingCursor} (uniform : process.Uniform)
    (moved : process.step (.destroyCursor cursor) = some after)
    : (after.Disciplined ↔ process.Undisturbed (.destroyCursor cursor))
      ∧ (process.Undisturbed (.destroyCursor cursor) → after.Uniform) := by
  simp only [ReaderProcess.step] at moved
  split at moved
  next =>
    cases moved
    have fewer : activeLocks process.searches (process.cursors.erase cursor)
        ⊆ process.active := by
      refine List.append_subset.mpr ⟨List.subset_append_left _ _, ?_⟩
      refine List.Subset.trans ?_ (List.subset_append_right _ _)
      intro locked found
      obtain ⟨kept, present⟩ := List.mem_filter.mp found
      exact List.mem_filter.mpr ⟨List.map_subset _ List.erase_subset kept, present⟩
    by_cases last : process.lastLocked cursor = true
    · refine unlock_iff ?_ ?_ nofun last
      · simp only [ReaderProcess.destroyCursor, if_pos last, ReaderProcess.readUnlock]
      · simp only [ReaderProcess.destroyCursor, if_pos last, ReaderProcess.readUnlock, active,
          ReaderProcess.others]
    · refine uniform.quiet ?_ ?_ nofun (Bool.eq_false_iff.mpr last)
      · simp only [ReaderProcess.destroyCursor, if_neg last]
      · simpa only [ReaderProcess.destroyCursor, if_neg last, active] using fewer
  next => cases moved

/-- A step keeps the law exactly when it disturbs no other search or cursor, and then the
locks stay uniform, by the case of its event.
-/
theorem ReaderProcess.Uniform.step (uniform : process.Uniform)
    (moved : process.step event = some after)
    : (after.Disciplined ↔ process.Undisturbed event)
      ∧ (process.Undisturbed event → after.Uniform) := by
  cases event with
  | advance =>
      cases moved
      exact uniform.quiet rfl (List.Subset.refl _) nofun rfl
  | start table =>
      simp only [ReaderProcess.step] at moved
      split at moved
      next => cases moved
      next =>
        cases moved
        exact uniform.quiet rfl (List.Subset.refl _) nofun rfl
  | lock =>
      simp only [ReaderProcess.step] at moved
      split at moved
      next table rest searches =>
        cases moved
        refine lock_iff rfl rfl ?_
        rw [active, active, searches, activeLocks_cons, activeLocks_cons]
        rfl
      next => cases moved
  | restart =>
      simp only [ReaderProcess.step] at moved
      split at moved
      next table locked rest searches =>
        cases moved
        refine unlock_iff rfl ?_ nofun rfl
        rw [active, ReaderProcess.others, searches, activeLocks_cons]
        rfl
      next => cases moved
  | finish leaves => exact uniform.finish moved
  | destroyCursor cursor => exact uniform.destroy moved

end

-----------------------------------------------------------------------------------------
-- Runs
-----------------------------------------------------------------------------------------

/-- A run of steps with a property. -/
def ReaderProcess.Runs (allowed : ReaderProcess → LockEvent → Prop)
    : ReaderProcess → ReaderProcess → Prop :=
  Relation.ReflTransGen (fun before after =>
    ∃ event, allowed before event ∧ before.step event = some after)

/-- As long as no step disturbs another search or cursor, the slot protects all of them, by
induction on the run.
-/
theorem disciplined_of_undisturbed {cycle : Cell} {process : ReaderProcess}
    (run : (ReaderProcess.new cycle).Runs ReaderProcess.Undisturbed process)
    : process.Disciplined := by
  suffices process.Uniform from this.disciplined
  induction run with
  | refl =>
      intro locked active
      cases active
  | tail _ moved uniform =>
      obtain ⟨event, undisturbed, moved⟩ := moved
      exact (uniform.step moved).2 undisturbed

/-- A search locks a table and leaves a cursor, which holds the lock. -/
theorem disciplined_of_undisturbed_cursor
    : ReaderProcess.Disciplined
        { ReaderProcess.new 5 with
          slot := 5, cursors := [{ name := 1, table := 2, lockCycle := 5 }] } := by
  let started : ReaderProcess :=
    { ReaderProcess.new 5 with searches := [{ table := 2, lock := none }] }
  let locked : ReaderProcess :=
    { ReaderProcess.new 5 with slot := 5, searches := [{ table := 2, lock := some 5 }] }
  have start : (ReaderProcess.new 5).step (.start 2) = some started := rfl
  have lock : started.step .lock = some locked := rfl
  refine @disciplined_of_undisturbed 5 _ ?_
  refine .head ⟨.start 2, ⟨nofun, nofun⟩, start⟩ ?_
  refine .head ⟨.lock, ⟨fun _ => ⟨?_, ?_⟩, nofun⟩, lock⟩ ?_
  · exact (by decide : (5 : Cell) ≠ lostHorizon)
  · intro cycle active
    cases active
  · exact .single ⟨.finish (.cursor 1), ⟨nofun, nofun⟩, rfl⟩

/-- A search run from the code body of another one ends by emptying the slot of both. -/
theorem disciplined_nested_search
    : ¬ ∀ (cycle : Cell) (process : ReaderProcess),
        (ReaderProcess.new cycle).Runs (fun _ _ => True) process → process.Disciplined := by
  intro law
  let one : LockingSearch := { table := 2, lock := some 5 }
  let two : ReaderProcess :=
    { ReaderProcess.new 5 with slot := 5, searches := [{ table := 3, lock := some 5 }, one] }
  have run : (ReaderProcess.new 5).Runs (fun _ _ => True)
      { ReaderProcess.new 5 with searches := [one] } := by
    refine @Relation.ReflTransGen.tail _ _ _ two _ ?_ ⟨.finish .nothing, trivial, ?_⟩
    · refine .head ⟨.start 2, trivial, rfl⟩ ?_
      refine .head ⟨.lock, trivial, rfl⟩ ?_
      refine .head ⟨.start 3, trivial, rfl⟩ ?_
      exact .single ⟨.lock, trivial, rfl⟩
    · have kept : Cell.toInt32 5#64 ≠ 0 := by decide
      simp [two, ReaderProcess.step, ReaderProcess.endSearch, ReaderProcess.readUnlock,
        ReaderProcess.new, kept]
  exact absurd rfl (law 5 _ run 5 List.mem_cons_self).1

end SpeedTables.Shared
