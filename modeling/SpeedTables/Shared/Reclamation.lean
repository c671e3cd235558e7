import Mathlib
import SpeedTables.Shared.Collector

/-! A block queued while a reader holds its lock stays queued until that reader gives it up. -/

namespace SpeedTables.Shared

-----------------------------------------------------------------------------------------
-- Cycle arithmetic
-----------------------------------------------------------------------------------------

theorem toInt32_of_small {cell : Cell} (small : cell.toNat < 2 ^ 31)
    : cell.toInt32 = cell.toNat := by
  unfold Cell.toInt32
  rw [BitVec.toInt_eq_toNat_of_lt]
  · simp only [BitVec.toNat_setWidth]
    omega
  · simp only [BitVec.toNat_setWidth]
    omega

theorem toInt32_of_large {cell : Cell} (large : 2 ^ 64 - 2 ^ 31 ≤ cell.toNat)
    : cell.toInt32 = cell.toNat - 2 ^ 64 := by
  have bound := cell.isLt
  unfold Cell.toInt32
  rw [BitVec.toInt_eq_toNat_cond, BitVec.toNat_setWidth]
  split <;> omega

theorem nextCycle_ne (cycle : Cell)
    : nextCycle cycle ≠ lostHorizon := by
  unfold nextCycle lostHorizon
  split <;> intro same <;> bv_omega

theorem nextCycle_sub {cycle earlier : Cell} (small : (cycle - earlier).toNat < 2 ^ 31)
    : (nextCycle cycle - earlier).toNat
      = (cycle - earlier).toNat + (if cycle + 1 = lostHorizon then 2 else 1) := by
  unfold nextCycle
  split <;> bv_omega

/-- A block freed no earlier than the oldest reader's load is not collectable, as long as the
difference of the two, with the margin, fits an `int`.
-/
theorem not_collectable {cycle oldest freed : Cell} {memory : Nat}
    (present : oldest ≠ lostHorizon) (counted : freed ≠ lostHorizon)
    (older : (cycle - freed).toNat ≤ (cycle - oldest).toNat)
    (timely : (cycle - oldest).toNat < 2 ^ 31 - 64)
    : ¬ collectable (collectHorizon oldest) { cycle := freed, memory := memory } := by
  unfold collectable collectHorizon
  simp only [present, ↓reduceIte, counted, false_or, not_or, not_lt]
  unfold lostHorizon at *
  split
  next =>
    refine ⟨by bv_omega, ?_⟩
    rw [toInt32_of_large] <;> bv_omega
  next =>
    refine ⟨by assumption, ?_⟩
    rw [toInt32_of_large] <;> bv_omega

-----------------------------------------------------------------------------------------
-- What a step changes
-----------------------------------------------------------------------------------------

/-- The changes a step of the segment can make. -/
inductive Segment.Change (slots : Nat) (segment : Segment)
    : SegmentEvent → Segment → Prop where
  | attached (pid) (idle : segment.task = .idle)
      : Change slots segment (.attach pid) segment
  | attach (pid index) (idle : segment.task = .idle) (present : pid ≠ 0)
      (free : (segment.slots index).pid = 0)
      : Change slots segment (.attach pid)
          { segment with
            slots := Function.update segment.slots index { pid := pid, cycle := lostHorizon } }
  | writeLock (idle : segment.task = .idle)
      : Change slots segment .writeLock { segment with cycle := nextCycle segment.cycle }
  | shmfree (memory) (idle : segment.task = .idle)
      : Change slots segment (.shmfree memory)
          { segment with
            garbage := segment.garbage ++ [{ cycle := segment.cycle, memory := memory }] }
  | postpone (idle : segment.task = .idle)
      : Change slots segment .writeUnlock { segment with strikes := segment.strikes + 1 }
  | scan (idle : segment.task = .idle)
      : Change slots segment .writeUnlock
          { segment with
            strikes := 0
            task := .scanning 0 false segment.cycle lostHorizon 0 }
  | decide (index checked mapCycle newCycle oldestAge)
      (task : segment.task = .scanning index checked mapCycle newCycle oldestAge)
      (past : slots ≤ index)
      : Change slots segment .proceed (segment.decide newCycle)
  | read (index mapCycle newCycle oldestAge)
      (task : segment.task = .scanning index true mapCycle newCycle oldestAge)
      : Change slots segment .proceed
          { segment with
            task :=
              .scanning (index + 1) false mapCycle
                (olderCycle mapCycle newCycle oldestAge (segment.slots index).cycle).1
                (olderCycle mapCycle newCycle oldestAge (segment.slots index).cycle).2 }
  | skip (index mapCycle newCycle oldestAge)
      (task : segment.task = .scanning index false mapCycle newCycle oldestAge)
      (free : (segment.slots index).pid = 0)
      : Change slots segment .proceed
          { segment with task := .scanning (index + 1) false mapCycle newCycle oldestAge }
  | check (index mapCycle newCycle oldestAge)
      (task : segment.task = .scanning index false mapCycle newCycle oldestAge)
      (alive : (segment.readers (segment.slots index).pid).alive = true)
      : Change slots segment .proceed
          { segment with task := .scanning index true mapCycle newCycle oldestAge }
  | reap (index mapCycle newCycle oldestAge)
      (task : segment.task = .scanning index false mapCycle newCycle oldestAge)
      (dead : (segment.readers (segment.slots index).pid).alive = false)
      : Change slots segment .proceed
          { segment with
            slots := Function.update segment.slots index { pid := 0, cycle := lostHorizon }
            task := .scanning (index + 1) false mapCycle newCycle oldestAge }
  | stop (horizon) (task : segment.task = .collecting horizon)
      : Change slots segment .proceed { segment with task := .idle }
  | collect (horizon first rest) (task : segment.task = .collecting horizon)
      (queue : segment.garbage = first :: rest) (can : collectable horizon first)
      : Change slots segment .proceed
          { segment with garbage := rest, freed := first.memory :: segment.freed }
  | lost (pid) (idle : (segment.readers pid).phase = .idle)
      : Change slots segment (.load pid) segment
  | load (pid index) (alive : (segment.readers pid).alive = true)
      (idle : (segment.readers pid).phase = .idle) (present : pid ≠ 0)
      (found : (segment.readers pid).self = some index
        ∨ index < slots ∧ (segment.slots index).pid = pid)
      : Change slots segment (.load pid)
          (segment.setReader pid
            { alive := true, self := some index, phase := .loaded segment.cycle })
  | store (pid index cycle)
      (reader : segment.readers pid
        = { alive := true, self := some index, phase := .loaded cycle })
      : Change slots segment (.store pid)
          ((segment.setSlotCycle index cycle).setReader pid
            { alive := true, self := some index, phase := .holding cycle })
  | unlock (pid index cycle)
      (reader : segment.readers pid
        = { alive := true, self := some index, phase := .holding cycle })
      : Change slots segment (.unlock pid)
          ((segment.setSlotCycle index lostHorizon).setReader pid
            { alive := true, self := some index, phase := .idle })
  | die (pid)
      : Change slots segment (.die pid)
          (segment.setReader pid { segment.readers pid with alive := false })

/-- After the scan the master either collects up to the oldest reader's cycle or is done. -/
theorem decide_spec (segment : Segment) (newCycle : Cell)
    : ∃ horizon task, segment.decide newCycle
        = { segment with horizon := horizon, task := task }
      ∧ (task = .idle ∨ task = .collecting
          (collectHorizon (if newCycle = lostHorizon then segment.cycle else newCycle))) := by
  unfold Segment.decide
  dsimp only
  by_cases far : (twilightZone : Int) < Cell.toInt32
      ((if newCycle = lostHorizon then segment.cycle else newCycle) - segment.horizon)
  · rw [if_pos far]
    exact ⟨_, _, rfl, .inr rfl⟩
  · rw [if_neg far]
    exact ⟨segment.horizon, .idle, rfl, .inl rfl⟩

theorem attachPid_change {slots : Nat} {segment : Segment} {pid : Pid}
    (idle : segment.task = .idle)
    : segment.Change slots (.attach pid) (segment.attachPid slots pid) := by
  unfold Segment.attachPid
  split
  · exact .attached pid idle
  · rename_i fresh
    split
    next index found =>
      have free := List.find?_some found
      exact .attach pid index idle (fun zero => fresh (.inl zero)) (by simpa using free)
    next => exact .attached pid idle

theorem beginUnlock_change {slots : Nat} {segment : Segment} (idle : segment.task = .idle)
    : segment.Change slots .writeUnlock segment.beginUnlock := by
  unfold Segment.beginUnlock
  split
  · exact .postpone idle
  · exact .scan idle

theorem proceed_change {slots : Nat} {segment after : Segment}
    (moved : segment.proceed slots = some after)
    : segment.Change slots .proceed after := by
  unfold Segment.proceed at moved
  split at moved
  next => cases moved
  next index checked mapCycle newCycle oldestAge task =>
    split at moved
    next past =>
      cases moved
      exact .decide index checked mapCycle newCycle oldestAge task past
    next =>
      cases checked with
      | true =>
          simp only [↓reduceIte, Option.some.injEq] at moved
          subst moved
          exact .read index mapCycle newCycle oldestAge task
      | false =>
          simp only [Bool.false_eq_true, ↓reduceIte] at moved
          split at moved
          next free =>
            cases moved
            exact .skip index mapCycle newCycle oldestAge task free
          next =>
            split at moved
            next alive =>
              cases moved
              exact .check index mapCycle newCycle oldestAge task alive
            next dead =>
              cases moved
              exact .reap index mapCycle newCycle oldestAge task (by simpa using dead)
  next horizon task =>
    split at moved
    next =>
      cases moved
      exact .stop horizon task
    next first rest queue =>
      split at moved
      next can =>
        cases moved
        exact .collect horizon first rest task queue can
      next =>
        cases moved
        exact .stop horizon task

theorem load_change {slots : Nat} {segment : Segment} {pid : Pid} (present : pid ≠ 0)
    (alive : (segment.readers pid).alive = true)
    (idle : (segment.readers pid).phase = .idle)
    : segment.Change slots (.load pid) (segment.load slots pid) := by
  unfold Segment.load
  dsimp only
  split
  next index found =>
    rw [alive]
    refine .load pid index alive idle present ?_
    cases self : (segment.readers pid).self with
    | some own =>
        rw [self] at found
        exact .inl found
    | none =>
        rw [self, Option.none_or] at found
        have here := List.find?_some found
        have inside := List.mem_of_find?_eq_some found
        exact .inr ⟨List.mem_range.mp inside, by simpa using here⟩
  next => exact .lost pid idle

/-- A step makes one of the listed changes, by the case of its event. -/
theorem step_change {slots : Nat} {segment after : Segment} {event : SegmentEvent}
    (moved : segment.step slots event = some after)
    : segment.Change slots event after := by
  cases event with
  | attach pid =>
      cases task : segment.task <;> simp only [Segment.step, task] at moved <;> cases moved
      exact attachPid_change task
  | writeLock =>
      simp only [Segment.step] at moved
      split at moved
      next task =>
        cases moved
        exact .writeLock task
      next => cases moved
  | shmfree memory =>
      simp only [Segment.step] at moved
      split at moved
      next task =>
        cases moved
        exact .shmfree memory task
      next => cases moved
  | writeUnlock =>
      cases task : segment.task <;> simp only [Segment.step, task] at moved <;> cases moved
      exact beginUnlock_change task
  | proceed => exact proceed_change moved
  | load pid =>
      simp only [Segment.step] at moved
      split at moved
      next reader =>
        split at moved
        · cases moved
        · rename_i present
          cases moved
          exact load_change present (by rw [reader]) (by rw [reader])
      next => cases moved
  | store pid =>
      simp only [Segment.step] at moved
      split at moved
      next index cycle reader =>
        cases moved
        exact .store pid index cycle reader
      next => cases moved
  | unlock pid =>
      simp only [Segment.step] at moved
      split at moved
      next index cycle reader =>
        cases moved
        exact .unlock pid index cycle reader
      next => cases moved
  | die pid =>
      cases moved
      exact .die pid

-----------------------------------------------------------------------------------------
-- Slots and readers
-----------------------------------------------------------------------------------------

/-- The slots say what the living readers do: a reader that has found its slot keeps it, and the
slot shows the cycle that the reader holds.
-/
structure Segment.Consistent (slots : Nat) (segment : Segment) : Prop where
  started : ∀ index, (segment.slots index).pid ≠ 0 → segment.cycle ≠ lostHorizon
  placed : ∀ pid index, (segment.readers pid).alive = true →
    (segment.readers pid).self = some index →
    index < slots ∧ (segment.slots index).pid = pid ∧ pid ≠ 0
  locked : ∀ pid cycle, (segment.readers pid).alive = true →
    (segment.readers pid).phase.cycle = some cycle →
    cycle ≠ lostHorizon ∧ ∃ index, (segment.readers pid).self = some index
  stored : ∀ pid index cycle, (segment.readers pid).alive = true →
    (segment.readers pid).self = some index → (segment.readers pid).phase = .holding cycle →
    (segment.slots index).cycle = cycle
  shown : ∀ index, (segment.readers (segment.slots index).pid).alive = true →
    (segment.slots index).cycle ≠ lostHorizon →
    (segment.readers (segment.slots index).pid).self = some index
      ∧ (segment.readers (segment.slots index).pid).phase
        = .holding (segment.slots index).cycle

theorem Segment.new_consistent (slots : Nat)
    : Segment.new.Consistent slots where
  started index present := absurd rfl present
  placed pid index alive own := by cases own
  locked pid cycle alive held := by cases held
  stored pid index cycle alive own := by cases own
  shown index alive held := absurd rfl held

/-- Consistency does not depend on the rest of the segment. -/
theorem Segment.Consistent.congr {slots : Nat} {segment after : Segment}
    (consistent : segment.Consistent slots) (sameSlots : after.slots = segment.slots)
    (sameReaders : after.readers = segment.readers)
    (cycle : segment.cycle ≠ lostHorizon → after.cycle ≠ lostHorizon)
    : after.Consistent slots where
  started index := by
    rw [sameSlots]
    exact fun present => cycle (consistent.started index present)
  placed := by
    rw [sameSlots, sameReaders]
    exact consistent.placed
  locked := by
    rw [sameReaders]
    exact consistent.locked
  stored := by
    rw [sameSlots, sameReaders]
    exact consistent.stored
  shown := by
    rw [sameSlots, sameReaders]
    exact consistent.shown

/-- A slot without a living owner can be given to another process. -/
theorem Segment.Consistent.assign {slots index : Nat} {segment after : Segment} {pid : Pid}
    (consistent : segment.Consistent slots)
    (vacant : (segment.slots index).pid = 0
      ∨ (segment.readers (segment.slots index).pid).alive = false)
    (sameSlots : after.slots
      = Function.update segment.slots index { pid := pid, cycle := lostHorizon })
    (sameReaders : after.readers = segment.readers) (sameCycle : after.cycle = segment.cycle)
    (begun : pid ≠ 0 → segment.cycle ≠ lostHorizon)
    : after.Consistent slots := by
  have unowned : ∀ other owned, (segment.readers other).alive = true →
      (segment.readers other).self = some owned → owned ≠ index := by
    intro other owned alive own same
    subst same
    obtain ⟨-, here, present⟩ := consistent.placed other owned alive own
    rw [here] at vacant
    rcases vacant with zero | dead
    · exact present zero
    · simp [alive] at dead
  constructor
  · intro other present
    rw [sameSlots] at present
    rw [sameCycle]
    by_cases same : other = index
    · subst same
      rw [Function.update_self] at present
      exact begun present
    · rw [Function.update_of_ne same] at present
      exact consistent.started other present
  · intro other owned alive own
    rw [sameReaders] at alive own
    rw [sameSlots, Function.update_of_ne (unowned other owned alive own)]
    exact consistent.placed other owned alive own
  · rw [sameReaders]
    exact consistent.locked
  · intro other owned cycle alive own held
    rw [sameReaders] at alive own held
    rw [sameSlots, Function.update_of_ne (unowned other owned alive own)]
    exact consistent.stored other owned cycle alive own held
  · intro other alive held
    rw [sameReaders, sameSlots] at *
    by_cases same : other = index
    · subst same
      rw [Function.update_self] at held
      exact absurd rfl held
    · rw [Function.update_of_ne same] at alive held ⊢
      exact consistent.shown other alive held

/-- A reader in possession of its slot can go on to a phase that its slot shows. -/
theorem Segment.Consistent.advance {slots index : Nat} {segment after : Segment} {pid : Pid}
    {phase : ReaderPhase} {cycle : Cell} (consistent : segment.Consistent slots)
    (owner : index < slots ∧ (segment.slots index).pid = pid ∧ pid ≠ 0)
    (before : ∀ other, (segment.slots other).pid = pid →
      (segment.slots other).cycle ≠ lostHorizon → (segment.readers pid).alive = true →
      other = index)
    (sameSlots : after.slots = Function.update segment.slots index
      { segment.slots index with cycle := cycle })
    (sameReaders : after.readers = Function.update segment.readers pid
      { alive := true, self := some index, phase := phase })
    (sameCycle : after.cycle = segment.cycle)
    (alive : (segment.readers pid).alive = true)
    (locked : ∀ held, phase.cycle = some held → held ≠ lostHorizon)
    (stored : ∀ held, phase = .holding held → cycle = held)
    (shown : cycle ≠ lostHorizon → phase = .holding cycle)
    : after.Consistent slots := by
  have samePid : ∀ other, (after.slots other).pid = (segment.slots other).pid := by
    intro other
    rw [sameSlots]
    by_cases same : other = index
    · subst same
      rw [Function.update_self]
    · rw [Function.update_of_ne same]
  have others : ∀ other, other ≠ pid → after.readers other = segment.readers other := by
    intro other different
    rw [sameReaders, Function.update_of_ne different]
  have own : after.readers pid = { alive := true, self := some index, phase := phase } := by
    rw [sameReaders, Function.update_self]
  constructor
  · intro other present
    rw [samePid] at present
    rw [sameCycle]
    exact consistent.started other present
  · intro other owned living ownedBy
    rw [samePid]
    by_cases same : other = pid
    · subst same
      rw [own] at ownedBy
      cases ownedBy
      exact owner
    · rw [others other same] at living ownedBy
      exact consistent.placed other owned living ownedBy
  · intro other held living phaseOf
    by_cases same : other = pid
    · subst same
      rw [own] at phaseOf ⊢
      exact ⟨locked held phaseOf, index, rfl⟩
    · rw [others other same] at living phaseOf ⊢
      exact consistent.locked other held living phaseOf
  · intro other owned held living ownedBy phaseOf
    by_cases same : other = pid
    · subst same
      rw [own] at ownedBy phaseOf
      cases ownedBy
      rw [sameSlots, Function.update_self]
      exact stored held phaseOf
    · rw [others other same] at living ownedBy phaseOf
      have elsewhere : owned ≠ index := by
        rintro rfl
        have here := (consistent.placed other owned living ownedBy).2.1
        exact same (here.symm.trans owner.2.1)
      rw [sameSlots, Function.update_of_ne elsewhere]
      exact consistent.stored other owned held living ownedBy phaseOf
  · intro other living held
    rw [samePid] at living ⊢
    by_cases same : other = index
    · subst same
      rw [sameSlots, Function.update_self] at held ⊢
      rw [owner.2.1, own]
      exact ⟨rfl, shown held⟩
    · rw [sameSlots, Function.update_of_ne same] at held ⊢
      by_cases mine : (segment.slots other).pid = pid
      · exact absurd (before other mine held alive) same
      · rw [others _ mine] at living ⊢
        exact consistent.shown other living held

/-- Only the slot that a reader has found can show a cycle for it. -/
theorem Segment.Consistent.shownAt {slots index other : Nat} {segment : Segment} {pid : Pid}
    (consistent : segment.Consistent slots)
    (own : (segment.readers pid).self = some index ∨ (segment.readers pid).phase = .idle)
    (here : (segment.slots other).pid = pid) (held : (segment.slots other).cycle ≠ lostHorizon)
    (alive : (segment.readers pid).alive = true)
    : other = index := by
  subst here
  obtain ⟨found, phase⟩ := consistent.shown other alive held
  rcases own with own | idle
  · rw [own] at found
    cases found
    rfl
  · rw [idle] at phase
    cases phase

/-- Every step of a run keeps the slots and the readers consistent, by the change it makes. -/
theorem Segment.Consistent.step {slots : Nat} {segment after : Segment} {event : SegmentEvent}
    (consistent : segment.Consistent slots) (moved : segment.step slots event = some after)
    (started : ∀ pid, event = .attach pid → segment.cycle ≠ lostHorizon)
    : after.Consistent slots := by
  cases step_change moved with
  | attached | postpone | scan | read | skip | check | stop | collect | shmfree | lost =>
      exact consistent.congr rfl rfl id
  | writeLock => exact consistent.congr rfl rfl fun _ => nextCycle_ne segment.cycle
  | attach pid index idle present free =>
      exact consistent.assign (.inl free) rfl rfl rfl fun _ => started pid rfl
  | decide index checked mapCycle newCycle oldestAge =>
      obtain ⟨horizon, task, same, -⟩ := decide_spec segment newCycle
      rw [same]
      exact consistent.congr rfl rfl id
  | reap index mapCycle newCycle oldestAge task dead =>
      exact consistent.assign (.inr dead) rfl rfl rfl fun absent => absurd rfl absent
  | load pid index alive idle present found =>
      have owner : index < slots ∧ (segment.slots index).pid = pid ∧ pid ≠ 0 := by
        rcases found with own | ⟨inside, here⟩
        · exact consistent.placed pid index alive own
        · exact ⟨inside, here, present⟩
      have vacant : (segment.slots index).cycle = lostHorizon := by
        by_contra held
        obtain ⟨-, phase⟩ := consistent.shown index (by rw [owner.2.1]; exact alive) held
        rw [owner.2.1, idle] at phase
        cases phase
      refine @Segment.Consistent.advance slots index segment _ pid
        (.loaded segment.cycle) lostHorizon consistent owner
        (fun other here held living => consistent.shownAt (.inr idle) here held living)
        ?_ rfl rfl alive ?_ ?_ ?_
      · rw [← vacant]
        exact (Function.update_eq_self index segment.slots).symm
      · rintro held ⟨⟩
        exact consistent.started index (by rw [owner.2.1]; exact present)
      · intro held phase
        cases phase
      · exact fun held => absurd rfl held
  | store pid index cycle reader =>
      have alive : (segment.readers pid).alive = true := by rw [reader]
      have own : (segment.readers pid).self = some index := by rw [reader]
      have held : (segment.readers pid).phase.cycle = some cycle := by rw [reader]; rfl
      refine @Segment.Consistent.advance slots index segment _ pid (.holding cycle) cycle
        consistent (consistent.placed pid index alive own)
        (fun other here held living => consistent.shownAt (.inl own) here held living)
        rfl rfl rfl alive ?_ ?_ ?_
      · rintro other ⟨⟩
        exact (consistent.locked pid cycle alive held).1
      · rintro other ⟨⟩
        rfl
      · exact fun _ => rfl
  | unlock pid index cycle reader =>
      have alive : (segment.readers pid).alive = true := by rw [reader]
      have own : (segment.readers pid).self = some index := by rw [reader]
      refine @Segment.Consistent.advance slots index segment _ pid .idle lostHorizon
        consistent (consistent.placed pid index alive own)
        (fun other here held living => consistent.shownAt (.inl own) here held living)
        rfl rfl rfl alive ?_ ?_ ?_
      · intro other phase
        cases phase
      · intro other phase
        cases phase
      · exact fun held => absurd rfl held
  | die pid =>
      have others : ∀ other, ((segment.setReader pid
          { segment.readers pid with alive := false }).readers other).alive = true →
          other ≠ pid ∧ (segment.setReader pid
            { segment.readers pid with alive := false }).readers other
            = segment.readers other := by
        intro other alive
        by_cases same : other = pid
        · subst same
          simp [Segment.setReader] at alive
        · exact ⟨same, by simp [Segment.setReader, same]⟩
      constructor
      · exact consistent.started
      · intro other owned alive own
        obtain ⟨-, same⟩ := others other alive
        rw [same] at alive own
        exact consistent.placed other owned alive own
      · intro other cycle alive held
        obtain ⟨-, same⟩ := others other alive
        rw [same] at alive held ⊢
        exact consistent.locked other cycle alive held
      · intro other owned cycle alive own held
        obtain ⟨-, same⟩ := others other alive
        rw [same] at alive own held
        exact consistent.stored other owned cycle alive own held
      · intro index alive held
        obtain ⟨-, same⟩ := others _ alive
        rw [same] at alive ⊢
        exact consistent.shown index alive held

-----------------------------------------------------------------------------------------
-- The scan of the readers
-----------------------------------------------------------------------------------------

/-- The scan works at the present cycle, and every cycle it has taken or is about to take is
recent.
-/
def Segment.Scanned (bound : Nat) (segment : Segment) : Prop :=
  ∀ index checked mapCycle newCycle oldestAge,
    segment.task = .scanning index checked mapCycle newCycle oldestAge →
    mapCycle = segment.cycle
      ∧ (newCycle ≠ lostHorizon →
        oldestAge = segment.since newCycle ∧ segment.since newCycle < bound)
      ∧ (checked = true → (segment.slots index).cycle ≠ lostHorizon →
        segment.since (segment.slots index).cycle < bound)

/-- A scan whose next slot changes only within the bound stays a good one. -/
theorem Segment.Scanned.slot {bound : Nat} {segment after : Segment}
    (scanned : segment.Scanned bound) (sameTask : after.task = segment.task)
    (sameCycle : after.cycle = segment.cycle)
    (slots : ∀ index, (after.slots index).cycle = (segment.slots index).cycle
      ∨ ((after.slots index).cycle ≠ lostHorizon →
        after.since (after.slots index).cycle < bound))
    : after.Scanned bound := by
  intro index checked mapCycle newCycle oldestAge task
  rw [sameTask] at task
  obtain ⟨here, oldest, next⟩ := scanned index checked mapCycle newCycle oldestAge task
  have sameSince : ∀ cycle, after.since cycle = segment.since cycle := by
    intro cycle
    unfold Segment.since
    rw [sameCycle]
  refine ⟨here.trans sameCycle.symm, ?_, ?_⟩
  · rw [sameSince]
    exact oldest
  · intro known held
    rcases slots index with same | recent
    · rw [same, sameSince]
      exact next known (by rw [← same]; exact held)
    · exact recent held

/-- A segment that is not scanning has no scan to keep. -/
theorem Segment.Scanned.elsewhere {bound : Nat} {segment : Segment}
    (task : ∀ index checked mapCycle newCycle oldestAge,
      segment.task ≠ .scanning index checked mapCycle newCycle oldestAge)
    : segment.Scanned bound := by
  intro index checked mapCycle newCycle oldestAge here
  exact absurd here (task index checked mapCycle newCycle oldestAge)

/-- The age kept with the oldest cycle is its age, also after one more slot. -/
theorem olderCycle_age {segment : Segment} {bound : Nat} {newCycle slot : Cell}
    {oldestAge : Int} (small : bound ≤ 2 ^ 31)
    (oldest : newCycle ≠ lostHorizon →
      oldestAge = segment.since newCycle ∧ segment.since newCycle < bound)
    (recent : slot ≠ lostHorizon → segment.since slot < bound)
    (held : (olderCycle segment.cycle newCycle oldestAge slot).1 ≠ lostHorizon)
    : (olderCycle segment.cycle newCycle oldestAge slot).2
        = segment.since (olderCycle segment.cycle newCycle oldestAge slot).1
      ∧ segment.since (olderCycle segment.cycle newCycle oldestAge slot).1 < bound := by
  unfold olderCycle at held ⊢
  dsimp only at held ⊢
  split at held
  next absent =>
    rw [if_pos absent]
    exact oldest held
  next present =>
    rw [if_neg present]
    split at held
    next older =>
      rw [if_pos older]
      have young := recent present
      exact ⟨toInt32_of_small (lt_of_lt_of_le young small), young⟩
    next newer =>
      rw [if_neg newer]
      exact oldest held

/-- The oldest cycle does not get younger, and it is at least as old as the slot's. -/
theorem olderCycle_older {segment : Segment} {bound : Nat} {newCycle slot held : Cell}
    {oldestAge : Int} (small : bound ≤ 2 ^ 31)
    (oldest : newCycle ≠ lostHorizon → oldestAge = segment.since newCycle)
    (recent : slot ≠ lostHorizon → segment.since slot < bound)
    (older : (newCycle ≠ lostHorizon ∧ segment.since held ≤ segment.since newCycle)
      ∨ (slot ≠ lostHorizon ∧ held = slot))
    : (olderCycle segment.cycle newCycle oldestAge slot).1 ≠ lostHorizon
      ∧ segment.since held
        ≤ segment.since (olderCycle segment.cycle newCycle oldestAge slot).1 := by
  have age : slot ≠ lostHorizon →
      Cell.toInt32 (segment.cycle - slot) = segment.since slot :=
    fun present => toInt32_of_small (lt_of_lt_of_le (recent present) small)
  unfold olderCycle
  dsimp only
  split
  next absent =>
    rcases older with known | ⟨present, -⟩
    · exact known
    · exact absurd absent present
  next present =>
    rw [age present]
    split
    next takes =>
      refine ⟨present, ?_⟩
      rcases older with ⟨known, older⟩ | ⟨-, same⟩
      · rcases takes with unknown | takes
        · exact absurd unknown known
        · rw [oldest known] at takes
          exact older.trans (by exact_mod_cast takes)
      · rw [same]
    next keeps =>
      rw [not_or, not_le] at keeps
      obtain ⟨known, younger⟩ := keeps
      rw [oldest known] at younger
      refine ⟨known, ?_⟩
      rcases older with ⟨-, older⟩ | ⟨-, same⟩
      · exact older
      · rw [same]
        exact_mod_cast younger.le

/-- Every step of a run keeps the scan good, by the change it makes. -/
theorem Segment.Scanned.step {slots bound : Nat} {segment after : Segment}
    {event : SegmentEvent} (small : bound ≤ 2 ^ 31) (scanned : segment.Scanned bound)
    (consistent : segment.Consistent slots) (timely : segment.Timely bound)
    (timelyAfter : after.Timely bound) (moved : segment.step slots event = some after)
    : after.Scanned bound := by
  cases step_change moved with
  | attached pid idle | writeLock idle | shmfree memory idle | postpone idle
  | attach pid index idle =>
      exact .elsewhere fun index checked mapCycle newCycle oldestAge here =>
        nomatch idle.symm.trans here
  | scan idle =>
      rintro index checked mapCycle newCycle oldestAge ⟨⟩
      exact ⟨rfl, fun absent => absurd rfl absent, nofun⟩
  | decide index checked mapCycle newCycle oldestAge =>
      obtain ⟨horizon, task, same, idle | collecting⟩ := decide_spec segment newCycle
      all_goals
        rw [same]
        refine .elsewhere fun index checked mapCycle newCycle oldestAge => ?_
        subst task
        exact nofun
  | read index mapCycle newCycle oldestAge task =>
      obtain ⟨rfl, oldest, next⟩ := scanned _ _ _ _ _ task
      intro _ _ _ _ _ same
      cases same
      exact ⟨rfl, olderCycle_age small oldest (next rfl), nofun⟩
  | skip index mapCycle newCycle oldestAge task | reap index mapCycle newCycle oldestAge task =>
      obtain ⟨here, oldest, -⟩ := scanned _ _ _ _ _ task
      intro _ _ _ _ _ same
      cases same
      exact ⟨here, oldest, nofun⟩
  | check index mapCycle newCycle oldestAge task alive =>
      obtain ⟨here, oldest, -⟩ := scanned _ _ _ _ _ task
      intro _ _ _ _ _ same
      cases same
      refine ⟨here, oldest, fun _ held => ?_⟩
      obtain ⟨-, phase⟩ := consistent.shown index alive held
      exact timely _ alive _ (by rw [phase]; rfl)
  | stop horizon =>
      exact .elsewhere fun index checked mapCycle newCycle oldestAge => nofun
  | collect horizon first rest task =>
      exact .elsewhere fun index checked mapCycle newCycle oldestAge here =>
        nomatch task.symm.trans here
  | lost => exact scanned
  | load | die => exact scanned.slot rfl rfl fun index => .inl rfl
  | store pid index cycle reader =>
      refine scanned.slot rfl rfl fun other => ?_
      by_cases same : other = index
      · subst same
        have living := timelyAfter pid (by simp [Segment.setReader]) cycle
          (by simp [Segment.setReader, ReaderPhase.cycle])
        exact .inr fun _ => by
          simpa [Segment.setReader, Segment.setSlotCycle, Segment.since] using living
      · exact .inl (by simp [Segment.setReader, Segment.setSlotCycle, same])
  | unlock pid index cycle reader =>
      refine scanned.slot rfl rfl fun other => ?_
      by_cases same : other = index
      · subst same
        exact .inr fun held =>
          absurd (by simp [Segment.setReader, Segment.setSlotCycle]) held
      · exact .inl (by simp [Segment.setReader, Segment.setSlotCycle, same])

-----------------------------------------------------------------------------------------
-- A block queued under a reader's lock
-----------------------------------------------------------------------------------------

/-- A reader that holds its lock keeps an entry in the queue: the entry was queued after the
reader's load, a scan that is past the reader's slot knows of a cycle that is as old, and a
collection stops before the entry.
-/
structure Segment.Protects (segment : Segment) (pid : Pid) (index : Nat) (cycle : Cell)
    (entry : Garbage) (queued : List Garbage) : Prop where
  reader : segment.readers pid
    = { alive := true, self := some index, phase := .holding cycle }
  counted : entry.cycle ≠ lostHorizon
  younger : segment.since entry.cycle ≤ segment.since cycle
  waiting : ∃ older newer, segment.garbage = older ++ entry :: newer ∧ older <:+ queued
  passed : ∀ next checked mapCycle newCycle oldestAge,
    segment.task = .scanning next checked mapCycle newCycle oldestAge → index < next →
    newCycle ≠ lostHorizon ∧ segment.since cycle ≤ segment.since newCycle
  kept : ∀ horizon, segment.task = .collecting horizon → ¬ collectable horizon entry

section
variable {segment after : Segment} {pid : Pid} {index : Nat} {cycle : Cell} {entry : Garbage}
  {queued : List Garbage}

/-- A change of the slots or of another reader leaves the protection. -/
theorem Segment.Protects.frame (protects : segment.Protects pid index cycle entry queued)
    (sameReader : after.readers pid = segment.readers pid)
    (sameCycle : after.cycle = segment.cycle) (sameGarbage : after.garbage = segment.garbage)
    (sameTask : after.task = segment.task)
    : after.Protects pid index cycle entry queued := by
  have sameSince : ∀ other, after.since other = segment.since other := by
    intro other
    unfold Segment.since
    rw [sameCycle]
  constructor
  · rw [sameReader]
    exact protects.reader
  · exact protects.counted
  · rw [sameSince, sameSince]
    exact protects.younger
  · rw [sameGarbage]
    exact protects.waiting
  · intro next checked mapCycle newCycle oldestAge task passed
    rw [sameTask] at task
    rw [sameSince, sameSince]
    exact protects.passed next checked mapCycle newCycle oldestAge task passed
  · rw [sameTask]
    exact protects.kept

/-- Between two calls of the master nothing is known of a scan or a collection. -/
theorem Segment.Protects.idle (reader : segment.readers pid
      = { alive := true, self := some index, phase := .holding cycle })
    (counted : entry.cycle ≠ lostHorizon)
    (younger : segment.since entry.cycle ≤ segment.since cycle)
    (waiting : ∃ older newer, segment.garbage = older ++ entry :: newer ∧ older <:+ queued)
    (idle : segment.task = .idle)
    : segment.Protects pid index cycle entry queued where
  reader := reader
  counted := counted
  younger := younger
  waiting := waiting
  passed _ _ _ _ _ task := nomatch idle.symm.trans task
  kept _ task := nomatch idle.symm.trans task

/-- The scan goes on without having passed the reader's slot in this step. -/
theorem Segment.Protects.scans (protects : segment.Protects pid index cycle entry queued)
    {next : Nat} {checked : Bool} {mapCycle newCycle : Cell} {oldestAge : Int}
    (sameReader : after.readers pid = segment.readers pid)
    (sameCycle : after.cycle = segment.cycle) (sameGarbage : after.garbage = segment.garbage)
    (task : after.task = .scanning next checked mapCycle newCycle oldestAge)
    (passed : index < next →
      newCycle ≠ lostHorizon ∧ segment.since cycle ≤ segment.since newCycle)
    : after.Protects pid index cycle entry queued := by
  have sameSince : ∀ other, after.since other = segment.since other := by
    intro other
    unfold Segment.since
    rw [sameCycle]
  constructor
  · rw [sameReader]
    exact protects.reader
  · exact protects.counted
  · rw [sameSince, sameSince]
    exact protects.younger
  · rw [sameGarbage]
    exact protects.waiting
  · intro _ _ _ _ _ here
    rw [task] at here
    cases here
    rw [sameSince, sameSince]
    exact passed
  · intro horizon here
    exact nomatch task.symm.trans here

/-- The cycle advances by as much for the reader as for the entry. -/
theorem Segment.Protects.writeLock (protects : segment.Protects pid index cycle entry queued)
    (recent : segment.since cycle < 2 ^ 31) (idle : segment.task = .idle)
    : Segment.Protects { segment with cycle := nextCycle segment.cycle } pid index cycle entry
      queued := by
  refine .idle protects.reader protects.counted ?_ protects.waiting idle
  have younger := protects.younger
  unfold Segment.since at recent younger ⊢
  dsimp only at recent younger ⊢
  rw [nextCycle_sub recent, nextCycle_sub (younger.trans_lt recent)]
  exact Nat.add_le_add_right younger _

/-- A collection frees blocks from the front of the queue and stops before the entry. -/
theorem Segment.Protects.collect (protects : segment.Protects pid index cycle entry queued)
    {horizon : Cell} {first : Garbage} {rest : List Garbage}
    (task : segment.task = .collecting horizon) (queue : segment.garbage = first :: rest)
    (can : collectable horizon first)
    : Segment.Protects
        { segment with garbage := rest, freed := first.memory :: segment.freed }
        pid index cycle entry queued := by
  have waiting : ∃ older newer, rest = older ++ entry :: newer ∧ older <:+ queued := by
    obtain ⟨older, newer, split, suffix⟩ := protects.waiting
    rw [queue] at split
    cases older with
    | nil =>
        cases split
        exact absurd can (protects.kept horizon task)
    | cons oldest older =>
        cases split
        exact ⟨older, newer, rfl, (List.suffix_cons _ _).trans suffix⟩
  exact {
    reader := protects.reader
    counted := protects.counted
    younger := protects.younger
    waiting := waiting
    passed := protects.passed
    kept := protects.kept }

/-- The horizon of a finished scan does not reach the entry. -/
theorem Segment.Protects.decide {slots next : Nat} {checked : Bool} {mapCycle newCycle : Cell}
    {oldestAge : Int} (protects : segment.Protects pid index cycle entry queued)
    (consistent : segment.Consistent slots) (scanned : segment.Scanned (2 ^ 31 - 64))
    (task : segment.task = .scanning next checked mapCycle newCycle oldestAge)
    (past : slots ≤ next)
    : (segment.decide newCycle).Protects pid index cycle entry queued := by
  have inside : index < slots := by
    have alive : (segment.readers pid).alive = true := by rw [protects.reader]
    have own : (segment.readers pid).self = some index := by rw [protects.reader]
    exact (consistent.placed pid index alive own).1
  obtain ⟨present, older⟩ :=
    protects.passed next checked mapCycle newCycle oldestAge task (inside.trans_le past)
  have recent := ((scanned next checked mapCycle newCycle oldestAge task).2.1 present).2
  obtain ⟨horizon, nextTask, same, idle | collecting⟩ := decide_spec segment newCycle
  · rw [same]
    exact .idle protects.reader protects.counted protects.younger protects.waiting idle
  · rw [if_neg present] at collecting
    rw [same]
    refine ⟨protects.reader, protects.counted, protects.younger, protects.waiting, ?_, ?_⟩
    · intro _ _ _ _ _ here
      exact nomatch collecting.symm.trans here
    · intro horizon here
      cases collecting.symm.trans here
      exact not_collectable present protects.counted (protects.younger.trans older) recent

/-- Every step but the reader's unlock or death keeps the entry protected, by the change the
step makes.
-/
theorem Segment.Protects.step {slots : Nat} {event : SegmentEvent}
    (protects : segment.Protects pid index cycle entry queued)
    (consistent : segment.Consistent slots) (scanned : segment.Scanned (2 ^ 31 - 64))
    (timely : segment.Timely (2 ^ 31 - 64)) (moved : segment.step slots event = some after)
    (unlocks : event ≠ .unlock pid) (dies : event ≠ .die pid)
    : after.Protects pid index cycle entry queued := by
  have alive : (segment.readers pid).alive = true := by rw [protects.reader]
  have own : (segment.readers pid).self = some index := by rw [protects.reader]
  have phase : (segment.readers pid).phase = .holding cycle := by rw [protects.reader]
  obtain ⟨inside, here, present⟩ := consistent.placed pid index alive own
  have recent : segment.since cycle < 2 ^ 31 - 64 :=
    timely pid alive cycle (by rw [phase]; rfl)
  have others : ∀ other reader, other ≠ pid →
      (segment.setReader other reader).readers pid = segment.readers pid := by
    intro other reader different
    exact Function.update_of_ne different.symm reader segment.readers
  have passed : ∀ next checked mapCycle newCycle oldestAge,
      segment.task = .scanning next checked mapCycle newCycle oldestAge →
      next ≠ index → index < next + 1 →
      newCycle ≠ lostHorizon ∧ segment.since cycle ≤ segment.since newCycle := by
    intro next checked mapCycle newCycle oldestAge task different past
    exact protects.passed next checked mapCycle newCycle oldestAge task (by omega)
  cases step_change moved with
  | attached | lost => exact protects
  | attach | postpone => exact protects.frame rfl rfl rfl rfl
  | writeLock idle => exact protects.writeLock (by omega) idle
  | shmfree memory idle =>
      obtain ⟨older, newer, split, suffix⟩ := protects.waiting
      exact .idle protects.reader protects.counted protects.younger
        ⟨older, newer ++ [_], by rw [split, List.append_assoc, List.cons_append], suffix⟩ idle
  | scan => exact protects.scans rfl rfl rfl rfl fun past => absurd past (Nat.not_lt_zero _)
  | decide next checked mapCycle newCycle oldestAge task past =>
      exact protects.decide consistent scanned task past
  | read next mapCycle newCycle oldestAge task =>
      obtain ⟨rfl, oldest, recentSlot⟩ := scanned _ _ _ _ _ task
      refine protects.scans rfl rfl rfl rfl fun past => ?_
      refine olderCycle_older (by decide) (fun known => (oldest known).1) (recentSlot rfl) ?_
      by_cases same : next = index
      · subst same
        have shown := consistent.stored pid next cycle alive own phase
        rw [shown]
        exact .inr ⟨(consistent.locked pid cycle alive (by rw [phase]; rfl)).1, rfl⟩
      · exact .inl (passed _ _ _ _ _ task same past)
  | skip next mapCycle newCycle oldestAge task free =>
      refine protects.scans rfl rfl rfl rfl
        (passed next false mapCycle newCycle oldestAge task ?_)
      rintro rfl
      exact present (here.symm.trans free)
  | check next mapCycle newCycle oldestAge task =>
      exact protects.scans rfl rfl rfl rfl
        (protects.passed next false mapCycle newCycle oldestAge task)
  | reap next mapCycle newCycle oldestAge task dead =>
      refine protects.scans rfl rfl rfl rfl
        (passed next false mapCycle newCycle oldestAge task ?_)
      rintro rfl
      rw [here, alive] at dead
      cases dead
  | stop =>
      exact .idle protects.reader protects.counted protects.younger protects.waiting rfl
  | collect horizon first rest task queue can => exact protects.collect task queue can
  | load other slot living idle =>
      refine protects.frame (others other _ ?_) rfl rfl rfl
      rintro rfl
      cases phase.symm.trans idle
  | store other slot held reader =>
      refine protects.frame (others other _ ?_) rfl rfl rfl
      rintro rfl
      cases protects.reader.symm.trans reader
  | unlock other =>
      have different : other ≠ pid := fun same => unlocks (by rw [same])
      exact protects.frame (others other _ different) rfl rfl rfl
  | die other =>
      have different : other ≠ pid := fun same => dies (by rw [same])
      exact protects.frame (others other _ different) rfl rfl rfl

end

-----------------------------------------------------------------------------------------
-- Runs
-----------------------------------------------------------------------------------------

/-- What holds all along a run of a segment. -/
structure Segment.Sound (slots bound : Nat) (segment : Segment) : Prop where
  consistent : segment.Consistent slots
  scanned : segment.Scanned bound
  timely : segment.Timely bound

theorem Segment.new_sound (slots bound : Nat)
    : Segment.new.Sound slots bound where
  consistent := Segment.new_consistent slots
  scanned := .elsewhere fun index checked mapCycle newCycle oldestAge => nofun
  timely := by
    intro pid alive cycle held
    cases held

theorem Segment.Sound.moves {slots bound : Nat} {segment after : Segment}
    {event : SegmentEvent} (sound : segment.Sound slots bound) (small : bound ≤ 2 ^ 31)
    (moved : segment.Moves slots bound event after)
    : after.Sound slots bound where
  consistent := sound.consistent.step moved.1 moved.2.2
  scanned := sound.scanned.step small sound.consistent sound.timely moved.2.1 moved.1
  timely := moved.2.1

theorem Segment.Sound.runs {slots bound : Nat} {segment after : Segment}
    {excluded : SegmentEvent → Prop} (sound : segment.Sound slots bound)
    (small : bound ≤ 2 ^ 31) (run : segment.Runs slots bound excluded after)
    : after.Sound slots bound := by
  induction run with
  | refl => exact sound
  | tail _ moved ih =>
      obtain ⟨event, -, moved⟩ := moved
      exact ih.moves small moved

/-- The protection lasts as long as the reader neither unlocks nor dies, by induction on the
run.
-/
theorem Segment.Protects.runs {slots index : Nat} {segment after : Segment} {pid : Pid}
    {cycle : Cell} {entry : Garbage} {queued : List Garbage}
    (protects : segment.Protects pid index cycle entry queued)
    (sound : segment.Sound slots (2 ^ 31 - 64))
    (run : segment.Runs slots (2 ^ 31 - 64)
      (fun event => event = .unlock pid ∨ event = .die pid) after)
    : after.Protects pid index cycle entry queued := by
  suffices after.Sound slots (2 ^ 31 - 64)
      ∧ after.Protects pid index cycle entry queued from this.2
  induction run with
  | refl => exact ⟨sound, protects⟩
  | tail _ moved ih =>
      obtain ⟨event, allowed, moved⟩ := moved
      obtain ⟨sound, protects⟩ := ih
      rw [not_or] at allowed
      exact ⟨sound.moves (by decide) moved,
        protects.step sound.consistent sound.scanned sound.timely moved.1 allowed.1 allowed.2⟩

/-- While no reader holds its lock for the bound's number of cycles, a block queued under a
living reader's lock is still queued when the reader unlocks or dies, behind no other blocks
than before.
-/
def QueuedBlocksWait (slots bound : Nat) : Prop :=
  ∀ (segment queued after : Segment) (pid : Pid) (cycle : Cell) (memory : Nat),
    Segment.new.Runs slots bound (fun _ => False) segment →
    (segment.readers pid).alive = true →
    (segment.readers pid).phase = .holding cycle →
    segment.Moves slots bound (.shmfree memory) queued →
    queued.Runs slots bound (fun event => event = .unlock pid ∨ event = .die pid) after →
    ∃ older newer,
      after.garbage = older ++ { cycle := segment.cycle, memory := memory } :: newer
        ∧ older <:+ segment.garbage

/-- A block waits for every reader that holds its lock for fewer than `2 ^ 31 - 64` cycles. -/
theorem queuedBlocksWait (slots : Nat)
    : QueuedBlocksWait slots (2 ^ 31 - 64) := by
  intro segment queued after pid cycle memory reached alive holding freed run
  have sound := (Segment.new_sound slots (2 ^ 31 - 64)).runs (by decide) reached
  obtain ⟨present, index, own⟩ :=
    sound.consistent.locked pid cycle alive (by rw [holding]; rfl)
  obtain ⟨-, here, known⟩ := sound.consistent.placed pid index alive own
  have started : segment.cycle ≠ lostHorizon :=
    sound.consistent.started index (by rw [here]; exact known)
  have reader : segment.readers pid
      = { alive := true, self := some index, phase := .holding cycle } := by
    rw [← alive, ← own, ← holding]
  have protects : queued.Protects pid index cycle
      { cycle := segment.cycle, memory := memory } segment.garbage := by
    cases step_change freed.1 with
    | shmfree memory idle =>
        refine .idle reader started ?_ ⟨segment.garbage, [], rfl, List.suffix_rfl⟩ idle
        simp [Segment.since]
  exact (protects.runs (sound.moves (by decide) freed) run).waiting

-----------------------------------------------------------------------------------------
-- A reader that waits too long
-----------------------------------------------------------------------------------------

/-- Steps with the same property all along the way make a run. -/
theorem Segment.Runs.cons {slots bound : Nat} {excluded : SegmentEvent → Prop}
    {segment next after : Segment} (event : SegmentEvent)
    (moved : segment.step slots event = some next) (timely : next.Timely bound)
    (started : segment.cycle ≠ lostHorizon) (allowed : ¬ excluded event)
    (rest : next.Runs slots bound excluded after)
    : segment.Runs slots bound excluded after :=
  .head ⟨event, allowed, moved, timely, fun _ _ => started⟩ rest

/-- The master can advance the cycle any number of times between its calls. -/
theorem Segment.Runs.writeLocks {slots bound : Nat} {excluded : SegmentEvent → Prop}
    {segment : Segment} (idle : segment.task = .idle) (allowed : ¬ excluded .writeLock)
    (count : Nat) (fits : segment.cycle.toNat + count < 2 ^ 64)
    (timely : ∀ passed ≤ count,
      Segment.Timely bound { segment with cycle := segment.cycle + BitVec.ofNat 64 passed })
    : segment.Runs slots bound excluded
        { segment with cycle := segment.cycle + BitVec.ofNat 64 count } := by
  induction count with
  | zero =>
      have same : segment.cycle + BitVec.ofNat 64 0 = segment.cycle := BitVec.add_zero _
      rw [same]
      exact .refl
  | succ count ih =>
      have before := ih (by omega) fun passed le => timely passed (Nat.le_succ_of_le le)
      refine before.tail ⟨.writeLock, allowed, ?_, timely _ le_rfl, nofun⟩
      have advanced : nextCycle (segment.cycle + BitVec.ofNat 64 count)
          = segment.cycle + BitVec.ofNat 64 (count + 1) := by
        unfold nextCycle lostHorizon
        split <;> bv_omega
      simp only [Segment.step, idle, advanced]

/-- The master can put its scan off until the last of its unlocks. -/
theorem Segment.Runs.writeUnlocks {slots bound : Nat} {excluded : SegmentEvent → Prop}
    {segment : Segment} (idle : segment.task = .idle) (allowed : ¬ excluded .writeUnlock)
    (timely : segment.Timely bound) (count : Nat) (lazy : segment.strikes + count < lazyGc)
    : segment.Runs slots bound excluded
        { segment with strikes := segment.strikes + count } := by
  induction count with
  | zero => exact .refl
  | succ count ih =>
      refine (ih (by omega)).tail ⟨.writeUnlock, allowed, ?_, timely, nofun⟩
      have postponed : segment.strikes + count + 1 < lazyGc := by omega
      simp only [Segment.step, idle, Segment.beginUnlock, postponed, ↓reduceIte]
      rfl

/-- A segment with one slot, whose reader holds a cycle. -/
def Segment.held (loaded cycle : Cell) : Segment :=
  { Segment.new with
    cycle := cycle
    slots := Function.update Segment.new.slots 0 { pid := 7, cycle := loaded }
    readers := Function.update Segment.new.readers 7
      { alive := true, self := some 0, phase := .holding loaded } }

/-- Only the cycle of the one reader counts for a held segment. -/
theorem Segment.held_timely {bound : Nat} {loaded cycle : Cell} {segment : Segment}
    (recent : (cycle - loaded).toNat < bound)
    (sameReaders : segment.readers = (Segment.held loaded cycle).readers)
    (sameCycle : segment.cycle = cycle)
    : segment.Timely bound := by
  intro pid _ held phase
  rw [sameReaders] at phase
  unfold Segment.since
  rw [sameCycle]
  by_cases same : pid = 7
  · subst same
    cases phase
    exact recent
  · simp only [Segment.held, Function.update_of_ne same] at phase
    cases phase

/-- The reader attaches, loads and stores once the counter has reached a cycle. -/
theorem Segment.held_reached {bound : Nat} (positive : 0 < bound) {count : Nat}
    (started : 0 < count) (fits : count < 2 ^ 64)
    : Segment.new.Runs 1 bound (fun _ => False)
        (Segment.held (BitVec.ofNat 64 count) (BitVec.ofNat 64 count)) := by
  have present : BitVec.ofNat 64 count ≠ lostHorizon := by
    unfold lostHorizon
    bv_omega
  have quiet : ∀ cycle, Segment.Timely bound { Segment.new with cycle := cycle } := by
    intro cycle pid _ held phase
    cases phase
  have advanced := @Segment.Runs.writeLocks 1 bound (fun _ => False) Segment.new rfl id count
    (by simpa [Segment.new, lostHorizon] using fits) fun passed _ => quiet _
  have zero : Segment.new.cycle + BitVec.ofNat 64 count = BitVec.ofNat 64 count :=
    BitVec.zero_add _
  rw [zero] at advanced
  generalize BitVec.ofNat 64 count = loaded at *
  refine advanced.trans ?_
  have attached : Segment.step 1 { Segment.new with cycle := loaded } (.attach 7)
      = some { Segment.new with
          cycle := loaded
          slots := Function.update Segment.new.slots 0 { pid := 7, cycle := lostHorizon } } :=
    rfl
  have loads : Segment.step 1 { Segment.new with
        cycle := loaded
        slots := Function.update Segment.new.slots 0 { pid := 7, cycle := lostHorizon } } (.load 7)
      = some { Segment.new with
          cycle := loaded
          slots := Function.update Segment.new.slots 0 { pid := 7, cycle := lostHorizon }
          readers := Function.update Segment.new.readers 7
            { alive := true, self := some 0, phase := .loaded loaded } } :=
    rfl
  refine Runs.cons _ attached (fun pid _ held phase => by cases phase) present id ?_
  refine Runs.cons _ loads ?_ present id ?_
  · intro pid _ held phase
    by_cases same : pid = 7
    · subst same
      cases phase
      simpa [Segment.since] using positive
    · simp only [Function.update_of_ne same] at phase
      cases phase
  · refine .single ⟨.store 7, id, ?_, ?_, nofun⟩
    · simp [Segment.step, Segment.setReader, Segment.setSlotCycle, Segment.held]
    · exact @held_timely bound loaded loaded _ (by simpa using positive) rfl rfl

/-- The master's calls from a block queued under a held lock to the end of its collection, when
the block's cycle wraps.
-/
theorem Segment.held_collected {bound : Nat} {loaded cycle : Cell} {memory : Nat}
    (recent : (cycle - loaded).toNat < bound) (present : loaded ≠ lostHorizon)
    (started : cycle ≠ lostHorizon)
    (far : (twilightZone : Int) < Cell.toInt32 (loaded - lostHorizon))
    (can : collectable (collectHorizon loaded) { cycle := cycle, memory := memory })
    : Segment.Runs 1 bound (fun event => event = .unlock 7 ∨ event = .die 7)
        { Segment.held loaded cycle with
          garbage := [{ cycle := cycle, memory := memory }] }
        { Segment.held loaded cycle with
          garbage := []
          horizon := loaded
          task := .collecting (collectHorizon loaded)
          freed := [memory] } := by
  have timely : ∀ segment : Segment,
      segment.readers = (Segment.held loaded cycle).readers → segment.cycle = cycle →
      segment.Timely bound :=
    fun segment => Segment.held_timely recent
  generalize queue : ({ cycle := cycle, memory := memory } : Garbage) = entry at *
  refine (@Segment.Runs.writeUnlocks 1 bound _
    { Segment.held loaded cycle with garbage := [entry] } rfl (by decide)
    (timely _ rfl rfl) 999 (by simp [Segment.held, Segment.new, lazyGc])).trans ?_
  have begins : Segment.step 1
      { Segment.held loaded cycle with
        garbage := [entry], strikes := (Segment.held loaded cycle).strikes + 999 } .writeUnlock
      = some { Segment.held loaded cycle with
          garbage := [entry], task := .scanning 0 false cycle lostHorizon 0 } := by
    simp [Segment.step, Segment.beginUnlock, Segment.held, Segment.new, lazyGc]
  have reads : Segment.step 1
      { Segment.held loaded cycle with
        garbage := [entry], task := .scanning 0 true cycle lostHorizon 0 } .proceed
      = some { Segment.held loaded cycle with
          garbage := [entry]
          task := .scanning 1 false cycle loaded (Cell.toInt32 (cycle - loaded)) } := by
    simp [Segment.step, Segment.proceed, Segment.held, olderCycle, present]
  have decides : Segment.step 1
      { Segment.held loaded cycle with
        garbage := [entry]
        task := .scanning 1 false cycle loaded (Cell.toInt32 (cycle - loaded)) } .proceed
      = some { Segment.held loaded cycle with
          garbage := [entry]
          horizon := loaded
          task := .collecting (collectHorizon loaded) } := by
    have here : (twilightZone : Int) < Cell.toInt32 (loaded - Segment.new.horizon) := far
    simp [Segment.step, Segment.proceed, Segment.held, Segment.decide, present, here]
  have collects : Segment.step 1
      { Segment.held loaded cycle with
        garbage := [entry]
        horizon := loaded
        task := .collecting (collectHorizon loaded) } .proceed
      = some { Segment.held loaded cycle with
          garbage := []
          horizon := loaded
          task := .collecting (collectHorizon loaded)
          freed := [memory] } := by
    subst queue
    simp [Segment.step, Segment.proceed, can, Segment.held, Segment.new]
  refine Segment.Runs.cons .writeUnlock begins (timely _ rfl rfl) started (by decide) ?_
  refine Segment.Runs.cons .proceed rfl (timely _ rfl rfl) started (by decide) ?_
  refine Segment.Runs.cons .proceed reads (timely _ rfl rfl) started (by decide) ?_
  refine Segment.Runs.cons .proceed decides (timely _ rfl rfl) started (by decide) ?_
  exact Segment.Runs.cons .proceed collects (timely _ rfl rfl) started (by decide) .refl

/-- A reader that holds its lock for `2 ^ 31 - 10` cycles loses a block queued meanwhile: the
difference of the horizon and the block's cycle wraps to a positive `int`.
-/
theorem queuedBlocksWait_wraps
    : ¬ QueuedBlocksWait 1 (2 ^ 31) := by
  intro wait
  have reached : Segment.new.Runs 1 (2 ^ 31) (fun _ => False)
      (Segment.held (BitVec.ofNat 64 100) (100 + BitVec.ofNat 64 2147483638)) := by
    refine (@Segment.held_reached (2 ^ 31) (by decide) 100 (by decide) (by decide)).trans ?_
    refine @Segment.Runs.writeLocks 1 (2 ^ 31) (fun _ => False) (Segment.held 100 100) rfl id
      2147483638 (by decide) fun passed le => ?_
    refine Segment.held_timely ?_ rfl rfl
    simp only [Segment.held]
    bv_omega
  have freed : (Segment.held 100 (100 + BitVec.ofNat 64 2147483638)).Moves 1 (2 ^ 31)
      (.shmfree 5)
      { Segment.held 100 (100 + BitVec.ofNat 64 2147483638) with
        garbage := [{ cycle := 100 + BitVec.ofNat 64 2147483638, memory := 5 }] } :=
    ⟨rfl, Segment.held_timely (by decide) rfl rfl, nofun⟩
  obtain ⟨older, newer, waiting, -⟩ :=
    wait _ _ _ 7 100 5 reached rfl rfl freed
      (Segment.held_collected (by decide) (by decide) (by decide) (by decide) (by decide))
  exact absurd waiting (by simp)

/-- A block queued under the lock of the one reader waits while the master goes on. -/
theorem queuedBlocksWait_held
    : ∃ older newer, [({ cycle := 100, memory := 5 } : Garbage)]
        = older ++ { cycle := 100, memory := 5 } :: newer ∧ older <:+ [] := by
  have reached := @Segment.held_reached (2 ^ 31 - 64) (by decide) 100 (by decide) (by decide)
  refine queuedBlocksWait 1 (Segment.held 100 100)
    { Segment.held 100 100 with garbage := [{ cycle := 100, memory := 5 }] }
    { Segment.held 100 100 with
      garbage := [{ cycle := 100, memory := 5 }], cycle := 101 }
    7 100 5 reached rfl rfl ⟨rfl, Segment.held_timely (by decide) rfl rfl, nofun⟩ ?_
  exact .single ⟨.writeLock, by decide, rfl,
    @Segment.held_timely _ 100 101 _ (by decide) rfl rfl, nofun⟩

end SpeedTables.Shared
