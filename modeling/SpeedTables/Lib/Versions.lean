import Mathlib

/-! A single writer whose stores are seen one by one by a reader without a lock. -/

namespace SpeedTables.Lib

-----------------------------------------------------------------------------------------
-- Writers
-----------------------------------------------------------------------------------------

/-- A program of the only process that stores: its result, with the memory after each store. It
has no result when it crashes.
-/
def Storing (σ α : Type) := σ → Option (α × List σ)

/-- The memory after some stores. -/
def latest {σ : Type} (memory : σ) (versions : List σ) : σ := versions.getLastD memory

@[simp]
theorem latest_nil {σ : Type} {memory : σ} : latest memory [] = memory := rfl

@[simp]
theorem latest_cons {σ : Type} {memory version : σ} {versions : List σ}
    : latest memory (version :: versions) = latest version versions :=
  List.getLastD_cons ..

@[simp]
theorem latest_append {σ : Type} {memory : σ} {versions versions' : List σ}
    : latest memory (versions ++ versions') = latest (latest memory versions) versions' := by
  induction versions generalizing memory with
  | nil => rfl
  | cons version rest ih => simp [ih]

namespace Storing

variable {σ α β : Type}

def done (result : α) : Storing σ α := fun _ => some (result, [])

def andThen (program : Storing σ α) (rest : α → Storing σ β) : Storing σ β :=
  fun memory =>
    match program memory with
    | none => none
    | some (result, versions) =>
        match rest result (latest memory versions) with
        | none => none
        | some (result', versions') => some (result', versions ++ versions')

instance : Monad (Storing σ) where
  pure := done
  bind := andThen

def load (read : σ → α) : Storing σ α := fun memory => some (read memory, [])

def store (change : σ → σ) : Storing σ Unit := fun memory => some ((), [change memory])

def crash : Storing σ α := fun _ => none

/-- The program has a result and stores these versions. -/
def Gives (program : Storing σ α) (memory : σ) (result : α) (versions : List σ) : Prop :=
  program memory = some (result, versions)

theorem gives_pure {memory : σ} {result : α}
    : (pure result : Storing σ α).Gives memory result [] :=
  rfl

theorem gives_load {memory : σ} {read : σ → α} : (load read).Gives memory (read memory) [] := rfl

theorem gives_store {memory : σ} {change : σ → σ}
    : (store change).Gives memory () [change memory] :=
  rfl

/-- Programs in sequence store one after the other. -/
theorem Gives.bind {program : Storing σ α} {rest : α → Storing σ β} {memory : σ} {result : α}
    {versions versions' : List σ} {result' : β} (first : program.Gives memory result versions)
    (second : (rest result).Gives (latest memory versions) result' versions')
    : (program >>= rest).Gives memory result' (versions ++ versions') := by
  unfold Gives at first second ⊢
  change andThen program rest memory = _
  simp [andThen, first, second]

/-- A load only selects what is done next. -/
theorem Gives.of_load {read : σ → α} {rest : α → Storing σ β} {memory : σ}
    {versions : List σ} {result : β} (gives : (rest (read memory)).Gives memory result versions)
    : (load read >>= rest).Gives memory result versions :=
  Gives.bind gives_load gives

/-- A store is seen before the rest. -/
theorem Gives.of_store {change : σ → σ} {rest : Unit → Storing σ β} {memory : σ}
    {versions : List σ} {result : β} (gives : (rest ()).Gives (change memory) result versions)
    : (store change >>= rest).Gives memory result (change memory :: versions) :=
  Gives.bind gives_store gives

/-- The program has a result, each version that it stores is as stated, and so are the result and
the last version.
-/
def Keeps (program : Storing σ α) (memory : σ) (stored : σ → Prop) (ending : α → σ → Prop)
    : Prop :=
  ∃ result versions,
    program.Gives memory result versions
    ∧ (∀ version ∈ versions, stored version)
    ∧ ending result (latest memory versions)

section Keeping

variable {memory : σ} {stored : σ → Prop} {ending : α → σ → Prop}

theorem Keeps.pure {result : α} (holds : ending result memory)
    : (Pure.pure result : Storing σ α).Keeps memory stored ending :=
  ⟨result, [], gives_pure, nofun, holds⟩

theorem Keeps.bind {program : Storing σ α} {rest : α → Storing σ β} {between : α → σ → Prop}
    {ending : β → σ → Prop} (first : program.Keeps memory stored between)
    (second
      : ∀ result memory', between result memory' → (rest result).Keeps memory' stored ending)
    : (program >>= rest).Keeps memory stored ending := by
  obtain ⟨result, versions, gives, good, holds⟩ := first
  obtain ⟨result', versions', gives', good', holds'⟩ := second result _ holds
  refine ⟨result', versions ++ versions', gives.bind gives', ?_, by simpa using holds'⟩
  intro version member
  exact (List.mem_append.mp member).elim (good version) (good' version)

theorem Keeps.load {read : σ → α} {rest : α → Storing σ β} {ending : β → σ → Prop}
    (keeps : (rest (read memory)).Keeps memory stored ending)
    : (Storing.load read >>= rest).Keeps memory stored ending := by
  obtain ⟨result, versions, gives, good⟩ := keeps
  exact ⟨result, versions, gives.of_load, good⟩

theorem Keeps.store {change : σ → σ} {rest : Unit → Storing σ β} {ending : β → σ → Prop}
    (good : stored (change memory))
    (keeps : (rest ()).Keeps (change memory) stored ending)
    : (Storing.store change >>= rest).Keeps memory stored ending := by
  obtain ⟨result, versions, gives, others, holds⟩ := keeps
  refine ⟨result, _, gives.of_store, ?_, by simpa using holds⟩
  intro version member
  rcases List.mem_cons.mp member with rfl | later
  · exact good
  · exact others version later

end Keeping

end Storing

-----------------------------------------------------------------------------------------
-- Views
-----------------------------------------------------------------------------------------

section Views

variable {σ ω α β : Type} {Step : ω → σ → ω → σ → Prop}

/-- Each version is a step from the one before, under views that change along. -/
inductive Publishes (Step : ω → σ → ω → σ → Prop) : ω → σ → List σ → ω → Prop where
  | nothing (view : ω) (memory : σ) : Publishes Step view memory [] view
  | store {view view' view'' : ω} {memory memory' : σ} {versions : List σ} :
      Step view memory view' memory' → Publishes Step view' memory' versions view''
      → Publishes Step view memory (memory' :: versions) view''

theorem Publishes.append {view view' view'' : ω} {memory : σ} {versions versions' : List σ}
    (first : Publishes Step view memory versions view')
    (second : Publishes Step view' (latest memory versions) versions' view'')
    : Publishes Step view memory (versions ++ versions') view'' := by
  induction first with
  | nothing => exact second
  | store step _ ih => exact .store step (ih (by simpa using second))

/-- Versions that are all related to one view alike. -/
theorem Publishes.of_forall {view : ω} {stored : σ → Prop}
    (steps : ∀ {memory memory'}, stored memory → stored memory' → Step view memory view memory')
    {memory : σ} {versions : List σ} (first : stored memory)
    (good : ∀ version ∈ versions, stored version)
    : Publishes Step view memory versions view := by
  induction versions generalizing memory with
  | nil => exact .nothing view memory
  | cons version rest ih =>
      have here := good version List.mem_cons_self
      exact .store (steps first here)
        (ih here fun other member => good other (List.mem_cons_of_mem version member))

/-- Versions that are all related to one view alike, behind a step to it from another. -/
theorem Publishes.of_forall_after {view view' : ω} {stored : σ → Prop} {memory : σ}
    (first : ∀ {memory'}, stored memory' → Step view memory view' memory')
    (steps
      : ∀ {memory memory'}, stored memory → stored memory' → Step view' memory view' memory')
    {versions : List σ} (good : ∀ version ∈ versions, stored version)
    : ∃ final, Publishes Step view memory versions final := by
  cases versions with
  | nil => exact ⟨view, .nothing view memory⟩
  | cons version rest =>
      have here := good version List.mem_cons_self
      refine ⟨view', .store (first here) (Publishes.of_forall steps here ?_)⟩
      exact fun other member => good other (List.mem_cons_of_mem version member)

end Views

-----------------------------------------------------------------------------------------
-- Interleavings
-----------------------------------------------------------------------------------------

inductive Turn where
  | writer
  | reader
  deriving DecidableEq

/-- The memory, the versions that the writer has still to store, and a reader. -/
structure Scene (σ γ : Type) where
  memory : σ
  pending : List σ
  reader : γ

namespace Scene

variable {σ ω γ : Type} (read : σ → γ → γ)

def step (scene : Scene σ γ) : Turn → Scene σ γ
  | .writer =>
      match scene.pending with
      | [] => scene
      | version :: rest => { scene with memory := version, pending := rest }
  | .reader => { scene with reader := read scene.memory scene.reader }

/-- The writer and the reader take turns in any order. -/
def run (scene : Scene σ γ) (schedule : List Turn) : Scene σ γ :=
  schedule.foldl (step read) scene

variable {read}

@[simp]
theorem run_append {scene : Scene σ γ} {first second : List Turn}
    : scene.run read (first ++ second) = (scene.run read first).run read second :=
  List.foldl_append ..

/-- A reader that is alone for some time. -/
theorem run_readers {scene : Scene σ γ} (turns : Nat)
    : scene.run read (List.replicate turns .reader)
      = { scene with reader := (read scene.memory)^[turns] scene.reader } := by
  induction turns generalizing scene with
  | zero => rfl
  | succ turns ih =>
      change (scene.step read .reader).run read (List.replicate turns .reader) = _
      rw [ih]
      rfl

/-- A writer that is alone for some time. -/
theorem run_writers {memory : σ} {versions rest : List σ} {reader : γ}
    : Scene.run read { memory := memory, pending := versions ++ rest, reader := reader }
        (List.replicate versions.length .writer)
      = { memory := latest memory versions, pending := rest, reader := reader } := by
  induction versions generalizing memory with
  | nil => rfl
  | cons version versions ih =>
      change Scene.run read { memory := version, pending := versions ++ rest, reader := reader }
        (List.replicate versions.length .writer) = _
      rw [ih, latest_cons]

/-- What reads and version steps keep holds in every interleaving, by induction on the
schedule.
-/
theorem run_invariant {Step : ω → σ → ω → σ → Prop} {Invariant : ω → σ → γ → Prop}
    (reads
      : ∀ {view memory reader},
          Invariant view memory reader → Invariant view memory (read memory reader))
    (stores
      : ∀ {view memory view' memory' reader},
          Step view memory view' memory'
          → Invariant view memory reader
          → Invariant view' memory' reader)
    {scene : Scene σ γ} {view final : ω}
    (publishes : Publishes Step view scene.memory scene.pending final)
    (invariant : Invariant view scene.memory scene.reader) (schedule : List Turn)
    : ∃ view', Invariant view' (scene.run read schedule).memory (scene.run read schedule).reader := by
  induction schedule generalizing scene view with
  | nil => exact ⟨view, invariant⟩
  | cons turn rest ih =>
      cases turn with
      | reader => exact @ih (scene.step read .reader) view publishes (reads invariant)
      | writer =>
          obtain ⟨memory, pending, reader⟩ := scene
          cases publishes with
          | nothing => exact @ih ⟨memory, [], reader⟩ _ (.nothing ..) invariant
          | store step after => exact @ih ⟨_, _, reader⟩ _ after (stores step invariant)

end Scene

end SpeedTables.Lib
