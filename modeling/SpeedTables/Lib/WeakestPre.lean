import Mathlib

/-! Weakest preconditions of stateful computations that may stop with an error. -/

namespace SpeedTables.Lib

variable {ε σ α β : Type}

/-- Run from `state`, an action ends in `ok` with a value or in `err` with an error. -/
def wp (action : EStateM ε σ α) (ok : α → σ → Prop) (err : ε → σ → Prop) (state : σ) : Prop :=
  match action state with
  | .ok value next => ok value next
  | .error error next => err error next

-----------------------------------------------------------------------------------------
-- Reading off results
-----------------------------------------------------------------------------------------

/-- An action that returns a value does so in a state of its postcondition. -/
theorem wp_returns {action : EStateM ε σ α} {ok : α → σ → Prop} {err : ε → σ → Prop}
    {state next : σ} {value : α}
    (holds : wp action ok err state) (run : action state = .ok value next)
    : ok value next := by
  simpa only [wp, run] using holds

/-- An action that stops does so in a state of its error condition. -/
theorem wp_stops {action : EStateM ε σ α} {ok : α → σ → Prop} {err : ε → σ → Prop}
    {state next : σ} {error : ε}
    (holds : wp action ok err state) (run : action state = .error error next)
    : err error next := by
  simpa only [wp, run] using holds

/-- What holds of every possible result holds of the action. -/
theorem wp_of_results {action : EStateM ε σ α} {ok : α → σ → Prop} {err : ε → σ → Prop}
    {state : σ}
    (returns : ∀ value next, action state = .ok value next → ok value next)
    (stops : ∀ error next, action state = .error error next → err error next)
    : wp action ok err state := by
  unfold wp
  split
  · exact returns _ _ ‹_›
  · exact stops _ _ ‹_›

-----------------------------------------------------------------------------------------
-- Rules
-----------------------------------------------------------------------------------------

section Rules

variable {ok ok' : α → σ → Prop} {err err' : ε → σ → Prop} {state : σ}

/-- Postconditions may be weakened. -/
theorem wp_mono {action : EStateM ε σ α}
    (holds : wp action ok err state)
    (weakerOk : ∀ value next, ok value next → ok' value next)
    (weakerErr : ∀ error next, err error next → err' error next)
    : wp action ok' err' state := by
  unfold wp at *
  split at holds
  · exact weakerOk _ _ holds
  · exact weakerErr _ _ holds

/-- Two postconditions established separately hold together. -/
theorem wp_and {action : EStateM ε σ α}
    (first : wp action ok err state) (second : wp action ok' err' state)
    : wp action (fun value next => ok value next ∧ ok' value next)
        (fun error next => err error next ∧ err' error next) state := by
  unfold wp at *
  split at first <;> exact ⟨first, by simp_all⟩

@[simp]
theorem wp_pure {value : α} : wp (pure value) ok err state ↔ ok value state :=
  Iff.rfl

@[simp]
theorem wp_throw {error : ε} : wp (throw error : EStateM ε σ α) ok err state ↔ err error state :=
  Iff.rfl

/-- Sequencing, by cases on the result of the first action. -/
@[simp]
theorem wp_bind {action : EStateM ε σ β} {next : β → EStateM ε σ α}
    : wp (action >>= next) ok err state ↔
        wp action (fun value middle => wp (next value) ok err middle) err state := by
  simp only [wp, bind, EStateM.bind]
  cases action state <;> rfl

@[simp]
theorem wp_get {ok : σ → σ → Prop} : wp (get : EStateM ε σ σ) ok err state ↔ ok state state :=
  Iff.rfl

@[simp]
theorem wp_set {ok : PUnit → σ → Prop} {next : σ}
    : wp (set next : EStateM ε σ PUnit) ok err state ↔ ok ⟨⟩ next :=
  Iff.rfl

@[simp]
theorem wp_modify {ok : PUnit → σ → Prop} {change : σ → σ}
    : wp (modify change : EStateM ε σ PUnit) ok err state ↔ ok ⟨⟩ (change state) :=
  Iff.rfl

theorem wp_ite {condition : Prop} [Decidable condition] {yes no : EStateM ε σ α}
    : wp (if condition then yes else no) ok err state ↔
        (condition → wp yes ok err state) ∧ (¬ condition → wp no ok err state) := by
  split <;> simp_all

end Rules

/-- A loop over a list preserves what each of its steps hands on to the next, by induction
on the list. The assertion speaks about the elements that remain.
-/
theorem wp_forM_rest {step : β → EStateM ε σ PUnit} {err : ε → σ → Prop}
    {holds : List β → σ → Prop}
    (preserved : ∀ element rest state, holds (element :: rest) state →
      wp (step element) (fun _ next => holds rest next) err state)
    : ∀ {elements : List β} {state : σ}, holds elements state →
        wp (elements.forM step) (fun _ next => holds [] next) err state := by
  intro elements
  induction elements with
  | nil =>
      intro state start
      exact start
  | cons element rest ih =>
      intro state start
      change wp (step element >>= fun _ => rest.forM step) _ _ _
      rw [wp_bind]
      exact wp_mono (preserved element rest state start)
        (fun _ _ middle => ih middle) (fun _ _ stopped => stopped)

/-- A loop over a list preserves an invariant of its steps. -/
theorem wp_forM {step : β → EStateM ε σ PUnit} {err : ε → σ → Prop} {invariant : σ → Prop}
    {elements : List β} {state : σ}
    (preserved : ∀ element ∈ elements, ∀ state, invariant state →
      wp (step element) (fun _ next => invariant next) err state)
    (start : invariant state)
    : wp (elements.forM step) (fun _ next => invariant next) err state := by
  have holds := @wp_forM_rest ε σ β step err
    (fun rest next => (∀ element ∈ rest, element ∈ elements) ∧ invariant next)
    (fun element rest next here => by
      refine wp_mono (preserved element (here.1 element (by simp)) next here.2) ?_ ?_
      · intro _ after kept
        exact ⟨fun other member => here.1 other (by simp [member]), kept⟩
      · intro _ _ stopped
        exact stopped)
    elements state ⟨fun _ member => member, start⟩
  exact wp_mono holds (fun _ _ final => final.2) (fun _ _ stopped => stopped)

/-- Mapping over a list preserves an invariant of its steps, by induction on the list. -/
theorem wp_mapM {step : β → EStateM ε σ α} {err : ε → σ → Prop} {invariant : σ → Prop}
    (preserved : ∀ element state, invariant state →
      wp (step element) (fun _ next => invariant next) err state)
    (elements : List β) {state : σ} (start : invariant state)
    : wp (elements.mapM step) (fun _ next => invariant next) err state := by
  induction elements generalizing state with
  | nil => exact start
  | cons element rest ih =>
      rw [List.mapM_cons, wp_bind]
      refine wp_mono (preserved element state start) ?_ (fun _ _ stopped => stopped)
      intro value middle kept
      rw [wp_bind]
      exact wp_mono (ih kept) (fun _ _ final => final) (fun _ _ stopped => stopped)

-----------------------------------------------------------------------------------------
-- Actions that commute with a change of the state
-----------------------------------------------------------------------------------------

/-- Running an action after a change of the state is the same as changing its result. -/
def Commutes (change : σ → σ) (action : EStateM ε σ α) : Prop :=
  ∀ state ok err, wp action ok err (change state) ↔
    wp action (fun value next => ok value (change next)) (fun error next => err error (change next))
      state

theorem Commutes.bind {change : σ → σ} {action : EStateM ε σ β} {next : β → EStateM ε σ α}
    (left : Commutes change action) (right : ∀ value, Commutes change (next value))
    : Commutes change (action >>= next) := by
  intro state ok err
  rw [wp_bind, left, wp_bind]
  simp only [right _ _ ok err]

/-- A loop commutes with a change when its steps do, by induction on the list. -/
theorem Commutes.forM {change : σ → σ} {step : β → EStateM ε σ PUnit} {elements : List β}
    (steps : ∀ element, Commutes change (step element))
    : Commutes change (elements.forM step) := by
  induction elements with
  | nil => exact fun _ _ _ => Iff.rfl
  | cons element rest ih => exact Commutes.bind (steps element) (fun _ => ih)

-----------------------------------------------------------------------------------------
-- Actions that respect a relation
-----------------------------------------------------------------------------------------

/-- However it ends, an action leaves a state related to the one it started in. -/
def Respects (related : σ → σ → Prop) (action : EStateM ε σ α) : Prop :=
  ∀ state, wp action (fun _ => related state) (fun _ => related state) state

section Respects

variable {related : σ → σ → Prop}

theorem Respects.mono {weaker : σ → σ → Prop} {action : EStateM ε σ α}
    (respects : Respects related action)
    (implies : ∀ {before after}, related before after → weaker before after)
    : Respects weaker action :=
  fun state => wp_mono (respects state) (fun _ _ => implies) (fun _ _ => implies)

theorem Respects.pure [Std.Refl related] {value : α}
    : Respects related (pure value : EStateM ε σ α) :=
  fun state => (Std.Refl.refl state : related state state)

theorem Respects.throw [Std.Refl related] {error : ε}
    : Respects related (throw error : EStateM ε σ α) :=
  fun state => (Std.Refl.refl state : related state state)

theorem Respects.get [Std.Refl related] : Respects related (get : EStateM ε σ σ) :=
  fun state => (Std.Refl.refl state : related state state)

theorem Respects.ite {condition : Prop} [Decidable condition] {yes no : EStateM ε σ α}
    (left : Respects related yes) (right : Respects related no)
    : Respects related (if condition then yes else no) := by
  split
  · exact left
  · exact right

/-- A sequence respects a transitive relation when its parts do. -/
theorem Respects.bind [IsTrans σ related] {action : EStateM ε σ β} {next : β → EStateM ε σ α}
    (left : Respects related action) (right : ∀ value, Respects related (next value))
    : Respects related (action >>= next) := by
  intro state
  rw [wp_bind]
  refine wp_mono (left state) ?_ (fun _ _ stopped => stopped)
  intro value middle before
  exact wp_mono (right value middle) (fun _ _ after => IsTrans.trans _ _ _ before after)
    (fun _ _ after => IsTrans.trans _ _ _ before after)

/-- A loop respects a preorder when its steps do, by induction on the list. -/
theorem Respects.forM [IsPreorder σ related] {step : β → EStateM ε σ PUnit} {elements : List β}
    (steps : ∀ element ∈ elements, Respects related (step element))
    : Respects related (elements.forM step) := by
  induction elements with
  | nil => exact Respects.pure
  | cons element rest ih =>
      exact Respects.bind (steps element (by simp))
        (fun _ => ih (fun other member => steps other (by simp [member])))

/-- The relation of states between which an invariant is not lost. -/
def Keeps (invariant : σ → Prop) (before after : σ) : Prop :=
  invariant before → invariant after

instance keeps_preorder (invariant : σ → Prop) : IsPreorder σ (Keeps invariant) where
  refl := fun _ holds => holds
  trans := fun _ _ _ first second holds => second (first holds)

/-- An action that keeps an invariant ends in a state that has it. -/
theorem Respects.keeps {invariant : σ → Prop} {action : EStateM ε σ α} {state : σ}
    (respects : Respects (Keeps invariant) action) (start : invariant state)
    : wp action (fun _ => invariant) (fun _ => invariant) state :=
  wp_mono (respects state) (fun _ _ kept => kept start) (fun _ _ kept => kept start)

/-- To keep an invariant it is enough to end with it from every state that has it. -/
theorem Respects.of_invariant {invariant : σ → Prop} {action : EStateM ε σ α}
    (ends : ∀ state, invariant state → wp action (fun _ => invariant) (fun _ => invariant) state)
    : Respects (Keeps invariant) action := by
  intro state
  refine wp_of_results ?_ ?_
  · exact fun value next run start => wp_returns (ends state start) run
  · exact fun error next run start => wp_stops (ends state start) run

end Respects

end SpeedTables.Lib
