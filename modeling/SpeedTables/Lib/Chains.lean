import Mathlib

/-! Hash buckets: chains linked through next pointers, one to a bucket. -/

namespace SpeedTables.Lib

variable {ρ : Type*}

-----------------------------------------------------------------------------------------
-- Chains
-----------------------------------------------------------------------------------------

/-- Following the next pointers from a start gives the elements of a list and then ends. -/
def IsChain (next : ρ → Option ρ) : Option ρ → List ρ → Prop
  | start, [] => start = none
  | start, element :: rest => start = some element ∧ IsChain next (next element) rest

section Chains

variable {next next' : ρ → Option ρ}

/-- A chain depends on the pointers of its elements only, by induction on the list. -/
theorem IsChain.congr {start : Option ρ} {elements : List ρ} (chain : IsChain next start elements)
    (same : ∀ element ∈ elements, next' element = next element)
    : IsChain next' start elements := by
  induction elements generalizing start with
  | nil => exact chain
  | cons element rest ih =>
      obtain ⟨first, behind⟩ := chain
      refine ⟨first, ?_⟩
      rw [same element (by simp)]
      exact ih behind (fun other member => same other (by simp [member]))

/-- A start leads along one list only. -/
theorem IsChain.unique {start : Option ρ} {left right : List ρ} (first : IsChain next start left)
    (second : IsChain next start right)
    : left = right := by
  induction left generalizing start right with
  | nil =>
      cases right with
      | nil => rfl
      | cons element rest => exact nomatch first.symm.trans second.1
  | cons element rest ih =>
      cases right with
      | nil => exact nomatch first.1.symm.trans second
      | cons other more =>
          obtain rfl : element = other := by simpa using first.1.symm.trans second.1
          rw [ih first.2 second.2]

variable [DecidableEq ρ]

/-- Pointing the element before another past it takes the other out of the chain. -/
theorem IsChain.unlink {start : Option ρ} {before after : List ρ} {previous element : ρ}
    (chain : IsChain next start (before ++ previous :: element :: after))
    (distinct : (before ++ previous :: element :: after).Nodup)
    : IsChain (Function.update next previous (next element)) start
        (before ++ previous :: after) := by
  induction before generalizing start with
  | nil =>
      obtain ⟨first, second, behind⟩ := chain
      refine ⟨first, ?_⟩
      simp only [Function.update_self]
      refine behind.congr ?_
      intro other member
      have apart : other ≠ previous := by
        rintro rfl
        simp [member] at distinct
      simp [apart]
  | cons head rest ih =>
      obtain ⟨first, behind⟩ := chain
      have apart : head ≠ previous := by
        rintro rfl
        simp at distinct
      refine ⟨first, ?_⟩
      rw [Function.update_of_ne apart]
      exact ih behind (List.nodup_cons.mp distinct).2

end Chains

-----------------------------------------------------------------------------------------
-- Buckets
-----------------------------------------------------------------------------------------

/-- The chains of the buckets are finite and hold the given members, each in its bucket. -/
def BucketsHold (index : ρ → Nat) (next : ρ → Option ρ) (buckets : Nat → Option ρ)
    (members : List ρ) : Prop :=
  ∀ i, ∃ chain, IsChain next (buckets i) chain ∧ chain.Nodup
    ∧ ∀ element, element ∈ chain ↔ element ∈ members ∧ index element = i

section Buckets

variable {index index' : ρ → Nat} {next : ρ → Option ρ} {buckets : Nat → Option ρ}
  {members : List ρ}

/-- Empty buckets hold nothing. -/
theorem BucketsHold.empty (index : ρ → Nat) (next : ρ → Option ρ)
    : BucketsHold index next (fun _ => none) [] := by
  intro i
  exact ⟨[], rfl, List.nodup_nil, by simp⟩

/-- What the buckets hold depends on the members as a set. -/
theorem BucketsHold.members_congr {others : List ρ} (holds : BucketsHold index next buckets members)
    (same : ∀ element, element ∈ others ↔ element ∈ members)
    : BucketsHold index next buckets others := by
  intro i
  obtain ⟨chain, linked, distinct, inside⟩ := holds i
  exact ⟨chain, linked, distinct, fun element => by rw [inside, same]⟩

/-- The index function matters on the members only. -/
theorem BucketsHold.index_congr (holds : BucketsHold index next buckets members)
    (same : ∀ element ∈ members, index' element = index element)
    : BucketsHold index' next buckets members := by
  intro i
  obtain ⟨chain, linked, distinct, inside⟩ := holds i
  refine ⟨chain, linked, distinct, fun element => ?_⟩
  rw [inside]
  exact and_congr_right fun member => by rw [same element member]

variable [DecidableEq ρ]

/-- Pushing a new element on its bucket adds it to the members. -/
theorem BucketsHold.push {element : ρ} (holds : BucketsHold index next buckets members)
    (fresh : element ∉ members)
    : BucketsHold index (Function.update next element (buckets (index element)))
        (Function.update buckets (index element) (some element)) (element :: members) := by
  intro i
  obtain ⟨chain, linked, distinct, inside⟩ := holds i
  have absent : element ∉ chain := fun member => fresh ((inside element).mp member).1
  have kept : IsChain (Function.update next element (buckets (index element))) (buckets i)
      chain := by
    refine linked.congr ?_
    rintro other member
    have apart : other ≠ element := by
      rintro rfl
      exact absent member
    simp [apart]
  by_cases here : i = index element
  · subst here
    refine ⟨element :: chain, ⟨by simp, by simpa using kept⟩,
      List.nodup_cons.mpr ⟨absent, distinct⟩, fun other => ?_⟩
    by_cases same : other = element
    · simp [same]
    · simp [inside, same]
  · refine ⟨chain, by simpa [here] using kept, distinct, fun other => ?_⟩
    rw [inside]
    by_cases same : other = element
    · subst same
      simp [fresh, Ne.symm here]
    · simp [same]

/-- Unlinking a member from its bucket removes it from the members. -/
theorem BucketsHold.unlink_first {element : ρ} (holds : BucketsHold index next buckets members)
    (first : buckets (index element) = some element)
    : BucketsHold index next
        (Function.update buckets (index element) (next element))
        (members.filter (· ≠ element)) := by
  intro i
  obtain ⟨chain, linked, distinct, inside⟩ := holds i
  by_cases here : i = index element
  · subst here
    cases chain with
    | nil => exact nomatch first.symm.trans linked
    | cons head rest =>
        obtain rfl : head = element := by simpa using linked.1.symm.trans first
        refine ⟨rest, by simpa using linked.2, (List.nodup_cons.mp distinct).2, fun other => ?_⟩
        have member := inside other
        by_cases same : other = head
        · subst same
          simp [(List.nodup_cons.mp distinct).1]
        · simpa [same] using member
  · refine ⟨chain, by simpa [here] using linked, distinct, fun other => ?_⟩
    rw [inside]
    by_cases same : other = element
    · subst same
      simp [Ne.symm here]
    · simp [same]

/-- Unlinking an element behind another one of its bucket removes it from the members. -/
theorem BucketsHold.unlink_behind {previous element : ρ}
    (holds : BucketsHold index next buckets members)
    (inBucket : previous ∈ members) (same : index previous = index element)
    (behind : next previous = some element)
    : BucketsHold index (Function.update next previous (next element)) buckets
        (members.filter (· ≠ element)) := by
  intro i
  obtain ⟨chain, linked, distinct, inside⟩ := holds i
  by_cases here : i = index element
  · subst here
    obtain ⟨before, rest, rfl⟩ := List.append_of_mem ((inside previous).mpr ⟨inBucket, same⟩)
    have tail : ∃ after, rest = element :: after := by
      have walked : ∀ {start : Option ρ} {before : List ρ},
          IsChain next start (before ++ previous :: rest)
          → IsChain next (some element) rest := by
        intro start before
        induction before generalizing start with
        | nil =>
            rintro ⟨-, later⟩
            rwa [behind] at later
        | cons head more ih =>
            rintro ⟨-, later⟩
            exact ih later
      have here := walked linked
      cases rest with
      | nil => exact nomatch here
      | cons head more =>
          obtain rfl : element = head := by simpa using here.1
          exact ⟨more, rfl⟩
    obtain ⟨after, rfl⟩ := tail
    have part : (before ++ previous :: after).Sublist (before ++ previous :: element :: after) :=
      (List.Sublist.refl before).append ((List.sublist_cons_self element after).cons_cons previous)
    refine ⟨before ++ previous :: after, linked.unlink distinct, distinct.sublist part,
      fun other => ?_⟩
    have member := inside other
    by_cases gone : other = element
    · subst gone
      have absent : other ∉ before ++ previous :: after := by
        have perm : (before ++ previous :: other :: after).Perm
            (other :: (before ++ previous :: after)) := by
          simpa using (@List.perm_middle ρ other (before ++ [previous]) after)
        exact (List.nodup_cons.mp (perm.nodup_iff.mp distinct)).1
      simp [absent]
    · simpa [gone] using member
  · have apart : previous ∉ chain := by
      intro member
      exact here (((inside previous).mp member).2.symm.trans same)
    have kept : IsChain (Function.update next previous (next element)) (buckets i) chain := by
      refine linked.congr ?_
      rintro other member
      have different : other ≠ previous := by
        rintro rfl
        exact apart member
      simp [different]
    refine ⟨chain, kept, distinct, fun other => ?_⟩
    rw [inside]
    by_cases gone : other = element
    · subst gone
      simp [Ne.symm here]
    · simp [gone]

end Buckets

end SpeedTables.Lib
