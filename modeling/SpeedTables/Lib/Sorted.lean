import Mathlib

/-! Lists in the order of a comparison. Elements that it calls equal may come in any order. -/

namespace SpeedTables.Lib

open Std

variable {α : Type*} {cmp : α → α → Ordering} {elements others : List α}

/-- No element is greater than a later one. -/
def Sorted (cmp : α → α → Ordering) (elements : List α) : Prop :=
  elements.Pairwise (fun x y => cmp x y ≠ .gt)

theorem sorted_of_single (single : elements.length ≤ 1)
    : Sorted cmp elements := by
  cases elements with
  | nil => exact List.Pairwise.nil
  | cons x rest =>
      have none : rest = [] := List.length_eq_zero_iff.mp (by simpa using single)
      rw [none]
      exact List.pairwise_singleton _ x

/-- An element that is not greater than the last one can come before it. -/
theorem compare_ne_gt [TransCmp cmp] {x y z : α} (atMost : (cmp x y).isLE = true)
    (atLeast : (cmp y z).isLE = true)
    : cmp x z ≠ .gt := by
  intro greater
  have order := TransCmp.isLE_trans atMost atLeast
  rw [greater] at order
  cases order

theorem isLE_of_ne_gt {x y : α} (notGreater : cmp x y ≠ .gt)
    : (cmp x y).isLE = true := by
  cases order : cmp x y with
  | lt | eq => rfl
  | gt => exact absurd order notGreater

/-- Sorted parts below and above a pivot are sorted around the elements that are equal to it. -/
theorem sorted_around [TransCmp cmp] {pivot : α} {less equal greater : List α}
    (low : Sorted cmp less) (high : Sorted cmp greater)
    (below : ∀ x ∈ less, cmp x pivot = .lt) (level : ∀ x ∈ equal, cmp x pivot = .eq)
    (above : ∀ x ∈ greater, cmp x pivot = .gt)
    : Sorted cmp (less ++ (equal ++ greater)) := by
  have behind {y : α} (inside : y ∈ equal ++ greater) : (cmp pivot y).isLE = true := by
    rcases List.mem_append.mp inside with same | more
    · rw [OrientedCmp.eq_symm (level y same)]
      rfl
    · rw [OrientedCmp.lt_of_gt (above y more)]
      rfl
  refine List.pairwise_append.mpr ⟨low, List.pairwise_append.mpr ⟨?_, high, ?_⟩, ?_⟩
  · refine List.pairwise_of_forall_mem_list fun x first y second => ?_
    exact compare_ne_gt (by rw [level x first]; rfl) (behind (List.mem_append_left _ second))
  · intro x first y second
    exact compare_ne_gt (by rw [level x first]; rfl) (behind (List.mem_append_right _ second))
  · intro x first y second
    exact compare_ne_gt (by rw [below x first]; rfl) (behind second)

/-- Elements that a comparison calls equal. -/
def compareSetoid (cmp : α → α → Ordering) [TransCmp cmp] : Setoid α where
  r x y := cmp x y = .eq
  iseqv :=
    { refl := fun _ => ReflCmp.compare_self
      symm := fun same => OrientedCmp.eq_symm same
      trans := fun first second => TransCmp.eq_trans first second }

/-- The order of the classes of equal elements. -/
def classLe (cmp : α → α → Ordering) [TransCmp cmp]
    (x y : Quotient (compareSetoid cmp)) : Prop :=
  Quotient.liftOn₂ x y (fun x y => cmp x y ≠ .gt) (by
    intro x y x' y' (same : cmp x x' = .eq) (same' : cmp y y' = .eq)
    rw [TransCmp.congr_left same, TransCmp.congr_right same'])

/-- Two orders of the same elements agree up to the elements that compare equal. -/
theorem Sorted.forall₂_of_perm [TransCmp cmp] (sorted : Sorted cmp elements)
    (sorted' : Sorted cmp others) (perm : elements.Perm others)
    : List.Forall₂ (fun x y => cmp x y = .eq) elements others := by
  let class' : α → Quotient (compareSetoid cmp) := Quotient.mk (compareSetoid cmp)
  have ascends {list : List α} (sorted : Sorted cmp list)
      : (list.map class').Pairwise (classLe cmp) :=
    List.pairwise_map.mpr sorted
  have same : elements.map class' = others.map class' := by
    refine List.Perm.eq_of_pairwise ?_ (ascends sorted) (ascends sorted') (perm.map class')
    intro x y first second
    obtain ⟨x, -, rfl⟩ := List.mem_map.mp first
    obtain ⟨y, -, rfl⟩ := List.mem_map.mp second
    intro (atMost : cmp x y ≠ .gt) (atLeast : cmp y x ≠ .gt)
    refine Quotient.sound (?_ : cmp x y = .eq)
    cases order : cmp x y with
    | lt => exact absurd (OrientedCmp.gt_of_lt order) atLeast
    | eq => rfl
    | gt => exact absurd order atMost
  have classes : List.Forall₂ (· = ·) (elements.map class') (others.map class') := by
    rw [List.forall₂_eq_eq_eq]
    exact same
  rw [List.forall₂_map_left_iff, List.forall₂_map_right_iff] at classes
  exact classes.imp fun x y equal => Quotient.exact equal

/-- A merge sort whose test is that of the comparison on the elements sorts them. -/
theorem sorted_mergeSort [TransCmp cmp] {test : α → α → Bool}
    (tests : ∀ x ∈ elements, ∀ y ∈ elements, test x y = (cmp x y != .gt))
    : Sorted cmp (elements.mergeSort test) := by
  have same : elements.mergeSort test = elements.mergeSort (fun x y => cmp x y != .gt) := by
    have alike := List.map_mergeSort (s := fun x y => cmp x y != .gt) (f := id) tests
    simpa using alike
  rw [same]
  refine (List.pairwise_mergeSort ?_ ?_ elements).imp fun notGreater => bne_iff_ne.mp notGreater
  · intro x y z first second
    rw [bne_iff_ne] at *
    exact compare_ne_gt (isLE_of_ne_gt first) (isLE_of_ne_gt second)
  · intro x y
    rw [Bool.or_eq_true, bne_iff_ne, bne_iff_ne]
    by_cases above : cmp x y = .gt
    · exact .inr (by rw [OrientedCmp.lt_of_gt above]; exact fun same => by cases same)
    · exact .inl above

end SpeedTables.Lib
