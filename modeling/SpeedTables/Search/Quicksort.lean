import SpeedTables.Lib.Sorted
import SpeedTables.Search.SortOrder
import SpeedTables.Table.IndexInvariant

/-! `ctable_qsort_r`, the sort of search results, on a block of memory with eight bytes an element.
A read or a write outside of the block is `none`.
-/

namespace SpeedTables.Quicksort

open Lib Std

variable {α : Type} {cmp : α → α → Ordering}

-----------------------------------------------------------------------------------------
-- Exchanges
-----------------------------------------------------------------------------------------

/-- `swap`, on the elements of two indexes. -/
def swap (block : List α) (i j : Nat) : Option (List α) := do
  let x ← block[i]?
  let y ← block[j]?
  pure ((block.set i y).set j x)

/-- The loop of `swapcode`, from two elements on. -/
def swapcode : (count : Nat) → List α → (i j : Nat) → Option (List α)
  | 0, block, _, _ => some block
  | count + 1, block, i, j => do
      let block ← swap block i j
      swapcode count block (i + 1) (j + 1)

/-- The exchanges of `swapfunc`, whose number of bytes is an `int`. Its loop runs once at least. -/
def swapCount (elements : Nat) : Nat :=
  max 1 ((Int.bmod (8 * elements) (2 ^ 32)).tdiv 8).toNat

/-- `vecswap` -/
def vecswap (block : List α) (i j elements : Nat) : Option (List α) :=
  if 0 < elements then swapcode (swapCount elements) block i j else some block

-----------------------------------------------------------------------------------------
-- Insertion sort
-----------------------------------------------------------------------------------------

/-- The inner loop of the insertion sort: move the element of an index down. -/
def moveDown (cmp : α → α → Ordering) : (pl : Nat) → List α → Option (List α)
  | 0, block => some block
  | pl + 1, block => do
      let x ← block[pl]?
      let y ← block[pl + 1]?
      if cmp x y = .gt then do
        let block ← swap block (pl + 1) pl
        moveDown cmp pl block
      else
        some block

/-- The outer loop, for so many elements from an index on. -/
def insertionLoop (cmp : α → α → Ordering)
    : (left pm : Nat) → List α → Option (List α)
  | 0, _, block => some block
  | left + 1, pm, block => do
      let block ← moveDown cmp pm block
      insertionLoop cmp left (pm + 1) block

def insertionSort (cmp : α → α → Ordering) (block : List α) : Option (List α) :=
  insertionLoop cmp (block.length - 1) 1 block

-----------------------------------------------------------------------------------------
-- The pivot
-----------------------------------------------------------------------------------------

/-- `med3` -/
def med3 (cmp : α → α → Ordering) (block : List α) (a b c : Nat) : Option Nat := do
  let x ← block[a]?
  let y ← block[b]?
  let z ← block[c]?
  pure (if cmp x y = .lt then
      (if cmp y z = .lt then b else if cmp x z = .lt then c else a)
    else
      (if cmp y z = .gt then b else if cmp x z = .lt then a else c))

/-- The index of the pivot of seven elements or more. -/
def choosePivot (cmp : α → α → Ordering) (block : List α) : Option Nat :=
  let n := block.length
  if 7 < n then
    if 40 < n then do
      let d := n / 8
      let pl ← med3 cmp block 0 d (2 * d)
      let pm ← med3 cmp block (n / 2 - d) (n / 2) (n / 2 + d)
      let pn ← med3 cmp block (n - 1 - 2 * d) (n - 1 - d) (n - 1)
      med3 cmp block pl pm pn
    else
      med3 cmp block 0 (n / 2) (n - 1)
  else
    some (n / 2)

-----------------------------------------------------------------------------------------
-- The partition
-----------------------------------------------------------------------------------------

/-- The state of the partition: the elements up to `pa` and from `pd` on are equal to the pivot,
which comes first, those up to `pb` are less and those from `pc` on are greater. `swapped` is
`swap_cnt`.
-/
structure Scan (α : Type) where
  block : List α
  pa : Nat
  pb : Nat
  pc : Nat
  pd : Nat
  swapped : Bool

/-- How many elements the loops have not looked at. -/
def Scan.left (scan : Scan α) : Nat :=
  scan.pc + 1 - scan.pb

/-- The loop that moves `pb` up, as long as elements are left. -/
def scanUp (cmp : α → α → Ordering) : (left : Nat) → Scan α → Option (Scan α)
  | 0, scan => some scan
  | left + 1, scan => do
      let x ← scan.block[scan.pb]?
      let pivot ← scan.block[0]?
      match cmp x pivot with
      | .gt => some scan
      | .lt => scanUp cmp left { scan with pb := scan.pb + 1 }
      | .eq => do
          let block ← swap scan.block scan.pa scan.pb
          scanUp cmp left
            { scan with block := block, pa := scan.pa + 1, pb := scan.pb + 1, swapped := true }

/-- The loop that moves `pc` down, as long as elements are left. -/
def scanDown (cmp : α → α → Ordering) : (left : Nat) → Scan α → Option (Scan α)
  | 0, scan => some scan
  | left + 1, scan => do
      let x ← scan.block[scan.pc]?
      let pivot ← scan.block[0]?
      match cmp x pivot with
      | .lt => some scan
      | .gt => scanDown cmp left { scan with pc := scan.pc - 1 }
      | .eq => do
          let block ← swap scan.block scan.pc scan.pd
          scanDown cmp left
            { scan with block := block, pc := scan.pc - 1, pd := scan.pd - 1, swapped := true }

/-- The loop of the partition, of so many rounds at most. -/
def partition (cmp : α → α → Ordering) : (rounds : Nat) → Scan α → Option (Scan α)
  | 0, _ => none
  | rounds + 1, scan => do
      let scan ← scanUp cmp scan.left scan
      let scan ← scanDown cmp scan.left scan
      if scan.pc < scan.pb then
        some scan
      else do
        let block ← swap scan.block scan.pb scan.pc
        partition cmp rounds
          { scan with block := block, pb := scan.pb + 1, pc := scan.pc - 1, swapped := true }

/-- The partition of a block around its first element. -/
def partitionBlock (cmp : α → α → Ordering) (block : List α) : Option (Scan α) :=
  partition cmp block.length
    { block := block, pa := 1, pb := 1, pc := block.length - 1, pd := block.length - 1,
      swapped := false }

-----------------------------------------------------------------------------------------
-- The sort
-----------------------------------------------------------------------------------------

/-- Bring the elements that are equal to the pivot from both ends to the middle. -/
def gatherEqual (scan : Scan α) : Option (List α) := do
  let n := scan.block.length
  let low := min scan.pa (scan.pb - scan.pa)
  let block ← vecswap scan.block 0 (scan.pb - low) low
  let high := min (scan.pd - scan.pc) (n - scan.pd - 1)
  vecswap block scan.pb (n - high) high

/-- A call for the first elements, if there are two. -/
def sortFront (sort : List α → Option (List α)) (count : Nat) (block : List α)
    : Option (List α) :=
  if 1 < count then (sort (block.take count)).map (· ++ block.drop count) else some block

/-- A call for the last elements, if there are two. -/
def sortBack (sort : List α → Option (List α)) (count : Nat) (block : List α)
    : Option (List α) :=
  if 1 < count then
    (sort (block.drop (block.length - count))).map (block.take (block.length - count) ++ ·)
  else some block

/-- The calls of `ctable_qsort_r` up to some depth. The jump to its start is a call as well. -/
def sortBlock (cmp : α → α → Ordering) : (depth : Nat) → List α → Option (List α)
  | 0, _ => none
  | depth + 1, block =>
      let n := block.length
      if n < 7 then
        insertionSort cmp block
      else do
        let pm ← choosePivot cmp block
        let block ← swap block 0 pm
        let scan ← partitionBlock cmp block
        if scan.swapped = false then
          insertionSort cmp scan.block
        else do
          let block ← gatherEqual scan
          let block ← sortFront (sortBlock cmp depth) (scan.pb - scan.pa) block
          sortBack (sortBlock cmp depth) (scan.pd - scan.pc) block

end SpeedTables.Quicksort

namespace SpeedTables

/-- `ctable_qsort_r` -/
def qsortR {α : Type} (cmp : α → α → Ordering) (block : List α) : Option (List α) :=
  Quicksort.sortBlock cmp (block.length + 1) block

namespace Quicksort

open Lib Std

variable {α : Type} {cmp : α → α → Ordering}

-----------------------------------------------------------------------------------------
-- Exchanges stay in the block
-----------------------------------------------------------------------------------------

/-- An exchange of two elements with others around them. -/
theorem swap_parts (before between after : List α) (x y : α)
    : swap (before ++ x :: (between ++ y :: after)) before.length
        (before.length + (between.length + 1))
      = some (before ++ y :: (between ++ x :: after)) := by
  simp [swap, List.set_append_right]

/-- An element is exchanged with itself. -/
theorem swap_self {block : List α} {i : Nat} (inside : i < block.length)
    : swap block i i = some block := by
  simp [swap, List.getElem?_eq_getElem inside]

/-- The first of some elements is exchanged with the one behind them. -/
theorem swap_first (before passed after : List α) (x : α)
    : ∃ moved, moved.Perm passed
        ∧ swap (before ++ (passed ++ x :: after)) before.length (before.length + passed.length)
          = some (before ++ x :: (moved ++ after)) := by
  cases passed with
  | nil => exact ⟨[], .refl [], swap_self (by simp)⟩
  | cons first rest =>
      refine ⟨rest ++ [first], List.perm_append_singleton first rest, ?_⟩
      rw [List.cons_append, List.length_cons, swap_parts, List.append_assoc]
      rfl

/-- An element is exchanged with the last of those behind it. -/
theorem swap_last (before passed after : List α) (x : α)
    : ∃ moved, moved.Perm passed
        ∧ swap (before ++ x :: (passed ++ after)) before.length (before.length + passed.length)
          = some (before ++ (moved ++ x :: after)) := by
  rcases List.eq_nil_or_concat passed with rfl | ⟨rest, last, rfl⟩
  · exact ⟨[], .refl [], swap_self (by simp)⟩
  · rw [List.concat_eq_append]
    refine ⟨last :: rest, (List.perm_append_singleton last rest).symm, ?_⟩
    rw [List.length_append, List.length_singleton, List.append_assoc, List.singleton_append,
      swap_parts]
    rfl

/-- Parts of the same length are exchanged element by element, by induction on the first. -/
theorem swapcode_parts (before xs between ys after : List α) (same : xs.length = ys.length)
    : swapcode xs.length (before ++ (xs ++ (between ++ (ys ++ after)))) before.length
        (before.length + (xs.length + between.length))
      = some (before ++ (ys ++ (between ++ (xs ++ after)))) := by
  induction xs generalizing before between ys with
  | nil =>
      rw [List.length_nil, eq_comm, List.length_eq_zero_iff] at same
      subst same
      rfl
  | cons x xs ih =>
      cases ys with
      | nil => cases same
      | cons y ys =>
          have rest := ih (before ++ [y]) (between ++ [x]) ys (Nat.succ.inj same)
          have first := swap_parts before (xs ++ between) (ys ++ after) x y
          simp only [List.append_assoc, List.length_append, List.length_cons, List.length_nil,
            List.cons_append, List.nil_append, Nat.zero_add] at rest first
          rw [List.length_cons, swapcode]
          simp only [List.cons_append]
          rw [show before.length + (xs.length + 1 + between.length)
            = before.length + (xs.length + between.length + 1) by omega, first]
          simp only [Option.bind_eq_bind, Option.bind_some]
          rw [show before.length + (xs.length + between.length + 1) + 1
            = before.length + 1 + (xs.length + (between.length + 1)) by omega, rest]

/-- The bytes of fewer than 2^28 elements are an `int`. -/
theorem swapCount_eq {elements : Nat} (some' : 0 < elements) (few : elements < 2 ^ 28)
    : swapCount elements = elements := by
  have bytes : Int.bmod (8 * elements) (2 ^ 32) = 8 * elements := by
    have whole : (8 * (elements : Int)) % ((2 ^ 32 : Nat) : Int) = 8 * elements :=
      Int.emod_eq_of_lt (by omega) (by omega)
    simp only [Int.bmod, whole]
    rw [if_pos (by omega)]
  rw [swapCount, bytes, Int.mul_tdiv_cancel_left _ (by decide), Int.toNat_natCast]
  omega

/-- The shorter of two parts is exchanged with the far end of the longer one: the parts change
places.
-/
theorem vecswap_parts (before xs ys after : List α) {elements : Nat}
    (shorter : elements = min xs.length ys.length) (few : elements < 2 ^ 28)
    : ∃ xs' ys', xs'.Perm xs ∧ ys'.Perm ys
        ∧ vecswap (before ++ (xs ++ (ys ++ after))) before.length
            (before.length + (xs.length + ys.length) - elements) elements
          = some (before ++ (ys' ++ (xs' ++ after))) := by
  unfold vecswap
  by_cases none : elements = 0
  · rw [if_neg (by omega)]
    by_cases left : xs = []
    · exact ⟨[], ys, by rw [left], .refl ys, by rw [left]; rfl⟩
    · have right : ys = [] := by
        have := List.length_pos_iff.mpr left
        exact List.length_eq_zero_iff.mp (by omega)
      exact ⟨xs, [], .refl xs, by rw [right], by rw [right]; rfl⟩
  · rw [if_pos (by omega), swapCount_eq (by omega) few]
    by_cases fits : xs.length ≤ ys.length
    · obtain ⟨front, back, rfl, size⟩ : ∃ front back, ys = front ++ back
          ∧ back.length = xs.length :=
        ⟨ys.take (ys.length - xs.length), ys.drop (ys.length - xs.length),
          (List.take_append_drop _ _).symm, by rw [List.length_drop]; omega⟩
      refine ⟨xs, back ++ front, .refl xs, List.perm_append_comm, ?_⟩
      have moves := swapcode_parts before xs front back after size.symm
      rw [List.length_append] at shorter ⊢
      rw [show elements = xs.length by omega, List.append_assoc, List.append_assoc]
      rw [show before.length + (xs.length + (front.length + back.length)) - xs.length
        = before.length + (xs.length + front.length) by omega]
      exact moves
    · obtain ⟨front, back, rfl, size⟩ : ∃ front back, xs = front ++ back
          ∧ front.length = ys.length :=
        ⟨xs.take ys.length, xs.drop ys.length, (List.take_append_drop _ _).symm,
          by rw [List.length_take]; omega⟩
      refine ⟨back ++ front, ys, List.perm_append_comm, .refl ys, ?_⟩
      have moves := swapcode_parts before front back ys after size
      rw [List.length_append] at shorter ⊢
      rw [show elements = front.length by omega, List.append_assoc, List.append_assoc]
      rw [show before.length + (front.length + back.length + ys.length) - front.length
        = before.length + (front.length + back.length) by omega]
      exact moves

-----------------------------------------------------------------------------------------
-- Insertion
-----------------------------------------------------------------------------------------

/-- The inner loop moves an element down to its place among those before it, by induction on them
from the last.
-/
theorem moveDown_inserts (passed after : List α) (x : α)
    : ∃ moved, moveDown cmp passed.length (passed ++ x :: after) = some (moved ++ after)
        ∧ moved.Perm (passed ++ [x])
        ∧ (TransCmp cmp → Sorted cmp passed → Sorted cmp moved) := by
  induction passed using List.reverseRecOn generalizing after with
  | nil => exact ⟨[x], rfl, .refl [x], fun _ _ => List.pairwise_singleton _ x⟩
  | append_singleton rest y ih =>
      have here : (rest ++ [y] ++ x :: after)[rest.length]? = some y := by simp
      have next : (rest ++ [y] ++ x :: after)[rest.length + 1]? = some x := by simp
      have exchanges : swap (rest ++ [y] ++ x :: after) (rest.length + 1) rest.length
          = some (rest ++ x :: y :: after) := by
        simp [swap, List.set_append_right]
      rw [List.length_append, List.length_singleton, moveDown, here, next]
      simp only [Option.bind_eq_bind, Option.bind_some]
      by_cases above : cmp y x = .gt
      · obtain ⟨moved, moves, perm, sorts⟩ := ih (y :: after)
        rw [if_pos above, exchanges, Option.bind_some, moves]
        refine ⟨moved ++ [y], by simp, ?_, fun trans sorted => ?_⟩
        · have apart : (rest ++ [x] ++ [y]).Perm (rest ++ [y] ++ [x]) := by
            rw [List.append_assoc, List.append_assoc]
            exact (List.Perm.swap y x []).append_left rest
          exact (perm.append_right [y]).trans apart
        · obtain ⟨sortedRest, -, below⟩ := List.pairwise_append.mp sorted
          refine List.pairwise_append.mpr ⟨sorts trans sortedRest, List.pairwise_singleton _ y, ?_⟩
          intro z inside last isLast
          rw [List.mem_singleton.mp isLast]
          rcases List.mem_append.mp (perm.mem_iff.mp inside) with old | new
          · exact below z old y List.mem_cons_self
          · rw [List.mem_singleton.mp new, OrientedCmp.lt_of_gt above]
            exact fun same => by cases same
      · refine ⟨rest ++ [y] ++ [x], by rw [if_neg above]; simp, .refl _, fun trans sorted => ?_⟩
        refine List.pairwise_append.mpr ⟨sorted, List.pairwise_singleton _ x, ?_⟩
        intro z inside last isLast
        rw [List.mem_singleton.mp isLast]
        rcases List.mem_append.mp inside with old | middle
        · have notAbove := (List.pairwise_append.mp sorted).2.2 z old y List.mem_cons_self
          exact compare_ne_gt (isLE_of_ne_gt notAbove) (isLE_of_ne_gt above)
        · rw [List.mem_singleton.mp middle]
          exact above

/-- The outer loop inserts the elements that are left, by induction on them. -/
theorem insertionLoop_sorts (done left : List α)
    : ∃ sorted, insertionLoop cmp left.length done.length (done ++ left) = some sorted
        ∧ sorted.Perm (done ++ left)
        ∧ (TransCmp cmp → Sorted cmp done → Sorted cmp sorted) := by
  induction left generalizing done with
  | nil => exact ⟨done, by rw [List.append_nil]; rfl, by rw [List.append_nil], fun _ same => same⟩
  | cons x left ih =>
      obtain ⟨moved, moves, perm, inserts⟩ := @moveDown_inserts α cmp done left x
      have size : moved.length = done.length + 1 := by simpa using perm.length_eq
      obtain ⟨sorted, goes, same, sorts⟩ := ih moved
      rw [size] at goes
      refine ⟨sorted, ?_, ?_, fun trans before => sorts trans (inserts trans before)⟩
      · rw [List.length_cons, insertionLoop, moves]
        exact goes
      · rw [List.append_cons]
        exact same.trans (perm.append_right left)

/-- The insertion sort stays in the block and sorts it. -/
theorem insertionSort_sorts (block : List α)
    : ∃ sorted, insertionSort cmp block = some sorted ∧ sorted.Perm block
        ∧ (TransCmp cmp → Sorted cmp sorted) := by
  cases block with
  | nil => exact ⟨[], rfl, .refl [], fun _ => List.Pairwise.nil⟩
  | cons first rest =>
      obtain ⟨sorted, goes, perm, sorts⟩ := @insertionLoop_sorts α cmp [first] rest
      exact ⟨sorted, goes, perm, fun trans => sorts trans (List.pairwise_singleton _ first)⟩

-----------------------------------------------------------------------------------------
-- The choice of the pivot
-----------------------------------------------------------------------------------------

/-- The median of three elements is one of them. -/
theorem med3_inside {block : List α} {a b c : Nat} (first : a < block.length)
    (second : b < block.length) (third : c < block.length)
    : ∃ median, med3 cmp block a b c = some median ∧ median < block.length := by
  simp only [med3, List.getElem?_eq_getElem first, List.getElem?_eq_getElem second,
    List.getElem?_eq_getElem third, Option.bind_eq_bind, Option.bind_some]
  refine ⟨_, rfl, ?_⟩
  split_ifs <;> assumption

theorem choosePivot_inside {block : List α} (many : 7 ≤ block.length)
    : ∃ pm, choosePivot cmp block = some pm ∧ pm < block.length := by
  unfold choosePivot
  dsimp only
  split_ifs
  · obtain ⟨pl, isLow, low⟩ := @med3_inside α cmp block 0 (block.length / 8)
      (2 * (block.length / 8)) (by omega) (by omega) (by omega)
    obtain ⟨pm, isMiddle, middle⟩ := @med3_inside α cmp block (block.length / 2 - block.length / 8)
      (block.length / 2) (block.length / 2 + block.length / 8) (by omega) (by omega) (by omega)
    obtain ⟨pn, isHigh, high⟩ := @med3_inside α cmp block
      (block.length - 1 - 2 * (block.length / 8)) (block.length - 1 - block.length / 8)
      (block.length - 1) (by omega) (by omega) (by omega)
    simp only [isLow, isMiddle, isHigh, Option.bind_eq_bind, Option.bind_some]
    exact med3_inside low middle high
  · exact med3_inside (by omega) (by omega) (by omega)
  · exact ⟨block.length / 2, rfl, by omega⟩

/-- Any two elements can be exchanged. -/
theorem swap_perm {block : List α} {i j : Nat} (first : i < block.length)
    (second : j < block.length)
    : ∃ after, swap block i j = some after ∧ after.Perm block := by
  simp only [swap, List.getElem?_eq_getElem first, List.getElem?_eq_getElem second,
    Option.bind_eq_bind, Option.bind_some]
  exact ⟨_, rfl, List.set_set_perm first second⟩

end Quicksort

end SpeedTables
