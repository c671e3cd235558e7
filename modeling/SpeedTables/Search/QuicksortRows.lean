import SpeedTables.Search.Quicksort

/-! The partition of a block around its pivot, and the sort of the rows of a search. -/

namespace SpeedTables

namespace Quicksort

open Lib Std

variable {α : Type} {cmp : α → α → Ordering}

-----------------------------------------------------------------------------------------
-- The partition
-----------------------------------------------------------------------------------------

/-- The parts of a block behind the pivot: equal ones, less ones, those not looked at, greater
ones, and equal ones again.
-/
structure Parts (α : Type) where
  first : List α
  less : List α
  rest : List α
  greater : List α
  last : List α

def Parts.all (parts : Parts α) : List α :=
  parts.first ++ (parts.less ++ (parts.rest ++ (parts.greater ++ parts.last)))

/-- A state of the partition, with the parts that its indexes divide the block into. -/
structure Scan.Divided (cmp : α → α → Ordering) (pivot : α) (parts : Parts α) (scan : Scan α)
    : Prop where
  block : scan.block = pivot :: parts.all
  pa : scan.pa = parts.first.length + 1
  pb : scan.pb = scan.pa + parts.less.length
  pc : scan.pc + 1 = scan.pb + parts.rest.length
  pd : scan.pd = scan.pc + parts.greater.length
  first : ∀ x ∈ parts.first, cmp x pivot = .eq
  less : ∀ x ∈ parts.less, cmp x pivot = .lt
  greater : ∀ x ∈ parts.greater, cmp x pivot = .gt
  last : ∀ x ∈ parts.last, cmp x pivot = .eq

section Partition

variable {pivot : α} {parts : Parts α} {scan : Scan α}

theorem Scan.Divided.pivot_read (divided : scan.Divided cmp pivot parts)
    : scan.block[0]? = some pivot := by
  rw [divided.block]
  rfl

theorem Scan.Divided.left_eq (divided : scan.Divided cmp pivot parts)
    : scan.left = parts.rest.length := by
  have := divided.pc
  rw [Scan.left]
  omega

/-- The upward loop ends before a greater element, by induction on the elements left. -/
theorem scanUp_divides (divided : scan.Divided cmp pivot parts)
    : ∃ after ends, scanUp cmp scan.left scan = some after ∧ after.Divided cmp pivot ends
        ∧ ends.all.Perm parts.all ∧ ends.rest.length ≤ parts.rest.length
        ∧ ∀ x ∈ ends.rest.head?, cmp x pivot = .gt := by
  rw [divided.left_eq]
  induction rest : parts.rest generalizing parts scan with
  | nil => exact ⟨scan, parts, rfl, divided, .refl _, by simp [rest], by simp [rest]⟩
  | cons u later ih =>
      have here : scan.block[scan.pb]? = some u := by
        have index : scan.pb = (pivot :: (parts.first ++ parts.less)).length := by
          simp only [divided.pb, divided.pa, List.length_cons, List.length_append]
          omega
        rw [divided.block, Parts.all, rest, index, ← List.append_assoc, ← List.cons_append,
          List.getElem?_append_right (Nat.le_refl _), Nat.sub_self]
        rfl
      rw [List.length_cons, scanUp, here, divided.pivot_read]
      simp only [Option.bind_eq_bind, Option.bind_some]
      have size := divided.pc
      rw [rest, List.length_cons] at size
      cases order : cmp u pivot with
      | gt =>
          refine ⟨scan, parts, rfl, divided, .refl _, by simp [rest], ?_⟩
          rintro x first
          rw [rest, List.head?_cons, Option.mem_some_iff] at first
          rw [← first, order]
      | lt =>
          -- The element goes to the lesser ones.
          have moved : Scan.Divided cmp pivot
              { parts with less := parts.less ++ [u], rest := later }
              { scan with pb := scan.pb + 1 } :=
            { divided with
              block := by simp [divided.block, Parts.all, rest]
              pb := by simp only [divided.pb, List.length_append, List.length_singleton]; omega
              pc := by dsimp only; omega
              less := by
                intro x member
                rcases List.mem_append.mp member with old | new
                · exact divided.less x old
                · rw [List.mem_singleton.mp new, order] }
          obtain ⟨after, ends, goes, there, perm, shrinks, head⟩ := ih moved rfl
          refine ⟨after, ends, goes, there, perm.trans ?_, by omega, head⟩
          simp [Parts.all, rest]
      | eq =>
          -- The element changes places with the first lesser one.
          obtain ⟨less, same, exchanges⟩ := swap_first (pivot :: parts.first) parts.less
            (later ++ (parts.greater ++ parts.last)) u
          have swaps : swap scan.block scan.pa scan.pb = some ((pivot :: parts.first)
              ++ u :: (less ++ (later ++ (parts.greater ++ parts.last)))) := by
            rw [← exchanges, divided.block, Parts.all, rest, divided.pb, divided.pa]
            rfl
          rw [swaps, Option.bind_some]
          have moved : Scan.Divided cmp pivot
              { parts with first := parts.first ++ [u], less := less, rest := later }
              { scan with
                block := (pivot :: parts.first)
                  ++ u :: (less ++ (later ++ (parts.greater ++ parts.last)))
                pa := scan.pa + 1
                pb := scan.pb + 1
                swapped := true } :=
            { divided with
              block := by simp [Parts.all]
              pa := by simp [divided.pa]
              pb := by simp only [divided.pb, same.length_eq]; omega
              pc := by dsimp only; omega
              first := by
                intro x member
                rcases List.mem_append.mp member with old | new
                · exact divided.first x old
                · rw [List.mem_singleton.mp new, order]
              less := fun x member => divided.less x (same.mem_iff.mp member) }
          obtain ⟨after, ends, goes, there, perm, shrinks, head⟩ := ih moved rfl
          refine ⟨after, ends, goes, there, perm.trans ?_, by omega, head⟩
          simp only [Parts.all, rest, List.append_assoc, List.singleton_append]
          refine List.Perm.append_left _ ?_
          refine (List.Perm.cons u (same.append_right _)).trans ?_
          exact List.perm_middle.symm

/-- The downward loop ends behind a lesser element, by induction on the elements left. -/
theorem scanDown_divides (divided : scan.Divided cmp pivot parts)
    : ∃ after ends, scanDown cmp scan.left scan = some after ∧ after.Divided cmp pivot ends
        ∧ ends.all.Perm parts.all ∧ ends.rest <+: parts.rest
        ∧ ∀ x ∈ ends.rest.getLast?, cmp x pivot = .lt := by
  rw [divided.left_eq]
  induction rest : parts.rest using List.reverseRecOn generalizing parts scan with
  | nil => exact ⟨scan, parts, rfl, divided, .refl _, by simp [rest], by simp [rest]⟩
  | append_singleton former u ih =>
      have size := divided.pc
      rw [rest, List.length_append, List.length_singleton] at size
      have here : scan.block[scan.pc]? = some u := by
        have index : scan.pc = (pivot :: (parts.first ++ (parts.less ++ former))).length := by
          simp only [List.length_cons, List.length_append]
          have := divided.pb
          have := divided.pa
          omega
        have shape : pivot :: parts.all = (pivot :: (parts.first ++ (parts.less ++ former)))
            ++ u :: (parts.greater ++ parts.last) := by
          simp [Parts.all, rest]
        rw [divided.block, shape, index, List.getElem?_append_right (Nat.le_refl _), Nat.sub_self]
        rfl
      rw [List.length_append, List.length_singleton, scanDown, here, divided.pivot_read]
      simp only [Option.bind_eq_bind, Option.bind_some]
      cases order : cmp u pivot with
      | lt =>
          refine ⟨scan, parts, rfl, divided, .refl _, by simp [rest], ?_⟩
          rintro x last
          rw [rest, List.getLast?_concat, Option.mem_some_iff] at last
          rw [← last, order]
      | gt =>
          -- The element goes to the greater ones.
          have moved : Scan.Divided cmp pivot
              { parts with rest := former, greater := u :: parts.greater }
              { scan with pc := scan.pc - 1 } :=
            { divided with
              block := by simp [divided.block, Parts.all, rest]
              pc := by have := divided.pb; have := divided.pa; dsimp only; omega
              pd := by
                have := divided.pb
                have := divided.pa
                simp only [divided.pd, List.length_cons]
                omega
              greater := by
                intro x member
                rcases List.mem_cons.mp member with rfl | old
                · exact order
                · exact divided.greater x old }
          obtain ⟨after, ends, goes, there, perm, part, last⟩ := ih moved rfl
          refine ⟨after, ends, goes, there, perm.trans ?_,
            part.trans (List.prefix_append former [u]), last⟩
          simp [Parts.all, rest]
      | eq =>
          -- The element changes places with the last greater one.
          obtain ⟨greater, same, exchanges⟩ := swap_last
            (pivot :: (parts.first ++ (parts.less ++ former))) parts.greater parts.last u
          have swaps : swap scan.block scan.pc scan.pd
              = some ((pivot :: (parts.first ++ (parts.less ++ former)))
                ++ (greater ++ u :: parts.last)) := by
            have index : scan.pc = (pivot :: (parts.first ++ (parts.less ++ former))).length := by
              simp only [List.length_cons, List.length_append]
              have := divided.pb
              have := divided.pa
              omega
            rw [← exchanges, divided.block, Parts.all, rest, divided.pd, ← index]
            simp
          rw [swaps, Option.bind_some]
          have moved : Scan.Divided cmp pivot
              { parts with rest := former, greater := greater, last := u :: parts.last }
              { scan with
                block := (pivot :: (parts.first ++ (parts.less ++ former)))
                  ++ (greater ++ u :: parts.last)
                pc := scan.pc - 1
                pd := scan.pd - 1
                swapped := true } :=
            { divided with
              block := by simp [Parts.all]
              pc := by have := divided.pb; have := divided.pa; dsimp only; omega
              pd := by
                have := divided.pb
                have := divided.pa
                simp only [divided.pd, same.length_eq]
                omega
              greater := fun x member => divided.greater x (same.mem_iff.mp member)
              last := by
                intro x member
                rcases List.mem_cons.mp member with rfl | old
                · exact order
                · exact divided.last x old }
          obtain ⟨after, ends, goes, there, perm, part, last⟩ := ih moved rfl
          refine ⟨after, ends, goes, there, perm.trans ?_,
            part.trans (List.prefix_append former [u]), last⟩
          simp only [Parts.all, rest, List.append_assoc, List.singleton_append]
          refine List.Perm.append_left _ (List.Perm.append_left _ (List.Perm.append_left _ ?_))
          refine List.perm_middle.trans (List.Perm.cons u (same.append_right _))

/-- The partition looks at every element in so many rounds, by induction on the rounds. -/
theorem partition_divides (divided : scan.Divided cmp pivot parts) {rounds : Nat}
    (enough : parts.rest.length < rounds)
    : ∃ after ends, partition cmp rounds scan = some after ∧ after.Divided cmp pivot ends
        ∧ ends.all.Perm parts.all ∧ ends.rest = [] := by
  induction rounds generalizing parts scan with
  | zero => omega
  | succ rounds ih =>
      obtain ⟨up, upper, rises, divided', perm', shrinks, head⟩ := scanUp_divides divided
      obtain ⟨down, lower, falls, divided'', perm'', part, last⟩ := scanDown_divides divided'
      rw [partition, rises]
      simp only [Option.bind_eq_bind, Option.bind_some]
      rw [falls, Option.bind_some]
      have size := divided''.pc
      cases rest : lower.rest with
      | nil =>
          rw [rest, List.length_nil] at size
          rw [if_pos (by omega)]
          exact ⟨down, lower, rfl, divided'', perm''.trans perm', rest⟩
      | cons u later =>
          rw [rest, List.length_cons] at size
          rw [if_neg (by omega)]
          obtain ⟨tail, whole⟩ := part
          have above : cmp u pivot = .gt := head u (by simp [← whole, rest])
          rcases List.eq_nil_or_concat later with none | ⟨middle, v, isLast⟩
          · subst none
            have below : cmp u pivot = .lt := last u (by simp [rest])
            cases above.symm.trans below
          · rw [List.concat_eq_append] at isLast
            subst isLast
            have below : cmp v pivot = .lt := by
              refine last v ?_
              rw [rest, ← List.cons_append, List.getLast?_concat]
              rfl
            -- The two elements that stopped the loops change places.
            have exchanges := swap_parts (pivot :: (lower.first ++ lower.less)) middle
              (lower.greater ++ lower.last) u v
            have swaps : swap down.block down.pb down.pc
                = some ((pivot :: (lower.first ++ lower.less))
                  ++ v :: (middle ++ u :: (lower.greater ++ lower.last))) := by
              have low : down.pb = (pivot :: (lower.first ++ lower.less)).length := by
                simp only [List.length_cons, List.length_append, divided''.pb, divided''.pa]
                omega
              have high : down.pc = (pivot :: (lower.first ++ lower.less)).length
                  + (middle.length + 1) := by
                rw [← low]
                simp only [List.length_append, List.length_singleton] at size
                omega
              rw [← exchanges, divided''.block, Parts.all, rest, high, low]
              simp
            rw [swaps, Option.bind_some]
            simp only [List.length_append, List.length_singleton] at size
            have moved : Scan.Divided cmp pivot
                { lower with
                  less := lower.less ++ [v]
                  rest := middle
                  greater := u :: lower.greater }
                { down with
                  block := (pivot :: (lower.first ++ lower.less))
                    ++ v :: (middle ++ u :: (lower.greater ++ lower.last))
                  pb := down.pb + 1
                  pc := down.pc - 1
                  swapped := true } :=
              { divided'' with
                block := by simp [Parts.all]
                pb := by simp only [divided''.pb, List.length_append, List.length_singleton]; omega
                pc := by dsimp only; omega
                pd := by
                  have := divided''.pb
                  have := divided''.pa
                  simp only [divided''.pd, List.length_cons]
                  omega
                less := by
                  intro x member
                  rcases List.mem_append.mp member with old | new
                  · exact divided''.less x old
                  · rw [List.mem_singleton.mp new, below]
                greater := by
                  intro x member
                  rcases List.mem_cons.mp member with rfl | old
                  · exact above
                  · exact divided''.greater x old }
            have fewer : middle.length < rounds := by
              have shorter := congrArg List.length whole
              simp only [rest, List.length_append, List.length_cons, List.length_nil] at shorter
              omega
            obtain ⟨after, ends, goes, there, perm, complete⟩ := ih moved fewer
            refine ⟨after, ends, goes, there, perm.trans (.trans ?_ (perm''.trans perm')), complete⟩
            simp only [Parts.all, rest, List.append_assoc, List.cons_append]
            refine List.Perm.append_left _ (List.Perm.append_left _ ?_)
            refine (List.Perm.cons v List.perm_middle).trans ?_
            refine (List.Perm.swap u v _).trans (List.Perm.cons u ?_)
            exact List.perm_middle.symm

end Partition

-----------------------------------------------------------------------------------------
-- The sort
-----------------------------------------------------------------------------------------

section Sorting

variable {pivot : α} {parts : Parts α} {scan : Scan α}

/-- The elements that are equal to the pivot come between the others. -/
theorem gatherEqual_gathers (divided : scan.Divided cmp pivot parts) (done : parts.rest = [])
    (few : scan.block.length < 2 ^ 29)
    : ∃ less equal greater, gatherEqual scan = some (less ++ (equal ++ greater))
        ∧ less.Perm parts.less ∧ equal.Perm (pivot :: parts.first ++ parts.last)
        ∧ greater.Perm parts.greater := by
  have shape : scan.block
      = (pivot :: parts.first) ++ (parts.less ++ (parts.greater ++ parts.last)) := by
    simp [divided.block, Parts.all, done]
  have size := congrArg List.length shape
  simp only [List.length_append, List.length_cons] at size
  have low : scan.pb - scan.pa = parts.less.length := by
    rw [divided.pb]
    omega
  have high : scan.pd - scan.pc = parts.greater.length := by
    rw [divided.pd]
    omega
  have ends : scan.block.length - scan.pd - 1 = parts.last.length := by
    have := divided.pa
    have := divided.pb
    have := divided.pc
    have := divided.pd
    rw [done, List.length_nil] at *
    omega
  obtain ⟨first, less, samePivots, sameLess, lower⟩ := vecswap_parts [] (pivot :: parts.first)
    parts.less (parts.greater ++ parts.last) rfl (by rw [List.length_cons]; omega)
  obtain ⟨greater, last, sameGreater, sameLast, upper⟩ := vecswap_parts (less ++ first)
    parts.greater parts.last [] rfl (by omega)
  refine ⟨less, first ++ last, greater, ?_, sameLess, samePivots.append sameLast, sameGreater⟩
  have firstIndex : scan.pb - min (pivot :: parts.first).length parts.less.length
      = ([] : List α).length + ((pivot :: parts.first).length + parts.less.length)
        - min (pivot :: parts.first).length parts.less.length := by
    simp only [divided.pb, divided.pa, List.length_nil, List.length_cons]
    omega
  have middle : scan.pb = (less ++ first).length := by
    simp only [divided.pb, divided.pa, List.length_append, sameLess.length_eq,
      samePivots.length_eq, List.length_cons]
    omega
  have secondIndex : scan.block.length - min parts.greater.length parts.last.length
      = (less ++ first).length + (parts.greater.length + parts.last.length)
        - min parts.greater.length parts.last.length := by
    rw [← middle, divided.pb, divided.pa]
    omega
  have pivots : scan.pa = (pivot :: parts.first).length := divided.pa
  rw [gatherEqual]
  dsimp only
  rw [low, high, ends, pivots, firstIndex, shape]
  simp only [List.nil_append, List.length_nil] at lower ⊢
  rw [lower, Option.bind_eq_bind, Option.bind_some, ← shape, secondIndex, middle]
  simp only [List.append_assoc, List.append_nil] at upper ⊢
  exact upper

/-- The first elements are sorted unless there is one at most. -/
theorem sortFront_sorts {sort : List α → Option (List α)} {size : Nat}
    (sorts : ∀ elements, elements.length < size → ∃ sorted, sort elements = some sorted
      ∧ sorted.Perm elements ∧ (TransCmp cmp → Sorted cmp sorted))
    (front rest : List α) (fewer : front.length < size)
    : ∃ sorted, sortFront sort front.length (front ++ rest) = some (sorted ++ rest)
        ∧ sorted.Perm front ∧ (TransCmp cmp → Sorted cmp sorted) := by
  unfold sortFront
  split
  · obtain ⟨sorted, goes, perm, order⟩ := sorts front fewer
    refine ⟨sorted, ?_, perm, order⟩
    rw [List.take_left, List.drop_left, goes, Option.map_some]
  · next single => exact ⟨front, rfl, .refl front, fun _ => sorted_of_single (by omega)⟩

/-- The last elements are sorted unless there is one at most. -/
theorem sortBack_sorts {sort : List α → Option (List α)} {size : Nat}
    (sorts : ∀ elements, elements.length < size → ∃ sorted, sort elements = some sorted
      ∧ sorted.Perm elements ∧ (TransCmp cmp → Sorted cmp sorted))
    (rest back : List α) (fewer : back.length < size)
    : ∃ sorted, sortBack sort back.length (rest ++ back) = some (rest ++ sorted)
        ∧ sorted.Perm back ∧ (TransCmp cmp → Sorted cmp sorted) := by
  unfold sortBack
  split
  · obtain ⟨sorted, goes, perm, order⟩ := sorts back fewer
    refine ⟨sorted, ?_, perm, order⟩
    rw [List.length_append, Nat.add_sub_cancel, List.take_left, List.drop_left, goes,
      Option.map_some]
  · next single => exact ⟨back, rfl, .refl back, fun _ => sorted_of_single (by omega)⟩

/-- With as many levels as elements the sort stays in the block and sorts it, by induction on the
levels.
-/
theorem sortBlock_sorts {depth : Nat} {block : List α} (enough : block.length < depth)
    (few : block.length < 2 ^ 29)
    : ∃ sorted, sortBlock cmp depth block = some sorted ∧ sorted.Perm block
        ∧ (TransCmp cmp → Sorted cmp sorted) := by
  induction depth generalizing block with
  | zero => omega
  | succ depth ih =>
      rw [sortBlock]
      by_cases short : block.length < 7
      · rw [if_pos short]
        exact insertionSort_sorts block
      rw [if_neg short]
      obtain ⟨pm, chosen, inside⟩ := @choosePivot_inside α cmp block (by omega)
      obtain ⟨around, swapped, samePivot⟩ := swap_perm (show 0 < block.length by omega) inside
      simp only [chosen, swapped, Option.bind_eq_bind, Option.bind_some]
      have size := samePivot.length_eq
      cases shape : around with
      | nil =>
          rw [shape, List.length_nil] at size
          omega
      | cons pivot others =>
          rw [shape, List.length_cons] at size
          have start : Scan.Divided cmp pivot
              { first := [], less := [], rest := others, greater := [], last := [] }
              { block := pivot :: others, pa := 1, pb := 1, pc := (pivot :: others).length - 1,
                pd := (pivot :: others).length - 1, swapped := false } :=
            { block := by simp [Parts.all]
              pa := rfl
              pb := rfl
              pc := by simp only [List.length_cons]; omega
              pd := rfl
              first := by simp
              less := by simp
              greater := by simp
              last := by simp }
          obtain ⟨scan, parts, divides, divided, perm, done⟩ :=
            partition_divides start (show others.length < (pivot :: others).length by simp)
          have sameAll : scan.block.Perm block := by
            rw [divided.block]
            have whole : (pivot :: others).Perm block := shape ▸ samePivot
            refine (List.Perm.cons pivot perm).trans ?_
            simpa [Parts.all] using whole
          rw [partitionBlock, divides, Option.bind_some]
          by_cases unmoved : scan.swapped = false
          · rw [if_pos unmoved]
            obtain ⟨sorted, goes, same, sorts⟩ := @insertionSort_sorts α cmp scan.block
            exact ⟨sorted, goes, same.trans sameAll, sorts⟩
          rw [if_neg unmoved]
          obtain ⟨less, equal, greater, gathers, sameLess, sameEqual, sameGreater⟩ :=
            gatherEqual_gathers divided done (by rw [sameAll.length_eq]; exact few)
          rw [gathers, Option.bind_some]
          have low : scan.pb - scan.pa = less.length := by
            rw [divided.pb, sameLess.length_eq]
            omega
          have high : scan.pd - scan.pc = greater.length := by
            rw [divided.pd, sameGreater.length_eq]
            omega
          have parted : (less ++ (equal ++ greater)).Perm block := by
            refine .trans ?_ sameAll
            rw [divided.block, Parts.all, done, List.nil_append]
            refine (sameLess.append (sameEqual.append sameGreater)).trans ?_
            rw [List.append_assoc, ← List.cons_append]
            refine (List.perm_append_comm_assoc _ _ _).trans ?_
            exact (List.perm_append_comm.append_left parts.less).append_left _
          have whole := parted.length_eq
          simp only [List.length_append] at whole
          have someEqual : 0 < equal.length := by
            rw [sameEqual.length_eq, List.cons_append, List.length_cons]
            omega
          have levels : ∀ elements, elements.length < block.length →
              ∃ sorted, sortBlock cmp depth elements = some sorted ∧ sorted.Perm elements
                ∧ (TransCmp cmp → Sorted cmp sorted) :=
            fun elements fewer => ih (by omega) (by omega)
          obtain ⟨lowSorted, lowSorts, lowPerm, lowOrder⟩ :=
            sortFront_sorts levels less (equal ++ greater) (by omega)
          obtain ⟨highSorted, highSorts, highPerm, highOrder⟩ :=
            sortBack_sorts levels (lowSorted ++ equal) greater (by omega)
          refine ⟨lowSorted ++ (equal ++ highSorted), ?_, ?_, fun trans => ?_⟩
          · rw [low, high, lowSorts, Option.bind_some, ← List.append_assoc, highSorts,
              List.append_assoc]
          · exact (lowPerm.append (highPerm.append_left equal)).trans parted
          · refine @sorted_around α cmp trans pivot _ _ _ (lowOrder trans) (highOrder trans)
              ?_ ?_ ?_
            · exact fun x inside => divided.less x (sameLess.mem_iff.mp (lowPerm.mem_iff.mp inside))
            · intro x inside
              rcases List.mem_append.mp (sameEqual.mem_iff.mp inside) with old | last
              · rcases List.mem_cons.mp old with rfl | old
                · exact ReflCmp.compare_self
                · exact divided.first x old
              · exact divided.last x last
            · exact fun x inside =>
                divided.greater x (sameGreater.mem_iff.mp (highPerm.mem_iff.mp inside))

end Sorting

end Quicksort

open Lib Std

variable {creator : CreatorTable}

/-- The sort of fewer than 2^29 elements stays in its block and permutes it, whatever the comparison
answers, and sorts it if the comparison is a total preorder.
-/
theorem qsortR_sorts {α : Type} (cmp : α → α → Ordering) (block : List α)
    (few : block.length < 2 ^ 29)
    : ∃ sorted, qsortR cmp block = some sorted ∧ sorted.Perm block
        ∧ (TransCmp cmp → Sorted cmp sorted) :=
  Quicksort.sortBlock_sorts (Nat.lt_succ_self _) few

/-- Eight numbers, in the order of their remainders. -/
theorem qsortR_remainders
    : ∃ sorted, qsortR (fun x y : Nat => compare (x % 3) (y % 3)) [8, 1, 5, 3, 2, 4, 7, 6]
          = some sorted
        ∧ sorted.Perm [8, 1, 5, 3, 2, 4, 7, 6]
        ∧ (TransCmp (fun x y : Nat => compare (x % 3) (y % 3)) →
          Sorted (fun x y : Nat => compare (x % 3) (y % 3)) sorted) :=
  qsortR_sorts _ _ (by decide)

/-- Sorts by several fields compare in a total preorder, by induction on the fields. -/
instance sortCompare_trans (sort : List (creator.Field × Bool))
    : TransCmp (@sortCompare creator sort) := by
  induction sort with
  | nil => exact { eq_swap := rfl, isLE_trans := fun _ _ => rfl }
  | cons entry rest ih =>
      obtain ⟨field, descending⟩ := entry
      have lexicographic : @sortCompare creator ((field, descending) :: rest)
          = compareLex (fun left right => if descending then sortCompareField field right left
            else sortCompareField field left right) (sortCompare rest) := by
        funext left right
        rw [sortCompare, compareLex]
        have swapped : (sortCompareField field left right).swap
            = sortCompareField field right left :=
          OrientedCmp.eq_swap.symm
        rw [swapped]
        cases descending with
        | false => cases sortCompareField field left right <;> simp
        | true => cases sortCompareField field right left <;> simp
      rw [lexicographic]
      cases descending with
      | false =>
          simp only [Bool.false_eq_true, if_false]
          infer_instance
      | true =>
          simp only [if_true]
          infer_instance

/-- A table of two rows. -/
def rankedRows : CTable sampleCreator :=
  sampleTable [setCommand sampleHost [[97], [110], [49]],
    setCommand sampleHost [[99], [110], [50]]]

/-- The sort of a search's rows by `ctable_qsort_r` agrees with the order that the search takes them
in, up to rows that the sort fields call equal.
-/
theorem sortRows_agrees (table : CTable creator) (sort : List (creator.Field × Bool))
    (rows : List RowId) (there : ∀ id ∈ rows, (table.rows id).isSome = true)
    (few : rows.length < 2 ^ 29)
    : ∃ sorted, qsortR
          (fun left right => sortCompare sort (table.rowAt left) (table.rowAt right)) rows
          = some sorted
        ∧ sorted.Perm rows
        ∧ List.Forall₂ (fun left right =>
            sortCompare sort (table.rowAt left) (table.rowAt right) = .eq)
          sorted (table.sortRows sort rows) := by
  have trans : TransCmp
      (fun left right => sortCompare sort (table.rowAt left) (table.rowAt right)) :=
    transCmp_comap (sortCompare sort) table.rowAt
  obtain ⟨sorted, goes, perm, order⟩ := @Quicksort.sortBlock_sorts RowId
    (fun left right => sortCompare sort (table.rowAt left) (table.rowAt right)) _ rows
    (Nat.lt_succ_self rows.length) few
  refine ⟨sorted, goes, perm, (order trans).forall₂_of_perm (sorted_mergeSort ?_) ?_⟩
  · intro left inLeft right inRight
    obtain ⟨leftRow, isLeft⟩ := Option.isSome_iff_exists.mp (there left inLeft)
    obtain ⟨rightRow, isRight⟩ := Option.isSome_iff_exists.mp (there right inRight)
    simp only [isLeft, isRight, CTable.rowAt, Option.getD_some]
  · exact perm.trans (List.mergeSort_perm rows _).symm

/-- Two rows by descending numbers. -/
theorem sortRows_agrees_descending
    : ∃ sorted, qsortR (fun left right => sortCompare [((1 : Fin 6), true)]
          (rankedRows.rowAt left) (rankedRows.rowAt right)) [0, 1] = some sorted
        ∧ sorted.Perm [0, 1]
        ∧ List.Forall₂ (fun left right => sortCompare [((1 : Fin 6), true)]
            (rankedRows.rowAt left) (rankedRows.rowAt right) = .eq)
          sorted (rankedRows.sortRows [((1 : Fin 6), true)] [0, 1]) :=
  sortRows_agrees rankedRows [((1 : Fin 6), true)] [0, 1] (by decide +kernel) (by decide)

end SpeedTables
