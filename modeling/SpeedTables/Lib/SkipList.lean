import Mathlib

/-! Skip lists of buckets: the tower walk of a lookup, and its refinement of a linear scan. -/

namespace SpeedTables.Lib

-----------------------------------------------------------------------------------------
-- Nodes and towers
-----------------------------------------------------------------------------------------

/-- A node linked at the levels below `height`, holding a bucket of entries. -/
structure Node (ρ : Type*) where
  id : Nat
  height : Nat
  bucket : List ρ

/-- A skip list, given by its level-0 chain. The chain of level `i` consists of the nodes
of height above `i`. `head` identifies the list, and `curl` is a traversal marker.
-/
structure SkipList (ρ : Type*) where
  head : Nat
  maxh : Nat
  curh : Nat
  size : Nat
  nodes : List (Node ρ)
  curl : Option Nat

variable {ρ ε : Type*}

/-- Walk one level: pass the nodes of the level that lie before the target. `here` is the
level-0 chain after the current position, and the second list its unread part.
-/
def walkLevel (before : List ρ → Except ε Bool) (level : Nat)
    : List (Node ρ) → List (Node ρ) → Except ε (List (Node ρ))
  | here, [] => .ok here
  | here, node :: rest =>
      if node.height ≤ level then
        walkLevel before level here rest
      else
        match before node.bucket with
        | .error stop => .error stop
        | .ok true => walkLevel before level rest rest
        | .ok false => .ok here

/-- Walk the levels from the top one down to level 0. -/
def locate (before : List ρ → Except ε Bool) : Nat → List (Node ρ) → Except ε (List (Node ρ))
  | 0, here => .ok here
  | level + 1, here =>
      match walkLevel before level here here with
      | .error stop => .error stop
      | .ok next => locate before level next

/-- The height left after the nodes above it are gone. -/
def lowerHeight (nodes : List (Node ρ)) : Nat → Nat
  | 0 => 0
  | height + 1 =>
      if nodes.any (fun node => height + 1 ≤ node.height) then height + 1
      else lowerHeight nodes height

/-- The chain before a suffix of it. -/
def chainBefore (nodes rest : List (Node ρ)) : List (Node ρ) :=
  nodes.take (nodes.length - rest.length)

/-- Change the bucket of a node. -/
def setBucket (nodes : List (Node ρ)) (id : Nat) (bucket : List ρ) : List (Node ρ) :=
  nodes.map (fun node => if node.id = id then { node with bucket := bucket } else node)

/-- The level of a new node, from the number of zero bits drawn before a one. -/
def randomLevel (max zeros : Nat) : Nat :=
  if max ≤ zeros + 1 then max - 1 else zeros + 1

-----------------------------------------------------------------------------------------
-- The tower walk reaches the position of a linear scan
-----------------------------------------------------------------------------------------

/-- The nodes satisfying `lower` form a prefix of the chain. -/
def LowerPrefix (lower : List ρ → Bool) (nodes : List (Node ρ)) : Prop :=
  nodes.Pairwise (fun left right => lower right.bucket → lower left.bucket)

/-- Passing a node of the prefix passes all nodes skipped over as well.
Witness: the skipped nodes stand before it in the chain.
-/
private theorem dropWhile_passed
    {lower : List ρ → Bool} {skipped rest : List (Node ρ)} {node : Node ρ}
    (ordered : LowerPrefix lower (skipped ++ node :: rest))
    (passed : lower node.bucket = true)
    : (skipped ++ node :: rest).dropWhile (fun n => lower n.bucket) =
        rest.dropWhile (fun n => lower n.bucket) := by
  have skippedLower : ∀ n ∈ skipped, lower n.bucket = true := by
    intro n member
    exact (List.pairwise_append.mp ordered).2.2 n member node (by simp) passed
  rw [List.dropWhile_append_of_pos skippedLower, List.dropWhile_cons_of_pos (by simpa using passed)]

/-- A comparison of buckets agrees with `lower` wherever it does not stop. -/
def Agrees (before : List ρ → Except ε Bool) (lower : List ρ → Bool) (nodes : List (Node ρ))
    : Prop :=
  ∀ n ∈ nodes, ∀ value, before n.bucket = .ok value → lower n.bucket = value

/-- A walk of one level stays at or before the position a linear scan reaches, by
induction on the unread chain.
-/
theorem walkLevel_scan
    {before : List ρ → Except ε Bool} {lower : List ρ → Bool} {level : Nat}
    : ∀ {skipped unread next : List (Node ρ)},
        Agrees before lower (skipped ++ unread)
        → LowerPrefix lower (skipped ++ unread)
        → walkLevel before level (skipped ++ unread) unread = .ok next
        → next <:+ skipped ++ unread
          ∧ next.dropWhile (fun n => lower n.bucket) =
              (skipped ++ unread).dropWhile (fun n => lower n.bucket) := by
  intro skipped unread
  induction unread generalizing skipped with
  | nil =>
      intro next agrees ordered walked
      cases walked
      exact ⟨List.suffix_refl _, rfl⟩
  | cons node rest ih =>
      intro next agrees ordered walked
      rw [walkLevel] at walked
      split at walked
      · have same : skipped ++ node :: rest = (skipped ++ [node]) ++ rest := by simp
        rw [same] at agrees ordered walked ⊢
        exact ih agrees ordered walked
      · have compared := agrees node (by simp)
        split at walked
        · cases walked
        · next passes =>
            have passed := dropWhile_passed ordered (compared true passes)
            have restAgrees : Agrees before lower ([] ++ rest) := by
              intro n member
              exact agrees n (by simp at member; simp [member])
            have restOrdered : LowerPrefix lower ([] ++ rest) :=
              List.Pairwise.sublist (by simp) ordered
            obtain ⟨suffix, dropped⟩ := ih restAgrees restOrdered (by simpa using walked)
            refine ⟨suffix.trans ⟨skipped ++ [node], by simp⟩, ?_⟩
            rw [dropped, passed]
            simp
        · cases walked
          exact ⟨List.suffix_refl _, rfl⟩

/-- The walk of level 0 is the linear scan when every node is linked at level 0. -/
theorem walkLevel_zero
    {before : List ρ → Except ε Bool} {lower : List ρ → Bool}
    : ∀ {nodes next : List (Node ρ)},
        Agrees before lower nodes
        → (∀ n ∈ nodes, 0 < n.height)
        → walkLevel before 0 nodes nodes = .ok next
        → next = nodes.dropWhile (fun n => lower n.bucket) := by
  intro nodes
  induction nodes with
  | nil =>
      intro next agrees linked walked
      cases walked
      rfl
  | cons node rest ih =>
      intro next agrees linked walked
      have high : ¬ node.height ≤ 0 := by
        have := linked node (by simp)
        omega
      rw [walkLevel, if_neg high] at walked
      split at walked
      · cases walked
      · next passes =>
          have value := agrees node (by simp) true passes
          rw [List.dropWhile_cons_of_pos (by simpa using value)]
          exact ih (fun n member => agrees n (by simp [member]))
            (fun n member => linked n (by simp [member])) walked
      · next stays =>
          have value := agrees node (by simp) false stays
          cases walked
          rw [List.dropWhile_cons_of_neg (by simpa using value)]

/-- Every lookup through the towers finds the position of a linear scan, by induction on
the levels. Witness: upper levels never pass that position, and level 0 reaches it.
-/
theorem locate_eq_dropWhile
    {before : List ρ → Except ε Bool} {lower : List ρ → Bool}
    : ∀ {levels : Nat} {nodes rest : List (Node ρ)},
        Agrees before lower nodes
        → LowerPrefix lower nodes
        → (∀ n ∈ nodes, 0 < n.height)
        → locate before (levels + 1) nodes = .ok rest
        → rest = nodes.dropWhile (fun n => lower n.bucket) := by
  intro levels
  induction levels with
  | zero =>
      intro nodes rest agrees ordered linked located
      rw [locate] at located
      split at located
      · cases located
      · next walked =>
          cases located
          exact walkLevel_zero agrees linked walked
  | succ levels ih =>
      intro nodes rest agrees ordered linked located
      rw [locate] at located
      split at located
      · cases located
      · next next walked =>
          obtain ⟨suffix, dropped⟩ :=
            @walkLevel_scan _ _ before lower (levels + 1) [] nodes next agrees ordered walked
          have member : ∀ n ∈ next, n ∈ nodes := fun n inside => suffix.subset inside
          rw [ih (fun n inside => agrees n (member n inside)) (ordered.sublist suffix.sublist)
            (fun n inside => linked n (member n inside)) located]
          exact dropped

/-- A walk of one level stops only where the comparison of a bucket does. -/
theorem walkLevel_stops {before : List ρ → Except ε Bool} {level : Nat} {stop : ε}
    : ∀ {here unread : List (Node ρ)},
        walkLevel before level here unread = .error stop
        → ∃ n ∈ unread, before n.bucket = .error stop := by
  intro here unread
  induction unread generalizing here with
  | nil =>
      intro walked
      cases walked
  | cons node rest ih =>
      intro walked
      rw [walkLevel] at walked
      split at walked
      · obtain ⟨n, member, stops⟩ := ih walked
        exact ⟨n, by simp [member], stops⟩
      · split at walked
        · next stops =>
            cases walked
            exact ⟨node, by simp, stops⟩
        · obtain ⟨n, member, stops⟩ := ih walked
          exact ⟨n, by simp [member], stops⟩
        · cases walked

/-- The chain a level leaves is part of the chain it began with. -/
theorem walkLevel_subset {before : List ρ → Except ε Bool} {level : Nat}
    : ∀ {here unread next : List (Node ρ)},
        unread ⊆ here → walkLevel before level here unread = .ok next → next ⊆ here := by
  intro here unread
  induction unread generalizing here with
  | nil =>
      intro next inside walked
      cases walked
      exact fun _ member => member
  | cons node rest ih =>
      intro next inside walked
      have restInside : rest ⊆ here := fun n member => inside (by simp [member])
      rw [walkLevel] at walked
      split at walked
      · exact ih restInside walked
      · split at walked
        · cases walked
        · exact fun n member => restInside (ih (fun _ here => here) walked member)
        · cases walked
          exact fun _ member => member

/-- A lookup stops only where the comparison of a bucket does, by induction on the levels. -/
theorem locate_stops {before : List ρ → Except ε Bool} {stop : ε}
    : ∀ {levels : Nat} {nodes : List (Node ρ)},
        locate before levels nodes = .error stop
        → ∃ n ∈ nodes, before n.bucket = .error stop := by
  intro levels
  induction levels with
  | zero =>
      intro nodes located
      cases located
  | succ level ih =>
      intro nodes located
      rw [locate] at located
      split at located
      · next stops =>
          cases located
          exact walkLevel_stops stops
      · next next walked =>
          obtain ⟨n, member, stops⟩ := ih located
          exact ⟨n, walkLevel_subset (fun _ here => here) walked member, stops⟩

/-- A lookup ends within the chain it began with, by induction on the levels. -/
theorem locate_subset {before : List ρ → Except ε Bool}
    : ∀ {levels : Nat} {nodes rest : List (Node ρ)},
        locate before levels nodes = .ok rest → rest ⊆ nodes := by
  intro levels
  induction levels with
  | zero =>
      intro nodes rest located
      cases located
      exact fun _ member => member
  | succ level ih =>
      intro nodes rest located
      rw [locate] at located
      split at located
      · cases located
      · next next walked =>
          exact fun n member =>
            walkLevel_subset (fun _ here => here) walked (ih located member)

end SpeedTables.Lib
