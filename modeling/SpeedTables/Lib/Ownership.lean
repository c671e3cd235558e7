import Mathlib

/-! Blocks that allocators hand out, and the owners that are to release them. -/

namespace SpeedTables.Lib

/-- What the allocators of some regions have done: the first block not handed out, the region of
each block, and the releases, the latest first, each with the region whose allocator got the block.
-/
structure BlockHistory (Region : Type) where
  next : Nat
  region : Nat → Region
  released : List (Nat × Region)

namespace BlockHistory

variable {Region Owner : Type} {history : BlockHistory Region}

/-- Hand out the next block. -/
def allocate (history : BlockHistory Region) (place : Region) : BlockHistory Region :=
  { history with
    next := history.next + 1
    region := Function.update history.region history.next place }

def release (history : BlockHistory Region) (block : Nat) (place : Region)
    : BlockHistory Region :=
  { history with released := (block, place) :: history.released }

/-- The block has been released. -/
def Released (history : BlockHistory Region) (block : Nat) : Prop :=
  block ∈ history.released.map Prod.fst

/-- Every released block is released once only, and to the allocator it came from. -/
structure Disciplined (history : BlockHistory Region) : Prop where
  once : (history.released.map Prod.fst).Nodup
  returned : ∀ entry ∈ history.released, history.region entry.1 = entry.2

/-- Every block has at most one owner, which is to release it to the stated region. A block that
has been released has none.
-/
structure Owned (history : BlockHistory Region) (owner : Nat → Option (Owner × Region)) : Prop where
  disciplined : history.Disciplined
  handedOut : ∀ block held, owner block = some held → block < history.next
  placed : ∀ block held, owner block = some held → history.region block = held.2
  past : ∀ block, history.Released block → block < history.next ∧ owner block = none

namespace Owned

variable {owner : Nat → Option (Owner × Region)} {block : Nat} {held : Owner × Region}

/-- The next block has no owner yet. -/
theorem fresh (owned : history.Owned owner) : owner history.next = none := by
  cases found : owner history.next with
  | none => rfl
  | some held => exact absurd (owned.handedOut _ held found) (Nat.lt_irrefl _)

/-- An owned block has not been released. -/
theorem kept (owned : history.Owned owner) (has : owner block = some held)
    : ¬history.Released block := by
  intro gone
  have none := (owned.past block gone).2
  rw [has] at none
  cases none

/-- Different owners own different blocks. -/
theorem ne_of_owner {other : Nat} {held' : Owner × Region} (has : owner block = some held)
    (has' : owner other = some held') (differ : held.1 ≠ held'.1)
    : block ≠ other := by
  rintro rfl
  rw [has] at has'
  exact differ (congrArg Prod.fst (Option.some.inj has'))

/-- The owners keep their blocks when the next block gets an owner. -/
theorem still (owned : history.Owned owner) (has : owner block = some held)
    (held' : Owner × Region)
    : Function.update owner history.next (some held') block = some held := by
  rw [Function.update_of_ne (Nat.ne_of_lt (owned.handedOut block held has)), has]

/-- A new block gets an owner. -/
theorem allocate (owned : history.Owned owner) (held : Owner × Region)
    : (history.allocate held.2).Owned (Function.update owner history.next (some held)) := by
  have old {block : Nat} (gone : history.Released block) : block ≠ history.next :=
    Nat.ne_of_lt (owned.past block gone).1
  refine ⟨⟨owned.disciplined.once, fun entry inside => ?_⟩, fun block other has => ?_,
    fun block other has => ?_, fun block gone => ⟨?_, ?_⟩⟩
  · have here := old (List.mem_map_of_mem inside)
    rw [show (history.allocate held.2).region entry.1 = history.region entry.1 from
      Function.update_of_ne here _ _]
    exact owned.disciplined.returned entry inside
  · by_cases same : block = history.next
    · rw [same]
      exact Nat.lt_succ_self _
    · rw [Function.update_of_ne same] at has
      exact Nat.lt_succ_of_lt (owned.handedOut block other has)
  · by_cases same : block = history.next
    · subst same
      rw [Function.update_self] at has
      cases has
      exact Function.update_self ..
    · rw [Function.update_of_ne same] at has
      rw [show (history.allocate held.2).region block = history.region block from
        Function.update_of_ne same _ _]
      exact owned.placed block other has
  · exact Nat.lt_succ_of_lt (owned.past block gone).1
  · rw [Function.update_of_ne (old gone)]
    exact (owned.past block gone).2

/-- An owner releases its block to the region it is from. -/
theorem release (owned : history.Owned owner) (has : owner block = some held)
    : (history.release block held.2).Owned (Function.update owner block none) := by
  have differ {other : Nat} {held' : Owner × Region}
      (has' : Function.update owner block none other = some held')
      : owner other = some held' := by
    by_cases same : other = block
    · rw [same, Function.update_self] at has'
      cases has'
    · rwa [Function.update_of_ne same] at has'
  refine ⟨⟨List.nodup_cons.mpr ⟨owned.kept has, owned.disciplined.once⟩, fun entry inside => ?_⟩,
    fun other held' has' => owned.handedOut other held' (differ has'),
    fun other held' has' => owned.placed other held' (differ has'), fun other gone => ?_⟩
  · rcases List.mem_cons.mp inside with rfl | inside
    · exact owned.placed block held has
    · exact owned.disciplined.returned entry inside
  · rcases List.mem_cons.mp gone with rfl | gone
    · exact ⟨owned.handedOut _ held has, Function.update_self ..⟩
    · obtain ⟨bound, none⟩ := owned.past other gone
      have unequal : other ≠ block := by
        rintro rfl
        rw [has] at none
        cases none
      exact ⟨bound, by rw [Function.update_of_ne unequal, none]⟩

/-- A block passes to another owner, which is to release it to the same region. -/
theorem pass (owned : history.Owned owner) (has : owner block = some held) (heir : Owner)
    : history.Owned (Function.update owner block (some (heir, held.2))) := by
  refine ⟨owned.disciplined, fun other held' has' => ?_, fun other held' has' => ?_,
    fun other gone => ⟨(owned.past other gone).1, ?_⟩⟩
  · by_cases same : other = block
    · rw [same]
      exact owned.handedOut block held has
    · exact owned.handedOut other held' (by rwa [Function.update_of_ne same] at has')
  · by_cases same : other = block
    · subst same
      rw [Function.update_self] at has'
      cases has'
      exact owned.placed other held has
    · exact owned.placed other held' (by rwa [Function.update_of_ne same] at has')
  · have unequal : other ≠ block := by
      rintro rfl
      exact owned.kept has gone
    rw [Function.update_of_ne unequal]
    exact (owned.past other gone).2

end Owned

-----------------------------------------------------------------------------------------
-- Several releases
-----------------------------------------------------------------------------------------

/-- Release blocks of one region one after another. -/
def releaseAll (history : BlockHistory Region) (blocks : List Nat) (place : Region)
    : BlockHistory Region :=
  blocks.foldl (fun history block => history.release block place) history

theorem releaseAll_append {blocks others : List Nat} {place : Region}
    : history.releaseAll (blocks ++ others) place
      = (history.releaseAll blocks place).releaseAll others place :=
  List.foldl_append ..

/-- Owners release different blocks to the region they are from, by induction on the blocks. -/
theorem Owned.releaseAll {owner : Nat → Option (Owner × Region)} {blocks : List Nat}
    {place : Region} (owned : history.Owned owner) (apart : blocks.Nodup)
    (has : ∀ block ∈ blocks, ∃ held : Owner, owner block = some (held, place))
    : (history.releaseAll blocks place).Owned
        (fun block => if block ∈ blocks then none else owner block) := by
  induction blocks generalizing history owner with
  | nil => simpa [BlockHistory.releaseAll] using owned
  | cons first rest ih =>
      obtain ⟨held, here⟩ := has first List.mem_cons_self
      obtain ⟨outside, apart⟩ := List.nodup_cons.mp apart
      have others : ∀ block ∈ rest, ∃ held : Owner,
          Function.update owner first none block = some (held, place) := by
        intro block inside
        have unequal : block ≠ first := fun same => outside (same ▸ inside)
        rw [Function.update_of_ne unequal]
        exact has block (List.mem_cons_of_mem _ inside)
      have step := ih (owned.release here) apart others
      have same : (fun block => if block ∈ first :: rest then none else owner block)
          = fun block => if block ∈ rest then none
              else Function.update owner first none block := by
        funext block
        by_cases equal : block = first
        · simp [equal]
        · rw [Function.update_of_ne equal]
          simp only [List.mem_cons, equal, false_or]
      rw [same]
      exact step

end BlockHistory

end SpeedTables.Lib
