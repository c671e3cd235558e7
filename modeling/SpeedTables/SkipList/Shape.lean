import SpeedTables.SkipList.Memory

/-! The representation invariant of the skip lists, and what the functions make of it. -/

namespace SpeedTables.SkipList

variable {ρ : Type}

-----------------------------------------------------------------------------------------
-- Comparisons
-----------------------------------------------------------------------------------------

namespace Comparison

variable (order : Comparison ρ) {left middle right : ρ}

theorem lt_of_lt_of_le (less : order.cmp left middle < 0) (atMost : order.cmp middle right ≤ 0)
    : order.cmp left right < 0 := by
  by_contra more
  have back : order.cmp right left ≤ 0 := not_lt.mp (mt (order.swap left right).mpr (by omega))
  have round := order.trans middle right left atMost back
  have := (order.swap left middle).mp less
  omega

theorem lt_of_le_of_lt (atMost : order.cmp left middle ≤ 0) (less : order.cmp middle right < 0)
    : order.cmp left right < 0 := by
  by_contra more
  have back : order.cmp right left ≤ 0 := not_lt.mp (mt (order.swap left right).mpr (by omega))
  have round := order.trans right left middle back atMost
  have := (order.swap middle right).mp less
  omega

theorem equal_swap (equal : order.cmp left right = 0) : order.cmp right left = 0 := by
  have forth := order.swap left right
  have back := order.swap right left
  omega

theorem irrefl (row : ρ) : ¬order.cmp row row < 0 := by
  intro less
  have := (order.swap row row).mp less
  omega

end Comparison

-----------------------------------------------------------------------------------------
-- The invariant
-----------------------------------------------------------------------------------------

/-- What a list of nodes is said to hold: its chain at level 0, the number of levels each node is
linked on, and the first row of each.
-/
structure Content (ρ : Type) where
  chain : List Nat
  linked : Nat → Nat
  row : Nat → ρ

/-- The place behind some nodes: the header node, or the last of them. -/
def Place.behind (nodes : List Nat) : Place :=
  nodes.getLast?.elim .head .node

@[simp]
theorem Place.behind_nil : Place.behind [] = .head := rfl

@[simp]
theorem Place.behind_append (nodes : List Nat) (node : Nat)
    : Place.behind (nodes ++ [node]) = .node node := by
  simp [Place.behind]

namespace Content

variable (content : Content ρ)

/-- The first of some nodes that is linked on a level. -/
def first (level : Nat) (nodes : List Nat) : Option Nat :=
  nodes.find? (fun node => level < content.linked node)

/-- The place of the last of some nodes that is linked on a level. -/
def lastPlace (level : Nat) (nodes : List Nat) : Place :=
  Place.behind (nodes.filter (fun node => level < content.linked node))

/-- The levels on which a place has links. -/
def Reaches (skip : Skip ρ) (level : Nat) : Place → Prop
  | .head => level < skip.maxh
  | .node address => level < content.linked address

/-- The nodes linked on a level. -/
def level (level : Nat) : List Nat :=
  content.chain.filter (fun node => level < content.linked node)

end Content

/-- The representation invariant of a skip list. -/
structure Shape (order : Comparison ρ) (skip : Skip ρ) (content : Content ρ) : Prop where
  deep : skip.curh < skip.maxh
  updates : skip.fix.length = skip.maxh
  live : content.chain ⊆ skip.live
  count : content.chain.length ≤ skip.live.length
  distinct : content.chain.Nodup
  heights : ∀ node ∈ content.chain, 0 < content.linked node ∧ content.linked node ≤ skip.curh
  rows : ∀ node ∈ content.chain, skip.row node = .ok (content.row node)
  ascending : content.chain.Pairwise fun left right =>
    order.cmp (content.row left) (content.row right) < 0
  links : ∀ before after, content.chain = before ++ after →
    ∀ level, content.Reaches skip level (.behind before) →
      skip.next (.behind before) level = .ok (content.first level after)

-----------------------------------------------------------------------------------------
-- Places
-----------------------------------------------------------------------------------------

namespace Content

variable {content : Content ρ} {level : Nat}

theorem reaches_head {skip : Skip ρ} : content.Reaches skip level .head ↔ level < skip.maxh :=
  Iff.rfl

theorem reaches_node {skip : Skip ρ} {node : Nat}
    : content.Reaches skip level (.node node) ↔ level < content.linked node :=
  Iff.rfl

theorem first_append_skipped {skipped nodes : List Nat}
    (unlinked : ∀ node ∈ skipped, content.linked node ≤ level)
    : content.first level (skipped ++ nodes) = content.first level nodes := by
  have nothing : skipped.find? (fun node => level < content.linked node) = none := by
    rw [List.find?_eq_none]
    intro node member
    simpa using unlinked node member
  rw [first, List.find?_append, nothing]
  rfl

theorem lastPlace_skipped {skipped nodes : List Nat}
    (unlinked : ∀ node ∈ skipped, content.linked node ≤ level)
    : content.lastPlace level (nodes ++ skipped) = content.lastPlace level nodes := by
  have nothing : skipped.filter (fun node => level < content.linked node) = [] := by
    rw [List.filter_eq_nil_iff]
    intro node member
    simpa using unlinked node member
  rw [lastPlace, List.filter_append, nothing, List.append_nil, lastPlace]

theorem lastPlace_linked {nodes : List Nat} {node : Nat} (linked : level < content.linked node)
    : content.lastPlace level (nodes ++ [node]) = .node node := by
  rw [lastPlace, List.filter_append, List.filter_cons_of_pos (by simpa using linked)]
  exact Place.behind_append _ node

/-- A place that has links on a level is the last one that has. -/
theorem lastPlace_behind {skip : Skip ρ} {nodes : List Nat}
    (reaches : content.Reaches skip level (.behind nodes))
    : content.lastPlace level nodes = .behind nodes := by
  rcases List.eq_nil_or_concat nodes with rfl | ⟨earlier, node, rfl⟩
  · rfl
  · rw [List.concat_eq_append, Place.behind_append] at reaches ⊢
    exact lastPlace_linked reaches

/-- The last place among some nodes splits them, by induction from their end. -/
theorem lastPlace_split (skip : Skip ρ) (inside : level < skip.maxh) (nodes : List Nat)
    : ∃ before skipped, nodes = before ++ skipped
        ∧ content.lastPlace level nodes = .behind before
        ∧ content.Reaches skip level (.behind before)
        ∧ ∀ node ∈ skipped, content.linked node ≤ level := by
  induction nodes using List.reverseRecOn with
  | nil => exact ⟨[], [], rfl, rfl, inside, nofun⟩
  | append_singleton earlier node ih =>
      by_cases linked : level < content.linked node
      · refine ⟨earlier ++ [node], [], by simp, ?_, ?_, nofun⟩
        · rw [lastPlace_linked linked, Place.behind_append]
        · rw [Place.behind_append]
          exact linked
      · obtain ⟨before, skipped, split, same, reaches, unlinked⟩ := ih
        have all : ∀ other ∈ skipped ++ [node], content.linked other ≤ level := by
          intro other member
          rcases List.mem_append.mp member with member | member
          · exact unlinked other member
          · obtain rfl := List.mem_singleton.mp member
            exact not_lt.mp linked
        refine ⟨before, skipped ++ [node], by rw [split, List.append_assoc], ?_, reaches, all⟩
        rw [lastPlace_skipped (fun other member => ?_), same]
        exact all other (List.mem_append_right skipped member)

/-- The last place among some nodes is the header node or one of them. -/
theorem lastPlace_mem {nodes : List Nat} {node : Nat}
    (same : content.lastPlace level nodes = .node node)
    : node ∈ nodes := by
  rcases found : (nodes.filter (fun node => level < content.linked node)).getLast? with _ | last
  · rw [lastPlace, Place.behind, found] at same
    cases same
  · rw [lastPlace, Place.behind, found] at same
    cases same
    exact List.mem_of_mem_filter (List.mem_of_getLast? found)

end Content

-----------------------------------------------------------------------------------------
-- Searches
-----------------------------------------------------------------------------------------

section Searches

variable {order : Comparison ρ} {skip : Skip ρ} {content : Content ρ} {level : Nat}

/-- A level is walked to the last of the nodes that pass, by induction on those ahead. -/
theorem Shape.advance (shape : Shape order skip content) {passes : ρ → Bool}
    {before skipped ahead rest : List Nat} {steps : Nat}
    (split : content.chain = before ++ skipped ++ ahead ++ rest)
    (unlinked : ∀ node ∈ skipped, content.linked node ≤ level)
    (reaches : content.Reaches skip level (.behind before)) (enough : ahead.length < steps)
    (passed : ∀ node ∈ ahead, passes (content.row node) = true)
    (stopped : ∀ node ∈ rest, passes (content.row node) = false)
    : skip.advance passes level steps (.behind before)
        = .ok (content.lastPlace level (before ++ skipped ++ ahead)) := by
  induction ahead generalizing before skipped steps with
  | nil =>
      obtain ⟨steps, rfl⟩ := Nat.exists_eq_add_one_of_ne_zero (Nat.ne_zero_of_lt enough)
      have points := shape.links before (skipped ++ rest) (by simp [split]) level reaches
      rw [Content.first_append_skipped unlinked] at points
      have last : content.lastPlace level (before ++ skipped ++ []) = .behind before := by
        rw [List.append_nil, Content.lastPlace_skipped unlinked, Content.lastPlace_behind reaches]
      rw [last]
      rcases found : content.first level rest with _ | node
      · rw [found] at points
        simp [Skip.advance, points, bind, Except.bind, pure, Except.pure]
      · have member : node ∈ rest := List.mem_of_find?_eq_some found
        have known := shape.rows node (by simp [split, member])
        rw [found] at points
        simp [Skip.advance, points, known, stopped node member, bind, Except.bind, pure,
          Except.pure]
  | cons node ahead ih =>
      obtain ⟨steps, rfl⟩ := Nat.exists_eq_add_one_of_ne_zero (Nat.ne_zero_of_lt enough)
      by_cases linked : level < content.linked node
      · have points :=
          shape.links before (skipped ++ node :: ahead ++ rest) (by simp [split]) level reaches
        rw [List.append_assoc, Content.first_append_skipped unlinked] at points
        have found : content.first level (node :: ahead ++ rest) = some node := by
          simp [Content.first, linked]
        have known := shape.rows node (by simp [split])
        have walked := @ih (before ++ skipped ++ [node]) [] steps (by simp [split]) nofun
          (by rw [Place.behind_append]; exact linked) (by simpa using enough)
          (fun other member => passed other (List.mem_cons_of_mem node member))
        rw [Place.behind_append] at walked
        have same
            : before ++ skipped ++ [node] ++ [] ++ ahead = before ++ skipped ++ node :: ahead := by
          simp
        rw [same] at walked
        rw [found] at points
        simpa [Skip.advance, points, known, passed node List.mem_cons_self, bind, Except.bind]
          using walked
      · have walked := @ih before (skipped ++ [node]) (steps + 1) (by simp [split])
          (fun other member => ?_) reaches (by simp at enough; omega)
          (fun other member => passed other (List.mem_cons_of_mem node member))
        · rw [walked]
          simp
        · rcases List.mem_append.mp member with member | member
          · exact unlinked other member
          · obtain rfl := List.mem_singleton.mp member
            exact not_lt.mp linked

/-- The list is the same but for its update array and its traversal marker. -/
structure SameMemory (skip skip' : Skip ρ) : Prop where
  head : skip'.head = skip.head
  nodes : skip'.nodes = skip.nodes
  live : skip'.live = skip.live
  curh : skip'.curh = skip.curh
  size : skip'.size = skip.size
  maxh : skip'.maxh = skip.maxh
  fix : skip'.fix.length = skip.fix.length

theorem SameMemory.refl (skip : Skip ρ) : SameMemory skip skip :=
  ⟨rfl, rfl, rfl, rfl, rfl, rfl, rfl⟩

theorem SameMemory.trans {skip skip' skip'' : Skip ρ} (first : SameMemory skip skip')
    (second : SameMemory skip' skip'') : SameMemory skip skip'' where
  head := second.head.trans first.head
  nodes := second.nodes.trans first.nodes
  live := second.live.trans first.live
  curh := second.curh.trans first.curh
  size := second.size.trans first.size
  maxh := second.maxh.trans first.maxh
  fix := second.fix.trans first.fix

theorem SameMemory.next {skip skip' : Skip ρ} (same : SameMemory skip skip') (place : Place)
    (level : Nat) : skip'.next place level = skip.next place level := by
  simp only [Skip.next, same.head, same.nodes]

theorem SameMemory.row {skip skip' : Skip ρ} (same : SameMemory skip skip') (node : Nat)
    : skip'.row node = skip.row node := by
  simp only [Skip.row, same.nodes]

theorem SameMemory.reaches {skip skip' : Skip ρ} (same : SameMemory skip skip') {place : Place}
    : content.Reaches skip' level place ↔ content.Reaches skip level place := by
  cases place with
  | head => simp only [Content.Reaches, same.maxh]
  | node address => rfl

/-- The invariant is not about the contents of the update array. -/
theorem Shape.sameMemory {skip' : Skip ρ} (shape : Shape order skip content)
    (same : SameMemory skip skip') : Shape order skip' content where
  deep := by rw [same.curh, same.maxh]; exact shape.deep
  updates := by rw [same.fix, same.maxh]; exact shape.updates
  live := by rw [same.live]; exact shape.live
  count := by rw [same.live]; exact shape.count
  distinct := shape.distinct
  heights := by rw [same.curh]; exact shape.heights
  rows := by simp only [same.row]; exact shape.rows
  ascending := shape.ascending
  links := by
    intro before after split level reaches
    rw [same.next]
    exact shape.links before after split level (same.reaches.mp reaches)

/-- The last place among the first nodes of the chain points to the first of the others. -/
theorem Shape.points (shape : Shape order skip content) {less rest : List Nat}
    (split : content.chain = less ++ rest) (inside : level < skip.maxh)
    : skip.next (content.lastPlace level less) level = .ok (content.first level rest) := by
  obtain ⟨before, skipped, parts, last, reaches, unlinked⟩ :=
    content.lastPlace_split skip inside less
  have link := shape.links before (skipped ++ rest)
    (by rw [split, parts, List.append_assoc]) level reaches
  rw [last, link, Content.first_append_skipped unlinked]

/-- A level is walked from the place where the level above it was left. -/
theorem Shape.walkLevel (shape : Shape order skip content) {passes : ρ → Bool}
    {less rest : List Nat} (split : content.chain = less ++ rest)
    (passed : ∀ node ∈ less, passes (content.row node) = true)
    (stopped : ∀ node ∈ rest, passes (content.row node) = false) (inside : level < skip.maxh)
    : skip.advance passes level (skip.live.length + 1) (content.lastPlace (level + 1) less)
        = .ok (content.lastPlace level less) := by
  obtain ⟨before, ahead, parts, last, reaches⟩ :
      ∃ before ahead, less = before ++ ahead
        ∧ content.lastPlace (level + 1) less = .behind before
        ∧ content.Reaches skip level (.behind before) := by
    rcases Nat.lt_or_ge (level + 1) skip.maxh with below | top
    · obtain ⟨before, ahead, parts, last, reaches, -⟩ :=
        content.lastPlace_split skip below less
      refine ⟨before, ahead, parts, last, ?_⟩
      revert reaches
      cases Place.behind before with
      | head => exact fun _ => inside
      | node address => exact Nat.lt_of_succ_lt
    · have bounded : ∀ node ∈ less, content.linked node ≤ level + 1 := by
        intro node member
        have := (shape.heights node (by simp [split, member])).2
        have := shape.deep
        omega
      exact ⟨[], less, rfl, @Content.lastPlace_skipped _ content (level + 1) less [] bounded, inside⟩
  have enough : ahead.length < skip.live.length + 1 := by
    have count := shape.count
    rw [split, parts, List.length_append, List.length_append] at count
    omega
  have walked :
      skip.advance passes level (skip.live.length + 1) (.behind before)
        = .ok (content.lastPlace level (before ++ [] ++ ahead)) :=
    shape.advance (by simp [split, parts]) nofun reaches enough
      (fun node member => passed node (by simp [parts, member])) stopped
  rw [List.append_nil, ← parts] at walked
  rw [last, walked]

/-- The levels of a search are walked down to level 0, and the update array has the places where
each was left, by induction on the levels.
-/
theorem Shape.locateLevels {passes : ρ → Bool} {less rest : List Nat} {levels : Nat}
    (split : content.chain = less ++ rest)
    (passed : ∀ node ∈ less, passes (content.row node) = true)
    (stopped : ∀ node ∈ rest, passes (content.row node) = false)
    (shape : Shape order skip content) (inside : levels ≤ skip.maxh)
    : ∃ skip', locateLevels passes levels (content.lastPlace levels less) skip
          = .ok (content.lastPlace 0 less, skip')
        ∧ SameMemory skip skip'
        ∧ (∀ level < levels, skip'.fixAt level = .ok (content.lastPlace level less))
        ∧ ∀ level, levels ≤ level → skip'.fix[level]? = skip.fix[level]? := by
  induction levels generalizing skip with
  | zero => exact ⟨skip, rfl, .refl skip, nofun, fun _ _ => rfl⟩
  | succ levels ih =>
      have walked := shape.walkLevel split passed stopped inside
      have fits : levels < skip.fix.length := shape.updates ▸ inside
      let skip₁ := { skip with fix := skip.fix.set levels (some (content.lastPlace levels less)) }
      have written : skip.setFix levels (content.lastPlace levels less) = .ok skip₁ := if_pos fits
      have same₁ : SameMemory skip skip₁ := ⟨rfl, rfl, rfl, rfl, rfl, rfl, List.length_set ..⟩
      obtain ⟨skip', located, same, fixes, kept⟩ :=
        ih (shape.sameMemory same₁) (Nat.le_of_succ_le inside)
      refine ⟨skip', ?_, same₁.trans same, ?_, ?_⟩
      · simp only [SkipList.locateLevels, walked, written, bind, Except.bind, located]
      · intro level below
        rcases Nat.lt_succ_iff_lt_or_eq.mp below with lower | rfl
        · exact fixes level lower
        · simp [Skip.fixAt, kept level (Nat.le_refl level), skip₁, fits]
      · intro level above
        rw [kept level (Nat.le_of_succ_le above), List.getElem?_set_ne (by omega)]

/-- What a search leaves behind: the nodes below the row, the others, and the update array. -/
structure Located (order : Comparison ρ) (content : Content ρ) (row : ρ) (less rest : List Nat)
    (skip : Skip ρ) : Prop where
  shape : Shape order skip content
  split : content.chain = less ++ rest
  passed : ∀ node ∈ less, 0 < order.cmp row (content.row node)
  stopped : ∀ node ∈ rest, order.cmp row (content.row node) ≤ 0
  fixes : ∀ level ≤ skip.curh, skip.fixAt level = .ok (content.lastPlace level less)

/-- The rows below a row come first, by induction on the chain. -/
theorem ascending_split {chain : List Nat} (row : ρ)
    (ascending : chain.Pairwise fun left right =>
      order.cmp (content.row left) (content.row right) < 0)
    : ∃ less rest, chain = less ++ rest
        ∧ (∀ node ∈ less, 0 < order.cmp row (content.row node))
        ∧ ∀ node ∈ rest, order.cmp row (content.row node) ≤ 0 := by
  induction chain with
  | nil => exact ⟨[], [], rfl, nofun, nofun⟩
  | cons node chain ih =>
      obtain ⟨above, tail⟩ := List.pairwise_cons.mp ascending
      by_cases below : 0 < order.cmp row (content.row node)
      · obtain ⟨less, rest, split, passed, stopped⟩ := ih tail
        refine ⟨node :: less, rest, by rw [split]; rfl, ?_, stopped⟩
        exact List.forall_mem_cons.mpr ⟨below, passed⟩
      · refine ⟨[], node :: chain, rfl, nofun, List.forall_mem_cons.mpr ⟨not_lt.mp below, ?_⟩⟩
        intro other member
        exact (order.lt_of_le_of_lt (not_lt.mp below) (above other member)).le

/-- A search ends at the last node below the row. -/
theorem Shape.locate (shape : Shape order skip content) (row : ρ)
    : ∃ less rest skip', locate order skip row = .ok (content.lastPlace 0 less, skip')
        ∧ SameMemory skip skip' ∧ Located order content row less rest skip' := by
  obtain ⟨less, rest, split, passed, stopped⟩ := ascending_split row shape.ascending
  have bounded : ∀ node ∈ less, content.linked node ≤ skip.curh + 1 := by
    intro node member
    exact Nat.le_succ_of_le (shape.heights node (by simp [split, member])).2
  have start : content.lastPlace (skip.curh + 1) less = .head :=
    @Content.lastPlace_skipped _ content (skip.curh + 1) less [] bounded
  obtain ⟨skip', located, same, fixes, -⟩ :=
    @Shape.locateLevels _ order skip content (fun other => !decide (order.cmp row other ≤ 0)) less
      rest (skip.curh + 1) split (fun node member => by simpa using passed node member)
      (fun node member => by simpa using stopped node member) shape shape.deep
  rw [start] at located
  refine ⟨less, rest, skip', located, same, shape.sameMemory same, split, passed, stopped, ?_⟩
  intro level below
  rw [same.curh] at below
  exact fixes level (Nat.lt_succ_of_le below)

namespace Located

variable {row : ρ} {less rest : List Nat}

/-- The last place below the row points to the first node that is not below it. -/
theorem points (located : Located order content row less rest skip) (inside : level < skip.maxh)
    : skip.next (content.lastPlace level less) level = .ok (content.first level rest) :=
  located.shape.points located.split inside

/-- Every node is linked on level 0. -/
theorem found (located : Located order content row less rest skip)
    : skip.next (content.lastPlace 0 less) 0 = .ok rest.head? := by
  rw [located.points (Nat.zero_lt_of_lt located.shape.deep)]
  rcases rest with _ | ⟨node, rest⟩
  · rfl
  · have linked := (located.shape.heights node (by simp [located.split])).1
    simp [Content.first, linked]

/-- The node that is found is the one whose row compares the same. -/
theorem matching (located : Located order content row less rest skip)
    : (∃ node tail, rest = node :: tail ∧ order.cmp row (content.row node) = 0
          ∧ skip.matching order row rest.head? = .ok (some node))
        ∨ (∀ node ∈ rest, order.cmp row (content.row node) < 0)
          ∧ skip.matching order row rest.head? = .ok none := by
  rcases rest with _ | ⟨node, tail⟩
  · exact .inr ⟨nofun, rfl⟩
  · have known := located.shape.rows node (by simp [located.split])
    have atMost := located.stopped node List.mem_cons_self
    by_cases equal : order.cmp row (content.row node) = 0
    · refine .inl ⟨node, tail, rfl, equal, ?_⟩
      simp [Skip.matching, known, equal, bind, Except.bind, pure, Except.pure]
    · have less : order.cmp row (content.row node) < 0 := by omega
      refine .inr ⟨List.forall_mem_cons.mpr ⟨less, ?_⟩, ?_⟩
      · intro other member
        have ascending := located.shape.ascending
        rw [located.split] at ascending
        have above := (List.pairwise_cons.mp (List.pairwise_append.mp ascending).2.1).1
        exact order.lt_of_le_of_lt less.le (above other member)
      · simp [Skip.matching, known, equal, bind, Except.bind, pure, Except.pure]

end Located

end Searches

end SpeedTables.SkipList
