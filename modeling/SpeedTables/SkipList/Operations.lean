import SpeedTables.SkipList.Updates

/-! Every run of insertions, erasures and searches keeps a skip list well shaped, and the searches
find what they should.
-/

namespace SpeedTables.SkipList

variable {ρ : Type} {order : Comparison ρ} {skip : Skip ρ} {content : Content ρ}

-----------------------------------------------------------------------------------------
-- Statements
-----------------------------------------------------------------------------------------

/-- Following the links of a level from a place gives some nodes and then ends. -/
def Skip.Follows (skip : Skip ρ) (level : Nat) : Place → List Nat → Prop
  | place, [] => skip.next place level = .ok none
  | place, node :: rest =>
      skip.next place level = .ok (some node) ∧ skip.Follows level (.node node) rest

/-- The representation of a skip list, by the nodes on each of its levels. -/
structure Skip.WellShaped (order : Comparison ρ) (skip : Skip ρ) (levels : Nat → List Nat)
    : Prop where
  deep : skip.curh < skip.maxh
  follows : ∀ level < skip.maxh, skip.Follows level .head (levels level)
  ascending : (levels 0).Pairwise fun left right =>
    ∃ row other, skip.row left = .ok row ∧ skip.row right = .ok other ∧ order.cmp row other < 0
  sublist : ∀ level, (levels (level + 1)).Sublist (levels level)
  unused : ∀ level, skip.curh ≤ level → level < skip.maxh → skip.next .head level = .ok none

/-- A node is the least of some nodes that is not below a row. -/
def Skip.LeastFrom (order : Comparison ρ) (skip : Skip ρ) (nodes : List Nat) (row : ρ) (node : Nat)
    : Prop :=
  node ∈ nodes ∧ ∃ least, skip.row node = .ok least ∧ order.cmp row least ≤ 0
    ∧ ∀ other ∈ nodes, ∀ further, skip.row other = .ok further → order.cmp row further ≤ 0 →
        other = node ∨ order.cmp least further < 0

/-- A node is the greatest of some nodes. -/
def Skip.Greatest (order : Comparison ρ) (skip : Skip ρ) (nodes : List Nat) (node : Nat) : Prop :=
  node ∈ nodes ∧ ∀ other ∈ nodes, other = node
    ∨ ∃ row greatest, skip.row other = .ok row ∧ skip.row node = .ok greatest
      ∧ order.cmp row greatest < 0

/-- The searches of a skip list with some nodes. -/
structure Skip.Finds (order : Comparison ρ) (skip : Skip ρ) (nodes : List Nat) : Prop where
  equal : ∀ row, ∃ found skip', sfind order skip row = .ok (found, skip')
    ∧ ∀ node, found = some node
        ↔ node ∈ nodes ∧ ∃ other, skip.row node = .ok other ∧ order.cmp row other = 0
  least : ∀ row, ∃ found skip', sfindEqualOrGreater order skip row = .ok (found, skip')
    ∧ ∀ node, found = some node ↔ skip.LeastFrom order nodes row node
  greatest : nodes ≠ [] → ∃ node skip', findlast skip = .ok (.node node, skip')
    ∧ skip.Greatest order nodes node

-----------------------------------------------------------------------------------------
-- Levels
-----------------------------------------------------------------------------------------

/-- The links of a level lead through the nodes linked on it, by induction on the nodes behind. -/
theorem Shape.follows (shape : Shape order skip content) {level : Nat} (inside : level < skip.maxh)
    (before : List Nat) {after : List Nat} (split : content.chain = before ++ after)
    : skip.Follows level (content.lastPlace level before)
        (after.filter (fun node => level < content.linked node)) := by
  induction after generalizing before with
  | nil => exact shape.points split inside
  | cons node after ih =>
      have further := ih (before ++ [node]) (by rw [split, List.append_assoc]; rfl)
      by_cases linked : level < content.linked node
      · have point := shape.points split inside
        rw [List.filter_cons_of_pos (by simpa using linked)]
        rw [Content.lastPlace_linked linked] at further
        refine ⟨?_, further⟩
        rw [point]
        simp [Content.first, linked]
      · rw [List.filter_cons_of_neg (by simpa using linked)]
        rwa [Content.lastPlace_skipped (by simpa using linked)] at further

theorem Shape.level_zero (shape : Shape order skip content) : content.level 0 = content.chain := by
  refine List.filter_eq_self.mpr fun node member => ?_
  simpa using (shape.heights node member).1

/-- The invariant gives the shape of each level. -/
theorem Shape.wellShaped (shape : Shape order skip content)
    : skip.WellShaped order content.level where
  deep := shape.deep
  follows := fun level inside => shape.follows inside [] rfl
  ascending := by
    rw [shape.level_zero]
    refine shape.ascending.imp_of_mem fun {left right} insideLeft insideRight below => ?_
    exact ⟨_, _, shape.rows left insideLeft, shape.rows right insideRight, below⟩
  sublist := by
    intro level
    refine List.monotone_filter_right content.chain fun node above => ?_
    simp only [decide_eq_true_eq] at above ⊢
    omega
  unused := by
    intro level above inside
    have point := @Shape.points _ order skip content level shape [] content.chain rfl inside
    have nothing : content.first level content.chain = none := by
      rw [Content.first, List.find?_eq_none]
      intro node member
      have := (shape.heights node member).2
      simp only [decide_eq_true_eq]
      omega
    rwa [nothing] at point

-----------------------------------------------------------------------------------------
-- Searches
-----------------------------------------------------------------------------------------

theorem SameMemory.curl {skip' : Skip ρ} (same : SameMemory skip skip') (curl : Option Place)
    : SameMemory skip { skip' with curl := curl } :=
  ⟨same.head, same.nodes, same.live, same.curh, same.size, same.maxh, same.fix⟩

/-- Two nodes of the chain are one, or their rows are ordered. -/
theorem Shape.ordered (shape : Shape order skip content) {node other : Nat}
    (member : node ∈ content.chain) (inside : other ∈ content.chain)
    : node = other ∨ order.cmp (content.row node) (content.row other) < 0
        ∨ order.cmp (content.row other) (content.row node) < 0 := by
  let Ordered (node other : Nat) : Prop :=
    node = other ∨ order.cmp (content.row node) (content.row other) < 0
      ∨ order.cmp (content.row other) (content.row node) < 0
  have symmetric : Std.Symm Ordered := by
    constructor
    rintro left right (rfl | below | above)
    · exact .inl rfl
    · exact .inr (.inr below)
    · exact .inr (.inl above)
  have pairs : content.chain.Pairwise Ordered := shape.ascending.imp fun below => .inr (.inl below)
  exact pairs.forall_of_forall (fun _ _ => .inl rfl) member inside

/-- The node that is found is the only one whose row compares the same. -/
theorem Shape.finds_equal (shape : Shape order skip content) (row : ρ)
    : ∃ found skip', sfind order skip row = .ok (found, skip') ∧ SameMemory skip skip'
        ∧ ∀ node, found = some node
            ↔ node ∈ content.chain ∧ ∃ other, skip.row node = .ok other ∧ order.cmp row other = 0 := by
  obtain ⟨less, rest, skip', walked, same, located⟩ := shape.locate row
  have equals (node : Nat) (member : node ∈ content.chain)
      : (∃ other, skip.row node = .ok other ∧ order.cmp row other = 0)
          ↔ order.cmp row (content.row node) = 0 := by
    rw [shape.rows node member]
    simp
  rcases located.matching with ⟨node, tail, rfl, equal, -⟩ | ⟨above, -⟩
  · have member : node ∈ content.chain := by simp [located.split]
    refine ⟨some node, _, ?_, same.curl (some (.node node)), ?_⟩
    · have known := located.shape.rows node member
      simp only [Skip.row] at known
      simp [sfind, walked, located.found, Skip.row, known, equal, bind, Except.bind, pure,
        Except.pure]
    · intro other
      constructor
      · intro found
        obtain rfl := Option.some.inj found
        exact ⟨member, (equals node member).mpr equal⟩
      · rintro ⟨inside, compares⟩
        have back := order.equal_swap ((equals other inside).mp compares)
        rcases shape.ordered member inside with rfl | below | below
        · rfl
        · have := order.lt_of_lt_of_le below back.le
          have := (order.swap _ _).mp this
          omega
        · have := order.lt_of_le_of_lt ((equals other inside).mp compares).le below
          omega
  · have none' : ∀ node ∈ content.chain, order.cmp row (content.row node) ≠ 0 := by
      intro node member
      rw [located.split] at member
      rcases List.mem_append.mp member with early | late
      · exact (located.passed node early).ne'
      · exact (above node late).ne
    refine ⟨none, _, ?_, same.curl (rest.head?.map .node), ?_⟩
    · rcases rest with _ | ⟨node, tail⟩
      · simp [sfind, walked, located.found, bind, Except.bind, pure, Except.pure]
      · have member : node ∈ content.chain := by simp [located.split]
        have known := located.shape.rows node member
        simp only [Skip.row] at known
        simp [sfind, walked, located.found, Skip.row, known, none' node member, bind, Except.bind,
          pure, Except.pure]
    · refine fun node => ⟨fun same => (by cases same), fun found => ?_⟩
      exact absurd ((equals node found.1).mp found.2) (none' node found.1)

/-- The node that is found is the least one not below the row. -/
theorem Shape.finds_least (shape : Shape order skip content) (row : ρ)
    : ∃ found skip', sfindEqualOrGreater order skip row = .ok (found, skip')
        ∧ SameMemory skip skip'
        ∧ ∀ node, found = some node ↔ skip.LeastFrom order content.chain row node := by
  obtain ⟨less, rest, skip', walked, same, located⟩ := shape.locate row
  have later (node : Nat) (member : node ∈ content.chain)
      (atMost : order.cmp row (content.row node) ≤ 0) : node ∈ rest := by
    rw [located.split] at member
    rcases List.mem_append.mp member with early | late
    · exact absurd (located.passed node early) (not_lt.mpr atMost)
    · exact late
  refine ⟨rest.head?, _, ?_, same.curl (rest.head?.map .node), ?_⟩
  · rcases rest with _ | ⟨node, tail⟩
    · simp [sfindEqualOrGreater, walked, located.found, Skip.passLess, bind, Except.bind, pure,
        Except.pure]
    · have known := located.shape.rows node (by simp [located.split])
      have stops : ¬order.cmp (content.row node) row < 0 := by
        rw [order.swap]
        exact not_lt.mpr (located.stopped node List.mem_cons_self)
      simp [sfindEqualOrGreater, walked, located.found, Skip.passLess, known, stops, bind,
        Except.bind, pure, Except.pure]
  · intro node
    rcases rest with _ | ⟨first, tail⟩
    · refine ⟨nofun, ?_⟩
      rintro ⟨member, least, known, atMost, -⟩
      rw [shape.rows node member] at known
      obtain rfl := Except.ok.inj known
      exact nomatch later node member atMost
    · have member : first ∈ content.chain := by simp [located.split]
      have reached := located.stopped first List.mem_cons_self
      have ascending := located.shape.ascending
      rw [located.split] at ascending
      have above := (List.pairwise_cons.mp (List.pairwise_append.mp ascending).2.1).1
      constructor
      · intro found
        obtain rfl := Option.some.inj found
        refine ⟨member, _, shape.rows first member, reached, ?_⟩
        intro other inside further known atMost
        rw [shape.rows other inside] at known
        obtain rfl := Except.ok.inj known
        rcases List.mem_cons.mp (later other inside atMost) with rfl | behind
        · exact .inl rfl
        · exact .inr (above other behind)
      · rintro ⟨inside, least, known, atMost, first'⟩
        rw [shape.rows node inside] at known
        obtain rfl := Except.ok.inj known
        rcases first' first member _ (shape.rows first member) reached with same | below
        · exact congrArg some same
        · rcases List.mem_cons.mp (later node inside atMost) with rfl | behind
          · rfl
          · exact absurd (order.lt_of_lt_of_le below (above node behind).le) (order.irrefl _)

/-- No node is linked at the height of the list. -/
theorem Shape.topPlace (shape : Shape order skip content) {nodes : List Nat}
    (inside : nodes ⊆ content.chain)
    : content.lastPlace (skip.curh + 1) nodes = .head := by
  refine @Content.lastPlace_skipped _ content (skip.curh + 1) nodes [] fun node member => ?_
  exact Nat.le_succ_of_le (shape.heights node (inside member)).2

/-- The last node of every level is passed, by induction on the levels. -/
theorem Shape.lastFrom (shape : Shape order skip content) {levels : Nat}
    (inside : levels ≤ skip.maxh)
    : skip.lastFrom levels (content.lastPlace levels content.chain)
        = .ok (content.lastPlace 0 content.chain) := by
  induction levels with
  | zero => rfl
  | succ level ih =>
      have walked := @Shape.walkLevel _ order skip content level shape (fun _ => true) content.chain
        [] (by simp) (by simp) nofun inside
      simp only [Skip.lastFrom, walked, bind, Except.bind]
      exact ih (Nat.le_of_succ_le inside)

/-- The node that is found last is the greatest. -/
theorem Shape.finds_greatest (shape : Shape order skip content) (present : content.chain ≠ [])
    : ∃ node skip', findlast skip = .ok (.node node, skip')
        ∧ skip.Greatest order content.chain node := by
  obtain ⟨earlier, node, split⟩ := (List.eq_nil_or_concat content.chain).resolve_left present
  rw [List.concat_eq_append] at split
  have member : node ∈ content.chain := by simp [split]
  have start := shape.topPlace (List.Subset.refl _)
  have last : content.lastPlace 0 content.chain = .node node := by
    rw [split]
    exact Content.lastPlace_linked (shape.heights node member).1
  have walked : skip.lastFrom (skip.curh + 1) .head = .ok (.node node) := by
    rw [← start, ← last]
    exact shape.lastFrom shape.deep
  have found : findlast skip = .ok (.node node, { skip with curl := some (.node node) }) := by
    simp only [findlast, walked, bind, Except.bind, pure, Except.pure]
  refine ⟨node, _, found, member, ?_⟩
  intro other inside
  have ascending := shape.ascending
  rw [split] at ascending inside
  rcases List.mem_append.mp inside with early | same
  · have below := (List.pairwise_append.mp ascending).2.2 other early node List.mem_cons_self
    have known := shape.rows other (by simp [split, early])
    exact .inr ⟨_, _, known, shape.rows node member, below⟩
  · exact .inl (List.mem_singleton.mp same)

-----------------------------------------------------------------------------------------
-- Runs
-----------------------------------------------------------------------------------------

/-- The list that `jsw_sinit` makes has no nodes. -/
theorem sinit_shape [Inhabited ρ] (order : Comparison ρ) (max : Nat)
    : Shape order (sinit max : Skip ρ) { chain := [], linked := fun _ => 0, row := fun _ => default } where
  deep := Nat.succ_pos max
  updates := List.length_replicate
  live := List.nil_subset _
  count := Nat.zero_le _
  distinct := .nil
  heights := nofun
  rows := nofun
  ascending := .nil
  links := by
    intro before after split level reaches
    obtain ⟨rfl, rfl⟩ := List.append_eq_nil_iff.mp split.symm
    have inside : level < max + 1 := reaches
    simp [Skip.next, sinit, Content.first, inside]

/-- Both insertions put a row that is not there into a new node. -/
theorem Shape.insertion (shape : Shape order skip content) (deep : 2 ≤ skip.maxh)
    (allocator : Allocator) (row : ρ) (zeros : Nat) {keep : Skip ρ → Nat → Except Fault (Skip ρ)}
    (keeps : ∀ skip' node, SameMemory skip skip' → Shape order skip' content →
      node ∈ content.chain → order.cmp row (content.row node) = 0 →
        ∃ skip'' content'', keep skip' node = .ok skip'' ∧ skip''.maxh = skip.maxh
          ∧ Shape order skip'' content'')
    : ∃ skip' content', (do
            let (place, skip) ← SkipList.locate order skip row
            match ← skip.matching order row (← skip.next place 0) with
            | some node => keep skip node
            | none => SkipList.insertNew allocator skip row zeros) = .ok skip'
        ∧ skip'.maxh = skip.maxh ∧ Shape order skip' content' := by
  obtain ⟨less, rest, skip', walked, same, located⟩ := shape.locate row
  rcases located.matching with ⟨node, tail, rfl, equal, matching⟩ | ⟨above, matching⟩
  · simp only [walked, located.found, matching, bind, Except.bind]
    exact keeps skip' node same located.shape (by simp [located.split]) equal
  · simp only [walked, located.found, matching, bind, Except.bind]
    obtain ⟨skip'', content'', inserted, maxh, shape'⟩ :=
      located.insertNew above (by rw [same.maxh]; exact deep) allocator zeros
    exact ⟨skip'', content'', inserted, maxh.trans same.maxh, shape'⟩

/-- A call keeps the invariant. -/
theorem Shape.call (shape : Shape order skip content) (deep : 2 ≤ skip.maxh)
    (allocator : Allocator) (call : Call ρ)
    : ∃ skip' content', skip.call order allocator call = .ok skip' ∧ skip'.maxh = skip.maxh
        ∧ Shape order skip' content' := by
  cases call with
  | sinsert row zeros =>
      exact shape.insertion deep allocator row zeros fun skip' node same shape' _ _ =>
        ⟨skip', content, rfl, same.maxh, shape'⟩
  | sinsertLinked row zeros unique =>
      refine @Shape.insertion _ order skip content shape deep allocator row zeros
        (fun skip node =>
          if unique then .ok skip
          else (skip.listInsertHead node row).map fun skip => { skip with size := skip.size + 1 })
        fun skip' node same shape' member equal => ?_
      cases unique with
      | true => exact ⟨skip', content, rfl, same.maxh, shape'⟩
      | false =>
          obtain ⟨skip'', content'', linked, maxh, shape''⟩ := shape'.listInsertHead member equal
          exact ⟨skip'', content'', linked, maxh.trans same.maxh, shape''⟩
  | serase row =>
      obtain ⟨less, rest, skip', walked, same, located⟩ := shape.locate row
      rcases located.matching with ⟨node, tail, rfl, equal, matching⟩ | ⟨above, matching⟩
      · obtain ⟨skip'', content'', erased, maxh, shape''⟩ := located.serase
        refine ⟨skip'', content'', ?_, maxh.trans same.maxh, shape''⟩
        simp only [Skip.call, SkipList.serase, walked, located.found, matching, bind, Except.bind]
        exact erased
      · refine ⟨skip', content, ?_, same.maxh, located.shape⟩
        simp only [Skip.call, SkipList.serase, walked, located.found, matching, bind, Except.bind]
        rfl
  | sfind row =>
      obtain ⟨found, skip', finds, same, -⟩ := shape.finds_equal row
      refine ⟨skip', content, ?_, same.maxh, shape.sameMemory same⟩
      simp only [Skip.call, finds, Except.map]
  | sfindEqualOrGreater row =>
      obtain ⟨found, skip', finds, same, -⟩ := shape.finds_least row
      refine ⟨skip', content, ?_, same.maxh, shape.sameMemory same⟩
      simp only [Skip.call, finds, Except.map]
  | findlast =>
      have walked := shape.lastFrom shape.deep
      rw [shape.topPlace (List.Subset.refl _)] at walked
      have called : skip.call order allocator .findlast
          = .ok { skip with curl := some (content.lastPlace 0 content.chain) } := by
        simp only [Skip.call, SkipList.findlast, walked, bind, Except.bind, pure, Except.pure,
          Except.map]
      exact ⟨_, content, called, rfl, shape.sameMemory ((SameMemory.refl skip).curl _)⟩

/-- The calls of a run keep the invariant, by induction on the calls. -/
theorem Shape.calls (shape : Shape order skip content) (deep : 2 ≤ skip.maxh)
    (allocator : Allocator) (calls : List (Call ρ))
    : ∃ skip' content', calls.foldlM (Skip.call order allocator) skip = .ok skip'
        ∧ skip'.maxh = skip.maxh ∧ Shape order skip' content' := by
  induction calls generalizing skip content with
  | nil => exact ⟨skip, content, rfl, rfl, shape⟩
  | cons call calls ih =>
      obtain ⟨skip₁, content₁, called, maxh, shape₁⟩ := shape.call deep allocator call
      obtain ⟨skip', content', ran, maxh', shape'⟩ := ih shape₁ (maxh ▸ deep)
      refine ⟨skip', content', ?_, maxh'.trans maxh, shape'⟩
      simp only [List.foldlM_cons, called, bind, Except.bind, ran]

/-- Every run of calls on a skip list ends without a fault. It leaves a list of ascending rows at
level 0, sublists of it at the levels above and no links at the height or above it, of which the
searches find the equal, the least and the greatest node.
-/
theorem run_wellShaped [Inhabited ρ] (order : Comparison ρ) (allocator : Allocator) {max : Nat}
    (deep : 1 ≤ max) (calls : List (Call ρ))
    : ∃ skip levels, run order allocator max calls = .ok skip ∧ skip.maxh = max + 1
        ∧ skip.WellShaped order levels ∧ skip.Finds order (levels 0) := by
  obtain ⟨skip, content, ran, maxh, shape⟩ :=
    (sinit_shape order max).calls (Nat.succ_le_succ deep) allocator calls
  refine ⟨skip, content.level, ran, maxh, shape.wellShaped, ?_⟩
  rw [shape.level_zero]
  constructor
  · intro row
    obtain ⟨found, skip', finds, -, exact'⟩ := shape.finds_equal row
    exact ⟨found, skip', finds, exact'⟩
  · intro row
    obtain ⟨found, skip', finds, -, exact'⟩ := shape.finds_least row
    exact ⟨found, skip', finds, exact'⟩
  · exact shape.finds_greatest

/-- The comparison of integers. -/
def intComparison : Comparison Int where
  cmp := fun left right => left - right
  swap := fun left right => by omega
  trans := fun left middle right => by omega

/-- An allocator that never uses an address again before its list is empty. -/
def risingAllocator : Allocator where
  pick := fun live => live.foldr (fun address next => Nat.max (address + 1) next) 0
  fresh := by
    have above (live : List Nat) : ∀ address ∈ live,
        address < live.foldr (fun address next => Nat.max (address + 1) next) 0 := by
      induction live with
      | nil => exact nofun
      | cons first rest ih =>
          intro address member
          rw [List.foldr_cons]
          rcases List.mem_cons.mp member with rfl | behind
          · exact Nat.lt_of_lt_of_le (Nat.lt_succ_self address) (Nat.le_max_left ..)
          · exact Nat.lt_of_lt_of_le (ih address behind) (Nat.le_max_right ..)
    exact fun live member => Nat.lt_irrefl _ (above live _ member)

/-- Three rows, one of them twice, of which one is erased again. -/
theorem run_wellShaped_ints
    : ∃ skip levels,
        run intComparison risingAllocator 1
            [.sinsert 3 4, .sinsertLinked 1 0 false, .sinsertLinked 3 0 false, .serase 1] = .ok skip
          ∧ skip.maxh = 1 + 1 ∧ skip.WellShaped intComparison levels
          ∧ skip.Finds intComparison (levels 0) :=
  run_wellShaped intComparison risingAllocator (Nat.le_refl 1) _

end SpeedTables.SkipList
