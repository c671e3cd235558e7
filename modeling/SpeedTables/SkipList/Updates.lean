import SpeedTables.SkipList.Shape

/-! Insertion into a skip list and erasure from it keep the representation invariant. -/

namespace SpeedTables.SkipList

variable {ρ : Type} {order : Comparison ρ} {skip : Skip ρ} {content : Content ρ}

-----------------------------------------------------------------------------------------
-- Links
-----------------------------------------------------------------------------------------

/-- The list is the same but for its links. -/
structure Relinked (skip skip' : Skip ρ) : Prop where
  live : skip'.live = skip.live
  curh : skip'.curh = skip.curh
  size : skip'.size = skip.size
  maxh : skip'.maxh = skip.maxh
  fix : skip'.fix = skip.fix
  row : ∀ node, skip'.row node = skip.row node

theorem Relinked.refl (skip : Skip ρ) : Relinked skip skip :=
  ⟨rfl, rfl, rfl, rfl, rfl, fun _ => rfl⟩

theorem Relinked.trans {skip skip' skip'' : Skip ρ} (first : Relinked skip skip')
    (second : Relinked skip' skip'') : Relinked skip skip'' where
  live := second.live.trans first.live
  curh := second.curh.trans first.curh
  size := second.size.trans first.size
  maxh := second.maxh.trans first.maxh
  fix := second.fix.trans first.fix
  row := fun node => (second.row node).trans (first.row node)

/-- A link that can be read can be written, and no other link changes. -/
theorem setNext_links {place : Place} {level : Nat} {old : Option Nat}
    (valid : skip.next place level = .ok old) (link : Option Nat)
    : ∃ skip', skip.setNext place level link = .ok skip' ∧ Relinked skip skip'
        ∧ ∀ other height, skip'.next other height
            = if other = place ∧ height = level then .ok link else skip.next other height := by
  cases place with
  | head =>
      have inside : level < skip.head.length := by
        by_contra beyond
        simp [Skip.next, List.getElem?_eq_none (not_lt.mp beyond)] at valid
      refine ⟨_, if_pos inside, ⟨rfl, rfl, rfl, rfl, rfl, fun _ => rfl⟩, ?_⟩
      intro other height
      cases other with
      | node address => simp [Skip.next]
      | head =>
          rcases eq_or_ne height level with rfl | apart
          · simp [Skip.next, inside]
          · simp [Skip.next, apart, List.getElem?_set_ne apart.symm]
  | node address =>
      rcases known : skip.nodes address with _ | node
      · simp [Skip.next, known] at valid
      · have inside : level < node.next.length := by
          by_contra beyond
          simp [Skip.next, known, List.getElem?_eq_none (not_lt.mp beyond)] at valid
        refine ⟨_, by simp only [Skip.setNext, known]; exact if_pos inside, ?_, ?_⟩
        · refine ⟨rfl, rfl, rfl, rfl, rfl, fun other => ?_⟩
          rcases eq_or_ne other address with rfl | apart
          · simp [Skip.row, known]
          · simp [Skip.row, apart]
        · intro other height
          cases other with
          | head => simp [Skip.next]
          | node other =>
              rcases eq_or_ne other address with rfl | apart
              · rcases eq_or_ne height level with rfl | above
                · simp [Skip.next, inside]
                · simp [Skip.next, known, above, List.getElem?_set_ne above.symm]
              · simp [Skip.next, apart]

-----------------------------------------------------------------------------------------
-- Insertion
-----------------------------------------------------------------------------------------

/-- The links of a new node are built behind the places of the update array, by induction on the
levels.
-/
theorem buildLinks_links {address height : Nat} {place : Nat → Place} {link : Nat → Option Nat}
    (fixes : ∀ level < height, skip.fixAt level = .ok (place level))
    (apart : ∀ level < height, place level ≠ .node address)
    (points : ∀ level < height, skip.next (place level) level = .ok (link level))
    (owned : ∀ level < height, ∃ old, skip.next (.node address) level = .ok old)
    : ∃ skip', buildLinks address height skip = .ok skip' ∧ Relinked skip skip'
        ∧ ∀ other level, skip'.next other level
            = if level < height ∧ other = .node address then .ok (link level)
              else if level < height ∧ other = place level then .ok (some address)
              else skip.next other level := by
  induction height generalizing skip with
  | zero => exact ⟨skip, rfl, .refl skip, fun _ _ => by simp⟩
  | succ height ih =>
      have top := Nat.lt_succ_self height
      obtain ⟨old, valid⟩ := owned height top
      obtain ⟨skip₁, wrote₁, relinked₁, next₁⟩ := setNext_links valid (link height)
      have valid₁ : skip₁.next (place height) height = .ok (link height) := by
        rw [next₁, if_neg (fun same => apart height top same.1), points height top]
      obtain ⟨skip₂, wrote₂, relinked₂, next₂⟩ := setNext_links valid₁ (some address)
      have relinked := relinked₁.trans relinked₂
      have below (level : Nat) (lower : level < height) (other : Place)
          : skip₂.next other level = skip.next other level := by
        rw [next₂, if_neg (fun same => by omega), next₁, if_neg (fun same => by omega)]
      have fixes₂ : ∀ level < height, skip₂.fixAt level = .ok (place level) := by
        intro level lower
        simp only [Skip.fixAt, relinked.fix]
        exact fixes level (lower.trans top)
      have owned₂ : ∀ level < height, ∃ old, skip₂.next (.node address) level = .ok old := by
        intro level lower
        obtain ⟨old, owns⟩ := owned level (lower.trans top)
        exact ⟨old, (below level lower _).trans owns⟩
      obtain ⟨skip', built, relinked', next'⟩ := ih fixes₂
        (fun level lower => apart level (lower.trans top))
        (fun level lower => (below level lower _).trans (points level (lower.trans top))) owned₂
      refine ⟨skip', ?_, relinked.trans relinked', ?_⟩
      · simp only [buildLinks, fixes height top, points height top, wrote₁, wrote₂, bind,
          Except.bind, built]
      · intro other level
        rw [next']
        rcases Nat.lt_trichotomy level height with lower | rfl | higher
        · simp only [lower, lower.trans top, true_and, below level lower]
        · rw [if_neg (by simp), if_neg (by simp), next₂, next₁]
          by_cases own : other = .node address
          · have different : other ≠ place level := fun same => apart level top (same ▸ own)
            simp [own, own ▸ different, top]
          · simp [own, top]
        · rw [if_neg (by omega), if_neg (by omega), if_neg (by omega), if_neg (by omega), next₂,
            if_neg (by omega), next₁, if_neg (by omega)]

theorem randomLevel_inside {max : Nat} (deep : 2 ≤ max) (zeros : Nat)
    : 0 < Lib.randomLevel max zeros ∧ Lib.randomLevel max zeros < max := by
  unfold Lib.randomLevel
  split <;> omega

/-- The height of the list is raised by one level for a higher node. -/
theorem raiseHeight_fits {drawn : Nat} (updates : skip.fix.length = skip.maxh)
    (inside : drawn < skip.maxh) (deep : skip.curh < skip.maxh) (positive : 0 < drawn)
    : ∃ height raised, skip.raiseHeight drawn = .ok (height, raised)
        ∧ raised = { skip with curh := raised.curh, fix := raised.fix }
        ∧ raised.fix.length = skip.maxh
        ∧ (∀ level ≤ skip.curh, raised.fixAt level = skip.fixAt level)
        ∧ skip.curh ≤ raised.curh ∧ raised.curh < skip.maxh
        ∧ 0 < height ∧ height ≤ drawn ∧ height ≤ raised.curh ∧ height ≤ skip.curh + 1 := by
  by_cases higher : skip.curh < drawn
  · have fits : skip.curh + 1 < skip.fix.length := by omega
    let raised :=
      { skip with fix := skip.fix.set (skip.curh + 1) (some .head), curh := skip.curh + 1 }
    refine ⟨skip.curh + 1, raised, ?_, rfl, ?_, ?_, Nat.le_succ _, updates ▸ fits, Nat.succ_pos _,
      higher, Nat.le_refl _, Nat.le_refl _⟩
    · rw [Skip.raiseHeight, if_pos higher, Skip.setFix, if_pos fits]
      rfl
    · rw [List.length_set, updates]
    · intro level below
      simp only [Skip.fixAt]
      rw [List.getElem?_set_ne (by omega)]
  · exact ⟨drawn, skip, if_neg higher, rfl, updates, fun _ _ => rfl, Nat.le_refl _, deep, positive,
      Nat.le_refl _, not_lt.mp higher, by omega⟩

theorem Place.behind_mem {nodes : List Nat} {node : Nat} (same : Place.behind nodes = .node node)
    : node ∈ nodes := by
  rcases List.eq_nil_or_concat nodes with rfl | ⟨earlier, last, rfl⟩
  · cases same
  · rw [List.concat_eq_append, Place.behind_append] at same
    cases same
    simp

namespace Content

variable {level : Nat}

/-- Which nodes of a list are linked depends on their own heights. -/
theorem first_congr {content' : Content ρ} {nodes : List Nat}
    (same : ∀ node ∈ nodes, content'.linked node = content.linked node)
    : content'.first level nodes = content.first level nodes := by
  induction nodes with
  | nil => rfl
  | cons node nodes ih =>
      have behind := ih fun other member => same other (List.mem_cons_of_mem node member)
      simp only [first, List.find?_cons, same node List.mem_cons_self] at behind ⊢
      rw [behind]

/-- The first node linked on a level is found where there is one. -/
theorem first_append_linked {nodes : List Nat} {node : Nat} (member : node ∈ nodes)
    (linked : level < content.linked node) (others : List Nat)
    : content.first level (nodes ++ others) = content.first level nodes := by
  rcases found : content.first level nodes with _ | other
  · rw [first, List.find?_eq_none] at found
    exact absurd linked (by simpa using found node member)
  · rw [first] at found ⊢
    rw [List.find?_append, found]
    rfl

/-- A node linked on a level is not passed by the last place of it. -/
theorem lastPlace_later {before nodes : List Nat} {node : Nat} (member : node ∈ nodes)
    (linked : level < content.linked node)
    : ∃ last ∈ nodes, content.lastPlace level (before ++ nodes) = .node last := by
  induction nodes using List.reverseRecOn with
  | nil => cases member
  | append_singleton earlier last ih =>
      rw [← List.append_assoc]
      by_cases high : level < content.linked last
      · exact ⟨last, by simp, lastPlace_linked high⟩
      · have early : node ∈ earlier := by
          rcases List.mem_append.mp member with early | same
          · exact early
          · obtain rfl := List.mem_singleton.mp same
            exact absurd linked high
        obtain ⟨found, inside, same⟩ := ih early
        refine ⟨found, List.mem_append_left _ inside, ?_⟩
        rw [lastPlace_skipped, same]
        intro other alone
        obtain rfl := List.mem_singleton.mp alone
        exact not_lt.mp high

/-- The content with a node between two parts of the chain. -/
def insert (content : Content ρ) (less rest : List Nat) (address height : Nat) (row : ρ)
    : Content ρ where
  chain := less ++ address :: rest
  linked := Function.update content.linked address height
  row := Function.update content.row address row

end Content

/-- The links of a list with a new node, by the place they start from. -/
theorem Located.insert_links {row : ρ} {less rest : List Nat} {skip' : Skip ρ}
    {address height : Nat} (located : Located order content row less rest skip)
    (fresh : address ∉ content.chain) (maxh : skip'.maxh = skip.maxh)
    (next : ∀ other level, level < height ∨ other ≠ .node address →
      skip'.next other level
        = if level < height ∧ other = .node address then .ok (content.first level rest)
          else if level < height ∧ other = content.lastPlace level less then .ok (some address)
          else skip.next other level)
    {before after : List Nat} (split : less ++ address :: rest = before ++ after) {level : Nat}
    (reaches : (content.insert less rest address height row).Reaches skip' level (.behind before))
    : skip'.next (.behind before) level
        = .ok ((content.insert less rest address height row).first level after) := by
  let content' := content.insert less rest address height row
  have old (node : Nat) (member : node ∈ content.chain)
      : node ≠ address ∧ content'.linked node = content.linked node := by
    have apart : node ≠ address := fun same => fresh (same ▸ member)
    exact ⟨apart, Function.update_of_ne apart _ _⟩
  have own : content'.linked address = height := Function.update_self ..
  have inLess : less ⊆ content.chain := by simp [located.split]
  have inRest : rest ⊆ content.chain := by simp [located.split]
  have firstRest (nodes : List Nat) (inside : nodes ⊆ content.chain)
      : content'.first level nodes = content.first level nodes :=
    Content.first_congr fun node member => (old node (inside member)).2
  have distinct := located.shape.distinct
  rw [located.split] at distinct
  have apartParts := (List.nodup_append.mp distinct).2.2
  have early {mid : List Nat} (parts : less = before ++ mid)
      (afterwards : after = mid ++ address :: rest)
      : skip'.next (.behind before) level = .ok (content'.first level after) := by
    have notOwn : Place.behind before ≠ .node address := by
      intro same
      exact fresh (inLess (by rw [parts]; exact List.mem_append_left _ (Place.behind_mem same)))
    have reached : content.Reaches skip level (.behind before) := by
      rcases place : Place.behind before with _ | node
      · rw [place, Content.reaches_head, maxh] at reaches
        exact reaches
      · rw [place, Content.reaches_node] at reaches
        have member := Place.behind_mem place
        have same := (old node (inLess (by rw [parts]; exact List.mem_append_left _ member))).2
        exact Content.reaches_node.mpr (same ▸ reaches)
    have link := located.shape.links before (mid ++ rest)
      (by rw [located.split, parts, List.append_assoc]) level reached
    have inMid : mid ⊆ content.chain := fun node member => inLess (by simp [parts, member])
    rw [next _ _ (.inr notOwn), if_neg (fun same => notOwn same.2), afterwards]
    by_cases linked : ∃ node ∈ mid, level < content.linked node
    · obtain ⟨node, member, linked⟩ := linked
      obtain ⟨last, inside, same⟩ :=
        @Content.lastPlace_later _ content level before mid node member linked
      have passed : Place.behind before ≠ content.lastPlace level less := by
        rw [parts, same]
        intro behind
        have both := (List.nodup_append.mp (parts ▸ (List.nodup_append.mp distinct).1)).2.2
        exact both last (Place.behind_mem behind) last inside rfl
      have linked' : level < content'.linked node := by rw [(old node (inMid member)).2]; exact linked
      rw [if_neg (fun same => passed same.2), link, Content.first_append_linked member linked,
        Content.first_append_linked member linked', firstRest mid inMid]
    · have unlinked : ∀ node ∈ mid, content.linked node ≤ level := by
        intro node member
        exact not_lt.mp fun high => linked ⟨node, member, high⟩
      have unlinked' : ∀ node ∈ mid, content'.linked node ≤ level := by
        intro node member
        rw [(old node (inMid member)).2]
        exact unlinked node member
      have last : content.lastPlace level less = .behind before := by
        rw [parts, Content.lastPlace_skipped unlinked, Content.lastPlace_behind reached]
      rw [Content.first_append_skipped unlinked']
      by_cases below : level < height
      · rw [if_pos ⟨below, last.symm⟩]
        simp [Content.first, own, below]
      · rw [if_neg (fun same => below same.1), link, Content.first_append_skipped unlinked,
          ← firstRest rest inRest]
        simp [Content.first, own, below]
  rcases List.append_eq_append_iff.mp split with ⟨new, behind, parts⟩ | ⟨mid, parts, afterwards⟩
  · rcases new with _ | ⟨first, passed⟩
    · exact @early [] (by simpa using behind.symm) (by simpa using parts.symm)
    · obtain rfl : address = first := (List.cons.inj parts).1
      have tail : rest = passed ++ after := (List.cons.inj parts).2
      rcases List.eq_nil_or_concat passed with rfl | ⟨earlier, node, rfl⟩
      · rw [behind, Place.behind_append] at reaches ⊢
        have below : level < height := by rwa [Content.reaches_node, own] at reaches
        obtain rfl : rest = after := tail
        rw [next _ _ (.inl below), if_pos ⟨below, rfl⟩, firstRest rest inRest]
      · have place : Place.behind before = .node node := by
          rw [behind, List.concat_eq_append, ← List.cons_append, ← List.append_assoc,
            Place.behind_append]
        have member : node ∈ rest := by simp [tail]
        obtain ⟨apart, height'⟩ := old node (inRest member)
        rw [place] at reaches ⊢
        have passed : .node node ≠ content.lastPlace level less := by
          intro same
          exact apartParts node (Content.lastPlace_mem same.symm) node member rfl
        have link := located.shape.links (less ++ (earlier ++ [node])) after
          (by rw [located.split, tail]; simp) level (by
            rw [← List.append_assoc, Place.behind_append, Content.reaches_node, ← height']
            exact reaches)
        rw [← List.append_assoc, Place.behind_append] at link
        have inAfter : after ⊆ content.chain := fun other inside => inRest (by simp [tail, inside])
        have notOwn : Place.node node ≠ .node address := fun same => apart (Place.node.inj same)
        rw [next _ _ (.inr notOwn), if_neg (fun same => notOwn same.2),
          if_neg (fun same => passed same.2), link, firstRest after inAfter]
  · exact early parts afterwards

/-- A row between the rows below it and those above it keeps the chain ascending. -/
theorem ascending_insert {row : ρ} {less rest : List Nat} {address height : Nat}
    (fresh : address ∉ content.chain) (split : content.chain = less ++ rest)
    (ascending : (less ++ rest).Pairwise fun left right =>
      order.cmp (content.row left) (content.row right) < 0)
    (passed : ∀ node ∈ less, 0 < order.cmp row (content.row node))
    (above : ∀ node ∈ rest, order.cmp row (content.row node) < 0)
    : (less ++ address :: rest).Pairwise fun left right =>
        order.cmp ((content.insert less rest address height row).row left)
          ((content.insert less rest address height row).row right) < 0 := by
  have own : (content.insert less rest address height row).row address = row :=
    Function.update_self ..
  have old (node : Nat) (member : node ∈ less ++ rest)
      : (content.insert less rest address height row).row node = content.row node := by
    have apart : node ≠ address := fun same => fresh (by rw [split, ← same]; exact member)
    exact Function.update_of_ne apart _ _
  have kept := ascending.imp_of_mem fun {left right} insideLeft insideRight below => by
    rw [← old left insideLeft, ← old right insideRight] at below
    exact below
  obtain ⟨first, second, across⟩ := List.pairwise_append.mp kept
  refine List.pairwise_append.mpr ⟨first, List.pairwise_cons.mpr ⟨?_, second⟩, ?_⟩
  · intro node member
    rw [own, old node (List.mem_append_right _ member)]
    exact above node member
  · intro left insideLeft right insideRight
    rcases List.mem_cons.mp insideRight with rfl | insideRight
    · rw [own, old left (List.mem_append_left _ insideLeft)]
      exact (order.swap _ _).mpr (passed left insideLeft)
    · exact across left insideLeft right insideRight

/-- A new node before the nodes that are not below its row. -/
theorem Located.insertNew {row : ρ} {less rest : List Nat}
    (located : Located order content row less rest skip)
    (above : ∀ node ∈ rest, order.cmp row (content.row node) < 0) (deep : 2 ≤ skip.maxh)
    (allocator : Allocator) (zeros : Nat)
    : ∃ skip' content', insertNew allocator skip row zeros = .ok skip'
        ∧ skip'.maxh = skip.maxh ∧ Shape order skip' content' := by
  obtain ⟨positive, inside⟩ := randomLevel_inside deep zeros
  let address := allocator.pick skip.live
  let drawn := Lib.randomLevel skip.maxh zeros
  let skip₁ := skip.newNode address row drawn
  have notLive : address ∉ skip.live := allocator.fresh skip.live
  have fresh : address ∉ content.chain := fun member => notLive (located.shape.live member)
  have next₁ (other : Place) (apart : other ≠ .node address) (level : Nat)
      : skip₁.next other level = skip.next other level := by
    cases other with
    | head => rfl
    | node other =>
        have differs : other ≠ address := fun same => apart (congrArg _ same)
        simp [skip₁, Skip.newNode, Skip.next, differs]
  have row₁ (node : Nat) (member : node ∈ content.chain) : skip₁.row node = .ok (content.row node) := by
    have differs : node ≠ address := fun same => fresh (same ▸ member)
    have known := located.shape.rows node member
    simpa [skip₁, Skip.newNode, Skip.row, differs] using known
  obtain ⟨height, raised, raises, shape₂, fix₂, fixes₂, grows, fits, some, atMost, below, near⟩ :=
    @raiseHeight_fits _ skip₁ drawn located.shape.updates inside located.shape.deep positive
  have next₂ (other : Place) (level : Nat) : raised.next other level = skip₁.next other level := by
    rw [shape₂]
    rfl
  have row₂ (node : Nat) : raised.row node = skip₁.row node := by
    rw [shape₂]
    rfl
  have live₂ : raised.live = address :: skip.live := by
    rw [shape₂]
    rfl
  have maxh₂ : raised.maxh = skip.maxh := by
    rw [shape₂]
    rfl
  have outside (level : Nat) : content.lastPlace level less ≠ .node address := by
    intro same
    exact fresh (by rw [located.split]; exact List.mem_append_left _ (Content.lastPlace_mem same))
  obtain ⟨skip₃, built, relinked, next₃⟩ :=
    @buildLinks_links _ raised address height (fun level => content.lastPlace level less)
      (fun level => content.first level rest)
      (fun level lower =>
        (fixes₂ level (Nat.le_of_lt_succ (lower.trans_le near))).trans
          (located.fixes level (Nat.le_of_lt_succ (lower.trans_le near))))
      (fun level _ => outside level)
      (fun level lower => by
        rw [next₂, next₁ _ (outside level)]
        exact located.points (lower.trans_le atMost |>.trans inside))
      (fun level lower => by
        refine ⟨none, ?_⟩
        rw [next₂]
        have owned : level < drawn := lower.trans_le atMost
        simp [skip₁, Skip.newNode, Skip.next, owned])
  refine ⟨{ skip₃ with size := skip₃.size + 1 }, content.insert less rest address height row, ?_,
    relinked.maxh.trans maxh₂, ?_⟩
  · have raising : (skip.newNode (allocator.pick skip.live) row
        (Lib.randomLevel skip.maxh zeros)).raiseHeight (Lib.randomLevel skip.maxh zeros)
          = .ok (height, raised) := raises
    simp only [SkipList.insertNew, raising, bind, Except.bind, pure, Except.pure]
    rw [built]
  · have rows₃ (node : Nat) : skip₃.row node = skip₁.row node :=
      (relinked.row node).trans (row₂ node)
    have parts := located.split
    have member (node : Nat) (inside : node ∈ less ++ address :: rest)
        : node = address ∨ node ∈ content.chain := by
      rw [parts]
      simp only [List.mem_append, List.mem_cons] at inside ⊢
      tauto
    constructor
    · show skip₃.curh < skip₃.maxh
      rw [relinked.curh, relinked.maxh, maxh₂]
      exact fits
    · show skip₃.fix.length = skip₃.maxh
      rw [relinked.fix, relinked.maxh, maxh₂]
      exact fix₂
    · intro node inside
      show node ∈ skip₃.live
      rw [relinked.live, live₂]
      rcases member node inside with rfl | inside
      · exact List.mem_cons_self
      · exact List.mem_cons_of_mem _ (located.shape.live inside)
    · show (less ++ address :: rest).length ≤ skip₃.live.length
      have count := located.shape.count
      rw [parts] at count
      rw [relinked.live, live₂]
      simp only [List.length_append, List.length_cons] at count ⊢
      omega
    · show (less ++ address :: rest).Nodup
      have distinct := located.shape.distinct
      rw [parts] at fresh distinct
      exact List.nodup_middle.mpr (List.nodup_cons.mpr ⟨fresh, distinct⟩)
    · intro node inside
      show 0 < Function.update content.linked address height node
        ∧ Function.update content.linked address height node ≤ skip₃.curh
      rw [relinked.curh]
      rcases eq_or_ne node address with rfl | apart
      · rw [Function.update_self]
        exact ⟨some, below⟩
      · rw [Function.update_of_ne apart]
        have bounds := located.shape.heights node ((member node inside).resolve_left apart)
        exact ⟨bounds.1, bounds.2.trans grows⟩
    · intro node inside
      show skip₃.row node = .ok (Function.update content.row address row node)
      rw [rows₃]
      rcases eq_or_ne node address with rfl | apart
      · simp [skip₁, Skip.newNode, Skip.row]
      · rw [Function.update_of_ne apart]
        exact row₁ node ((member node inside).resolve_left apart)
    · have ascending := located.shape.ascending
      rw [parts] at ascending
      exact ascending_insert fresh parts ascending located.passed above
    · intro before after split level reaches
      refine located.insert_links fresh (relinked.maxh.trans maxh₂) ?_ split reaches
      intro other level valid
      show skip₃.next other level = _
      rw [next₃]
      by_cases own : other = .node address
      · have lower : level < height := valid.resolve_right (fun apart => apart own)
        rw [if_pos ⟨lower, own⟩, if_pos ⟨lower, own⟩]
      · simp only [own, and_false, if_false, next₂, next₁ _ own]

/-- A row put before those of a node whose row compares the same. -/
theorem Shape.listInsertHead (shape : Shape order skip content) {row : ρ} {node : Nat}
    (member : node ∈ content.chain) (equal : order.cmp row (content.row node) = 0)
    : ∃ skip' content', (skip.listInsertHead node row).map (fun skip =>
            { skip with size := skip.size + 1 }) = .ok skip'
        ∧ skip'.maxh = skip.maxh ∧ Shape order skip' content' := by
  have known := shape.rows node member
  rcases found : skip.nodes node with _ | old
  · simp [Skip.row, found] at known
  · let content' := { content with row := Function.update content.row node row }
    have compares (left right : Nat)
        (below : order.cmp (content.row left) (content.row right) < 0)
        : order.cmp (content'.row left) (content'.row right) < 0 := by
      show order.cmp (Function.update content.row node row left)
        (Function.update content.row node row right) < 0
      rcases eq_or_ne left node with rfl | leftApart
      · have apart : right ≠ left := fun same => order.irrefl _ (same ▸ below)
        rw [Function.update_self, Function.update_of_ne apart]
        exact order.lt_of_le_of_lt equal.le below
      · rw [Function.update_of_ne leftApart]
        rcases eq_or_ne right node with rfl | rightApart
        · rw [Function.update_self]
          exact order.lt_of_lt_of_le below (order.equal_swap equal).le
        · rw [Function.update_of_ne rightApart]
          exact below
    let node' := { old with row := row, others := old.row :: old.others }
    let skip' :=
      { skip with nodes := Function.update skip.nodes node (some node'), size := skip.size + 1 }
    have next (place : Place) (level : Nat) : skip'.next place level = skip.next place level := by
      cases place with
      | head => rfl
      | node other =>
          rcases eq_or_ne other node with rfl | apart
          · simp [skip', node', Skip.next, found]
          · simp [skip', Skip.next, apart]
    refine ⟨skip', content', ?_, rfl, ?_⟩
    · rw [Skip.listInsertHead, found]
      rfl
    refine ⟨shape.deep, shape.updates, shape.live, shape.count, shape.distinct, shape.heights, ?_,
      ?_, ?_⟩
    · intro other inside
      have knownOther := shape.rows other inside
      rcases eq_or_ne other node with rfl | apart
      · simp [skip', node', Skip.row, content']
      · simpa [skip', Skip.row, content', apart] using knownOther
    · exact shape.ascending.imp fun {left right} below => compares left right below
    · intro before after split level reaches
      exact (next _ _).trans (shape.links before after split level reaches)

-----------------------------------------------------------------------------------------
-- Erasure
-----------------------------------------------------------------------------------------

/-- A node is unlinked from the levels it is linked on, by induction on the levels that remain. -/
theorem unlinkLevels_links {address height levels level : Nat} {place : Nat → Place}
    {link after : Nat → Option Nat}
    (fixes : ∀ other, level ≤ other → other < level + levels → skip.fixAt other = .ok (place other))
    (points : ∀ other, level ≤ other → other < level + levels →
      skip.next (place other) other = .ok (link other))
    (linked : ∀ other, level ≤ other → other < level + levels →
      (link other = some address ↔ other < height))
    (behind : ∀ other, level ≤ other → other < height →
      skip.next (.node address) other = .ok (after other))
    : ∃ skip', unlinkLevels address levels level skip = .ok skip' ∧ Relinked skip skip'
        ∧ ∀ other height', skip'.next other height'
            = if level ≤ height' ∧ height' < level + levels ∧ height' < height
                ∧ other = place height' then .ok (after height')
              else skip.next other height' := by
  induction levels generalizing skip level with
  | zero =>
      refine ⟨skip, rfl, .refl skip, fun other height' => ?_⟩
      rw [if_neg (fun same => by omega)]
  | succ levels ih =>
      have inside : level < level + (levels + 1) := by omega
      have fix := fixes level (Nat.le_refl level) inside
      have point := points level (Nat.le_refl level) inside
      by_cases below : level < height
      · have first := (linked level (Nat.le_refl level) inside).mpr below
        rw [first] at point
        obtain ⟨skip₁, wrote, relinked, next₁⟩ := setNext_links point (after level)
        have higher (other : Nat) (above : level + 1 ≤ other) (where' : Place)
            : skip₁.next where' other = skip.next where' other := by
          rw [next₁, if_neg (fun same => by omega)]
        have fixes₁ : ∀ other, level + 1 ≤ other → other < level + 1 + levels →
            skip₁.fixAt other = .ok (place other) := by
          intro other above within
          simp only [Skip.fixAt, relinked.fix]
          exact fixes other (by omega) (by omega)
        have points₁ : ∀ other, level + 1 ≤ other → other < level + 1 + levels →
            skip₁.next (place other) other = .ok (link other) := by
          intro other above within
          rw [higher other above]
          exact points other (by omega) (by omega)
        have behind₁ : ∀ other, level + 1 ≤ other → other < height →
            skip₁.next (.node address) other = .ok (after other) := by
          intro other above within
          rw [higher other above]
          exact behind other (by omega) within
        obtain ⟨skip', unlinked, relinked', next'⟩ := ih fixes₁ points₁
          (fun other above within => linked other (by omega) (by omega)) behind₁
        refine ⟨skip', ?_, relinked.trans relinked', ?_⟩
        · simp [unlinkLevels, fix, point, behind level (Nat.le_refl level) below, wrote, unlinked,
            bind, Except.bind]
        · intro other height'
          rw [next', next₁]
          rcases Nat.lt_trichotomy height' level with lower | rfl | above
          · rw [if_neg (by omega), if_neg (by omega), if_neg (by omega)]
          · rw [if_neg (by omega)]
            by_cases same : other = place height'
            · rw [if_pos ⟨same, rfl⟩, if_pos ⟨Nat.le_refl _, inside, below, same⟩]
            · rw [if_neg (fun both => same both.1), if_neg (fun both => same both.2.2.2)]
          · have within : level + 1 ≤ height' ∧ height' < level + 1 + levels ∧ height' < height
                ∧ other = place height' ↔ level ≤ height' ∧ height' < level + (levels + 1)
                  ∧ height' < height ∧ other = place height' := by
              constructor
              · rintro ⟨-, within, lower, same⟩
                exact ⟨above.le, by omega, lower, same⟩
              · rintro ⟨-, within, lower, same⟩
                exact ⟨above, by omega, lower, same⟩
            simp only [within, above.ne', and_false, if_false]
      · have other : link level ≠ some address :=
          fun first => below ((linked level (Nat.le_refl level) inside).mp first)
        refine ⟨skip, ?_, .refl skip, fun place' height' => ?_⟩
        · simp [unlinkLevels, fix, point, other, bind, Except.bind, pure, Except.pure]
        · rw [if_neg (fun same => by omega)]

/-- The height is lowered to the highest level with a node, by induction on the height. -/
theorem lowerHeight_least {chain : List Nat} {height : Nat}
    (points : ∀ level < height, skip.next .head level = .ok (content.first level chain))
    (bounded : ∀ node ∈ chain, content.linked node ≤ height)
    : ∃ lower ≤ height, lowerHeight skip height = .ok { skip with curh := lower }
        ∧ ∀ node ∈ chain, content.linked node ≤ lower := by
  induction height with
  | zero => exact ⟨0, Nat.le_refl 0, rfl, bounded⟩
  | succ height ih =>
      have point := points height (Nat.lt_succ_self height)
      rcases found : content.first height chain with _ | node
      · have lower : ∀ node ∈ chain, content.linked node ≤ height := by
          intro node member
          rw [Content.first, List.find?_eq_none] at found
          simpa using found node member
        obtain ⟨least, atMost, lowered, reached⟩ :=
          ih (fun level below => points level (below.trans (Nat.lt_succ_self height))) lower
        refine ⟨least, Nat.le_succ_of_le atMost, ?_, reached⟩
        rw [found] at point
        simp [lowerHeight, point, bind, Except.bind, lowered]
      · refine ⟨height + 1, Nat.le_refl _, ?_, bounded⟩
        rw [found] at point
        simp [lowerHeight, point, bind, Except.bind, pure, Except.pure]

/-- The links of a list without a node, by the place they start from. -/
theorem Located.erase_links {row : ρ} {less tail : List Nat} {skip' : Skip ρ} {address : Nat}
    (located : Located order content row less (address :: tail) skip) (maxh : skip'.maxh = skip.maxh)
    (next : ∀ other level, other ≠ .node address →
      skip'.next other level
        = if level < content.linked address ∧ other = content.lastPlace level less
          then .ok (content.first level tail)
          else skip.next other level)
    {before after : List Nat} (split : less ++ tail = before ++ after) {level : Nat}
    (reaches : content.Reaches skip' level (.behind before))
    : skip'.next (.behind before) level = .ok (content.first level after) := by
  have distinct := located.shape.distinct
  rw [located.split] at distinct
  obtain ⟨distinctLess, distinctRest, across⟩ := List.nodup_append.mp distinct
  have reached : content.Reaches skip level (.behind before) := by
    rcases place : Place.behind before with _ | node
    · rw [place, Content.reaches_head, maxh] at reaches
      exact reaches
    · rw [place] at reaches
      exact reaches
  have early {mid : List Nat} (parts : less = before ++ mid) (afterwards : after = mid ++ tail)
      : skip'.next (.behind before) level = .ok (content.first level after) := by
    have notOwn : Place.behind before ≠ .node address := by
      intro same
      have member : address ∈ less := by
        rw [parts]
        exact List.mem_append_left _ (Place.behind_mem same)
      exact across address member address List.mem_cons_self rfl
    have link := located.shape.links before (mid ++ address :: tail)
      (by rw [located.split, parts, List.append_assoc]) level reached
    rw [next _ _ notOwn, afterwards]
    by_cases linked : ∃ node ∈ mid, level < content.linked node
    · obtain ⟨node, member, linked⟩ := linked
      obtain ⟨last, inside, same⟩ :=
        @Content.lastPlace_later _ content level before mid node member linked
      have passed : Place.behind before ≠ content.lastPlace level less := by
        rw [parts, same]
        intro behind
        have both := (List.nodup_append.mp (parts ▸ distinctLess)).2.2
        exact both last (Place.behind_mem behind) last inside rfl
      rw [if_neg (fun same => passed same.2), link, Content.first_append_linked member linked,
        Content.first_append_linked member linked]
    · have unlinked : ∀ node ∈ mid, content.linked node ≤ level := by
        intro node member
        exact not_lt.mp fun high => linked ⟨node, member, high⟩
      have last : content.lastPlace level less = .behind before := by
        rw [parts, Content.lastPlace_skipped unlinked, Content.lastPlace_behind reached]
      rw [Content.first_append_skipped unlinked]
      by_cases below : level < content.linked address
      · rw [if_pos ⟨below, last.symm⟩]
      · rw [if_neg (fun same => below same.1), link, Content.first_append_skipped unlinked]
        simp [Content.first, below]
  rcases List.append_eq_append_iff.mp split with ⟨passed, behind, parts⟩ | ⟨mid, parts, afterwards⟩
  · rcases List.eq_nil_or_concat passed with rfl | ⟨earlier, node, rfl⟩
    · exact @early [] (by simpa using behind.symm) parts.symm
    · rw [List.concat_eq_append] at behind parts
      have place : Place.behind before = .node node := by
        rw [behind, ← List.append_assoc, Place.behind_append]
      have member : node ∈ tail := by simp [parts]
      have apart : Place.node node ≠ .node address := by
        intro same
        cases same
        exact (List.nodup_cons.mp distinctRest).1 member
      have passed : .node node ≠ content.lastPlace level less := by
        intro same
        exact across node (Content.lastPlace_mem same.symm) node (List.mem_cons_of_mem _ member) rfl
      have link := located.shape.links (less ++ address :: earlier ++ [node]) after
        (by rw [located.split, parts]; simp) level
        (by rw [Place.behind_append]; exact place ▸ reached)
      rw [Place.behind_append] at link
      rw [place, next _ _ apart, if_neg (fun same => passed same.2), link]
  · exact early parts afterwards

/-- Erasure of the node that a search has found. -/
theorem Located.serase {row : ρ} {less tail : List Nat} {address : Nat}
    (located : Located order content row less (address :: tail) skip)
    : ∃ skip' content', (do
            let skip ← unlinkLevels address skip.curh 0 skip
            let skip := skip.freeNode address
            let skip ← lowerHeight { skip with size := skip.size - 1 } skip.curh
            skip.sreset) = .ok skip'
        ∧ skip'.maxh = skip.maxh ∧ Shape order skip' content' := by
  have shape := located.shape
  have parts := located.split
  have inside : address ∈ content.chain := by simp [parts]
  have bounds := shape.heights address inside
  have distinct := shape.distinct
  rw [parts] at distinct
  obtain ⟨distinctLess, distinctRest, across⟩ := List.nodup_append.mp distinct
  have notTail := (List.nodup_cons.mp distinctRest).1
  obtain ⟨skip₁, unlinked, relinked, next₁⟩ :=
    @unlinkLevels_links _ skip address (content.linked address) skip.curh 0
      (fun level => content.lastPlace level less)
      (fun level => content.first level (address :: tail)) (fun level => content.first level tail)
      (fun level _ below => located.fixes level (by omega))
      (fun level _ below => located.points (by have := shape.deep; omega))
      (fun level _ _ => by
        by_cases below : level < content.linked address
        · simp [Content.first, below]
        · refine ⟨fun found => ?_, fun high => absurd high below⟩
          have later : tail.find? (fun node => level < content.linked node) = some address := by
            simpa [Content.first, below] using found
          exact absurd (List.mem_of_find?_eq_some later) notTail)
      (fun level _ below => by
        have link := shape.links (less ++ [address]) tail (by simp [parts]) level
          (by rw [Place.behind_append]; exact below)
        rwa [Place.behind_append] at link)
  let skip₂ : Skip ρ := { skip₁.freeNode address with size := skip₁.size - 1 }
  have next₂ (other : Place) (level : Nat) (apart : other ≠ .node address)
      : skip₂.next other level
        = if level < content.linked address ∧ other = content.lastPlace level less
          then .ok (content.first level tail)
          else skip.next other level := by
    have freed : skip₂.next other level = skip₁.next other level := by
      cases other with
      | head => rfl
      | node node =>
          have differs : node ≠ address := fun same => apart (congrArg _ same)
          simp [skip₂, Skip.freeNode, Skip.next, differs]
    rw [freed, next₁]
    have same : 0 ≤ level ∧ level < 0 + skip.curh ∧ level < content.linked address
        ∧ other = content.lastPlace level less
          ↔ level < content.linked address ∧ other = content.lastPlace level less :=
      ⟨fun all => all.2.2, fun both => ⟨Nat.zero_le _, by omega, both⟩⟩
    simp only [same]
  have links₂ (before after : List Nat) (split : less ++ tail = before ++ after) (level : Nat)
      (reaches : content.Reaches skip₂ level (.behind before))
      : skip₂.next (.behind before) level = .ok (content.first level after) :=
    @Located.erase_links _ order skip content row less tail skip₂ address located relinked.maxh next₂
      before after split level reaches
  have member (node : Nat) (within : node ∈ less ++ tail)
      : node ≠ address ∧ node ∈ content.chain := by
    rw [parts]
    refine ⟨?_, ?_⟩
    · rintro rfl
      rcases List.mem_append.mp within with early | late
      · exact across node early node List.mem_cons_self rfl
      · exact notTail late
    · rcases List.mem_append.mp within with early | late
      · exact List.mem_append_left _ early
      · exact List.mem_append_right _ (List.mem_cons_of_mem _ late)
  have deep : skip₁.curh < skip.maxh := by rw [relinked.curh]; exact shape.deep
  obtain ⟨lower, atMost, lowered, reached⟩ :=
    @lowerHeight_least _ skip₂ content (less ++ tail) skip₁.curh
      (fun level below => links₂ [] (less ++ tail) rfl level (by
        show level < skip₁.maxh
        rw [relinked.maxh]
        exact below.trans deep))
      (fun node within => by
        rw [relinked.curh]
        exact (shape.heights node (member node within).2).2)
  let final : Skip ρ :=
    { skip₂ with curh := lower, curl := (content.first 0 (less ++ tail)).map .node }
  have reset : Skip.sreset { skip₂ with curh := lower } = .ok final := by
    have bottom : skip₂.next .head 0 = .ok (content.first 0 (less ++ tail)) :=
      links₂ [] (less ++ tail) rfl 0 (by
        show 0 < skip₁.maxh
        rw [relinked.maxh]
        exact Nat.zero_lt_of_lt deep)
    have same : Skip.next { skip₂ with curh := lower } .head 0 = skip₂.next .head 0 := rfl
    simp only [Skip.sreset, same, bottom, bind, Except.bind, pure, Except.pure]
    rfl
  refine ⟨final, { content with chain := less ++ tail }, ?_, relinked.maxh, ?_⟩
  · simp only [unlinked, bind, Except.bind]
    have lowered'
        : lowerHeight { skip₁.freeNode address with size := (skip₁.freeNode address).size - 1 }
            (skip₁.freeNode address).curh
          = .ok { skip₂ with curh := lower } :=
      lowered
    rw [lowered']
    exact reset
  · constructor
    · show lower < skip₁.maxh
      rw [relinked.maxh]
      exact atMost.trans_lt deep
    · show skip₁.fix.length = skip₁.maxh
      rw [relinked.fix, relinked.maxh]
      exact shape.updates
    · intro node within
      obtain ⟨apart, old⟩ := member node within
      show node ∈ skip₁.live.erase address
      rw [relinked.live]
      exact (List.mem_erase_of_ne apart).mpr (shape.live old)
    · show (less ++ tail).length ≤ (skip₁.live.erase address).length
      have count := shape.count
      rw [relinked.live, List.length_erase_of_mem (shape.live inside)]
      rw [parts] at count
      simp only [List.length_append, List.length_cons] at count ⊢
      omega
    · exact (List.nodup_middle.mp distinct).of_cons
    · intro node within
      exact ⟨(shape.heights node (member node within).2).1, reached node within⟩
    · intro node within
      obtain ⟨apart, old⟩ := member node within
      have known := (relinked.row node).trans (shape.rows node old)
      simpa [final, skip₂, Skip.freeNode, Skip.row, apart] using known
    · have ascending := shape.ascending
      rw [parts] at ascending
      exact ascending.sublist (List.Sublist.append_left (List.sublist_cons_self address tail) less)
    · exact links₂

end SpeedTables.SkipList
