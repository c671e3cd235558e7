import Mathlib
import SpeedTables.Shared.IndexStores

/-! Insertion into the skip list of an index while searches walk it. -/

namespace SpeedTables.Shared
open SpeedTables.Lib

variable {ν ρ κ : Type} [DecidableEq ν] [DecidableEq ρ] [LinearOrder κ]

-----------------------------------------------------------------------------------------
-- Insertion
-----------------------------------------------------------------------------------------

namespace IndexWriter

/-- `for ( i = 0; i < height; i++ ) node->next[i] = NULL;` -/
def clearLinks (node : ν) : Nat → Storing (IndexMemory ν ρ) Unit
  | 0 => pure ()
  | level + 1 => do
      clearLinks node level
      setNext (some node) level none

/-- `new_node` at an address that it has allocated -/
def newNode (node : ν) (row : ρ) (height : Nat) : Storing (IndexMemory ν ρ) Unit := do
  setRow node (some row)
  clearLinks node height

/-- The loop that builds the skip links of a node, from the level under `h` down. -/
def buildLinks (fix : Nat → Option ν) (node : ν) : Nat → Storing (IndexMemory ν ρ) Unit
  | 0 => pure ()
  | level + 1 => do
      setNext (some node) level (← nextOf (fix level) level)
      setNext (fix level) level (some node)
      buildLinks fix node level

/-- A new node with the row as the only one of its list. -/
def storeNode (checks : Bool) (node : ν) (row : ρ) (height : Nat)
    : Storing (IndexMemory ν ρ) Unit := do
  newNode node row height
  setRow node none
  onRows (ListProgram.listInsertHead checks node row)

/-- "Raise height if necessary" and "Build skip links" -/
def linkNode (fix : Nat → Option ν) (node : ν) (height : Nat)
    : Storing (IndexMemory ν ρ) Unit := do
  let tallest ← curh
  if tallest < height then
    setCurh (tallest + 1)
    buildLinks (Function.update fix (tallest + 1) none) node (tallest + 1)
  else
    buildLinks fix node height

/-- The branch of `jsw_sinsert_linked` for a row with a new key. -/
def insertNode (checks : Bool) (fix : Nat → Option ν) (node : ν) (row : ρ) (height : Nat)
    : Storing (IndexMemory ν ρ) Bool := do
  storeNode checks node row height
  linkNode fix node height
  pure true

/-- `jsw_sinsert_linked`, with the node that is allocated and the height that `rlevel` gives if
there is no node with the key of the row.
-/
def sinsertLinked (key : ρ → κ) (checks : Bool) (fuel : Nat) (array : Nat → Option ν) (row : ρ)
    (node : ν) (height : Nat) (unique : Bool)
    : Storing (IndexMemory ν ρ) Bool := do
  let (fix, place) ← locate key (key row) fuel array
  match ← nextOf place 0 with
  | none => insertNode checks fix node row height
  | some found =>
      match ← rowOf found with
      | none => .crash
      | some first =>
          if key row = key first then
            if unique then
              pure false
            else
              onRows (ListProgram.listInsertHead checks found row)
              pure true
          else
            insertNode checks fix node row height

end IndexWriter

-----------------------------------------------------------------------------------------
-- The rows before and after
-----------------------------------------------------------------------------------------

section Scopes

variable {memory : IndexMemory ν ρ} {key : ρ → κ} {nodeKey : ν → κ} {levels : Nat → List ν}
  {lists : RowLists ν ρ} {row : ρ} {node : ν} {nodes : List ν}

/-- The nodes of a well-formed skip list, with a row inserted at the head of a list. -/
def insertScope (holds : memory.Holds key nodeKey levels lists) (row : ρ) (node : ν)
    (nodes : List ν) (keyed : key row = nodeKey node)
    (injective
      : ∀ {node other},
          node ∈ nodes → other ∈ nodes → nodeKey node = nodeKey other → node = other)
    (known : ∀ node ∈ levels 0, node ∈ nodes)
    : IndexScope ν ρ κ where
  key := key
  nodeKey := nodeKey
  nodes := nodes
  before := lists
  after := Function.update lists node (row :: lists node)
  keyed := by
    rintro other otherRow (member | member)
    · exact holds.keyed other otherRow member
    · by_cases here : other = node
      · subst here
        rw [Function.update_self] at member
        rcases List.mem_cons.mp member with rfl | member
        · exact keyed
        · exact holds.keyed other otherRow member
      · rw [Function.update_of_ne here] at member
        exact holds.keyed other otherRow member
  injective := injective
  known := by
    intro other row member
    exact known other ((holds.filled other).mpr (List.ne_nil_of_mem member))

omit [DecidableEq ρ] in
/-- Every row that is listed stays during an insertion. -/
theorem insertScope_stays {holds : memory.Holds key nodeKey levels lists}
    {keyed : key row = nodeKey node}
    {injective
      : ∀ {node other},
          node ∈ nodes → other ∈ nodes → nodeKey node = nodeKey other → node = other}
    {known : ∀ node ∈ levels 0, node ∈ nodes} {other : ρ} (listed : Listed lists other)
    : ∃ place, (insertScope holds row node nodes keyed injective known).Stays place other := by
  obtain ⟨place, member⟩ := listed
  refine ⟨place, member, ?_⟩
  change other ∈ Function.update lists node (row :: lists node) place
  by_cases here : place = node
  · subst here
    rw [Function.update_self]
    exact List.mem_cons_of_mem row member
  · rwa [Function.update_of_ne here]

/-- Every search reads every listed row while some versions are stored. -/
def AllRead (key : ρ → κ) (lists : RowLists ν ρ) (memory : IndexMemory ν ρ)
    (versions : List (IndexMemory ν ρ))
    : Prop :=
  ∀ (query : IndexQuery κ) (fix : Nat → Option ν) (schedule : List Turn),
    ReadsAll query key fix (Listed lists) (search query key fix memory versions schedule)

omit [DecidableEq ν] [DecidableEq ρ] in
theorem ReadsAll.imp {query : IndexQuery κ} {fix : Nat → Option ν} {wanted wanted' : ρ → Prop}
    {scene : Scene (IndexMemory ν ρ) (IndexReader ν ρ κ)}
    (reads : ReadsAll query key fix wanted scene) (fewer : ∀ row, wanted' row → wanted row)
    : ReadsAll query key fix wanted' scene where
  meetsRows := reads.meetsRows
  visits := fun complete row member => reads.visits complete row (fewer row member)
  ends := reads.ends

end Scopes

-----------------------------------------------------------------------------------------
-- A row with the key of a node
-----------------------------------------------------------------------------------------

section Existing

variable {memory : IndexMemory ν ρ} {key : ρ → κ} {nodeKey : ν → κ} {levels : Nat → List ν}
  {lists : RowLists ν ρ} {row : ρ} {found : ν}

omit [DecidableEq ν] [DecidableEq ρ] in
/-- A node with the key is the first one from the key on. -/
theorem IndexMemory.Levelled.found_first (levelled : memory.Levelled key nodeKey levels)
    {target : κ} (member : found ∈ levels 0) (same : nodeKey found = target)
    : memory.next (placeBefore nodeKey target (levels 0)) 0 = some found := by
  have chain := levelled.behind_place target 0
  have inside : found ∈ nodesFrom nodeKey target (levels 0) := by
    simpa [nodesFrom] using ⟨member, same.ge⟩
  have sorted := (levelled.level_sorted 0).filter (fun node => target ≤ nodeKey node)
  change (nodesFrom nodeKey target (levels 0)).Pairwise _ at sorted
  cases nodes : nodesFrom nodeKey target (levels 0) with
  | nil => simp [nodes] at inside
  | cons first rest =>
      rw [nodes] at chain inside sorted
      have above : first ∈ nodesFrom nodeKey target (levels 0) := nodes ▸ List.mem_cons_self
      have above : target ≤ nodeKey first := by
        have both : first ∈ levels 0 ∧ target ≤ nodeKey first := by simpa [nodesFrom] using above
        exact both.2
      rcases List.mem_cons.mp inside with rfl | later
      · exact chain.1
      · exact absurd ((List.pairwise_cons.mp sorted).1 found later)
          (same ▸ above).not_gt

/-- Insertion into the row list of a node that has the key. -/
theorem IndexMemory.Holds.sinsertLinked_found (holds : memory.Holds key nodeKey levels lists)
    (unlisted : ¬ Listed lists row) (member : found ∈ levels 0)
    (same : nodeKey found = key row) (checks unique : Bool) (array : Nat → Option ν) (node : ν)
    (height : Nat)
    : ∃ enough,
        ∀ fuel ≥ enough,
          ∃ result versions,
            (IndexWriter.sinsertLinked key checks fuel array row node height unique).Gives memory
              result versions
            ∧ AllRead key lists memory versions := by
  obtain ⟨enough, fix, locates, -⟩ := holds.levelled.locate_gives (key row) array
  obtain ⟨first, loaded, keyed⟩ := holds.levelled.first found member
  have next := holds.levelled.found_first member same
  refine ⟨enough, fun fuel more => ?_⟩
  let scope := insertScope holds row found (levels 0) same.symm holds.levelled.injective
    fun _ member => member
  have shows := @IndexMemory.Holds.shows _ _ _ _ _ _ _ _ _ holds scope rfl rfl
    (fun _ member => member) False
  -- The program up to the insertion into the list only loads.
  have reaches {result : Bool} {versions : List (IndexMemory ν ρ)}
      (gives
        : Storing.Gives (if unique then pure false else do
            IndexWriter.onRows (ListProgram.listInsertHead checks found row)
            pure true) memory result versions)
      : (IndexWriter.sinsertLinked key checks fuel array row node height unique).Gives memory
          result versions := by
    refine (locates fuel more).bind ?_
    refine Storing.Gives.of_load ?_
    simp only [latest_nil, next]
    refine Storing.Gives.of_load ?_
    simpa only [loaded, keyed, same, if_true] using gives
  cases unique with
  | true =>
      refine ⟨false, [], reaches Storing.gives_pure, ?_⟩
      intro query fix schedule
      exact (IndexScope.searches shows (.nothing ..) schedule).imp
        fun _ listed => insertScope_stays listed
  | false =>
      obtain ⟨publishes, -⟩ := holds.rows.listInsertHead checks found unlisted
      obtain ⟨result, versions, gives, changes, -⟩ :=
        @IndexScope.onRows_changes _ _ _ _ _ _ _ (Hidden lists) (row :: lists found) scope _ memory _
          found [] (lists found) shows id rfl (Function.update_self ..) (by simp)
          (fun _ hidden other => hidden other)
          (fun other different inside => different
            (holds.rows.through_apart inside (by simp [Link.through, Link.behind])))
          (holds.rows.through_nodup found) publishes
      refine ⟨true, versions ++ [], reaches (gives.bind Storing.gives_pure), ?_⟩
      intro query fix schedule
      rw [List.append_nil]
      exact (IndexScope.searches shows changes schedule).imp
        fun _ listed => insertScope_stays listed

end Existing

-----------------------------------------------------------------------------------------
-- A node before it is linked
-----------------------------------------------------------------------------------------

section Preparing

variable {memory memory' : IndexMemory ν ρ} {key : ρ → κ} {nodeKey : ν → κ}
  {levels : Nat → List ν} {lists : RowLists ν ρ} {row : ρ} {node : ν} {height : Nat}

/-- Only the links of the node and its row list differ, and links that no reader meets. -/
structure SameButNode (lists : RowLists ν ρ) (node : ν) (memory memory' : IndexMemory ν ρ)
    : Prop where
  next : ∀ place, place ≠ some node → memory'.next place = memory.next place
  link
    : ∀ link, ¬ Hidden lists link → link ≠ .head node → memory'.rows.link link = memory.rows.link link

/-- The node has its row, and no links below its height. -/
structure Prepared (memory : IndexMemory ν ρ) (node : ν) (row : ρ) (height : Nat) : Prop where
  unlinked : ∀ level < height, memory.next (some node) level = none
  leads : LeadsTo memory.rows.link (.head node) [row]

omit [DecidableEq ρ] in
theorem clearLinks_keeps (same : SameButNode lists node memory memory') (height : Nat)
    : (IndexWriter.clearLinks node height).Keeps memory' (SameButNode lists node memory)
        (fun _ cleared => SameButNode lists node memory cleared ∧ cleared.curh = memory'.curh
          ∧ cleared.rows = memory'.rows
          ∧ ∀ level < height, cleared.next (some node) level = none) := by
  induction height with
  | zero => exact .pure ⟨same, rfl, rfl, nofun⟩
  | succ height ih =>
      refine ih.bind ?_
      rintro _ cleared ⟨same', tallest, rows, links⟩
      have good : SameButNode lists node memory (cleared.setNext (some node) height none) := by
        refine ⟨fun place different => ?_, same'.link⟩
        exact (Function.update_of_ne different ..).trans (same'.next place different)
      refine ⟨(), _, Storing.gives_store, by simpa using good, good, tallest, rows, ?_⟩
      intro level low
      simp only [latest_cons, latest_nil, IndexMemory.setNext, Function.update_self,
        Function.update_apply]
      split
      · rfl
      · exact links level (by omega)

/-- The list function stores the row as the only one of the node. -/
theorem IndexMemory.Holds.listInsertHead_keeps (holds : memory.Holds key nodeKey levels lists)
    (unlisted : ¬ Listed lists row) (empty : lists node = []) (checks : Bool)
    (same : SameButNode lists node memory memory') (rows : memory'.rows = memory.rows)
    : (IndexWriter.onRows (ListProgram.listInsertHead checks node row)).Keeps memory'
        (SameButNode lists node memory)
        (fun _ inserted => SameButNode lists node memory inserted
          ∧ inserted.next = memory'.next ∧ inserted.curh = memory'.curh
          ∧ LeadsTo inserted.rows.link (.head node) [row]) := by
  obtain ⟨publishes, -⟩ := holds.rows.listInsertHead checks node unlisted
  rw [← rows] at publishes
  obtain ⟨result, before, version, after, gives, earlier, visible, -, leads, later, -⟩ :=
    onRows_publishes (.refl memory') publishes
  rw [empty] at leads
  have similar {inserted : IndexMemory ν ρ}
      (similar : SameButHidden (fun link => Hidden lists link ∨ link = .head node) memory' inserted)
      : SameButNode lists node memory inserted := by
    refine ⟨fun place different => ?_, fun link seen different => ?_⟩
    · rw [similar.1]
      exact same.next place different
    · rw [similar.2.2 link (not_or.mpr ⟨seen, different⟩)]
      exact same.link link seen different
  have behind : ∀ inserted, SameLinks version inserted → SameButNode lists node memory inserted
      ∧ inserted.next = memory'.next ∧ inserted.curh = memory'.curh
      ∧ LeadsTo inserted.rows.link (.head node) [row] := by
    rintro inserted ⟨next, tallest, link⟩
    refine ⟨similar ⟨next.trans visible.1, tallest.trans visible.2.1, fun place seen => ?_⟩,
      next.trans visible.1, tallest.trans visible.2.1, link ▸ leads⟩
    rw [link]
    exact visible.2.2 place seen
  refine ⟨result, _, gives, ?_, ?_⟩
  · intro inserted member
    rcases List.mem_append.mp member with here | here
    · have hidden := earlier inserted here
      exact similar ⟨hidden.1, hidden.2.1, fun link seen =>
        hidden.2.2 link fun covert => seen (Or.inl covert)⟩
    · rcases List.mem_cons.mp here with rfl | here
      · exact (behind inserted ⟨rfl, rfl, rfl⟩).1
      · exact (behind inserted (later inserted here)).1
  · rw [latest_append, latest_cons]
    refine behind _ ?_
    cases after using List.reverseRecOn with
    | nil => exact ⟨rfl, rfl, rfl⟩
    | append_singleton others last _ => simpa using later last (by simp)

/-- What `jsw_sinsert_linked` stores before it links a new node. -/
theorem IndexMemory.Holds.storeNode_keeps (holds : memory.Holds key nodeKey levels lists)
    (unlisted : ¬ Listed lists row) (empty : lists node = []) (checks : Bool) (height : Nat)
    : (IndexWriter.storeNode checks node row height).Keeps memory (SameButNode lists node memory)
        (fun _ stored => SameButNode lists node memory stored ∧ stored.curh = memory.curh
          ∧ Prepared stored node row height) := by
  have headless : memory.rows.link (.head node) = none := by
    have leads := holds.rows.linked node
    rwa [empty] at leads
  have first : SameButNode lists node memory
      (memory.setRows (memory.rows.setLink (.head node) (some row))) :=
    ⟨fun _ _ => rfl, fun link _ different => Function.update_of_ne different ..⟩
  refine Storing.Keeps.bind (.store first (clearLinks_keeps first height)) ?_
  rintro _ cleared ⟨same, tallest, rows, links⟩
  have restored : cleared.rows.setLink (.head node) none = memory.rows := by
    rw [rows]
    simp only [IndexMemory.setRows, ListMemory.setLink, Function.update_idem, ← headless,
      Function.update_eq_self]
  have same' : SameButNode lists node memory
      (cleared.setRows (cleared.rows.setLink (.head node) none)) :=
    ⟨same.next, fun link _ _ => by simp only [IndexMemory.setRows, restored]⟩
  refine .store same' ?_
  obtain ⟨result, versions, gives, good, same, next, tall, leads⟩ :=
    holds.listInsertHead_keeps unlisted empty checks same' restored
  refine ⟨result, versions, gives, good, same, tall.trans tallest, ?_, leads⟩
  intro level low
  rw [next]
  exact links level low

omit [DecidableEq ρ] in
/-- The links are built from the level under the height down, with the tallest column raised by
one at most.
-/
theorem linkNode_builds (fix : Nat → Option ν) (node : ν) (height : Nat)
    : ∃ fix' raised,
        (∀ level < min height (memory.curh + 1), fix' level = fix level)
        ∧ (∀ version ∈ raised, version.next = memory.next ∧ version.rows = memory.rows)
        ∧ (latest memory raised).next = memory.next
        ∧ (latest memory raised).rows = memory.rows
        ∧ ∀ versions,
            (IndexWriter.buildLinks fix' node (min height (memory.curh + 1))).Gives
                (latest memory raised) () versions
              → (IndexWriter.linkNode fix node height).Gives memory () (raised ++ versions) := by
  by_cases raise : memory.curh < height
  · have least : min height (memory.curh + 1) = memory.curh + 1 := by omega
    refine ⟨Function.update fix (memory.curh + 1) none, [{ memory with curh := memory.curh + 1 }],
      ?_, by simp, rfl, rfl, ?_⟩
    · intro level low
      exact Function.update_of_ne (by omega) ..
    · intro versions builds
      refine Storing.Gives.of_load ?_
      rw [least] at builds
      simp only [raise, if_true]
      exact Storing.Gives.of_store builds
  · have least : min height (memory.curh + 1) = height := by omega
    refine ⟨fix, [], fun _ _ => rfl, nofun, rfl, rfl, ?_⟩
    intro versions builds
    refine Storing.Gives.of_load ?_
    rw [least] at builds
    simp only [raise, if_false]
    exact builds

end Preparing

-----------------------------------------------------------------------------------------
-- Linking the node
-----------------------------------------------------------------------------------------

section Linking

variable {memory linked : IndexMemory ν ρ} {nodeKey : ν → κ} {levels : Nat → List ν}
  {lists : RowLists ν ρ} {target : κ} {row : ρ} {node : ν} {height copied level : Nat}
  {fix : Nat → Option ν}

/-- The node is linked on the levels from one up, and its own links are set from another up. -/
structure LinkedFrom (memory : IndexMemory ν ρ) (nodeKey : ν → κ) (levels : Nat → List ν)
    (lists : RowLists ν ρ) (target : κ) (row : ρ) (node : ν) (height copied level : Nat)
    (linked : IndexMemory ν ρ) : Prop where
  own
    : ∀ here < height,
        linked.next (some node) here
          = if copied ≤ here then memory.next (placeBefore nodeKey target (levels here)) here
            else none
  others
    : ∀ place,
        place ≠ some node
        → ∀ here,
            linked.next place here
              = if level ≤ here ∧ here < height ∧ place = placeBefore nodeKey target (levels here)
                then some node else memory.next place here
  link : ∀ link, ¬ Hidden lists link → link ≠ .head node → linked.rows.link link = memory.rows.link link
  leads : LeadsTo linked.rows.link (.head node) [row]

omit [DecidableEq ρ] in
theorem linkedFrom_prepared (same : SameButNode lists node memory linked)
    (prepared : Prepared linked node row height)
    : LinkedFrom memory nodeKey levels lists target row node height height height linked where
  own := by
    intro here low
    rw [prepared.unlinked here low, if_neg (by omega)]
  others := by
    intro place different here
    rw [same.next place different, if_neg (by omega)]
  link := same.link
  leads := prepared.leads

omit [DecidableEq ρ] in
/-- The node takes over the link of the place before it. -/
theorem LinkedFrom.copy
    (from_level
      : LinkedFrom memory nodeKey levels lists target row node height (level + 1) (level + 1) linked)
    (low : level < height)
    (apart : placeBefore nodeKey target (levels level) ≠ some node)
    : LinkedFrom memory nodeKey levels lists target row node height level (level + 1)
        (linked.setNext (some node) level
          (linked.next (placeBefore nodeKey target (levels level)) level)) where
  own := by
    intro here below
    have value : linked.next (placeBefore nodeKey target (levels level)) level
        = memory.next (placeBefore nodeKey target (levels level)) level := by
      rw [from_level.others _ apart, if_neg (by omega)]
    rw [value]
    simp only [IndexMemory.setNext, Function.update_self, Function.update_apply]
    by_cases same : here = level
    · subst same
      simp
    · rw [if_neg same, from_level.own here below]
      exact if_congr (by omega) rfl rfl
  others := by
    intro place different here
    simp only [IndexMemory.setNext, Function.update_of_ne different]
    exact from_level.others place different here
  link := from_level.link
  leads := from_level.leads

omit [DecidableEq ρ] in
/-- The place before the node leads to it. -/
theorem LinkedFrom.join
    (from_level
      : LinkedFrom memory nodeKey levels lists target row node height level (level + 1) linked)
    (low : level < height)
    (apart : placeBefore nodeKey target (levels level) ≠ some node)
    : LinkedFrom memory nodeKey levels lists target row node height level level
        (linked.setNext (placeBefore nodeKey target (levels level)) level (some node)) where
  own := by
    intro here below
    simp only [IndexMemory.setNext, Function.update_of_ne apart.symm]
    exact from_level.own here below
  others := by
    intro place different here
    simp only [IndexMemory.setNext]
    by_cases same : place = placeBefore nodeKey target (levels level)
    · subst same
      rw [Function.update_self, Function.update_apply]
      by_cases here_level : here = level
      · subst here_level
        simp [low]
      · rw [if_neg here_level, from_level.others _ different here]
        have higher : level + 1 ≤ here ↔ level ≤ here := by omega
        exact if_congr (and_congr_left' higher) rfl rfl
    · rw [Function.update_of_ne same, from_level.others _ different here]
      refine if_congr ?_ rfl rfl
      constructor
      · rintro ⟨high, below, equal⟩
        exact ⟨by omega, below, equal⟩
      · rintro ⟨high, below, equal⟩
        refine ⟨?_, below, equal⟩
        rcases Nat.lt_or_eq_of_le high with above | rfl
        · exact above
        · exact absurd equal same
  link := from_level.link
  leads := from_level.leads

omit [DecidableEq ρ] in
/-- The first two stores of the loop, on its highest level. -/
theorem buildLinks_step (fix : Nat → Option ν) (node : ν) (level : Nat) {memory : IndexMemory ν ρ}
    {versions : List (IndexMemory ν ρ)}
    (gives
      : (IndexWriter.buildLinks fix node level).Gives
          ((memory.setNext (some node) level (memory.next (fix level) level)).setNext (fix level) level
            (some node)) () versions)
    : (IndexWriter.buildLinks fix node (level + 1)).Gives memory ()
        (memory.setNext (some node) level (memory.next (fix level) level)
          :: (memory.setNext (some node) level (memory.next (fix level) level)).setNext (fix level)
              level (some node)
          :: versions) :=
  Storing.Gives.of_load (Storing.Gives.of_store (Storing.Gives.of_store gives))

omit [DecidableEq ρ] in
/-- The loop links the node from the level under its height down, by induction on the level. -/
theorem buildLinks_keeps (places : ∀ here < height, fix here = placeBefore nodeKey target (levels here))
    (apart : ∀ here, placeBefore nodeKey target (levels here) ≠ some node)
    (low : level ≤ height)
    (from_level
      : LinkedFrom memory nodeKey levels lists target row node height level level linked)
    : ∃ versions,
        (IndexWriter.buildLinks fix node level).Gives linked () versions
        ∧ ∀ version ∈ versions, ∃ copied level,
            LinkedFrom memory nodeKey levels lists target row node height copied level version := by
  induction level generalizing linked with
  | zero => exact ⟨[], Storing.gives_pure, nofun⟩
  | succ level ih =>
      have first := from_level.copy (by omega) (apart level)
      have second := first.join (by omega) (apart level)
      rw [← places level (by omega)] at first second
      obtain ⟨versions, gives, good⟩ := ih (by omega) second
      refine ⟨_, buildLinks_step fix node level gives, ?_⟩
      intro version member
      rcases List.mem_cons.mp member with rfl | member
      · exact ⟨level, level + 1, first⟩
      · rcases List.mem_cons.mp member with rfl | member
        · exact ⟨level, level, second⟩
        · exact good version member

end Linking

-----------------------------------------------------------------------------------------
-- Insertions that searches survive
-----------------------------------------------------------------------------------------

/-- The views before and after a new node can be met. -/
def oldView (levels : Nat → List ν) : IndexView ν where
  held := fun node level => node ∈ levels level
  changed := True

def newView (levels : Nat → List ν) (node : ν) (height : Nat) : IndexView ν where
  held := fun other level => other ∈ levels level ∨ other = node ∧ level < height
  changed := True

section Surviving

variable {memory linked : IndexMemory ν ρ} {key : ρ → κ} {nodeKey : ν → κ}
  {levels : Nat → List ν} {lists : RowLists ν ρ} {row : ρ} {node : ν}
  {height copied level : Nat}

omit [DecidableEq ν] [DecidableEq ρ] in
theorem fresh_injective (holds : memory.Holds key nodeKey levels lists)
    (new : ∀ other ∈ levels 0, nodeKey other ≠ nodeKey node) {first second : ν}
    (here : first ∈ node :: levels 0) (there : second ∈ node :: levels 0)
    (same : nodeKey first = nodeKey second)
    : first = second := by
  rcases List.mem_cons.mp here with rfl | old
  · rcases List.mem_cons.mp there with rfl | old'
    · rfl
    · exact absurd same.symm (new second old')
  · rcases List.mem_cons.mp there with rfl | old'
    · exact absurd same (new first old)
    · exact holds.levelled.injective old old' same

/-- The nodes during the insertion of a new one. -/
def freshScope (holds : memory.Holds key nodeKey levels lists) (keyed : key row = nodeKey node)
    (new : ∀ other ∈ levels 0, nodeKey other ≠ nodeKey node)
    : IndexScope ν ρ κ :=
  insertScope holds row node (node :: levels 0) keyed (fresh_injective holds new)
    fun _ member => List.mem_cons_of_mem node member

variable (holds : memory.Holds key nodeKey levels lists) (keyed : key row = nodeKey node)
  (new : ∀ other ∈ levels 0, nodeKey other ≠ nodeKey node)

include holds new in
omit [DecidableEq ν] [DecidableEq ρ] in
theorem new_fresh {level : Nat} (member : node ∈ levels level) : False :=
  new node ((holds.levelled.sublist level).mem member) rfl

omit [DecidableEq ρ] in
/-- The rows of an old node do not change. -/
theorem freshScope_rows {other : ν} {rows : List ρ} {changed : Prop} (member : other ∈ levels 0)
    (has : (freshScope holds keyed new).Has changed other rows)
    : rows = lists other := by
  rcases has with same | ⟨_, same⟩
  · exact same
  · have different : other ≠ node := by
      rintro rfl
      exact new_fresh holds new member
    rw [same]
    exact Function.update_of_ne different ..

omit [DecidableEq ρ] in
theorem freshScope_shows : (freshScope holds keyed new).Shows (oldView levels) memory :=
  holds.shows rfl rfl (fun _ member => List.mem_cons_of_mem node member) True

omit [DecidableEq ν] [DecidableEq ρ] in
theorem through_visible {other : ν} {link : Link ν ρ}
    (member : link ∈ (Link.head other).through (lists other))
    : ¬ Hidden lists link :=
  fun hidden => hidden other member

omit [DecidableEq ν] [DecidableEq ρ] in
theorem through_head {other : ν} (different : other ≠ node) {link : Link ν ρ} {rows : List ρ}
    (member : link ∈ (Link.head other).through rows)
    : link ≠ .head node := by
  rintro rfl
  simp only [Link.through, List.mem_cons, Link.head.injEq, List.mem_map, reduceCtorEq, and_false,
    exists_false, or_false] at member
  exact different member.symm

omit [DecidableEq ρ] in
/-- What is stored before the node is linked is not noticed. -/
theorem SameButNode.unnoticed (same : SameButNode lists node memory linked)
    : (freshScope holds keyed new).Unnoticed (oldView levels) memory linked where
  next := by
    intro place level placed
    rw [same.next place]
    rintro rfl
    exact new_fresh holds new (placed node rfl)
  link := by
    intro other rows member has link inside
    have different : other ≠ node := by
      rintro rfl
      exact new_fresh holds new member
    rw [freshScope_rows holds keyed new member has] at inside
    exact same.link link (through_visible inside) (through_head different inside)

/-- Every version that links the node leads through the same rows. -/
theorem LinkedFrom.rows
    (linking
      : LinkedFrom memory nodeKey levels lists (key row) row node height copied level linked)
    {other : ν} {rows : List ρ} (held : (newView levels node height).held other 0)
    (has : (freshScope holds keyed new).Has True other rows) {link : Link ν ρ}
    (member : link ∈ (Link.head other).through rows)
    : linked.rows.link link
      = if link = .head node then some row else if link = .next row then none
        else memory.rows.link link := by
  obtain ⟨first, second⟩ := linking.leads
  by_cases here : link = .head node
  · rw [if_pos here, here, first]
  · rw [if_neg here]
    by_cases here' : link = .next row
    · rw [if_pos here', here']
      exact second
    · rw [if_neg here']
      rcases held with old | ⟨rfl, -⟩
      · rw [freshScope_rows holds keyed new old has] at member
        exact linking.link link (through_visible member) here
      · have only : rows = [] ∨ rows = [row] := by
          have empty : lists other = [] := by
            by_contra filled
            exact new_fresh holds new ((holds.filled other).mpr filled)
          rcases has with same | ⟨_, same⟩
          · exact Or.inl (same.trans empty)
          · refine Or.inr (same.trans ?_)
            change Function.update lists other (row :: lists other) other = _
            rw [Function.update_self, empty]
        rcases only with rfl | rfl
        · exact absurd (by simpa [Link.through] using member) here
        · have either : link = .head other ∨ link = .next row := by
            simpa [Link.through] using member
          exact absurd either (not_or.mpr ⟨here, here'⟩)

omit [DecidableEq ρ] in
/-- A linked node leads searches on, if it is the last one or its lowest link is set. -/
theorem LinkedFrom.shows
    (linking
      : LinkedFrom memory nodeKey levels lists (key row) row node height copied level linked)
    (tall : 0 < height)
    (leadsOn : (∀ other ∈ levels 0, nodeKey other < key row) ∨ copied = 0)
    : (freshScope holds keyed new).Shows (newView levels node height) linked := by
  have shows := freshScope_shows holds keyed new
  have place_of (level : Nat) (place : Option ν)
      (placed : place = placeBefore nodeKey (key row) (levels level))
      : ∀ other, place = some other → other ∈ levels level ∧ nodeKey other < key row := by
    rintro other rfl
    exact placeBefore_below placed.symm
  have old {place : Option ν} {level : Nat} (different : place ≠ some node)
      (placed : ∀ other, place = some other → (newView levels node height).held other level)
      : ∀ other, place = some other → other ∈ levels level := by
    intro other same
    refine (placed other same).resolve_right fun new => different ?_
    rw [same, new.1]
  constructor
  · rintro other (member | ⟨rfl, -⟩)
    · exact List.mem_cons_of_mem node member
    · exact List.mem_cons_self
  · rintro other level (member | ⟨rfl, low⟩)
    · exact Or.inl ((holds.levelled.nested level).mem member)
    · exact Or.inr ⟨rfl, by omega⟩
  · intro place here next placed points
    by_cases same : place = some node
    · subst same
      have low : here < height := by
        rcases placed node rfl with member | ⟨-, low⟩
        · exact (new_fresh holds new member).elim
        · exact low
      rw [linking.own here low] at points
      split at points
      · have chain := holds.levelled.behind_place (key row) here
        cases nodes : nodesFrom nodeKey (key row) (levels here) with
        | nil =>
            rw [nodes] at chain
            exact nomatch points.symm.trans chain
        | cons first rest =>
            rw [nodes] at chain
            obtain rfl : next = first := by simpa using points.symm.trans chain.1
            have inside : next ∈ nodesFrom nodeKey (key row) (levels here) :=
              nodes ▸ List.mem_cons_self
            obtain ⟨member, above⟩ : next ∈ levels here ∧ key row ≤ nodeKey next := by
              simpa [nodesFrom] using inside
            refine ⟨Or.inl member, ?_⟩
            rintro _ ⟨⟩
            have apart := new next ((holds.levelled.sublist here).mem member)
            rw [keyed] at above
            exact lt_of_le_of_ne above apart.symm
      · cases points
    · rw [linking.others place same here] at points
      split at points
      · rename_i condition
        obtain rfl : node = next := by simpa using points
        refine ⟨Or.inr ⟨rfl, condition.2.1⟩, fun other equal => ?_⟩
        have lower := (place_of here place condition.2.2 other equal).2
        rwa [keyed] at lower
      · obtain ⟨member, behind⟩ := shows.ahead (old same placed) points
        exact ⟨Or.inl member, behind⟩
  · intro place other otherRow placed stays behind
    have listed : other ∈ levels 0 := (holds.filled other).mpr (List.ne_nil_of_mem stays.1)
    by_cases same : place = some node
    · subst same
      have above : nodeKey node < nodeKey other := behind node rfl
      rcases leadsOn with last | rfl
      · exact absurd (keyed ▸ last other listed) above.not_gt
      · rw [linking.own 0 tall, if_pos le_rfl]
        refine shows.passes (fun first equal => (place_of 0 _ rfl first equal).1) stays ?_
        intro first equal
        have lower := (place_of 0 _ rfl first equal).2
        rw [keyed] at lower
        exact lower.trans above
    · rw [linking.others place same 0]
      split
      · rename_i condition
        refine ⟨node, rfl, ?_⟩
        by_contra higher
        have lower : nodeKey other < key row := keyed ▸ not_le.mp higher
        obtain ⟨last, before, most⟩ :=
          placeBefore_last (holds.levelled.level_sorted 0) listed lower
        exact absurd (behind last (condition.2.2.trans before)) most.not_gt
      · exact shows.passes (old same placed) stays behind
  · rintro other held
    rcases held with member | ⟨rfl, -⟩
    · obtain ⟨rows, has, filled, leads⟩ := shows.bucket member
      refine ⟨rows, has, filled, leads.congr ?_⟩
      intro link inside
      have different : other ≠ node := by
        rintro rfl
        exact new_fresh holds new member
      rw [freshScope_rows holds keyed new member has] at inside
      exact linking.link link (through_visible inside) (through_head different inside)
    · refine ⟨[row], Or.inr ⟨trivial, ?_⟩, by simp, linking.leads⟩
      have empty : lists other = [] := by
        by_contra filled
        exact new_fresh holds new ((holds.filled other).mpr filled)
      change [row] = Function.update lists other (row :: lists other) other
      rw [Function.update_self, empty]

include keyed new in
/-- Versions that link the node and lead searches on. -/
theorem LinkedFrom.changes {linked' : IndexMemory ν ρ} {copied' level' : Nat}
    (linking
      : LinkedFrom memory nodeKey levels lists (key row) row node height copied level linked)
    (linking'
      : LinkedFrom memory nodeKey levels lists (key row) row node height copied' level' linked')
    (shows' : (freshScope holds keyed new).Shows (newView levels node height) linked')
    : (freshScope holds keyed new).Changes (newView levels node height) linked
        (newView levels node height) linked' where
  holds := id
  shows := shows'
  sees := by
    rintro other bucket held ⟨rows, has, sees⟩
    refine ⟨rows, has, sees.congr ?_⟩
    intro link member
    rw [linking'.rows holds keyed new held has member, linking.rows holds keyed new held has member]

omit [DecidableEq ρ] in
include keyed new in
/-- The first version that links the node. -/
theorem LinkedFrom.changes_first {before : IndexMemory ν ρ}
    (same : SameButNode lists node memory before)
    (linking
      : LinkedFrom memory nodeKey levels lists (key row) row node height copied level linked)
    (shows : (freshScope holds keyed new).Shows (newView levels node height) linked)
    : (freshScope holds keyed new).Changes (oldView levels) before (newView levels node height)
        linked where
  holds := Or.inl
  shows := shows
  sees := by
    rintro other bucket member ⟨rows, has, sees⟩
    refine ⟨rows, has, sees.congr ?_⟩
    intro link inside
    have different : other ≠ node := by
      rintro rfl
      exact new_fresh holds new member
    rw [freshScope_rows holds keyed new member has] at inside
    rw [linking.link link (through_visible inside) (through_head different inside),
      same.link link (through_visible inside) (through_head different inside)]

include holds new in
omit [DecidableEq ν] [DecidableEq ρ] in
/-- The places before the key are not the new node. -/
theorem place_ne_new (target : κ) (level : Nat)
    : placeBefore nodeKey target (levels level) ≠ some node := by
  intro same
  exact new_fresh holds new (placeBefore_below same).1

include holds keyed new in
/-- Searches survive the links of a node that is the last one, or of a node of height one. -/
theorem buildLinks_publishes {base : IndexMemory ν ρ} {fix : Nat → Option ν}
    (same : SameButNode lists node memory base) (prepared : Prepared base node row height)
    (tall : 0 < height)
    (places : ∀ level < height, fix level = placeBefore nodeKey (key row) (levels level))
    (survives : (∀ other ∈ levels 0, nodeKey other < key row) ∨ height = 1)
    : ∃ versions final,
        (IndexWriter.buildLinks fix node height).Gives base () versions
        ∧ Publishes (freshScope holds keyed new).Changes (oldView levels) base versions final := by
  have apart := place_ne_new holds new (key row)
  have start : LinkedFrom memory nodeKey levels lists (key row) row node height height height base :=
    linkedFrom_prepared same prepared
  rcases survives with last | rfl
  · obtain ⟨versions, gives, good⟩ := buildLinks_keeps places apart le_rfl start
    have shows {linked : IndexMemory ν ρ} {copied level : Nat}
        (linking
          : LinkedFrom memory nodeKey levels lists (key row) row node height copied level linked) :=
      linking.shows holds keyed new tall (Or.inl last)
    obtain ⟨final, publishes⟩ :=
      @Publishes.of_forall_after _ _ (freshScope holds keyed new).Changes (oldView levels)
        (newView levels node height)
        (fun version => ∃ copied level,
          LinkedFrom memory nodeKey levels lists (key row) row node height copied level version)
        base (fun ⟨_, _, linking⟩ => linking.changes_first holds keyed new same (shows linking))
        (fun ⟨_, _, linking⟩ ⟨_, _, linking'⟩ =>
          linking.changes holds keyed new linking' (shows linking'))
        versions good
    exact ⟨versions, final, gives, publishes⟩
  · have first := start.copy (by omega) (apart 0)
    have second := first.join (by omega) (apart 0)
    have unnoticed : SameButNode lists node memory (base.setNext (some node) 0
        (base.next (placeBefore nodeKey (key row) (levels 0)) 0)) := by
      refine ⟨fun place different => ?_, same.link⟩
      exact (Function.update_of_ne different ..).trans (same.next place different)
    rw [← places 0 tall] at first second unnoticed
    have old : (freshScope holds keyed new).Shows (oldView levels) base :=
      (same.unnoticed holds keyed new).shows (freshScope_shows holds keyed new)
    have before := unnoticed.unnoticed holds keyed new
    refine ⟨_, newView levels node 1, buildLinks_step fix node 0 Storing.gives_pure,
      .store ⟨id, before.shows (freshScope_shows holds keyed new), ?_⟩
        (.store ?_ (.nothing ..))⟩
    · rintro other bucket member ⟨rows, has, sees⟩
      exact ⟨rows, has, sees⟩
    · exact second.changes_first holds keyed new unnoticed
        (second.shows holds keyed new tall (Or.inr rfl))

include holds new in
/-- Everything that is stored before the links is not noticed. -/
theorem insertNode_stores (unlisted : ¬ Listed lists row) (checks : Bool) (height : Nat)
    {fix : Nat → Option ν}
    (places
      : ∀ level ≤ memory.curh, fix level = placeBefore nodeKey (key row) (levels level))
    : ∃ fix' earlier,
        (∀ version ∈ earlier, SameButNode lists node memory version)
        ∧ SameButNode lists node memory (latest memory earlier)
        ∧ Prepared (latest memory earlier) node row (min height (memory.curh + 1))
        ∧ (∀ level < min height (memory.curh + 1),
            fix' level = placeBefore nodeKey (key row) (levels level))
        ∧ ∀ versions,
            (IndexWriter.buildLinks fix' node (min height (memory.curh + 1))).Gives
                (latest memory earlier) () versions
              → (IndexWriter.insertNode checks fix node row height).Gives memory true
                  (earlier ++ versions) := by
  have empty : lists node = [] := by
    by_contra filled
    exact new_fresh holds new ((holds.filled node).mpr filled)
  obtain ⟨_, stored, gives, good, same, tallest, prepared⟩ :=
    holds.storeNode_keeps unlisted empty checks height
  obtain ⟨fix', raised, fix_same, raises, next, rows, links⟩ :=
    @linkNode_builds _ _ _ (latest memory stored) fix node height
  rw [tallest] at fix_same links
  have similar {other : IndexMemory ν ρ} (nexts : other.next = (latest memory stored).next)
      (lists_same : other.rows = (latest memory stored).rows)
      : SameButNode lists node memory other :=
    ⟨by rw [nexts]; exact same.next, by rw [lists_same]; exact same.link⟩
  refine ⟨fix', stored ++ raised, ?_, ?_, ?_, ?_, ?_⟩
  · intro version member
    rcases List.mem_append.mp member with here | here
    · exact good version here
    · exact similar (raises version here).1 (raises version here).2
  · rw [latest_append]
    exact similar next rows
  · rw [latest_append]
    exact ⟨fun level low => by rw [next]; exact prepared.unlinked level (by omega),
      by rw [rows]; exact prepared.leads⟩
  · exact fun level low => (fix_same level low).trans (places level (by omega))
  · intro versions builds
    rw [latest_append] at builds
    have whole : (IndexWriter.insertNode checks fix node row height).Gives memory true
        (stored ++ (raised ++ versions ++ [])) := by
      refine gives.bind ?_
      exact Storing.Gives.bind (links versions builds) Storing.gives_pure
    simpa using whole

include holds keyed new in
/-- Searches survive the insertion of a node that is the last one, or that has height one. -/
theorem insertNode_allRead (unlisted : ¬ Listed lists row) (tall : 0 < height) (checks : Bool)
    {fix : Nat → Option ν}
    (places
      : ∀ level ≤ memory.curh, fix level = placeBefore nodeKey (key row) (levels level))
    (survives
      : (∀ other ∈ levels 0, nodeKey other < key row) ∨ min height (memory.curh + 1) = 1)
    : ∃ versions,
        (IndexWriter.insertNode checks fix node row height).Gives memory true versions
        ∧ AllRead key lists memory versions := by
  obtain ⟨fix', earlier, good, same, prepared, places', links⟩ :=
    insertNode_stores holds new unlisted checks height places
  obtain ⟨versions, final, builds, publishes⟩ :=
    buildLinks_publishes holds keyed new same prepared (by omega) places' survives
  refine ⟨_, links versions builds, ?_⟩
  intro query fix schedule
  have shows := freshScope_shows holds keyed new
  have first : Publishes (freshScope holds keyed new).Changes (oldView levels) memory earlier
      (oldView levels) :=
    IndexScope.Unnoticed.publishes shows fun version member =>
      (good version member).unnoticed holds keyed new
  have reads := @IndexScope.searches _ _ _ _ query fix _ _ _ _ _ shows (first.append publishes)
    schedule
  exact reads.imp fun _ listed => insertScope_stays listed

end Surviving

-----------------------------------------------------------------------------------------
-- Insertions that mislead searches
-----------------------------------------------------------------------------------------

section Misleading

variable {memory linked : IndexMemory ν ρ} {key : ρ → κ} {nodeKey : ν → κ}
  {levels : Nat → List ν} {lists : RowLists ν ρ} {row : ρ} {node next : ν} {target : κ}
  {height copied level : Nat}

omit [DecidableEq ν] [DecidableEq ρ] in
/-- Without nodes between two keys, the places before them are the same. -/
theorem IndexMemory.Levelled.place_congr (levelled : memory.Levelled key nodeKey levels)
    {target target' : κ}
    (between : ∀ other ∈ levels 0, nodeKey other < target ↔ nodeKey other < target') (level : Nat)
    : placeBefore nodeKey target (levels level) = placeBefore nodeKey target' (levels level) := by
  have same : nodesBelow nodeKey target (levels level) = nodesBelow nodeKey target' (levels level) := by
    refine List.filter_congr fun other member => ?_
    simpa using between other ((levelled.sublist level).mem member)
  rw [placeBefore, placeBefore, same]

omit [DecidableEq ν] [DecidableEq ρ] in
/-- At a node without links `locate` goes down to it. -/
theorem Locating.run_down {fix : Nat → Option ν}
    (unlinked : ∀ here ≤ level, memory.next (some node) here = none)
    : ∃ turns locating,
        (Locating.step key target memory)^[turns] { phase := .reads (some node) level, fix := fix }
          = locating
        ∧ locating.phase = .located (some node) := by
  induction level generalizing fix with
  | zero =>
      refine ⟨1, _, rfl, ?_⟩
      simp [Locating.step, unlinked 0 le_rfl, Locating.leave]
  | succ level ih =>
      obtain ⟨turns, locating, runs, located⟩ :=
        @ih (Function.update fix (level + 1) (some node)) fun here low => unlinked here (by omega)
      refine ⟨turns + 1, locating, ?_, located⟩
      rw [Function.iterate_succ_apply, ← runs]
      simp [Locating.step, unlinked (level + 1) le_rfl, Locating.leave]

omit [DecidableEq ρ] in
/-- A search at the place before a node that is only linked on its upper levels ends at it. -/
theorem LinkedFrom.run_complete (holds : memory.Holds key nodeKey levels lists)
    (new : ∀ other ∈ levels 0, nodeKey other ≠ nodeKey node)
    (linking
      : LinkedFrom memory nodeKey levels lists (key row) row node height (level + 1) (level + 1)
          linked)
    (tall : level + 1 < height) (lower : key row < target)
    (between : ∀ other ∈ levels 0, nodeKey other < target ↔ nodeKey other < key row)
    {query : IndexQuery κ} {fix array : Nat → Option ν} {visited : List ρ}
    : ∃ turns,
        (IndexReader.step query key fix linked)^[turns] {
          phase := .locates target (.pass target false) {
            phase := .reads (placeBefore nodeKey (key row) (levels (level + 1))) (level + 1)
            fix := array }
          visited := visited }
          = { phase := .complete, visited := visited } := by
  obtain ⟨place, is_place⟩ : ∃ place, place = placeBefore nodeKey (key row) (levels (level + 1)) :=
    ⟨_, rfl⟩
  have joined : linked.next place (level + 1) = some node := by
    rw [linking.others place (is_place ▸ place_ne_new holds new (key row) (level + 1)),
      if_pos ⟨le_rfl, tall, is_place⟩]
  have first : linked.row node = some row := linking.leads.1
  have onward : linked.next (some node) (level + 1) = memory.next place (level + 1) := by
    rw [linking.own (level + 1) tall, if_pos le_rfl, is_place]
  have unlinked : ∀ here ≤ level, linked.next (some node) here = none := by
    intro here low
    rw [linking.own here (by omega), if_neg (by omega)]
  -- It goes to the node, and leaves the level there.
  have leaves : ∃ turns array', (Locating.step key target linked)^[turns]
      { phase := .reads place (level + 1), fix := array }
      = { phase := .reads (some node) level, fix := array' } := by
    have moves : (Locating.step key target linked)^[2]
        { phase := .reads place (level + 1), fix := array }
        = { phase := .reads (some node) (level + 1), fix := array } := by
      simp [Locating.step, joined, first, not_le.mpr lower]
    cases points : memory.next place (level + 1) with
    | none =>
        refine ⟨3, Function.update array (level + 1) (some node), ?_⟩
        rw [Function.iterate_succ_apply', moves]
        simp [Locating.step, onward, points, Locating.leave]
    | some next =>
        have chain := holds.levelled.behind_place (key row) (level + 1)
        rw [← is_place, points] at chain
        have inside : next ∈ nodesFrom nodeKey (key row) (levels (level + 1)) := by
          cases nodes : nodesFrom nodeKey (key row) (levels (level + 1)) with
          | nil =>
              rw [nodes] at chain
              cases chain
          | cons other rest =>
              rw [nodes] at chain
              obtain rfl : next = other := by simpa using chain.1
              exact List.mem_cons_self
        obtain ⟨member, above⟩ : next ∈ levels (level + 1) ∧ key row ≤ nodeKey next := by
          simpa [nodesFrom] using inside
        have listed := (holds.levelled.sublist (level + 1)).mem member
        obtain ⟨nextRow, loaded, keyed⟩ := holds.levelled.first next listed
        have loaded' : linked.row next = some nextRow := by
          refine (linking.link (.head next) ?_ ?_).trans loaded
          · exact fun hidden => hidden next List.mem_cons_self
          · rintro ⟨⟩
            exact new_fresh holds new listed
        have higher : target ≤ key nextRow := by
          rw [keyed]
          exact not_lt.mp fun below => above.not_gt ((between next listed).mp below)
        refine ⟨4, Function.update array (level + 1) (some node), ?_⟩
        rw [Function.iterate_succ_apply', Function.iterate_succ_apply', moves]
        simp [Locating.step, onward, points, loaded', higher, Locating.leave]
  obtain ⟨leaving, array', left⟩ := leaves
  obtain ⟨turns, locating, runs, located⟩ :=
    @Locating.run_down _ _ _ _ linked key node target level array' unlinked
  rw [is_place] at left
  obtain ⟨reading, reaches⟩ :=
    @IndexReader.run_locates _ _ _ _ key query fix linked target (.pass target false)
      { phase := .reads (placeBefore nodeKey (key row) (levels (level + 1))) (level + 1)
        fix := array } visited (turns + leaving)
  rw [Function.iterate_add_apply, left, runs] at reaches
  refine ⟨reading + 2, ?_⟩
  rw [Function.iterate_succ_apply', Function.iterate_succ_apply', reaches]
  simp [IndexReader.step, located, unlinked 0 (Nat.zero_le _)]

omit [DecidableEq ρ] in
theorem buildLinks_gives (fix : Nat → Option ν) (node : ν) (level : Nat)
    (memory : IndexMemory ν ρ)
    : ∃ versions, (IndexWriter.buildLinks fix node level).Gives memory () versions := by
  induction level generalizing memory with
  | zero => exact ⟨[], Storing.gives_pure⟩
  | succ level ih =>
      obtain ⟨versions, gives⟩ := ih _
      exact ⟨_, buildLinks_step fix node level gives⟩

/-- While a node with more than one level is linked before another node, a search misses that. -/
theorem insertNode_misses (holds : memory.Holds key nodeKey levels lists)
    (keyed : key row = nodeKey node) (new : ∀ other ∈ levels 0, nodeKey other ≠ nodeKey node)
    (unlisted : ¬ Listed lists row) (checks : Bool) {fix : Nat → Option ν}
    (places
      : ∀ level ≤ memory.curh, fix level = placeBefore nodeKey (key row) (levels level))
    (member : next ∈ levels 0) (greater : key row < nodeKey next)
    (tall : 1 < min height (memory.curh + 1))
    : ∃ versions,
        (IndexWriter.insertNode checks fix node row height).Gives memory true versions
        ∧ ¬ AllRead key lists memory versions := by
  obtain ⟨level, high⟩ : ∃ level, min height (memory.curh + 1) = level + 2 :=
    ⟨min height (memory.curh + 1) - 2, by omega⟩
  obtain ⟨fix', earlier, -, same, prepared, places', links⟩ :=
    insertNode_stores holds new unlisted checks height places
  rw [high] at prepared places' links
  have apart := place_ne_new holds new (key row) (level + 1)
  have start : LinkedFrom memory nodeKey levels lists (key row) row node (level + 2) (level + 2)
      (level + 2) (latest memory earlier) :=
    linkedFrom_prepared same prepared
  have copies := start.copy (by omega) apart
  have joins := copies.join (by omega) apart
  rw [← places' (level + 1) (by omega)] at copies joins
  obtain ⟨versions, rest⟩ := buildLinks_gives fix' node (level + 1)
    (((latest memory earlier).setNext (some node) (level + 1)
      ((latest memory earlier).next (fix' (level + 1)) (level + 1))).setNext (fix' (level + 1))
      (level + 1) (some node))
  refine ⟨_, links _ (buildLinks_step fix' node (level + 1) rest), fun all => ?_⟩
  -- The first node behind the key, and a search that starts there.
  obtain ⟨first, others, nodes⟩ : ∃ first others,
      nodesFrom nodeKey (key row) (levels 0) = first :: others := by
    have filled : next ∈ nodesFrom nodeKey (key row) (levels 0) := by
      simpa [nodesFrom] using ⟨member, greater.le⟩
    exact List.exists_cons_of_ne_nil (List.ne_nil_of_mem filled)
  have inside : first ∈ nodesFrom nodeKey (key row) (levels 0) := nodes ▸ List.mem_cons_self
  obtain ⟨listed, above⟩ : first ∈ levels 0 ∧ key row ≤ nodeKey first := by
    simpa [nodesFrom] using inside
  have lower : key row < nodeKey first := by
    rw [keyed] at above ⊢
    exact lt_of_le_of_ne above (new first listed).symm
  have between : ∀ other ∈ levels 0, nodeKey other < nodeKey first ↔ nodeKey other < key row := by
    intro other member
    refine ⟨fun below => ?_, fun below => below.trans lower⟩
    by_contra higher
    have inside : other ∈ first :: others := by
      rw [← nodes]
      simpa [nodesFrom] using ⟨member, not_lt.mp higher⟩
    have sorted := (holds.levelled.level_sorted 0).filter (fun node => key row ≤ nodeKey node)
    change (nodesFrom nodeKey (key row) (levels 0)).Pairwise _ at sorted
    rw [nodes] at sorted
    rcases List.mem_cons.mp inside with rfl | later
    · exact lt_irrefl _ below
    · exact below.not_gt ((List.pairwise_cons.mp sorted).1 other later)
  let query : IndexQuery κ := {
    start := .atLeast (nodeKey first)
    past := fun _ => false
    upward := fun _ same => by cases same
  }
  obtain ⟨turns, locating, reaches, phase, -⟩ :=
    @IndexMemory.Levelled.locate_reaches _ _ _ _ memory key nodeKey levels holds.levelled
      (nodeKey first) (fun _ => none) (level + 1) (by omega)
  obtain ⟨reading, reads⟩ :=
    @IndexReader.run_locates _ _ _ _ key query (fun _ => none) memory (nodeKey first)
      (.pass (nodeKey first) false) (.start memory fun _ => none) [] turns
  obtain ⟨phase', array⟩ := locating
  obtain rfl : phase' = _ := phase
  rw [reaches, holds.levelled.place_congr between] at reads
  obtain ⟨ending, completes⟩ :=
    @LinkedFrom.run_complete _ _ _ _ _ memory _ key nodeKey levels lists row node
      (nodeKey first) (level + 2) level holds new joins (by omega) lower between query
      (fun _ => none) array []
  -- It goes up to the place before the node, and on when the highest link is stored.
  obtain ⟨copy, is_copy⟩ : ∃ copy, copy = (latest memory earlier).setNext (some node) (level + 1)
      ((latest memory earlier).next (fix' (level + 1)) (level + 1)) := ⟨_, rfl⟩
  obtain ⟨join, is_join⟩ : ∃ join, join = copy.setNext (fix' (level + 1)) (level + 1) (some node) :=
    ⟨_, rfl⟩
  rw [← is_copy, ← is_join] at completes all
  obtain ⟨schedule, ran⟩ : ∃ schedule,
      search query key (fun _ => none) memory (earlier ++ copy :: join :: versions) schedule
        = { memory := join, pending := versions
            reader := { phase := .complete, visited := [] } } := by
    refine ⟨List.replicate (reading + 1) .reader
      ++ (List.replicate (earlier ++ [copy, join]).length .writer
        ++ List.replicate ending .reader), ?_⟩
    have split : earlier ++ copy :: join :: versions = (earlier ++ [copy, join]) ++ versions := by
      simp
    rw [search, Scene.run_append, Scene.run_readers, Function.iterate_succ_apply, Scene.run_append,
      split, Scene.run_writers, Scene.run_readers]
    simp only [latest_append, latest_cons, latest_nil]
    rw [← completes]
    exact congrArg (fun reader =>
      Scene.mk join versions ((IndexReader.step query key (fun _ => none) join)^[ending] reader))
      reads
  have misses := all query (fun _ => none) schedule
  rw [ran] at misses
  obtain ⟨firstRow, rows⟩ := List.exists_mem_of_ne_nil _ ((holds.filled first).mp listed)
  have keyed' : key firstRow = nodeKey first := holds.keyed first firstRow rows
  exact List.not_mem_nil (misses.visits rfl firstRow ⟨first, rows⟩ ⟨keyed'.ge, rfl⟩)

end Misleading

-----------------------------------------------------------------------------------------
-- Insertions
-----------------------------------------------------------------------------------------

section Insertions

variable {memory : IndexMemory ν ρ} {key : ρ → κ} {nodeKey : ν → κ} {levels : Nat → List ν}
  {lists : RowLists ν ρ} {row : ρ} {node : ν} {height : Nat}

omit [DecidableEq ρ] in
/-- The key of a node that is not linked can be chosen. -/
theorem IndexMemory.Holds.rekey (holds : memory.Holds key nodeKey levels lists)
    (fresh : node ∉ levels 0) (target : κ)
    : memory.Holds key (Function.update nodeKey node target) levels lists := by
  have same {other : ν} (member : other ∈ levels 0)
      : Function.update nodeKey node target other = nodeKey other := by
    refine Function.update_of_ne ?_ ..
    rintro rfl
    exact fresh member
  refine ⟨⟨holds.levelled.linked, holds.levelled.nested, holds.levelled.top, ?_, ?_⟩, holds.rows,
    ?_, holds.filled⟩
  · refine holds.levelled.sorted.imp_of_mem fun here there before => ?_
    rwa [same here, same there]
  · intro other member
    rw [same member]
    exact holds.levelled.first other member
  · intro other otherRow member
    rw [same ((holds.filled other).mpr (List.ne_nil_of_mem member))]
    exact holds.keyed other otherRow member

/-- Without a node that has the key `jsw_sinsert_linked` inserts a new one. -/
theorem IndexMemory.Holds.sinsertLinked_new (holds : memory.Holds key nodeKey levels lists)
    (row : ρ) (new : ∀ other ∈ levels 0, nodeKey other ≠ key row) (checks unique : Bool)
    (array : Nat → Option ν) (node : ν) (height : Nat)
    : ∃ enough fix,
        (∀ level ≤ memory.curh, fix level = placeBefore nodeKey (key row) (levels level))
        ∧ ∀ fuel ≥ enough, ∀ versions,
            (IndexWriter.insertNode checks fix node row height).Gives memory true versions
            → (IndexWriter.sinsertLinked key checks fuel array row node height unique).Gives memory
                true versions := by
  obtain ⟨enough, fix, locates, places⟩ := holds.levelled.locate_gives (key row) array
  refine ⟨enough, fix, places, fun fuel more versions gives => ?_⟩
  refine (locates fuel more).bind ?_
  refine Storing.Gives.of_load ?_
  have chain := holds.levelled.behind_place (key row) 0
  cases nodes : nodesFrom nodeKey (key row) (levels 0) with
  | nil =>
      rw [nodes] at chain
      simpa only [latest_nil, show memory.next _ 0 = none from chain] using gives
  | cons first rest =>
      rw [nodes] at chain
      have inside : first ∈ nodesFrom nodeKey (key row) (levels 0) := nodes ▸ List.mem_cons_self
      have member : first ∈ levels 0 := (List.mem_filter.mp inside).1
      obtain ⟨firstRow, loaded, keyed⟩ := holds.levelled.first first member
      have different : key row ≠ key firstRow := by
        rw [keyed]
        exact (new first member).symm
      simp only [latest_nil, chain.1]
      refine Storing.Gives.of_load ?_
      simpa only [loaded, different, if_false] using gives

/-- Searches read every listed row during an insertion exactly if a node has the key of the row, or
no node is above it, or the new node has one level only.
-/
theorem sinsertLinked_allRead_iff (holds : memory.Holds key nodeKey levels lists)
    (unlisted : ¬ Listed lists row) (fresh : node ∉ levels 0) (positive : 0 < height)
    (checks unique : Bool) (array : Nat → Option ν)
    : ∃ enough,
        ∀ fuel ≥ enough,
          ∃ result versions,
            (IndexWriter.sinsertLinked key checks fuel array row node height unique).Gives memory
              result versions
            ∧ (AllRead key lists memory versions
              ↔ (∃ found ∈ levels 0, nodeKey found = key row)
                ∨ (∀ other ∈ levels 0, nodeKey other < key row)
                ∨ height = 1) := by
  by_cases existing : ∃ found ∈ levels 0, nodeKey found = key row
  · obtain ⟨found, member, same⟩ := existing
    obtain ⟨enough, finds⟩ :=
      holds.sinsertLinked_found unlisted member same checks unique array node height
    refine ⟨enough, fun fuel more => ?_⟩
    obtain ⟨result, versions, gives, reads⟩ := finds fuel more
    exact ⟨result, versions, gives, iff_of_true reads (Or.inl ⟨found, member, same⟩)⟩
  · have new : ∀ other ∈ levels 0, nodeKey other ≠ key row :=
      fun other member same => existing ⟨other, member, same⟩
    have holds' := holds.rekey fresh (key row)
    have keyed : key row = Function.update nodeKey node (key row) node :=
      (Function.update_self node (key row) nodeKey).symm
    have old {other : ν} (member : other ∈ levels 0)
        : Function.update nodeKey node (key row) other = nodeKey other := by
      refine Function.update_of_ne ?_ ..
      rintro rfl
      exact fresh member
    have new' : ∀ other ∈ levels 0, Function.update nodeKey node (key row) other
        ≠ Function.update nodeKey node (key row) node := by
      intro other member
      rw [old member, ← keyed]
      exact new other member
    obtain ⟨enough, fix, places, inserts⟩ :=
      holds'.sinsertLinked_new row
        (fun other member => (old member).symm ▸ new other member) checks unique array node height
    refine ⟨enough, fun fuel more => ?_⟩
    by_cases survives : (∀ other ∈ levels 0, nodeKey other < key row) ∨ height = 1
    · obtain ⟨versions, gives, reads⟩ :=
        insertNode_allRead holds' keyed new' unlisted positive checks places (by
          rcases survives with last | rfl
          · exact Or.inl fun other member => (old member).symm ▸ last other member
          · exact Or.inr (by omega))
      exact ⟨true, versions, inserts fuel more versions gives,
        iff_of_true reads (Or.inr survives)⟩
    · obtain ⟨notLast, more_levels⟩ := not_or.mp survives
      push Not at notLast
      obtain ⟨next, member, above⟩ := notLast
      have greater : key row < nodeKey next := lt_of_le_of_ne above (new next member).symm
      have raised : 0 < memory.curh := by
        by_contra flat
        have none_linked := holds.levelled.top 0 (by omega)
        simp [none_linked] at member
      have tall : 1 < min height (memory.curh + 1) := by omega
      obtain ⟨versions, gives, misses⟩ :=
        insertNode_misses holds' keyed new' unlisted checks places member (by rwa [old member]) tall
      refine ⟨true, versions, inserts fuel more versions gives, iff_of_false misses ?_⟩
      exact not_or.mpr ⟨existing, survives⟩

end Insertions

theorem sinsertLinked_allRead_iff_small
    : ∃ enough,
        ∀ fuel ≥ enough,
          ∃ result versions,
            (IndexWriter.sinsertLinked id true fuel (fun _ => none) 10 2 1 false).Gives smallIndex
              result versions
            ∧ (AllRead id smallLists smallIndex versions
              ↔ (∃ found ∈ smallLevels 0, 20 = id 10) ∨ (∀ other ∈ smallLevels 0, 20 < id 10)
                ∨ 1 = 1) :=
  sinsertLinked_allRead_iff smallIndex_holds (by
    rintro ⟨list, member⟩
    simp only [smallLists] at member
    split at member <;> simp at member) (by simp [smallLevels]) Nat.one_pos true false _

/-- A search from key 20 on misses its row while key 10 is inserted with a node of height two. -/
theorem sinsertLinked_misses_small
    : smallIndex.Holds id (fun _ => 20) smallLevels smallLists
      ∧ ∃ versions,
          (IndexWriter.sinsertLinked id true 8 (fun _ => none) 10 2 2 false).Gives smallIndex true
            versions
          ∧ ¬ AllRead id smallLists smallIndex versions := by
  refine ⟨smallIndex_holds, _, rfl, fun all => ?_⟩
  let query : IndexQuery Nat := { start := .atLeast 20, past := fun _ => false, upward := nofun }
  have reads := all query (fun _ => none)
    (List.replicate 11 .writer ++ List.replicate 10 .reader)
  have misses := reads.visits rfl 20 ⟨1, by simp [smallLists]⟩ ⟨le_rfl, rfl⟩
  revert misses
  decide

end SpeedTables.Shared
