import Mathlib
import SpeedTables.Search.Coverage
import SpeedTables.Search.IndexRuns
import SpeedTables.Search.KeyRuns
import SpeedTables.Table.ResetLoop

/-! The rows that a whole walk comes to, when nothing else changes the table meanwhile. -/

namespace SpeedTables

open Lib Std

variable {creator : CreatorTable} {host : Host}

/-- A whole walk with the rows that it visits and its last step. -/
inductive Walks (plan : Plan creator)
    : WalkPos → CTable creator → List RowId → WalkResult → Prop where
  | ends {pos : WalkPos} {table after : CTable creator} {last : WalkResult}
      (step : walkStep plan pos table = .ok last after) (noVisit : ∀ id next, last ≠ .visit id next)
      : Walks plan pos table [] last
  | visit {pos next : WalkPos} {table after : CTable creator} {id : RowId} {ids : List RowId}
      {last : WalkResult} (step : walkStep plan pos table = .ok (.visit id next) after)
      (rest : Walks plan next after ids last)
      : Walks plan pos table (id :: ids) last

theorem WalkResult.complete_of_noVisit {last : WalkResult}
    (noVisit : ∀ id next, last ≠ .visit id next) (goesOn : last ≠ .endless)
    : last = .complete := by
  cases last with
  | visit id next => exact absurd rfl (noVisit id next)
  | complete => rfl
  | endless => exact absurd rfl goesOn

/-- Take the steps of a walk, at most so many. -/
def runWalk (plan : Plan creator)
    : Nat → WalkPos → CTable creator → Option (List RowId × WalkResult)
  | 0, _, _ => none
  | fuel + 1, pos, table =>
      match walkStep plan pos table with
      | .ok (.visit id next) after =>
          (runWalk plan fuel next after).map (fun result => (id :: result.1, result.2))
      | .ok last _ => some ([], last)
      | .error _ _ => none

/-- Steps up to the last are a whole walk, by induction on the fuel. -/
theorem runWalk_walks {plan : Plan creator} {fuel : Nat} {pos : WalkPos} {table : CTable creator}
    {visited : List RowId} {last : WalkResult}
    (runs : runWalk plan fuel pos table = some (visited, last))
    : Walks plan pos table visited last := by
  induction fuel generalizing pos table visited last with
  | zero => cases runs
  | succ fuel ih =>
      rw [runWalk] at runs
      split at runs
      · next id next after step =>
          obtain ⟨⟨ids, other⟩, later, same⟩ := Option.map_eq_some_iff.mp runs
          cases same
          exact .visit step (ih later)
      · next result after noVisit step =>
          cases runs
          exact .ends step noVisit
      · cases runs

/-- Any stop. -/
def anyStop (_ : Stop) (_ : CTable creator) : Prop :=
  True

-----------------------------------------------------------------------------------------
-- The walk of all rows
-----------------------------------------------------------------------------------------

/-- The walk goes on to the next row of the list. -/
theorem listStep_next {table : CTable creator} {before rest : List RowId} {row : RowId}
    (nodup : table.llHead.Nodup) (shape : table.llHead = before ++ row :: rest)
    : wp (listStep (.listRow row))
        (fun result after => after = table
          ∧ result = rest.head?.elim .complete (fun next => .visit next (.listRow next)))
        anyStop table := by
  have fresh : row ∉ before := by
    rw [shape] at nodup
    intro inside
    exact List.disjoint_of_nodup_append nodup inside List.mem_cons_self
  have behind : nextInList table.llHead row = rest.head? := by
    rw [shape, nextInList_append fresh]
  rw [listStep, wp_bind, wp_inspect]
  refine ⟨fun _ _ => ?_, fun _ _ => trivial⟩
  rw [wp_bind, wp_get, behind]
  cases rest with
  | nil => exact ⟨rfl, rfl⟩
  | cons next rest => exact ⟨rfl, rfl⟩

/-- From a row of the list the walk goes through the rest of it, by induction on the walk. -/
theorem Walks.listRest {plan : Plan creator} {pos : WalkPos} {table : CTable creator}
    {visited before rest : List RowId} {row : RowId} {last : WalkResult}
    (walks : Walks plan pos table visited last)
    (all : plan.walkType = .default) (nodup : table.llHead.Nodup) (stands : pos = .listRow row)
    (shape : table.llHead = before ++ row :: rest)
    : visited = rest ∧ last = .complete := by
  induction walks generalizing before row rest with
  | @ends pos table after last step noVisit =>
      subst stands
      simp only [walkStep, all] at step
      obtain ⟨-, ends⟩ := wp_returns (listStep_next nodup shape) step
      cases rest with
      | nil => exact ⟨rfl, ends⟩
      | cons next rest => exact absurd ends (noVisit next (.listRow next))
  | @visit pos next table after id ids last step walks ih =>
      subst stands
      simp only [walkStep, all] at step
      obtain ⟨rfl, goes⟩ := wp_returns (listStep_next nodup shape) step
      cases rest with
      | nil => cases goes
      | cons other rest =>
          cases goes
          have here : after.llHead = (before ++ [row]) ++ id :: rest := by rw [shape]; simp
          obtain ⟨rfl, same⟩ := ih nodup rfl here
          exact ⟨rfl, same⟩

/-- The walk of all rows visits every row. -/
theorem Walks.all {plan : Plan creator} {table : CTable creator} {visited : List RowId}
    {last : WalkResult} (walks : Walks plan .start table visited last)
    (all : plan.walkType = .default) (nodup : table.llHead.Nodup)
    : visited = table.llHead ∧ last = .complete := by
  have starts : wp (listStep .start)
      (fun result after => after = table
        ∧ result = table.llHead.head?.elim .complete (fun next => .visit next (.listRow next)))
      anyStop table := by
    rw [listStep, wp_bind, wp_get]
    · cases table.llHead with
      | nil => exact ⟨rfl, rfl⟩
      | cons first rest => exact ⟨rfl, rfl⟩
    · intro row same
      cases same
  cases walks with
  | ends step noVisit =>
      simp only [walkStep, all] at step
      obtain ⟨-, ends⟩ := wp_returns starts step
      cases shape : table.llHead with
      | nil =>
          rw [shape] at ends
          exact ⟨rfl, ends⟩
      | cons first rest =>
          rw [shape] at ends
          exact absurd ends (noVisit first (.listRow first))
  | @visit _ next _ after id ids _ step rest =>
      simp only [walkStep, all] at step
      obtain ⟨rfl, goes⟩ := wp_returns starts step
      cases shape : after.llHead with
      | nil =>
          rw [shape] at goes
          cases goes
      | cons first others =>
          rw [shape] at goes
          cases goes
          obtain ⟨rfl, same⟩ := rest.listRest all nodup rfl (by rw [shape, List.nil_append])
          exact ⟨rfl, same⟩

-----------------------------------------------------------------------------------------
-- Hash walks
-----------------------------------------------------------------------------------------

/-- The row that is found under a key. -/
def CTable.found (table : CTable creator) (key : CString) : Option RowId :=
  (table.findHashEntry key).toOption.join

/-- The loop passes the keys that are not found, up to one that is, by induction on the keys. -/
theorem probeKeys_next (table : CTable creator) (keys : List CString) (used : Nat)
    : wp (probeKeys keys used)
        (fun result after => after = table ∧ result ≠ .endless
          ∧ (result = .complete → keys.filterMap table.found = [])
          ∧ ∀ id pos, result = .visit id pos →
            ∃ before key rest, keys = before ++ key :: rest
              ∧ pos = .probes (used + before.length + 1)
              ∧ keys.filterMap table.found = id :: rest.filterMap table.found)
        anyStop table := by
  induction keys generalizing used with
  | nil => exact ⟨rfl, fun same => (by cases same), fun _ => rfl, fun _ _ same => by cases same⟩
  | cons key rest ih =>
      rw [probeKeys, wp_bind, wp_inspect]
      refine ⟨fun found lookup => ?_, fun _ _ => trivial⟩
      have here : table.found key = found := by rw [CTable.found, lookup]; rfl
      cases found with
      | some row =>
          refine ⟨rfl, fun same => (by cases same), fun same => (by cases same),
            fun id pos same => ?_⟩
          cases same
          exact ⟨[], key, rest, rfl, rfl, List.filterMap_cons_some here⟩
      | none =>
          refine wp_mono (ih (used + 1)) ?_ (fun _ _ stops => stops)
          rintro result after ⟨rfl, goesOn, ends, goes⟩
          rw [List.filterMap_cons_none here]
          refine ⟨rfl, goesOn, ends, fun id pos visits => ?_⟩
          obtain ⟨before, other, later, rfl, rfl, found⟩ := goes id pos visits
          refine ⟨key :: before, other, later, rfl, ?_, found⟩
          rw [List.length_cons]
          congr 1
          omega

/-- A hash walk visits the rows that are found by the keys left, by induction on the walk. -/
theorem Walks.probed {plan : Plan creator} {pos : WalkPos} {table : CTable creator}
    {visited : List RowId} {used : Nat} {last : WalkResult}
    (walks : Walks plan pos table visited last)
    (hashes : plan.walkType = .hashEq ∨ plan.walkType = .hashIn)
    (stands : hashStep plan pos = probeKeys (plan.probeList.drop used) used)
    : visited = (plan.probeList.drop used).filterMap table.found ∧ last = .complete := by
  have step_eq (pos : WalkPos) : walkStep plan pos = hashStep plan pos := by
    rcases hashes with hash | hash <;> simp only [walkStep, hash]
  induction walks generalizing used with
  | @ends pos table after last step noVisit =>
      rw [step_eq, stands] at step
      obtain ⟨-, goesOn, ends, -⟩ := wp_returns (probeKeys_next table _ used) step
      have complete := WalkResult.complete_of_noVisit noVisit goesOn
      exact ⟨(ends complete).symm, complete⟩
  | @visit pos next table after row ids last step walks ih =>
      rw [step_eq, stands] at step
      obtain ⟨rfl, -, -, goes⟩ := wp_returns (probeKeys_next table _ used) step
      obtain ⟨before, key, rest, shape, rfl, found⟩ := goes row next rfl
      have left : plan.probeList.drop (used + before.length + 1) = rest := by
        rw [Nat.add_assoc, ← List.drop_drop, shape, List.drop_append,
          List.drop_eq_nil_of_le (by simp)]
        simp
      obtain ⟨rfl, same⟩ := @ih (used + before.length + 1) rfl
      rw [found, left]
      exact ⟨rfl, same⟩

-----------------------------------------------------------------------------------------
-- Positions of a skip list
-----------------------------------------------------------------------------------------

section Positions

variable {table : CTable creator} {field : creator.Field} {skip : SkipList RowId}
  {curl : Option NodeId}

@[simp]
theorem CTable.setCurl_row : (table.setCurl field curl).row = table.row := by
  unfold CTable.setCurl
  split <;> rfl

@[simp]
theorem CTable.setCurl_links : (table.setCurl field curl).links = table.links := by
  unfold CTable.setCurl
  split <;> rfl

@[simp]
theorem CTable.setCurl_count : (table.setCurl field curl).count = table.count := by
  unfold CTable.setCurl
  split <;> rfl

@[simp]
theorem CTable.setCurl_compareBucket
    : (table.setCurl field curl).compareBucket = table.compareBucket := by
  unfold CTable.setCurl
  split <;> rfl

@[simp]
theorem CTable.setCurl_locate : (table.setCurl field curl).locate = table.locate := by
  unfold CTable.setCurl
  split <;> rfl

@[simp]
theorem CTable.setCurl_dropNodes : (table.setCurl field curl).dropNodes = table.dropNodes := by
  funext other row passes nodes
  induction nodes with
  | nil => rfl
  | cons node rest ih => simp only [CTable.dropNodes, CTable.setCurl_compareBucket, ih]

theorem CTable.setCurl_chain (chain : table.skipLists field = some skip)
    : (table.setCurl field curl).skipLists field = some { skip with curl := curl } := by
  simp [CTable.setCurl, chain, CTable.setSkipList]

theorem CTable.setCurl_twice (chain : table.skipLists field = some skip) (next : Option NodeId)
    : (table.setCurl field curl).setCurl field next = table.setCurl field next := by
  simp [CTable.setCurl, chain, CTable.setSkipList]

theorem CTable.setCurl_walked (chain : table.skipLists field = some skip) {head : NodeId}
    {walked : SkipList RowId}
    (reads : (table.setCurl field curl).walkedList field head = .ok walked)
    : walked = { skip with curl := curl } := by
  rw [CTable.walkedList, CTable.setCurl_chain chain] at reads
  dsimp only at reads
  split at reads
  · cases reads
    rfl
  · cases reads

/-- The chain from a node on is the part that the node starts. -/
theorem chainFrom_part {lows rest : List (Node RowId)} {node : Node RowId}
    (ids : (skip.nodes.map Node.id).Nodup) (shape : skip.nodes = lows ++ node :: rest)
    : chainFrom skip node.id = node :: rest := by
  rw [chainFrom, shape, List.dropWhile_append_of_pos]
  · simp
  · intro other member
    rw [shape, List.map_append, List.map_cons] at ids
    have apart : other.id ≠ node.id := by
      intro same
      exact List.disjoint_of_nodup_append ids (List.mem_map_of_mem member) (by simp [same])
    simpa using apart

/-- Nodes are dropped as long as their rows pass, by induction on the nodes. -/
theorem CTable.dropNodes_split {row : Row creator} {passes : Ordering → Bool}
    {nodes part : List (Node RowId)}
    (ordered : Ordered (creator.compareFunction field) table.rowAt nodes)
    (drops : table.dropNodes field row passes nodes = .ok part)
    : ∃ dropped, nodes = dropped ++ part
        ∧ (∀ n ∈ dropped, ∀ a ∈ n.bucket,
          passes (creator.compareFunction field row (table.rowAt a)) = true)
        ∧ ∀ n ∈ part.head?, ∀ a ∈ n.bucket,
          passes (creator.compareFunction field row (table.rowAt a)) = false := by
  induction nodes with
  | nil =>
      cases drops
      exact ⟨[], rfl, by simp, by simp⟩
  | cons node rest ih =>
      rw [CTable.dropNodes] at drops
      split at drops
      · cases drops
      · next ordering compared =>
          obtain ⟨first, more, bucket, same⟩ := CTable.compareBucket_eq compared
          have judged : ∀ a ∈ node.bucket,
              creator.compareFunction field row (table.rowAt a) = ordering := by
            intro a inside
            rw [same]
            exact ordered.compare_bucket List.mem_cons_self inside (by simp [bucket])
          split at drops
          · next pass =>
              obtain ⟨dropped, rfl, passed, stays⟩ :=
                ih (ordered.sublist (List.sublist_cons_self _ _)) drops
              refine ⟨node :: dropped, rfl, ?_, stays⟩
              refine List.forall_mem_cons.mpr ⟨fun a inside => ?_, passed⟩
              rw [judged a inside, pass]
          · next pass =>
              cases drops
              refine ⟨[], rfl, by simp, ?_⟩
              rintro n same a inside
              cases same
              rw [judged a inside]
              simpa using pass

end Positions

-----------------------------------------------------------------------------------------
-- The start of a skip-list walk
-----------------------------------------------------------------------------------------

section Starts

variable {table : CTable creator} {field : creator.Field} {skip : SkipList RowId}
  {curl : Option NodeId}

/-- Whether the start of a walk passes over a row. -/
def Plan.passesOver (plan : Plan creator) (field : creator.Field) (row : Row creator) : Bool :=
  match plan.skipStart with
  | .eqRow1 | .geRow1 => plan.row1.any (fun row1 => creator.compareFunction field row1 row == .gt)
  | .gtRow1 => plan.row1.any (fun row1 => creator.compareFunction field row1 row != .lt)
  | .reset | .none => false

/-- Whether a walk ends at a row. -/
def Plan.past (plan : Plan creator) (field : creator.Field) (row : Row creator) : Bool :=
  match plan.skipEnd with
  | .none => false
  | .geRow1 => plan.row1.any (fun row1 => creator.compareFunction field row row1 != .lt)
  | .gtRow1 => plan.row1.any (fun row1 => creator.compareFunction field row row1 == .gt)
  | .geRow2 => plan.row2.any (fun row2 => creator.compareFunction field row row2 != .lt)

/-- The position is the head of a part of the chain. Only rows before the part pass a test. -/
structure CTable.StartsAt (table : CTable creator) (field : creator.Field)
    (skip : SkipList RowId) (passed : Row creator → Bool) (after : CTable creator)
    (part : List (Node RowId)) : Prop where
  suffix : part <:+ skip.nodes
  stands : after = table.setCurl field (part.head?.map Node.id)
  before : ∀ n ∈ skip.nodes, n ∉ part → ∀ a ∈ n.bucket, passed (table.rowAt a) = true
  behind : ∀ n ∈ part, ∀ a ∈ n.bucket, passed (table.rowAt a) = false

theorem CTable.setCurl_rowAt : (table.setCurl field curl).rowAt = table.rowAt := by
  funext id
  rw [CTable.rowAt, CTable.rowAt, setCurl_rows]

/-- A lookup moves to the first node that is not less. -/
theorem sfind_starts (wf : table.IndexWf field skip) (chain : table.skipLists field = some skip)
    (row : Row creator)
    : wp (sfind field { skip with curl := curl } row)
        (fun found after => ∃ part,
          table.StartsAt field skip (fun other => creator.compareFunction field row other == .gt)
            after part
          ∧ (found = true → ∃ n ∈ part.head?, ∀ a ∈ n.bucket,
            creator.compareFunction field row (table.rowAt a) = .eq)
          ∧ (found = false → ∀ n ∈ skip.nodes, ∀ a ∈ n.bucket,
            creator.compareFunction field row (table.rowAt a) ≠ .eq))
        anyStop (table.setCurl field curl) := by
  rw [sfind, wp_bind, wp_inspect]
  refine ⟨fun part located => ?_, fun _ _ => trivial⟩
  rw [CTable.setCurl_locate] at located
  obtain ⟨lows, shape, below, first, above⟩ := CTable.locate_split wf.ordered located
  have notBelow : ∀ n ∈ part, ∀ a ∈ n.bucket,
      creator.compareFunction field row (table.rowAt a) ≠ .gt := by
    cases part with
    | nil => exact fun _ none => by cases none
    | cons node rest =>
        refine List.forall_mem_cons.mpr ⟨first node rfl, fun n member a inside => ?_⟩
        rw [above n member a inside]
        exact fun same => by cases same
  have starts : table.StartsAt field skip
      (fun other => creator.compareFunction field row other == .gt)
      (table.setCurl field (part.head?.map Node.id)) part := by
    refine ⟨⟨lows, shape.symm⟩, rfl, fun n member outside a inside => ?_,
      fun n member a inside => ?_⟩
    · rw [shape] at member
      rcases List.mem_append.mp member with low | high
      · simp [below n low a inside]
      · exact absurd high outside
    · simpa using notBelow n member a inside
  rw [wp_bind, wp_modify, CTable.setCurl_twice chain]
  have misses (apart : ∀ n ∈ part.head?, ∀ a ∈ n.bucket,
      creator.compareFunction field row (table.rowAt a) ≠ .eq)
      : ∀ n ∈ skip.nodes, ∀ a ∈ n.bucket,
        creator.compareFunction field row (table.rowAt a) ≠ .eq := by
    intro n member a inside
    rw [shape] at member
    rcases List.mem_append.mp member with low | high
    · rw [below n low a inside]
      exact fun same => by cases same
    · cases part with
      | nil => cases high
      | cons node rest =>
          rcases List.mem_cons.mp high with rfl | high
          · exact apart n rfl a inside
          · rw [above n high a inside]
            exact fun same => by cases same
  cases part with
  | nil =>
      exact ⟨[], starts, fun same => (by cases same),
        fun _ => misses fun n none => by cases none⟩
  | cons node rest =>
      dsimp only
      rw [wp_bind, wp_inspect]
      refine ⟨fun ordering compared => ?_, fun _ _ => trivial⟩
      rw [CTable.setCurl_compareBucket] at compared
      obtain ⟨leader, more, bucket, same⟩ := CTable.compareBucket_eq compared
      have member : node ∈ skip.nodes := by simp [shape]
      have judged : ∀ a ∈ node.bucket,
          creator.compareFunction field row (table.rowAt a) = ordering := by
        intro a inside
        rw [same]
        exact wf.ordered.compare_bucket member inside (by simp [bucket])
      refine ⟨node :: rest, starts, fun found => ⟨node, rfl, fun a inside => ?_⟩, fun lost => ?_⟩
      · rw [judged a inside]
        simpa using found
      · refine misses fun n first a inside => ?_
        cases first
        rw [judged a inside]
        simpa using lost

/-- A start that passes over nodes stands at the first that it does not pass. -/
theorem dropNodes_starts (wf : table.IndexWf field skip) {row : Row creator}
    {passes : Ordering → Bool} {part rest : List (Node RowId)}
    (greater : ∀ {first later : Row creator}, creator.compareFunction field first later = .lt →
      passes (creator.compareFunction field row first) = false →
        passes (creator.compareFunction field row later) = false)
    (below : passes .gt = true)
    (located : table.locate field skip row = .ok rest)
    (drops : table.dropNodes field row passes rest = .ok part)
    : table.StartsAt field skip (fun other => passes (creator.compareFunction field row other))
        (table.setCurl field (part.head?.map Node.id)) part := by
  obtain ⟨lows, shape, less, -, -⟩ := CTable.locate_split wf.ordered located
  have ordered : Ordered (creator.compareFunction field) table.rowAt rest :=
    wf.ordered.sublist (by rw [shape]; exact List.sublist_append_right _ _)
  obtain ⟨dropped, rfl, passed, stays⟩ := CTable.dropNodes_split ordered drops
  refine ⟨⟨lows ++ dropped, by rw [shape, List.append_assoc]⟩, rfl,
    fun n member outside a inside => ?_, ?_⟩
  · rw [shape] at member
    rcases List.mem_append.mp member with low | high
    · simp [less n low a inside, below]
    · rcases List.mem_append.mp high with drop | keep
      · exact passed n drop a inside
      · exact absurd keep outside
  · cases part with
    | nil => exact fun _ none => by cases none
    | cons node rest =>
        have first := stays node rfl
        refine List.forall_mem_cons.mpr ⟨first, fun n member a inside => ?_⟩
        obtain ⟨leader, leads⟩ := List.exists_mem_of_ne_nil _ (ordered.nonempty node (by simp))
        have ascends := (List.pairwise_cons.mp (List.pairwise_append.mp ordered.ascending).2.1).1
        exact greater (ascends n member leader leads a inside) (first leader leads)

/-- The start of a skip-list walk passes over the rows that it is to pass over. -/
theorem startSkip_starts (wf : table.IndexWf field skip) (chain : table.skipLists field = some skip)
    (plan : Plan creator)
    : wp (startSkip plan field { skip with curl := curl })
        (fun _ after => ∃ part, table.StartsAt field skip (plan.passesOver field) after part)
        anyStop (table.setCurl field curl) := by
  have needed (ok : Row creator → CTable creator → Prop)
      (given : ∀ row1, plan.row1 = some row1 → ok row1 (table.setCurl field curl))
      : wp (needRow plan.row1) ok anyStop (table.setCurl field curl) := by
    cases isRow : plan.row1 with
    | none => trivial
    | some row1 => exact given row1 isRow
  unfold startSkip
  split
  · next start =>
      rw [wp_bind]
      refine needed _ fun row1 isRow => ?_
      rw [wp_bind]
      refine wp_mono (sfind_starts wf chain row1) ?_ (fun _ _ stops => stops)
      rintro found after ⟨part, starts, -⟩
      refine ⟨part, ?_⟩
      have same : plan.passesOver field
          = fun other => creator.compareFunction field row1 other == .gt := by
        funext other
        simp [Plan.passesOver, start, isRow]
      rw [same]
      exact starts
  · next start =>
      rw [wp_bind]
      refine needed _ fun row1 isRow => ?_
      have same : plan.passesOver field
          = fun other => creator.compareFunction field row1 other == .gt := by
        funext other
        simp [Plan.passesOver, start, isRow]
      rw [same, sfindEqualOrGreater, wp_bind, wp_inspect]
      refine ⟨fun rest located => ?_, fun _ _ => trivial⟩
      rw [wp_bind, wp_inspect]
      refine ⟨fun part drops => ?_, fun _ _ => trivial⟩
      rw [CTable.setCurl_locate] at located
      rw [CTable.setCurl_dropNodes] at drops
      rw [wp_modify, CTable.setCurl_twice chain]
      refine ⟨part, @dropNodes_starts _ _ _ _ wf row1 (· == .gt) part rest ?_ rfl located drops⟩
      intro first later less stays
      have atMost : (creator.compareFunction field row1 first).isLE = true := by
        cases value : creator.compareFunction field row1 first <;> simp_all
      simp [TransCmp.lt_of_isLE_of_lt atMost less]
  · next start =>
      rw [wp_bind]
      refine needed _ fun row1 isRow => ?_
      have same : plan.passesOver field
          = fun other => creator.compareFunction field row1 other != .lt := by
        funext other
        simp [Plan.passesOver, start, isRow]
      rw [same, sfindGreater, wp_bind, wp_inspect]
      refine ⟨fun rest located => ?_, fun _ _ => trivial⟩
      rw [wp_bind, wp_inspect]
      refine ⟨fun part drops => ?_, fun _ _ => trivial⟩
      rw [CTable.setCurl_locate] at located
      rw [CTable.setCurl_dropNodes] at drops
      rw [wp_modify, CTable.setCurl_twice chain]
      refine ⟨part, @dropNodes_starts _ _ _ _ wf row1 (· != .lt) part rest ?_ rfl located drops⟩
      intro first later less stays
      have below : creator.compareFunction field row1 first = .lt := by simpa using stays
      simp [TransCmp.lt_trans below less]
  · next start =>
      unfold resetCurl
      split
      · trivial
      · rw [wp_modify, CTable.setCurl_twice chain]
        refine ⟨skip.nodes, List.suffix_refl _, rfl,
          fun n member outside => absurd member outside, ?_⟩
        intro n member a inside
        simp [Plan.passesOver, start]
  · trivial

end Starts

-----------------------------------------------------------------------------------------
-- Skip-list walks from row to row
-----------------------------------------------------------------------------------------

section RowWalks

variable {table : CTable creator} {field : creator.Field} {skip : SkipList RowId}
  {plan : Plan creator} {head : NodeId}

theorem pastEnd_eq (plan : Plan creator) (row : Row creator) (here : CTable creator)
    : wp (pastEnd plan field row) (fun past after => after = here ∧ past = plan.past field row)
        anyStop here := by
  unfold pastEnd needRow Plan.past
  cases plan.skipEnd with
  | none => exact ⟨rfl, rfl⟩
  | geRow1 | gtRow1 =>
      dsimp only
      cases plan.row1 with
      | none => trivial
      | some row1 =>
          rw [wp_bind, wp_pure, wp_bind, wp_inspect]
          refine ⟨fun ordering compared => ?_, fun _ _ => trivial⟩
          exact ⟨rfl, by rw [compareRows_eq compared]; rfl⟩
  | geRow2 =>
      dsimp only
      cases plan.row2 with
      | none => trivial
      | some row2 =>
          rw [wp_bind, wp_pure, wp_bind, wp_inspect]
          refine ⟨fun ordering compared => ?_, fun _ _ => trivial⟩
          exact ⟨rfl, by rw [compareRows_eq compared]; rfl⟩

/-- A walk that ends at a row ends at every row that is not less. -/
theorem Plan.past_mono {row later : Row creator}
    (atMost : (creator.compareFunction field row later).isLE = true)
    (past : plan.past field row = true)
    : plan.past field later = true := by
  have notLess {other : Row creator} (stays : creator.compareFunction field row other ≠ .lt)
      : creator.compareFunction field later other ≠ .lt := by
    intro less
    exact stays (TransCmp.lt_of_isLE_of_lt atMost less)
  have greater {other : Row creator} (above : creator.compareFunction field row other = .gt)
      : creator.compareFunction field later other = .gt := by
    refine OrientedCmp.gt_of_lt ?_
    exact TransCmp.lt_of_lt_of_isLE (OrientedCmp.lt_of_gt above) atMost
  unfold Plan.past at *
  split at past
  · cases past
  · cases isRow : plan.row1 with
    | none =>
        rw [isRow] at past
        cases past
    | some row1 =>
        simp only [isRow, Option.any_some, bne_iff_ne] at past ⊢
        exact notLess past
  · cases isRow : plan.row1 with
    | none =>
        rw [isRow] at past
        cases past
    | some row1 =>
        simp only [isRow, Option.any_some, beq_iff_eq] at past ⊢
        exact greater past
  · cases isRow : plan.row2 with
    | none =>
        rw [isRow] at past
        cases past
    | some row2 =>
        simp only [isRow, Option.any_some, bne_iff_ne] at past ⊢
        exact notLess past

/-- Whether a walk goes through a node. -/
def Plan.goesThrough (plan : Plan creator) (table : CTable creator) (field : creator.Field)
    (node : Node RowId) : Bool :=
  node.bucket.all (fun id => !plan.past field (table.rowAt id))

/-- The rows of a part that a walk goes through are those that it does not end at. -/
theorem entries_goesThrough {part : List (Node RowId)}
    (ordered : Ordered (creator.compareFunction field) table.rowAt part)
    : entries (part.takeWhile (plan.goesThrough table field))
      = (entries part).filter (fun id => !plan.past field (table.rowAt id)) := by
  induction part with
  | nil => rfl
  | cons node rest ih =>
      have rest' := ih (ordered.sublist (List.sublist_cons_self _ _))
      have above := (List.pairwise_cons.mp ordered.ascending).1
      by_cases goes : plan.goesThrough table field node = true
      · have notPast : node.bucket.filter (fun id => !plan.past field (table.rowAt id))
            = node.bucket := by
          rw [List.filter_eq_self]
          simpa [Plan.goesThrough] using goes
        simp only [entries] at rest' ⊢
        rw [List.takeWhile_cons_of_pos goes, List.flatMap_cons, rest', List.flatMap_cons,
          List.filter_append, notPast]
      · rw [List.takeWhile_cons_of_neg goes]
        obtain ⟨a, inside, ends⟩ : ∃ a ∈ node.bucket, plan.past field (table.rowAt a) = true := by
          simpa [Plan.goesThrough] using goes
        refine (List.filter_eq_nil_iff.mpr fun id member => ?_).symm
        obtain ⟨n, member, holds⟩ := mem_entries.mp member
        have atMost : (creator.compareFunction field (table.rowAt a) (table.rowAt id)).isLE
            = true := by
          rcases List.mem_cons.mp member with rfl | member
          · rw [ordered.equal n List.mem_cons_self a inside id holds]
            rfl
          · rw [above n member a inside id holds]
            rfl
        simp [Plan.past_mono atMost ends]

/-- The head of the loop comes to the first row of the position, or the walk ends there. -/
theorem nextBucket_row (wf : table.IndexWf field skip) (chain : table.skipLists field = some skip)
    (rows : plan.skipNext = .row) {part : List (Node RowId)} (suffix : part <:+ skip.nodes)
    {myCount : Nat} (within : myCount ≤ table.count) (inIndex : Nat)
    : wp (nextBucket plan field head myCount inIndex)
        (fun result after => after = table.setCurl field (part.head?.map Node.id)
          ∧ result ≠ .endless
          ∧ (result = .complete → part.takeWhile (plan.goesThrough table field) = [])
          ∧ ∀ id pos, result = .visit id pos →
            ∃ node rest more, part = node :: rest ∧ node.bucket = id :: more
              ∧ pos = .bucketRow id myCount inIndex
              ∧ plan.goesThrough table field node = true)
        anyStop (table.setCurl field (part.head?.map Node.id)) := by
  have noValues : nextInValue plan field head inIndex = pure (some inIndex) := by
    rw [nextInValue, rows]
    rfl
  rw [nextBucket, wp_bind, wp_get]
  split
  · next beyond =>
      rw [CTable.setCurl_count] at beyond
      omega
  · rw [noValues, wp_bind, wp_pure]
    dsimp only
    rw [wp_bind, wp_inspect]
    refine ⟨fun walked reads => ?_, fun _ _ => trivial⟩
    obtain rfl := CTable.setCurl_walked chain reads
    rw [wp_bind, wp_inspect]
    refine ⟨fun first read => ?_, fun _ _ => trivial⟩
    cases part with
    | nil =>
        cases read
        exact ⟨rfl, (fun same => by cases same), fun _ => rfl, fun _ _ same => by cases same⟩
    | cons node rest =>
        obtain ⟨lows, shape⟩ := suffix
        have member : node ∈ skip.nodes := by simp [← shape]
        have stands : chainFrom { skip with curl := some node.id } node.id = node :: rest :=
          chainFrom_part wf.ordered.ids shape.symm
        simp only [srow, List.head?_cons, Option.map_some, stands] at read
        cases bucket : node.bucket with
        | nil => exact absurd bucket (wf.ordered.nonempty node member)
        | cons leader more =>
            rw [bucket] at read
            cases read
            dsimp only [List.head?_cons]
            rw [wp_bind, wp_inspect]
            refine ⟨fun row reads => ?_, fun _ _ => trivial⟩
            rw [CTable.setCurl_row] at reads
            obtain ⟨-, contents⟩ := CTable.row_eq reads
            rw [wp_bind]
            refine wp_mono (pastEnd_eq plan row _) ?_ (fun _ _ stops => stops)
            rintro past after ⟨rfl, same⟩
            have level : ∀ a ∈ node.bucket, plan.past field (table.rowAt a) = past := by
              intro a inside
              have equal := wf.ordered.equal node member
              have leads : leader ∈ node.bucket := by simp [bucket]
              rw [same, ← contents, Bool.eq_iff_iff]
              constructor
              · exact Plan.past_mono (by rw [equal a inside leader leads]; rfl)
              · exact Plan.past_mono (by rw [equal leader leads a inside]; rfl)
            have through : plan.goesThrough table field node = !past := by
              rw [Plan.goesThrough, Bool.eq_iff_iff, List.all_eq_true]
              constructor
              · intro all
                have leads : leader ∈ node.bucket := by simp [bucket]
                rw [← level leader leads]
                exact all leader leads
              · intro open' a inside
                rw [level a inside, open']
            cases past with
            | true =>
                exact ⟨rfl, (fun same => by cases same),
                  fun _ => List.takeWhile_cons_of_neg (by simp [through]),
                  fun _ _ same => by cases same⟩
            | false =>
                refine ⟨rfl, fun same => (by cases same), fun same => (by cases same),
                  fun id pos same => ?_⟩
                cases same
                exact ⟨node, rest, more, rfl, bucket, rfl, through⟩

/-- Where a row stands in its bucket list, and the row behind it there. -/
theorem bucketNext_eq (wf : table.IndexWf field skip) (chain : table.skipLists field = some skip)
    {curl : Option NodeId} {node : Node RowId} (member : node ∈ skip.nodes)
    {before post : List RowId} {row : RowId} (bucket : node.bucket = before ++ row :: post)
    {next : Option RowId}
    (behind : (table.setCurl field curl).bucketNext field row = .ok next)
    : next = post.head? := by
  have distinct := wf.ordered.distinct node member
  rw [bucket] at distinct
  have fresh : row ∉ before := fun inside =>
    List.disjoint_of_nodup_append distinct inside List.mem_cons_self
  have inside : row ∈ node.bucket := by simp [bucket]
  have listed := wf.members row (mem_entries.mpr ⟨node, member, inside⟩)
  have linked := (wf.links row listed node.id).mpr ⟨node, member, rfl, inside⟩
  unfold CTable.bucketNext at behind
  rw [CTable.setCurl_chain chain, CTable.setCurl_links, linked] at behind
  split at behind
  · cases behind
  · have list : bucketOf { skip with curl := curl } node.id row = node.bucket :=
      wf.bucketOf_eq member row
    dsimp only at behind
    rw [list, bucket, nextInList_append fresh] at behind
    cases behind
    rfl

/-- A row walk goes on through the bucket list, and then to the next node. -/
theorem skipStep_row (wf : table.IndexWf field skip) (chain : table.skipLists field = some skip)
    (rows : plan.skipNext = .row) {lows rest : List (Node RowId)} {node : Node RowId}
    (shape : skip.nodes = lows ++ node :: rest) {before post : List RowId} {row : RowId}
    (bucket : node.bucket = before ++ row :: post) {myCount : Nat} (within : myCount < table.count)
    (inIndex : Nat)
    : wp (skipStep plan field head (.bucketRow row myCount inIndex))
        (fun result after => result ≠ .endless
          ∧ (result = .complete →
            post = [] ∧ rest.takeWhile (plan.goesThrough table field) = [])
          ∧ ∀ id pos, result = .visit id pos →
            (∃ more, post = id :: more ∧ pos = .bucketRow id myCount inIndex
              ∧ after = table.setCurl field (some node.id))
            ∨ (post = [] ∧ ∃ next later more, rest = next :: later ∧ next.bucket = id :: more
              ∧ pos = .bucketRow id (myCount + 1) inIndex
              ∧ after = table.setCurl field (some next.id)
              ∧ plan.goesThrough table field next = true))
        anyStop (table.setCurl field (some node.id)) := by
  have member : node ∈ skip.nodes := by simp [shape]
  rw [skipStep, wp_bind, wp_inspect]
  refine ⟨fun next behind => ?_, fun _ _ => trivial⟩
  obtain rfl := bucketNext_eq wf chain member bucket behind
  cases post with
  | cons next more =>
      refine ⟨fun same => (by cases same), fun same => (by cases same), fun id pos same => ?_⟩
      cases same
      exact .inl ⟨more, rfl, rfl, rfl⟩
  | nil =>
      dsimp only [List.head?_nil]
      have stands : chainFrom { skip with curl := some node.id } node.id = node :: rest :=
        chainFrom_part wf.ordered.ids shape
      rw [wp_bind, leaveBucket, if_pos rows, wp_bind, wp_inspect]
      refine ⟨fun walked reads => ?_, fun _ _ => trivial⟩
      obtain rfl := CTable.setCurl_walked chain reads
      have moves : snext field { skip with curl := some node.id }
          = modify (CTable.setCurl · field (rest.head?.map Node.id)) := by
        simp only [snext, stands]
      rw [moves, wp_modify, CTable.setCurl_twice chain]
      have suffix : rest <:+ skip.nodes := ⟨lows ++ [node], by simp [shape]⟩
      refine wp_mono (nextBucket_row wf chain rows suffix within inIndex) ?_
        (fun _ _ stops => stops)
      rintro result after ⟨rfl, goesOn, ends, goes⟩
      refine ⟨goesOn, fun same => ⟨rfl, ends same⟩, fun id pos same => .inr ⟨rfl, ?_⟩⟩
      obtain ⟨next, later, more, rfl, bucket, stands, through⟩ := goes id pos same
      exact ⟨next, later, more, rfl, bucket, stands, rfl, through⟩

/-- A row walk visits the rest of the bucket list and the nodes that it goes through, by induction
on the walk.
-/
theorem Walks.rowRest {here : CTable creator} {pos : WalkPos} {visited : List RowId}
    {last : WalkResult} (walks : Walks plan pos here visited last) (skips : plan.walkType = .skip)
    (walked : plan.skipList = some { field := field, head := head })
    (wf : table.IndexWf field skip) (chain : table.skipLists field = some skip)
    (rows : plan.skipNext = .row) (fits : skip.nodes.length ≤ table.count)
    {lows rest : List (Node RowId)} {node : Node RowId}
    (shape : skip.nodes = lows ++ node :: rest) {before post : List RowId} {row : RowId}
    (bucket : node.bucket = before ++ row :: post) {myCount inIndex : Nat}
    (counts : myCount ≤ lows.length) (stands : pos = .bucketRow row myCount inIndex)
    (at' : here = table.setCurl field (some node.id))
    : visited = post ++ entries (rest.takeWhile (plan.goesThrough table field))
      ∧ last = .complete := by
  have step_eq (pos : WalkPos) : walkStep plan pos = skipStep plan field head pos := by
    simp only [walkStep, skips, walked]
  induction walks generalizing lows node rest before post row myCount with
  | @ends pos here after last step noVisit =>
      subst stands at'
      rw [step_eq] at step
      have within : myCount < table.count := by
        rw [shape, List.length_append, List.length_cons] at fits
        omega
      obtain ⟨goesOn, ends, -⟩ :=
        wp_returns (skipStep_row wf chain rows shape bucket within inIndex) step
      have complete := WalkResult.complete_of_noVisit noVisit goesOn
      obtain ⟨rfl, none⟩ := ends complete
      rw [none]
      exact ⟨rfl, complete⟩
  | @visit pos next here after id ids last step walks ih =>
      subst stands at'
      rw [step_eq] at step
      have within : myCount < table.count := by
        rw [shape, List.length_append, List.length_cons] at fits
        omega
      obtain ⟨-, -, goes⟩ :=
        wp_returns (skipStep_row wf chain rows shape bucket within inIndex) step
      rcases goes id next rfl with ⟨more, rfl, stands, at'⟩
        | ⟨rfl, node', later, more, rfl, bucket', stands, at', through⟩
      · have bucket' : node.bucket = (before ++ [row]) ++ id :: more := by rw [bucket]; simp
        obtain ⟨rfl, complete⟩ := ih shape bucket' counts stands at'
        exact ⟨rfl, complete⟩
      · have shape' : skip.nodes = (lows ++ [node]) ++ node' :: later := by rw [shape]; simp
        have first : node'.bucket = [] ++ id :: more := bucket'
        have counts' : myCount + 1 ≤ (lows ++ [node]).length := by simpa using counts
        obtain ⟨rfl, complete⟩ := ih shape' first counts' stands at'
        rw [List.takeWhile_cons_of_pos through, entries, entries, List.flatMap_cons, bucket']
        exact ⟨rfl, complete⟩

end RowWalks

-----------------------------------------------------------------------------------------
-- Skip-list walks from value to value
-----------------------------------------------------------------------------------------

section InWalks

variable {table : CTable creator} {field : creator.Field} {skip : SkipList RowId}
  {plan : Plan creator} {head : NodeId}

/-- The rows of an index that are equal to a value, in its order. -/
def CTable.equalRows (table : CTable creator) (field : creator.Field) (skip : SkipList RowId)
    (value : Row creator) : List RowId :=
  (entries skip.nodes).filter
    (fun id => creator.compareFunction field value (table.rowAt id) == .eq)

/-- The values that an index has rows for. -/
def CTable.foundValues (table : CTable creator) (field : creator.Field) (skip : SkipList RowId)
    (values : List (Row creator)) : List (Row creator) :=
  values.filter (fun value => table.equalRows field skip value != [])

theorem CTable.foundValues_cons_none {value : Row creator} {values : List (Row creator)}
    (absent : table.equalRows field skip value = [])
    : table.foundValues field skip (value :: values) = table.foundValues field skip values := by
  simp [CTable.foundValues, absent]

theorem CTable.foundValues_cons_some {value : Row creator} {values : List (Row creator)}
    (present : table.equalRows field skip value ≠ [])
    : table.foundValues field skip (value :: values)
      = value :: table.foundValues field skip values := by
  simp [CTable.foundValues, present]

theorem CTable.equalRows_nil {value : Row creator}
    (misses : ∀ n ∈ skip.nodes, ∀ a ∈ n.bucket,
      creator.compareFunction field value (table.rowAt a) ≠ .eq)
    : table.equalRows field skip value = [] := by
  rw [CTable.equalRows, List.filter_eq_nil_iff]
  intro id inside
  obtain ⟨n, member, holds⟩ := mem_entries.mp inside
  simpa using misses n member id holds

/-- The rows that are equal to a value are those of one node. -/
theorem CTable.equalRows_node (wf : table.IndexWf field skip) {lows rest : List (Node RowId)}
    {node : Node RowId} (shape : skip.nodes = lows ++ node :: rest) {value : Row creator}
    (equal : ∀ a ∈ node.bucket, creator.compareFunction field value (table.rowAt a) = .eq)
    : table.equalRows field skip value = node.bucket := by
  obtain ⟨leader, leads⟩ := List.exists_mem_of_ne_nil _ (wf.ordered.nonempty node (by simp [shape]))
  have ascending := wf.ordered.ascending
  rw [shape, List.pairwise_append, List.pairwise_cons] at ascending
  obtain ⟨-, ⟨above, -⟩, below⟩ := ascending
  have low : (entries lows).filter
      (fun id => creator.compareFunction field value (table.rowAt id) == .eq) = [] := by
    rw [List.filter_eq_nil_iff]
    intro id inside same
    obtain ⟨n, member, holds⟩ := mem_entries.mp inside
    have less := below n member node List.mem_cons_self id holds leader leads
    have alike : creator.compareFunction field (table.rowAt id) value = .eq :=
      OrientedCmp.eq_symm (by simpa using same)
    have even : creator.compareFunction field (table.rowAt id) (table.rowAt leader) = .eq :=
      TransCmp.eq_trans alike (equal leader leads)
    cases less.symm.trans even
  have high : (entries rest).filter
      (fun id => creator.compareFunction field value (table.rowAt id) == .eq) = [] := by
    rw [List.filter_eq_nil_iff]
    intro id inside same
    obtain ⟨n, member, holds⟩ := mem_entries.mp inside
    have less := above n member leader leads id holds
    have alike : creator.compareFunction field (table.rowAt leader) (table.rowAt id) = .eq :=
      TransCmp.eq_trans (OrientedCmp.eq_symm (equal leader leads)) (by simpa using same)
    cases less.symm.trans alike
  have mine : node.bucket.filter
      (fun id => creator.compareFunction field value (table.rowAt id) == .eq) = node.bucket := by
    rw [List.filter_eq_self]
    intro id inside
    simpa using equal id inside
  rw [CTable.equalRows, shape, entries, List.flatMap_append, List.flatMap_cons, List.filter_append,
    List.filter_append, mine]
  rw [entries] at low high
  rw [low, high, List.append_nil, List.nil_append]

/-- The loop over the values passes those that are not found, by induction on the values. -/
theorem probeRows_next (wf : table.IndexWf field skip) (chain : table.skipLists field = some skip)
    (values : List (Row creator)) (used : Nat) (curl : Option NodeId)
    : wp (probeRows field head values used)
        (fun result after =>
          (result = none → table.foundValues field skip values = [])
          ∧ ∀ number, result = some number →
            ∃ passed value lows node more, number = used + passed + 1
              ∧ table.foundValues field skip values
                = value :: table.foundValues field skip (values.drop (passed + 1))
              ∧ skip.nodes = lows ++ node :: more
              ∧ table.equalRows field skip value = node.bucket
              ∧ after = table.setCurl field (some node.id))
        anyStop (table.setCurl field curl) := by
  induction values generalizing used curl with
  | nil => exact ⟨fun _ => rfl, fun _ same => by cases same⟩
  | cons value rest ih =>
      rw [probeRows, wp_bind, wp_inspect]
      refine ⟨fun walked reads => ?_, fun _ _ => trivial⟩
      obtain rfl := CTable.setCurl_walked chain reads
      rw [wp_bind]
      refine wp_mono (sfind_starts wf chain value) ?_ (fun _ _ stops => stops)
      rintro found after ⟨part, starts, equal, misses⟩
      obtain ⟨⟨lows, shape⟩, rfl, -, -⟩ := starts
      cases found with
      | true =>
          obtain ⟨node, first, alike⟩ := equal rfl
          cases part with
          | nil => cases first
          | cons other more =>
              cases first
              refine ⟨fun same => (by cases same), fun number same => ?_⟩
              cases same
              have mine := CTable.equalRows_node wf shape.symm alike
              have present : table.equalRows field skip value ≠ [] := by
                rw [mine]
                exact wf.ordered.nonempty node (by simp [← shape])
              exact ⟨0, value, lows, node, more, rfl, CTable.foundValues_cons_some present,
                shape.symm, mine, rfl⟩
      | false =>
          have absent := CTable.equalRows_nil (misses rfl)
          rw [CTable.foundValues_cons_none absent]
          refine wp_mono (ih (used + 1) (part.head?.map Node.id)) ?_ (fun _ _ stops => stops)
          rintro result after ⟨none, goes⟩
          refine ⟨none, fun number same => ?_⟩
          obtain ⟨passed, other, lows, node, more, rfl, found, shape, alike, stands⟩ :=
            goes number same
          exact ⟨passed + 1, other, lows, node, more, by omega, found, shape, alike, stands⟩

/-- The head of the loop comes to the first row of the next value that is found, unless it has
counted more values than the table has rows.
-/
theorem nextBucket_in (wf : table.IndexWf field skip) (chain : table.skipLists field = some skip)
    (values : plan.skipNext = .inList) (noEnd : plan.skipEnd = .none) (myCount inIndex : Nat)
    (curl : Option NodeId)
    : wp (nextBucket plan field head myCount inIndex)
        (fun result after =>
          (result = .endless → table.count < myCount)
          ∧ (result ≠ .endless → myCount ≤ table.count)
          ∧ (result = .complete →
            table.foundValues field skip (plan.inListRows.drop inIndex) = [])
          ∧ ∀ id pos, result = .visit id pos →
            ∃ number value lows node rest more, pos = .bucketRow id myCount number
              ∧ skip.nodes = lows ++ node :: rest ∧ node.bucket = id :: more
              ∧ after = table.setCurl field (some node.id)
              ∧ table.equalRows field skip value = node.bucket
              ∧ table.foundValues field skip (plan.inListRows.drop inIndex)
                = value :: table.foundValues field skip (plan.inListRows.drop number))
        anyStop (table.setCurl field curl) := by
  rw [nextBucket, wp_bind, wp_get, CTable.setCurl_count]
  split
  · next beyond =>
      exact ⟨fun _ => beyond, fun apart => absurd rfl apart, fun same => (by cases same),
        fun _ _ same => by cases same⟩
  · next within =>
      have counts : myCount ≤ table.count := by omega
      rw [wp_bind, nextInValue, if_pos values]
      refine wp_mono (probeRows_next wf chain _ inIndex curl) ?_ (fun _ _ stops => stops)
      rintro result after ⟨none, goes⟩
      cases result with
      | none =>
          exact ⟨fun same => (by cases same), fun _ => counts, fun _ => none rfl,
            fun _ _ same => by cases same⟩
      | some number =>
          obtain ⟨passed, value, lows, node, rest, rfl, found, shape, alike, rfl⟩ := goes number rfl
          dsimp only
          rw [wp_bind, wp_inspect]
          refine ⟨fun walked reads => ?_, fun _ _ => trivial⟩
          obtain rfl := CTable.setCurl_walked chain reads
          rw [wp_bind, wp_inspect]
          refine ⟨fun first read => ?_, fun _ _ => trivial⟩
          have stands : chainFrom { skip with curl := some node.id } node.id = node :: rest :=
            chainFrom_part wf.ordered.ids shape
          simp only [srow, stands] at read
          have member : node ∈ skip.nodes := by simp [shape]
          cases bucket : node.bucket with
          | nil => exact absurd bucket (wf.ordered.nonempty node member)
          | cons leader more =>
              rw [bucket] at read
              cases read
              dsimp only [List.head?_cons]
              rw [wp_bind, wp_inspect]
              refine ⟨fun row reads => ?_, fun _ _ => trivial⟩
              rw [wp_bind]
              refine wp_mono (pastEnd_eq plan row _) ?_ (fun _ _ stops => stops)
              rintro past after ⟨rfl, same⟩
              have goesOn : past = false := by rw [same, Plan.past, noEnd]
              subst goesOn
              refine ⟨fun same => (by cases same), fun _ => counts, fun same => (by cases same),
                fun id pos same => ?_⟩
              cases same
              rw [List.drop_drop, ← Nat.add_assoc] at found
              exact ⟨_, value, lows, node, rest, more, rfl, shape, bucket, rfl, alike, found⟩

/-- A step in a bucket list goes on in it or comes to the head of the loop. -/
theorem skipStep_in (wf : table.IndexWf field skip) (chain : table.skipLists field = some skip)
    (values : plan.skipNext = .inList) {node : Node RowId} (member : node ∈ skip.nodes)
    {before post : List RowId} {row : RowId} (bucket : node.bucket = before ++ row :: post)
    {myCount inIndex : Nat} {ok : WalkResult → CTable creator → Prop}
    (inside : ∀ next more, post = next :: more →
      ok (.visit next (.bucketRow next myCount inIndex)) (table.setCurl field (some node.id)))
    (leaves : post = [] → wp (nextBucket plan field head (myCount + 1) inIndex) ok anyStop
      (table.setCurl field (some node.id)))
    : wp (skipStep plan field head (.bucketRow row myCount inIndex)) ok anyStop
        (table.setCurl field (some node.id)) := by
  rw [skipStep, wp_bind, wp_inspect]
  refine ⟨fun next behind => ?_, fun _ _ => trivial⟩
  obtain rfl := bucketNext_eq wf chain member bucket behind
  cases post with
  | cons next more => exact inside next more rfl
  | nil =>
      dsimp only [List.head?_nil]
      rw [leaveBucket, values]
      exact leaves rfl

/-- A walk over values visits the rest of the bucket list and the rows of as many of the values
left as the loop counter allows, by induction on the walk.
-/
theorem Walks.inRest {here : CTable creator} {pos : WalkPos} {visited : List RowId}
    {last : WalkResult} (walks : Walks plan pos here visited last) (skips : plan.walkType = .skip)
    (walked : plan.skipList = some { field := field, head := head })
    (wf : table.IndexWf field skip) (chain : table.skipLists field = some skip)
    (values : plan.skipNext = .inList) (noEnd : plan.skipEnd = .none)
    {lows rest : List (Node RowId)} {node : Node RowId}
    (shape : skip.nodes = lows ++ node :: rest) {before post : List RowId} {row : RowId}
    (bucket : node.bucket = before ++ row :: post) {myCount inIndex left : Nat}
    (counts : table.count = myCount + left) (stands : pos = .bucketRow row myCount inIndex)
    (at' : here = table.setCurl field (some node.id))
    {found : List (Row creator)}
    (later : found = table.foundValues field skip (plan.inListRows.drop inIndex))
    : visited = post ++ (found.take left).flatMap (table.equalRows field skip)
      ∧ last = if left ≤ found.length then .endless else .complete := by
  have step_eq (pos : WalkPos) : walkStep plan pos = skipStep plan field head pos := by
    simp only [walkStep, skips, walked]
  induction walks generalizing lows node rest before post row myCount inIndex left found with
  | @ends pos here after last step noVisit =>
      subst stands at'
      have ends : wp (skipStep plan field head (.bucketRow row myCount inIndex))
          (fun result _ => (∀ id next, result ≠ .visit id next) →
            post = []
            ∧ (result = .endless → table.count < myCount + 1)
            ∧ (result ≠ .endless → myCount + 1 ≤ table.count)
            ∧ (result = .complete → found = []))
          anyStop (table.setCurl field (some node.id)) := by
        refine skipStep_in wf chain values (by simp [shape]) bucket ?_ ?_
        · intro next more same noVisit
          exact absurd rfl (noVisit next _)
        · rintro rfl
          refine wp_mono (nextBucket_in wf chain values noEnd _ inIndex _) ?_
            (fun _ _ stops => stops)
          rintro result after ⟨endless, counts, complete, -⟩ noVisit
          exact ⟨rfl, endless, counts, fun same => later.trans (complete same)⟩
      rw [step_eq] at step
      obtain ⟨rfl, endless, within, complete⟩ := wp_returns ends step noVisit
      cases last with
      | visit id next => exact absurd rfl (noVisit id next)
      | complete =>
          have some' : ¬ left ≤ 0 := by
            have := within (fun same => by cases same)
            omega
          rw [complete rfl]
          exact ⟨by simp, (if_neg some').symm⟩
      | endless =>
          have none : left = 0 := by
            have := endless rfl
            omega
          rw [none]
          exact ⟨by simp, (if_pos (Nat.zero_le _)).symm⟩
  | @visit pos next here after id ids last step walks ih =>
      subst stands at'
      have goes : wp (skipStep plan field head (.bucketRow row myCount inIndex))
          (fun result after => ∀ id pos, result = .visit id pos →
            (∃ more, post = id :: more ∧ pos = .bucketRow id myCount inIndex
              ∧ after = table.setCurl field (some node.id))
            ∨ (post = [] ∧ myCount + 1 ≤ table.count
              ∧ ∃ number value lows node rest more, pos = .bucketRow id (myCount + 1) number
              ∧ skip.nodes = lows ++ node :: rest ∧ node.bucket = id :: more
              ∧ after = table.setCurl field (some node.id)
              ∧ table.equalRows field skip value = node.bucket
              ∧ found = value :: table.foundValues field skip (plan.inListRows.drop number)))
          anyStop (table.setCurl field (some node.id)) := by
        refine skipStep_in wf chain values (by simp [shape]) bucket ?_ ?_
        · rintro next more rfl id pos same
          cases same
          exact .inl ⟨more, rfl, rfl, rfl⟩
        · rintro rfl
          refine wp_mono (nextBucket_in wf chain values noEnd _ inIndex _) ?_
            (fun _ _ stops => stops)
          rintro result after ⟨-, within, -, visits⟩ id pos rfl
          rw [later]
          exact .inr ⟨rfl, within (fun same => by cases same), visits id pos rfl⟩
      rw [step_eq] at step
      rcases wp_returns goes step id next rfl with ⟨more, rfl, stands, at'⟩
        | ⟨rfl, within, number, value, lows', node', rest', more, stands, shape', bucket', at',
          alike, rfl⟩
      · have bucket' : node.bucket = (before ++ [row]) ++ id :: more := by rw [bucket]; simp
        obtain ⟨rfl, same⟩ := ih shape bucket' counts stands at' later
        exact ⟨rfl, same⟩
      · have first : node'.bucket = [] ++ id :: more := bucket'
        obtain ⟨left', rfl⟩ : ∃ left', left = left' + 1 := ⟨left - 1, by omega⟩
        have counts' : table.count = myCount + 1 + left' := by omega
        obtain ⟨rfl, rfl⟩ := ih shape' first counts' stands at' rfl
        rw [List.take_succ_cons, List.flatMap_cons, alike, bucket']
        refine ⟨rfl, ?_⟩
        simp only [List.length_cons, Nat.add_le_add_iff_right]

end InWalks

-----------------------------------------------------------------------------------------
-- Whole skip-list walks
-----------------------------------------------------------------------------------------

section WholeWalks

variable {table : CTable creator} {field : creator.Field} {skip : SkipList RowId}
  {plan : Plan creator} {head : NodeId} {visited : List RowId} {last : WalkResult}

theorem CTable.setCurl_self (chain : table.skipLists field = some skip)
    : table.setCurl field skip.curl = table := by
  rw [CTable.setCurl, chain]
  dsimp only
  rw [CTable.setSkipList, ← chain, Function.update_eq_self]

/-- There is a row of the table for every node. -/
theorem CTable.Keyed.nodes_le (keyed : table.Keyed) (wf : table.IndexWf field skip)
    : skip.nodes.length ≤ table.count := by
  have filled : skip.nodes.length ≤ (entries skip.nodes).length := by
    rw [entries, List.length_flatMap, ← Nat.mul_one skip.nodes.length,
      ← List.length_map Node.bucket]
    have lengths := List.card_nsmul_le_sum (skip.nodes.map (fun n => n.bucket.length)) 1
      (fun length inside => by
        obtain ⟨n, member, rfl⟩ := List.mem_map.mp inside
        exact List.length_pos_iff.mpr (wf.ordered.nonempty n member))
    simpa using lengths
  have listed : (entries skip.nodes).length ≤ table.llHead.length :=
    (List.subperm_of_subset wf.ordered.entries_nodup wf.members).length_le
  rw [keyed.count]
  exact_mod_cast filled.trans listed

/-- The first step of a skip-list walk finds its start and comes to the head of the loop. -/
theorem skipStep_start (wf : table.IndexWf field skip) (chain : table.skipLists field = some skip)
    (plan : Plan creator) {ok : WalkResult → CTable creator → Prop}
    (goes : ∀ lows part, skip.nodes = lows ++ part →
      (∀ n ∈ lows, ∀ a ∈ n.bucket, plan.passesOver field (table.rowAt a) = true) →
      (∀ n ∈ part, ∀ a ∈ n.bucket, plan.passesOver field (table.rowAt a) = false) →
        wp (nextBucket plan field head 0 0) ok anyStop
          (table.setCurl field (part.head?.map Node.id)))
    : wp (skipStep plan field head .start) ok anyStop table := by
  rw [skipStep, wp_bind, wp_inspect]
  · refine ⟨fun walked reads => ?_, fun _ _ => trivial⟩
    have same := CTable.setCurl_self chain
    rw [← same] at reads
    obtain rfl := CTable.setCurl_walked chain reads
    rw [wp_bind]
    have starts := @startSkip_starts creator table field skip skip.curl wf chain plan
    rw [same] at starts
    refine wp_mono starts ?_ (fun _ _ stops => stops)
    rintro - after ⟨part, ⟨lows, shape⟩, rfl, before, behind⟩
    refine goes lows part shape.symm (fun n member => before n ?_ ?_) behind
    · simp [← shape, member]
    · have distinct := List.Nodup.of_map Node.id wf.ordered.ids
      rw [← shape] at distinct
      exact fun inside => List.disjoint_of_nodup_append distinct member inside
  · intro row myCount inIndex same
    cases same

/-- A row walk visits the rows of the index that it neither passes over nor ends at, in order. -/
theorem Walks.rows (walks : Walks plan .start table visited last) (skips : plan.walkType = .skip)
    (walked : plan.skipList = some { field := field, head := head })
    (wf : table.IndexWf field skip) (chain : table.skipLists field = some skip)
    (rows : plan.skipNext = .row) (keyed : table.Keyed)
    : visited
        = (entries skip.nodes).filter (fun id =>
          !plan.passesOver field (table.rowAt id) && !plan.past field (table.rowAt id))
      ∧ last = .complete := by
  have step_eq : walkStep plan .start = skipStep plan field head .start := by
    simp only [walkStep, skips, walked]
  -- The visited rows are those of the nodes from the start up to the end.
  have whole {lows part : List (Node RowId)} (shape : skip.nodes = lows ++ part)
      (before : ∀ n ∈ lows, ∀ a ∈ n.bucket, plan.passesOver field (table.rowAt a) = true)
      (behind : ∀ n ∈ part, ∀ a ∈ n.bucket, plan.passesOver field (table.rowAt a) = false)
      : entries (part.takeWhile (plan.goesThrough table field))
        = (entries skip.nodes).filter (fun id =>
          !plan.passesOver field (table.rowAt id) && !plan.past field (table.rowAt id)) := by
    have passed : (entries lows).filter (fun id =>
        !plan.passesOver field (table.rowAt id) && !plan.past field (table.rowAt id)) = [] := by
      rw [List.filter_eq_nil_iff]
      intro id inside
      obtain ⟨n, member, holds⟩ := mem_entries.mp inside
      simp [before n member id holds]
    have stays : (entries part).filter (fun id =>
        !plan.passesOver field (table.rowAt id) && !plan.past field (table.rowAt id))
        = (entries part).filter (fun id => !plan.past field (table.rowAt id)) := by
      refine List.filter_congr fun id inside => ?_
      obtain ⟨n, member, holds⟩ := mem_entries.mp inside
      simp [behind n member id holds]
    have ordered : Ordered (creator.compareFunction field) table.rowAt part :=
      wf.ordered.sublist (by rw [shape]; exact List.sublist_append_right _ _)
    have apart : entries (lows ++ part) = entries lows ++ entries part := List.flatMap_append
    rw [entries_goesThrough ordered, shape, apart, List.filter_append, passed, stays,
      List.nil_append]
  have starts : wp (skipStep plan field head .start)
      (fun result after => result ≠ .endless
        ∧ ∃ lows part, skip.nodes = lows ++ part
          ∧ (∀ n ∈ lows, ∀ a ∈ n.bucket, plan.passesOver field (table.rowAt a) = true)
          ∧ (∀ n ∈ part, ∀ a ∈ n.bucket, plan.passesOver field (table.rowAt a) = false)
          ∧ (result = .complete → part.takeWhile (plan.goesThrough table field) = [])
          ∧ ∀ id pos, result = .visit id pos →
            ∃ node later more, part = node :: later ∧ node.bucket = id :: more
              ∧ pos = .bucketRow id 0 0 ∧ after = table.setCurl field (some node.id)
              ∧ plan.goesThrough table field node = true)
      anyStop table := by
    refine skipStep_start wf chain plan fun lows part shape before behind => ?_
    have suffix : part <:+ skip.nodes := ⟨lows, shape.symm⟩
    have within : ((0 : Nat) : Int) ≤ table.count := by
      rw [keyed.count]
      exact Int.natCast_nonneg _
    refine wp_mono (nextBucket_row wf chain rows suffix within 0) ?_ (fun _ _ stops => stops)
    rintro result after ⟨rfl, goesOn, ends, goes⟩
    refine ⟨goesOn, lows, part, shape, before, behind, ends, fun id pos same => ?_⟩
    obtain ⟨node, later, more, rfl, bucket, stands, through⟩ := goes id pos same
    exact ⟨node, later, more, rfl, bucket, stands, rfl, through⟩
  cases walks with
  | ends step noVisit =>
      rw [step_eq] at step
      obtain ⟨goesOn, lows, part, shape, before, behind, ends, -⟩ := wp_returns starts step
      have complete := WalkResult.complete_of_noVisit noVisit goesOn
      rw [← whole shape before behind, ends complete]
      exact ⟨rfl, complete⟩
  | @visit _ next _ after id ids _ step rest =>
      rw [step_eq] at step
      obtain ⟨-, lows, part, shape, before, behind, -, goes⟩ := wp_returns starts step
      obtain ⟨node, later, more, rfl, bucket, stands, at', through⟩ := goes id next rfl
      have first : node.bucket = [] ++ id :: more := bucket
      obtain ⟨rfl, complete⟩ := rest.rowRest skips walked wf chain rows (keyed.nodes_le wf) shape
        first (Nat.zero_le _) stands at'
      rw [← whole shape before behind, List.takeWhile_cons_of_pos through, entries, entries,
        List.flatMap_cons, bucket]
      exact ⟨rfl, complete⟩

/-- A walk over values visits the rows that are equal to the values, one value after the other. It
ends in error when it has found more values than the table has rows.
-/
theorem Walks.values (walks : Walks plan .start table visited last)
    (skips : plan.walkType = .skip)
    (walked : plan.skipList = some { field := field, head := head })
    (wf : table.IndexWf field skip) (chain : table.skipLists field = some skip)
    (values : plan.skipNext = .inList) (noEnd : plan.skipEnd = .none)
    (counts : table.count = table.llHead.length)
    {found : List (Row creator)} (all : found = table.foundValues field skip plan.inListRows)
    : visited = (found.take (table.llHead.length + 1)).flatMap (table.equalRows field skip)
      ∧ last = if table.llHead.length < found.length then .endless else .complete := by
  have step_eq : walkStep plan .start = skipStep plan field head .start := by
    simp only [walkStep, skips, walked]
  have starts : wp (skipStep plan field head .start)
      (fun result after => result ≠ .endless
        ∧ (result = .complete → found = [])
        ∧ ∀ id pos, result = .visit id pos →
          ∃ number value lows node rest more, pos = .bucketRow id 0 number
            ∧ skip.nodes = lows ++ node :: rest ∧ node.bucket = id :: more
            ∧ after = table.setCurl field (some node.id)
            ∧ table.equalRows field skip value = node.bucket
            ∧ found = value :: table.foundValues field skip (plan.inListRows.drop number))
      anyStop table := by
    refine skipStep_start wf chain plan fun lows part _ _ _ => ?_
    refine wp_mono (nextBucket_in wf chain values noEnd 0 0 _) ?_ (fun _ _ stops => stops)
    rintro result after ⟨endless, -, complete, goes⟩
    rw [all]
    refine ⟨fun same => ?_, complete, goes⟩
    have beyond := endless same
    omega
  cases walks with
  | ends step noVisit =>
      rw [step_eq] at step
      obtain ⟨goesOn, complete, -⟩ := wp_returns starts step
      have ends := WalkResult.complete_of_noVisit noVisit goesOn
      rw [complete ends, ends]
      exact ⟨rfl, rfl⟩
  | @visit _ next _ after id ids _ step rest =>
      rw [step_eq] at step
      obtain ⟨-, -, goes⟩ := wp_returns starts step
      obtain ⟨number, value, lows, node, later, more, stands, shape, bucket, at', alike, rfl⟩ :=
        goes id next rfl
      have first : node.bucket = [] ++ id :: more := bucket
      have counts' : table.count = (0 : Nat) + table.llHead.length := by omega
      obtain ⟨rfl, rfl⟩ := rest.inRest skips walked wf chain values noEnd shape first counts' stands
        at' rfl
      rw [List.take_succ_cons, List.flatMap_cons, alike, bucket]
      refine ⟨rfl, ?_⟩
      simp only [List.length_cons, Nat.lt_succ_iff]

end WholeWalks

end SpeedTables
