import Mathlib
import SpeedTables.Lib.Versions
import SpeedTables.Shared.RowLists

/-! The skip list of an index in shared memory, and the searches that walk it without a lock. -/

namespace SpeedTables.Shared
open SpeedTables.Lib

variable {ν ρ κ : Type}

-----------------------------------------------------------------------------------------
-- Memory
-----------------------------------------------------------------------------------------

/-- The nodes of a skip list and the row lists that their `row` pointers head. The links of
`none` are those of the header.
-/
structure IndexMemory (ν ρ : Type) where
  next : Option ν → Nat → Option ν
  curh : Nat
  rows : ListMemory ν ρ

/-- `node->row` -/
def IndexMemory.row (memory : IndexMemory ν ρ) (node : ν) : Option ρ :=
  memory.rows.link (.head node)

-----------------------------------------------------------------------------------------
-- Locating
-----------------------------------------------------------------------------------------

/-- Where the loops of `locate` are: before the load of a next pointer, before the comparison
with the node that was loaded, or behind both loops.
-/
inductive LocatePhase (ν : Type) where
  | reads (place : Option ν) (level : Nat)
  | compares (place : Option ν) (level : Nat) (next : ν)
  | located (place : Option ν)
  | crashed

/-- The state of `locate`, with its update array. -/
structure Locating (ν : Type) where
  phase : LocatePhase ν
  fix : Nat → Option ν

namespace Locating

def start (memory : IndexMemory ν ρ) (fix : Nat → Option ν) : Locating ν where
  phase := .reads none memory.curh
  fix := fix

/-- `skip->fix[i] = p`, and the next level. -/
def leave (locating : Locating ν) (place : Option ν) (level : Nat) : Locating ν where
  phase :=
    match level with
    | 0 => .located place
    | below + 1 => .reads place below
  fix := Function.update locating.fix level place

@[simp]
theorem leave_fix (locating : Locating ν) (place : Option ν) (level : Nat)
    : (locating.leave place level).fix = Function.update locating.fix level place :=
  rfl

variable [LinearOrder κ]

/-- One load of `locate`, by a process that searches for a key. -/
def step (key : ρ → κ) (target : κ) (memory : IndexMemory ν ρ) (locating : Locating ν)
    : Locating ν :=
  match locating.phase with
  | .reads place level =>
      match memory.next place level with
      | none => locating.leave place level
      | some next => { locating with phase := .compares place level next }
  | .compares place level next =>
      match memory.row next with
      | none => { locating with phase := .crashed }
      | some row =>
          if target ≤ key row then locating.leave place level
          else { locating with phase := .reads (some next) level }
  | .located _ => locating
  | .crashed => locating

end Locating

-----------------------------------------------------------------------------------------
-- Searches
-----------------------------------------------------------------------------------------

/-- `skipStart`, with the key of `row1`. -/
inductive SearchStart (κ : Type) where
  | reset
  | equal (target : κ)
  | atLeast (target : κ)
  | above (target : κ)

/-- An index search: where it starts, and which keys are at or past its end. -/
structure IndexQuery (κ : Type) [LE κ] where
  start : SearchStart κ
  past : κ → Bool
  upward : ∀ {a b}, a ≤ b → past a = true → past b = true

/-- What the search does with the next node: it passes the nodes below its start, which is the
loop of `jsw_sfind_equal_or_greater`, it skips those that are not above it, or it fetches rows.
-/
inductive Goal (κ : Type) where
  | pass (target : κ) (above : Bool)
  | skip (target : κ)
  | fetch

/-- Where a search is. It ends at the end of the index, at a row past its end or at a node without
rows, and crashes when it compares with a missing row.
-/
inductive SearchPhase (ν ρ κ : Type) where
  | begins
  | locates (target : κ) (goal : Goal κ) (locating : Locating ν)
  | loads (place : Option ν) (goal : Goal κ)
  | meets (node : ν) (goal : Goal κ)
  | walks (node : ν) (bucket : LinkReader ν ρ)
  | complete
  | emptyBucket
  | crashed

/-- A search with the rows it has visited. -/
structure IndexReader (ν ρ κ : Type) where
  phase : SearchPhase ν ρ κ
  visited : List ρ

namespace IndexReader

variable [LinearOrder κ]

def start : IndexReader ν ρ κ where
  phase := .begins
  visited := []

/-- `jsw_sreset`, `jsw_sfind` and `jsw_sfind_equal_or_greater` -/
def begin (query : IndexQuery κ) (fix : Nat → Option ν) (memory : IndexMemory ν ρ)
    : SearchPhase ν ρ κ :=
  match query.start with
  | .reset => .loads none .fetch
  | .equal target => .locates target .fetch (.start memory fix)
  | .atLeast target => .locates target (.pass target false) (.start memory fix)
  | .above target => .locates target (.pass target true) (.start memory fix)

/-- What is done with a node whose first row is loaded. -/
def meet (query : IndexQuery κ) (key : ρ → κ) (node : ν) (row : Option ρ)
    : Goal κ → SearchPhase ν ρ κ
  | .pass target above =>
      match row with
      | none => .crashed
      | some row =>
          if key row < target then .loads (some node) (.pass target above)
          else .meets node (if above then .skip target else .fetch)
  | .skip target =>
      match row with
      | none => .emptyBucket
      | some row => if target < key row then .meets node .fetch else .loads (some node) (.skip target)
  | .fetch =>
      match row with
      | none => .emptyBucket
      | some row =>
          if query.past (key row) then .complete
          else .walks node { place := .next row, visited := [row], finished := false }

/-- One load of the search. Behind the last row of a node it moves on by `jsw_snext`. -/
def step (query : IndexQuery κ) (key : ρ → κ) (fix : Nat → Option ν) (memory : IndexMemory ν ρ)
    (reader : IndexReader ν ρ κ)
    : IndexReader ν ρ κ :=
  match reader.phase with
  | .begins => { reader with phase := begin query fix memory }
  | .locates target goal locating =>
      match locating.phase with
      | .located place => { reader with phase := .loads place goal }
      | .crashed => { reader with phase := .crashed }
      | _ => { reader with phase := .locates target goal (locating.step key target memory) }
  | .loads place goal =>
      match memory.next place 0 with
      | none => { reader with phase := .complete }
      | some node => { reader with phase := .meets node goal }
  | .meets node goal => { reader with phase := meet query key node (memory.row node) goal }
  | .walks node bucket =>
      let bucket := bucket.read memory.rows.link
      if bucket.finished then
        { phase := .loads (some node) .fetch, visited := reader.visited ++ bucket.visited }
      else { reader with phase := .walks node bucket }
  | .complete | .emptyBucket | .crashed => reader

end IndexReader

/-- The keys from the start of a search on. -/
def SearchStart.Reaches [LinearOrder κ] : SearchStart κ → κ → Prop
  | .reset, _ => True
  | .equal target, key => target ≤ key
  | .atLeast target, key => target ≤ key
  | .above target, key => target < key

/-- The search range. -/
def IndexQuery.InRange [LinearOrder κ] (query : IndexQuery κ) (key : κ) : Prop :=
  query.start.Reaches key ∧ query.past key = false

-----------------------------------------------------------------------------------------
-- What a search may meet
-----------------------------------------------------------------------------------------

/-- What a search can have been shown so far: the nodes it may hold on each level, and whether the
rows of a node have changed.
-/
structure IndexView (ν : Type) where
  held : ν → Nat → Prop
  changed : Prop

/-- The nodes that a search may meet while the row lists change, with the rows of each node
before and after.
-/
structure IndexScope (ν ρ κ : Type) where
  key : ρ → κ
  nodeKey : ν → κ
  nodes : List ν
  before : RowLists ν ρ
  after : RowLists ν ρ
  keyed : ∀ {node row}, row ∈ before node ∨ row ∈ after node → key row = nodeKey node
  injective
    : ∀ {node other},
        node ∈ nodes → other ∈ nodes → nodeKey node = nodeKey other → node = other
  known : ∀ {node row}, row ∈ before node → node ∈ nodes

namespace IndexScope

variable [LinearOrder κ] (scope : IndexScope ν ρ κ)

/-- A row that is in the list of a node all the time. -/
def Stays (node : ν) (row : ρ) : Prop := row ∈ scope.before node ∧ row ∈ scope.after node

/-- The node is behind a place of the walk. -/
def Behind (place : Option ν) (node : ν) : Prop :=
  ∀ other, place = some other → scope.nodeKey other < scope.nodeKey node

/-- The rows of the node before the change or, once it is made, after it. -/
def Has (changed : Prop) (node : ν) (rows : List ρ) : Prop :=
  rows = scope.before node ∨ changed ∧ rows = scope.after node

/-- A bucket reader sees such rows of the node. -/
def SeesRows (changed : Prop) (memory : IndexMemory ν ρ) (node : ν) (bucket : LinkReader ν ρ)
    : Prop :=
  ∃ rows, scope.Has changed node rows ∧ bucket.Sees memory.rows.link (.head node) rows

/-- What the memory shows a search that may hold some nodes: the nodes it is led to are further
and may be held, it is led past no node with a row that stays, and every bucket has rows.
-/
structure Shows (view : IndexView ν) (memory : IndexMemory ν ρ) : Prop where
  known : ∀ {node}, view.held node 0 → node ∈ scope.nodes
  lower : ∀ {node level}, view.held node (level + 1) → view.held node level
  ahead
    : ∀ {place level next},
        (∀ node, place = some node → view.held node level)
        → memory.next place level = some next
        → view.held next level ∧ scope.Behind place next
  passes
    : ∀ {place node row},
        (∀ node, place = some node → view.held node 0)
        → scope.Stays node row
        → scope.Behind place node
        → ∃ next, memory.next place 0 = some next ∧ scope.nodeKey next ≤ scope.nodeKey node
  bucket
    : ∀ {node},
        view.held node 0
        → ∃ rows, scope.Has view.changed node rows ∧ rows ≠ []
            ∧ LeadsTo memory.rows.link (.head node) rows

/-- A store: the search may hold at least the nodes that it could hold before, and sees the rows
that it is at.
-/
structure Changes (view : IndexView ν) (memory : IndexMemory ν ρ) (view' : IndexView ν)
    (memory' : IndexMemory ν ρ) : Prop where
  holds : ∀ {node level}, view.held node level → view'.held node level
  shows : scope.Shows view' memory'
  sees
    : ∀ {node bucket},
        view.held node 0
        → scope.SeesRows view.changed memory node bucket
        → scope.SeesRows view'.changed memory' node bucket

/-- Every row that stays in the search range is visited or at a node further on. -/
def Visits (query : IndexQuery κ) (further : ν → Prop) (visited : List ρ) : Prop :=
  ∀ node row,
    scope.Stays node row → query.InRange (scope.nodeKey node) → row ∈ visited ∨ further node

end IndexScope

/-- The goal of a search allows every key of its range. -/
def Goal.Allows [LinearOrder κ] : Goal κ → κ → Prop
  | .pass target above, key => target ≤ key ∧ (above = true → target < key)
  | .skip target, key => target < key
  | .fetch, _ => True

namespace IndexScope

variable [LinearOrder κ] {scope : IndexScope ν ρ κ} {query : IndexQuery κ}
  {view view' : IndexView ν} {memory memory' : IndexMemory ν ρ} {fix : Nat → Option ν}

/-- The place is the header or a node below the target. -/
def Below (scope : IndexScope ν ρ κ) (view : IndexView ν) (target : κ) (level : Nat)
    (place : Option ν) : Prop :=
  ∀ node, place = some node → view.held node level ∧ scope.nodeKey node < target

/-- `locate` is at such a place, and a node that it compares is behind it. -/
def LocatesBelow (scope : IndexScope ν ρ κ) (view : IndexView ν) (target : κ)
    : LocatePhase ν → Prop
  | .reads place level => scope.Below view target level place
  | .compares place level next =>
      scope.Below view target level place ∧ view.held next level ∧ scope.Behind place next
  | .located place => scope.Below view target 0 place
  | .crashed => False

/-- What holds of a search in every phase: it has not gone past a row that stays. -/
def Follows (scope : IndexScope ν ρ κ) (query : IndexQuery κ) (view : IndexView ν)
    (memory : IndexMemory ν ρ) (reader : IndexReader ν ρ κ)
    : Prop :=
  match reader.phase with
  | .begins => True
  | .locates target goal locating =>
      scope.LocatesBelow view target locating.phase
        ∧ ∀ key, query.InRange key → target ≤ key ∧ goal.Allows key
  | .loads place goal =>
      (∀ node, place = some node → view.held node 0)
        ∧ (∀ key, query.InRange key → goal.Allows key)
        ∧ scope.Visits query (scope.Behind place) reader.visited
  | .meets node goal =>
      view.held node 0
        ∧ (∀ key, query.InRange key → goal.Allows key)
        ∧ scope.Visits query (fun other => scope.nodeKey node ≤ scope.nodeKey other) reader.visited
  | .walks node bucket =>
      view.held node 0 ∧ bucket.finished = false ∧ scope.SeesRows view.changed memory node bucket
        ∧ scope.Visits query (fun other => scope.nodeKey node ≤ scope.nodeKey other) reader.visited
  | .complete => scope.Visits query (fun _ => False) reader.visited
  | .emptyBucket => False
  | .crashed => False

theorem Visits.imp {further further' : ν → Prop} {visited : List ρ}
    (visits : scope.Visits query further visited)
    (goesOn
      : ∀ {node row},
          scope.Stays node row → query.InRange (scope.nodeKey node) → further node → further' node)
    : scope.Visits query further' visited := by
  intro node row stays inRange
  exact (visits node row stays inRange).imp_right (goesOn stays inRange)

/-- The first row of a node that may be held. -/
theorem Shows.first (shows : scope.Shows view memory) {node : ν} (holds : view.held node 0)
    : ∃ row rest, memory.row node = some row ∧ scope.key row = scope.nodeKey node
        ∧ scope.Has view.changed node (row :: rest)
        ∧ LeadsTo memory.rows.link (.head node) (row :: rest) := by
  obtain ⟨rows, either, filled, leads⟩ := shows.bucket holds
  cases rows with
  | nil => exact absurd rfl filled
  | cons row rest =>
      refine ⟨row, rest, (leadsTo_cons.mp leads).1, scope.keyed ?_, either, leads⟩
      rcases either with same | ⟨_, same⟩
      · exact Or.inl (same ▸ List.mem_cons_self)
      · exact Or.inr (same ▸ List.mem_cons_self)

/-- A node that may be held on some level may be held on the lowest. -/
theorem Shows.lowest (shows : scope.Shows view memory) {node : ν} {level : Nat}
    (holds : view.held node level)
    : view.held node 0 := by
  induction level with
  | zero => exact holds
  | succ level ih => exact ih (shows.lower holds)

/-- `locate` stays below its target, whichever version it reads. -/
theorem LocatesBelow.step (shows : scope.Shows view memory) {target : κ} {locating : Locating ν}
    (below : scope.LocatesBelow view target locating.phase)
    : scope.LocatesBelow view target (locating.step scope.key target memory).phase := by
  have left {place : Option ν} {level : Nat} (below : scope.Below view target level place)
      : scope.LocatesBelow view target (locating.leave place level).phase := by
    cases level with
    | zero => exact below
    | succ level => exact fun node same => (below node same).imp_left shows.lower
  unfold Locating.step
  cases phase : locating.phase with
  | reads place level =>
      rw [phase] at below
      simp only
      split
      · exact left below
      · rename_i next points
        exact ⟨below, shows.ahead (fun node same => (below node same).1) points⟩
  | compares place level next =>
      rw [phase] at below
      obtain ⟨row, rest, first, keyed, -⟩ := shows.first (shows.lowest below.2.1)
      simp only [first, keyed]
      split
      · exact left below.1
      · rename_i above
        rintro node ⟨⟩
        exact ⟨below.2.1, lt_of_not_ge above⟩
  | located place => simpa only [phase] using below
  | crashed =>
      rw [phase] at below
      exact below.elim

/-- The search begins at the header. -/
theorem Follows.begin {reader : IndexReader ν ρ κ}
    : scope.Follows query view memory
        { reader with phase := IndexReader.begin query fix memory } := by
  unfold IndexReader.begin
  cases start : query.start with
  | reset =>
      refine ⟨nofun, fun _ _ => trivial, ?_⟩
      intro node row stays inRange
      exact Or.inr nofun
  | equal target =>
      refine ⟨nofun, ?_⟩
      intro key inRange
      have reaches := inRange.1
      rw [start] at reaches
      exact ⟨reaches, trivial⟩
  | atLeast target =>
      refine ⟨nofun, ?_⟩
      intro key inRange
      have reaches := inRange.1
      rw [start] at reaches
      exact ⟨reaches, reaches, nofun⟩
  | above target =>
      refine ⟨nofun, ?_⟩
      intro key inRange
      have reaches := inRange.1
      rw [start] at reaches
      have above : target < key := reaches
      exact ⟨above.le, above.le, fun _ => above⟩

/-- Meeting a node, the search passes no row that stays. -/
theorem Follows.meet (shows : scope.Shows view memory) {node : ν} {goal : Goal κ}
    {visited : List ρ} (holds : view.held node 0)
    (allows : ∀ key, query.InRange key → goal.Allows key)
    (visits
      : scope.Visits query (fun other => scope.nodeKey node ≤ scope.nodeKey other) visited)
    : scope.Follows query view memory
        { phase := IndexReader.meet query scope.key node (memory.row node) goal
          visited := visited } := by
  obtain ⟨row, rest, first, keyed, either, leads⟩ := shows.first holds
  have onlyHeld : ∀ other, some node = some other → view.held other 0 := by
    rintro other ⟨⟩
    exact holds
  have behind (lower : ∀ key, query.InRange key → scope.nodeKey node < key)
      : scope.Visits query (scope.Behind (some node)) visited := by
    refine visits.imp ?_
    rintro other row' - inRange - _ ⟨⟩
    exact lower _ inRange
  rw [first]
  cases goal with
  | pass target above =>
      simp only [IndexReader.meet, keyed]
      split
      · rename_i lower
        refine ⟨onlyHeld, allows, behind ?_⟩
        intro key inRange
        exact lower.trans_le (allows key inRange).1
      · refine ⟨holds, ?_, visits⟩
        intro key inRange
        cases above with
        | false => trivial
        | true => exact (allows key inRange).2 rfl
  | skip target =>
      simp only [IndexReader.meet, keyed]
      split
      · exact ⟨holds, fun _ _ => trivial, visits⟩
      · rename_i lower
        refine ⟨onlyHeld, allows, behind ?_⟩
        intro key inRange
        exact (not_lt.mp lower).trans_lt (allows key inRange)
  | fetch =>
      simp only [IndexReader.meet, keyed]
      split
      · rename_i past
        change scope.Visits query (fun _ => False) visited
        refine visits.imp ?_
        intro other row' _ inRange further
        have ends := query.upward further past
        rw [inRange.2] at ends
        cases ends
      · refine ⟨holds, rfl, ⟨row :: rest, either, ?_⟩, visits⟩
        have starts := (LinkReader.sees_start leads).read
        have loaded : memory.rows.link (.head node) = some row := first
        simpa [LinkReader.read, LinkReader.start, loaded] using starts

/-- Behind a bucket all its rows that stay are visited. -/
theorem Visits.bucket {node : ν} (known : node ∈ scope.nodes) {bucket : LinkReader ν ρ}
    {visited : List ρ} (finished : bucket.finished = true)
    (sees : scope.SeesRows view.changed memory node bucket)
    (visits : scope.Visits query (fun other => scope.nodeKey node ≤ scope.nodeKey other) visited)
    : scope.Visits query (scope.Behind (some node)) (visited ++ bucket.visited) := by
  intro other row stays inRange
  rcases visits other row stays inRange with before | further
  · exact Or.inl (List.mem_append_left _ before)
  · rcases lt_or_eq_of_le further with above | same
    · refine Or.inr ?_
      rintro _ ⟨⟩
      exact above
    · obtain rfl := scope.injective known (scope.known stays.1) same
      obtain ⟨rows, either, sees⟩ := sees
      refine Or.inl (List.mem_append_right _ ?_)
      rw [sees.visited.2 finished]
      rcases either with rfl | ⟨_, rfl⟩
      · exact stays.1
      · exact stays.2

/-- A load keeps the search from going past a row that stays. -/
theorem Follows.step (shows : scope.Shows view memory) {reader : IndexReader ν ρ κ}
    (follows : scope.Follows query view memory reader)
    : scope.Follows query view memory (reader.step query scope.key fix memory) := by
  obtain ⟨phase, visited⟩ := reader
  cases phase with
  | begins => exact Follows.begin
  | locates target goal locating =>
      obtain ⟨below, allows⟩ := follows
      have after := LocatesBelow.step shows below
      simp only [IndexReader.step]
      split
      · rename_i place located
        rw [located] at below
        refine ⟨fun node same => (below node same).1, fun key inRange => (allows key inRange).2, ?_⟩
        intro node row stays inRange
        refine Or.inr fun other same => ?_
        exact (below other same).2.trans_le (allows _ inRange).1
      · rename_i crashed
        rw [crashed] at below
        exact below.elim
      · exact ⟨after, allows⟩
  | loads place goal =>
      obtain ⟨holds, allows, visits⟩ := follows
      simp only [IndexReader.step]
      split
      · rename_i ends
        change scope.Visits query (fun _ => False) visited
        refine visits.imp ?_
        intro node row stays _ behind
        obtain ⟨next, points, -⟩ := shows.passes holds stays behind
        cases ends.symm.trans points
      · rename_i node points
        refine ⟨(shows.ahead holds points).1, allows, visits.imp ?_⟩
        intro other row stays _ behind
        obtain ⟨next, points', lower⟩ := shows.passes holds stays behind
        obtain rfl : node = next := by simpa using points.symm.trans points'
        exact lower
  | meets node goal =>
      obtain ⟨holds, allows, visits⟩ := follows
      exact Follows.meet shows holds allows visits
  | walks node bucket =>
      obtain ⟨holds, reading, sees, visits⟩ := follows
      have sees' : scope.SeesRows view.changed memory node (bucket.read memory.rows.link) := by
        obtain ⟨rows, either, sees⟩ := sees
        exact ⟨rows, either, sees.read⟩
      simp only [IndexReader.step]
      split
      · rename_i finished
        refine ⟨?_, fun _ _ => trivial, visits.bucket (shows.known holds) finished sees'⟩
        rintro _ ⟨⟩
        exact holds
      · rename_i finished
        exact ⟨holds, by simpa using finished, sees', visits⟩
  | complete => exact follows
  | emptyBucket => exact follows
  | crashed => exact follows

/-- A store keeps the search from going past a row that stays. -/
theorem Follows.changes (changes : scope.Changes view memory view' memory')
    {reader : IndexReader ν ρ κ} (follows : scope.Follows query view memory reader)
    : scope.Follows query view' memory' reader := by
  obtain ⟨phase, visited⟩ := reader
  cases phase with
  | begins => trivial
  | locates target goal locating =>
      obtain ⟨below, allows⟩ := follows
      refine ⟨?_, allows⟩
      have wider {place : Option ν} {level : Nat} (below : scope.Below view target level place)
          : scope.Below view' target level place :=
        fun node same => (below node same).imp_left changes.holds
      change scope.LocatesBelow view target locating.phase at below
      change scope.LocatesBelow view' target locating.phase
      cases phase : locating.phase with
      | reads place level =>
          rw [phase] at below
          exact wider below
      | compares place level next =>
          rw [phase] at below
          exact ⟨wider below.1, changes.holds below.2.1, below.2.2⟩
      | located place =>
          rw [phase] at below
          exact wider below
      | crashed =>
          rw [phase] at below
          exact below.elim
  | loads place goal =>
      obtain ⟨holds, allows, visits⟩ := follows
      exact ⟨fun node same => changes.holds (holds node same), allows, visits⟩
  | meets node goal =>
      obtain ⟨holds, allows, visits⟩ := follows
      exact ⟨changes.holds holds, allows, visits⟩
  | walks node bucket =>
      obtain ⟨holds, reading, sees, visits⟩ := follows
      exact ⟨changes.holds holds, reading, changes.sees holds sees, visits⟩
  | complete => exact follows
  | emptyBucket => exact follows
  | crashed => exact follows

-----------------------------------------------------------------------------------------
-- The end of a search
-----------------------------------------------------------------------------------------

/-- The number of nodes behind a place. -/
def rank (scope : IndexScope ν ρ κ) (place : Option ν) : Nat :=
  scope.nodes.countP (fun node => place.all (fun other => scope.nodeKey other < scope.nodeKey node))

/-- Fewer nodes are behind a node that is behind the place. -/
theorem rank_lt {place : Option ν} {node : ν} (known : node ∈ scope.nodes)
    (behind : scope.Behind place node)
    : scope.rank (some node) < scope.rank place := by
  obtain ⟨earlier, later, split⟩ := List.append_of_mem known
  have wider (other : ν) (after : scope.nodeKey node < scope.nodeKey other)
      : scope.Behind place other :=
    fun first same => (behind first same).trans after
  have counted {nodes : List ν}
      : nodes.countP (fun other => (some node).all
            (fun first => scope.nodeKey first < scope.nodeKey other))
        ≤ nodes.countP (fun other => place.all
            (fun first => scope.nodeKey first < scope.nodeKey other)) := by
    refine List.countP_mono_left fun other _ after => ?_
    have after : scope.nodeKey node < scope.nodeKey other := by simpa using after
    cases place with
    | none => rfl
    | some first => simpa using wider other after first rfl
  have here : place.all (fun first => scope.nodeKey first < scope.nodeKey node) = true := by
    cases place with
    | none => rfl
    | some first => simpa using behind first rfl
  have first := @counted earlier
  have second := @counted later
  unfold rank
  rw [split, List.countP_append, List.countP_append, List.countP_cons, List.countP_cons]
  simp only [here, if_true]
  simp only [Option.all_some, lt_irrefl, decide_false, Bool.false_eq_true, if_false]
    at first second ⊢
  omega

/-- The most rows in the bucket of a node. -/
def mostRows (scope : IndexScope ν ρ κ) (node : ν) : Nat :=
  max (scope.before node).length (scope.after node).length

/-- How far a search is from its end. -/
def distance (scope : IndexScope ν ρ κ) : SearchPhase ν ρ κ → Nat ×ₗ Nat ×ₗ Nat
  | .begins => toLex (3, toLex (0, 0))
  | .locates _ _ locating =>
      match locating.phase with
      | .reads place level => toLex (2, toLex (level + 1, 2 * scope.rank place + 1))
      | .compares place level _ => toLex (2, toLex (level + 1, 2 * scope.rank place))
      | .located _ => toLex (2, toLex (0, 0))
      | .crashed => toLex (2, toLex (0, 0))
  | .loads place _ => toLex (1, toLex (scope.rank place, 0))
  | .meets node (.pass _ _) => toLex (1, toLex (scope.rank (some node), scope.mostRows node + 4))
  | .meets node (.skip _) => toLex (1, toLex (scope.rank (some node), scope.mostRows node + 3))
  | .meets node .fetch => toLex (1, toLex (scope.rank (some node), scope.mostRows node + 2))
  | .walks node bucket =>
      toLex (1, toLex (scope.rank (some node), scope.mostRows node + 1 - bucket.visited.length))
  | .complete => toLex (0, toLex (0, 0))
  | .emptyBucket => toLex (0, toLex (0, 0))
  | .crashed => toLex (0, toLex (0, 0))

@[simp]
theorem lex_lt {a b c a' b' c' : Nat}
    : (toLex (a, toLex (b, c)) : Nat ×ₗ Nat ×ₗ Nat) < toLex (a', toLex (b', c'))
      ↔ a < a' ∨ a = a' ∧ (b < b' ∨ b = b' ∧ c < c') := by
  simp only [Prod.Lex.toLex_lt_toLex]

/-- Each load brings a search closer to its end. -/
theorem distance_step (shows : scope.Shows view memory) {reader : IndexReader ν ρ κ}
    (follows : scope.Follows query view memory reader) (goesOn : reader.phase ≠ .complete)
    : scope.distance (reader.step query scope.key fix memory).phase
      < scope.distance reader.phase := by
  obtain ⟨phase, visited⟩ := reader
  cases phase with
  | begins =>
      simp only [IndexReader.step, IndexReader.begin]
      cases query.start <;> simp [distance, Locating.start]
  | locates target goal locating =>
      obtain ⟨below, -⟩ := follows
      obtain ⟨phase, array⟩ := locating
      have leaves {place : Option ν} {level rest : Nat}
          : scope.distance (.locates target goal
              (Locating.leave { phase := phase, fix := array } place level))
            < toLex (2, toLex (level + 1, rest)) := by
        cases level <;> simp [distance, Locating.leave]
      cases phase with
      | reads place level =>
          cases points : memory.next place level with
          | none => simpa [IndexReader.step, Locating.step, points, distance] using leaves
          | some next => simp [IndexReader.step, Locating.step, points, distance]
      | compares place level next =>
          have holds := shows.lowest below.2.1
          obtain ⟨row, rest, first, keyed, -⟩ := shows.first holds
          have closer := scope.rank_lt (shows.known holds) below.2.2
          by_cases above : target ≤ scope.key row
          · simpa [IndexReader.step, Locating.step, first, above, distance] using leaves
          · simp only [IndexReader.step, Locating.step, first, above, if_false, distance, lex_lt,
              lt_irrefl, true_and, false_or]
            omega
      | located place => simp [IndexReader.step, distance]
      | crashed => exact below.elim
  | loads place goal =>
      obtain ⟨holds, -, -⟩ := follows
      cases points : memory.next place 0 with
      | none => simp [IndexReader.step, points, distance]
      | some node =>
          obtain ⟨holds', behind⟩ := shows.ahead holds points
          have closer := scope.rank_lt (shows.known holds') behind
          cases goal <;> simp [IndexReader.step, points, distance, closer]
  | meets node goal =>
      obtain ⟨row, rest, first, keyed, -⟩ := shows.first follows.1
      cases goal with
      | pass target above =>
          by_cases lower : scope.key row < target
          · simp [IndexReader.step, IndexReader.meet, first, lower, distance]
          · cases above <;> simp [IndexReader.step, IndexReader.meet, first, lower, distance]
      | skip target =>
          by_cases higher : target < scope.key row
          · simp [IndexReader.step, IndexReader.meet, first, higher, distance]
          · simp [IndexReader.step, IndexReader.meet, first, higher, distance]
      | fetch =>
          cases past : query.past (scope.key row) with
          | true => simp [IndexReader.step, IndexReader.meet, first, past, distance]
          | false => simp [IndexReader.step, IndexReader.meet, first, past, distance]
  | walks node bucket =>
      obtain ⟨-, reading, ⟨rows, either, sees⟩, -⟩ := follows
      cases ends : (bucket.read memory.rows.link).finished with
      | true =>
          have short := sees.visited.1.length_le
          have most : rows.length ≤ scope.mostRows node := by
            rcases either with rfl | ⟨_, rfl⟩
            · exact le_max_left ..
            · exact le_max_right ..
          simp only [IndexReader.step, ends, if_true, distance, lex_lt, lt_irrefl, true_and,
            false_or]
          omega
      | false =>
          have short := sees.read.visited.1.length_le
          have most : rows.length ≤ scope.mostRows node := by
            rcases either with rfl | ⟨_, rfl⟩
            · exact le_max_left ..
            · exact le_max_right ..
          have further := @LinkReader.read_progress _ _ memory.rows.link bucket
          simp only [ends, Bool.false_eq_true, false_or] at further
          simp only [IndexReader.step, ends, Bool.false_eq_true, if_false, distance, lex_lt,
            lt_irrefl, true_and, false_or]
          omega
  | complete => exact absurd rfl goesOn
  | emptyBucket => exact follows.elim
  | crashed => exact follows.elim

/-- A search that is alone ends, by induction on its distance. -/
theorem Follows.ends (shows : scope.Shows view memory) {reader : IndexReader ν ρ κ}
    (follows : scope.Follows query view memory reader)
    : ∃ turns,
        ((IndexReader.step query scope.key fix memory)^[turns] reader).phase = .complete := by
  induction closer : scope.distance reader.phase using WellFoundedLT.induction
    generalizing reader with
  | ind distance ih =>
      by_cases done : reader.phase = .complete
      · exact ⟨0, done⟩
      · obtain ⟨turns, ends⟩ :=
          ih _ (closer ▸ distance_step shows follows done) (follows.step shows) rfl
        exact ⟨turns + 1, ends⟩

end IndexScope

-----------------------------------------------------------------------------------------
-- Searches during an update
-----------------------------------------------------------------------------------------

section Searches

variable [LinearOrder κ] {key : ρ → κ} {query : IndexQuery κ} {fix : Nat → Option ν}

/-- A search and a writer that has still to store some versions, after some turns. -/
def search (query : IndexQuery κ) (key : ρ → κ) (fix : Nat → Option ν) (memory : IndexMemory ν ρ)
    (versions : List (IndexMemory ν ρ)) (schedule : List Turn)
    : Scene (IndexMemory ν ρ) (IndexReader ν ρ κ) :=
  Scene.run (IndexReader.step query key fix)
    { memory := memory, pending := versions, reader := .start } schedule

/-- The search meets no missing row and no node without rows, it has visited the wanted rows of
its range when it is complete, and it becomes complete when it goes on.
-/
structure ReadsAll (query : IndexQuery κ) (key : ρ → κ) (fix : Nat → Option ν) (wanted : ρ → Prop)
    (scene : Scene (IndexMemory ν ρ) (IndexReader ν ρ κ)) : Prop where
  meetsRows : scene.reader.phase ≠ .crashed ∧ scene.reader.phase ≠ .emptyBucket
  visits
    : scene.reader.phase = .complete
      → ∀ row, wanted row → query.InRange (key row) → row ∈ scene.reader.visited
  ends
    : ∃ turns,
        ((IndexReader.step query key fix scene.memory)^[turns] scene.reader).phase = .complete

/-- When every store is a change that the scope allows, every search reads the rows that stay. -/
theorem IndexScope.searches {scope : IndexScope ν ρ κ} {view final : IndexView ν}
    {memory : IndexMemory ν ρ} {versions : List (IndexMemory ν ρ)}
    (shows : scope.Shows view memory)
    (publishes : Publishes scope.Changes view memory versions final) (schedule : List Turn)
    : ReadsAll query scope.key fix (fun row => ∃ node, scope.Stays node row)
        (search query scope.key fix memory versions schedule) := by
  obtain ⟨view', shows', follows⟩ :=
    @Scene.run_invariant _ _ _ (IndexReader.step query scope.key fix) scope.Changes
      (fun view memory reader =>
        scope.Shows view memory ∧ scope.Follows query view memory reader)
      (fun invariant => ⟨invariant.1, invariant.2.step invariant.1⟩)
      (fun changes invariant => ⟨changes.shows, invariant.2.changes changes⟩)
      { memory := memory, pending := versions, reader := .start } view final publishes
      ⟨shows, trivial⟩ schedule
  change scope.Follows query view' _ (search query scope.key fix memory versions schedule).reader
    at follows
  refine ⟨?_, ?_, follows.ends shows'⟩
  · constructor <;> intro phase <;> simp only [IndexScope.Follows, phase] at follows
  · rintro phase row ⟨node, stays⟩ inRange
    simp only [IndexScope.Follows, phase] at follows
    have keyed : scope.key row = scope.nodeKey node := scope.keyed (Or.inl stays.1)
    exact (follows node row stays (keyed ▸ inRange)).resolve_right id

/-- A search that locates reaches what `locate` reaches, by induction on its loads. -/
theorem IndexReader.run_locates {memory : IndexMemory ν ρ} {target : κ} {goal : Goal κ}
    {locating : Locating ν} {visited : List ρ} (loads : Nat)
    : ∃ turns,
        (IndexReader.step query key fix memory)^[turns]
            { phase := .locates target goal locating, visited := visited }
          = {
            phase := .locates target goal ((Locating.step key target memory)^[loads] locating)
            visited := visited
          } := by
  induction loads with
  | zero => exact ⟨0, rfl⟩
  | succ loads ih =>
      obtain ⟨turns, reaches⟩ := ih
      rw [Function.iterate_succ_apply']
      cases phase : ((Locating.step key target memory)^[loads] locating).phase with
      | reads place level =>
          refine ⟨turns + 1, ?_⟩
          rw [Function.iterate_succ_apply', reaches]
          simp only [IndexReader.step, phase]
      | compares place level next =>
          refine ⟨turns + 1, ?_⟩
          rw [Function.iterate_succ_apply', reaches]
          simp only [IndexReader.step, phase]
      | located place =>
          refine ⟨turns, reaches.trans ?_⟩
          simp only [Locating.step, phase]
      | crashed =>
          refine ⟨turns, reaches.trans ?_⟩
          simp only [Locating.step, phase]

end Searches

-----------------------------------------------------------------------------------------
-- Well-formed skip lists
-----------------------------------------------------------------------------------------

/-- The nodes are linked in order of their keys, with fewer nodes on every higher level, and each
has a first row with its key.
-/
structure IndexMemory.Levelled (memory : IndexMemory ν ρ) [LT κ] (key : ρ → κ) (nodeKey : ν → κ)
    (levels : Nat → List ν) : Prop where
  linked
    : ∀ level,
        IsChain (fun node => memory.next (some node) level) (memory.next none level) (levels level)
  nested : ∀ level, (levels (level + 1)).Sublist (levels level)
  top : ∀ level, memory.curh ≤ level → levels level = []
  sorted : (levels 0).Pairwise (fun node other => nodeKey node < nodeKey other)
  first : ∀ node ∈ levels 0, ∃ row, memory.row node = some row ∧ key row = nodeKey node

/-- A well-formed skip list whose nodes have the row lists. -/
structure IndexMemory.Holds (memory : IndexMemory ν ρ) [LT κ] (key : ρ → κ) (nodeKey : ν → κ)
    (levels : Nat → List ν) (lists : RowLists ν ρ) : Prop where
  levelled : memory.Levelled key nodeKey levels
  rows : memory.rows.Holds lists
  keyed : ∀ node, ∀ row ∈ lists node, key row = nodeKey node
  filled : ∀ node, node ∈ levels 0 ↔ lists node ≠ []

/-- The nodes of a level below a key. -/
def nodesBelow [LinearOrder κ] (nodeKey : ν → κ) (target : κ) (nodes : List ν) : List ν :=
  nodes.filter (fun node => nodeKey node < target)

/-- The other nodes of the level. -/
def nodesFrom [LinearOrder κ] (nodeKey : ν → κ) (target : κ) (nodes : List ν) : List ν :=
  nodes.filter (fun node => target ≤ nodeKey node)

/-- The place before the key on a level: its last node below the key, or the header. -/
def placeBefore [LinearOrder κ] (nodeKey : ν → κ) (target : κ) (nodes : List ν) : Option ν :=
  (nodesBelow nodeKey target nodes).getLast?

section Levels

variable [LinearOrder κ] {memory : IndexMemory ν ρ} {key : ρ → κ} {nodeKey : ν → κ}
  {levels : Nat → List ν} {target : κ} {fix : Nat → Option ν}

/-- The links of one level lead `locate` to the last node below its target. -/
theorem Locating.run_level {level : Nat} {ahead rest : List ν} {place : Option ν}
    (chain
      : IsChain (fun node => memory.next (some node) level) (memory.next place level)
          (ahead ++ rest))
    (lower : ∀ node ∈ ahead, ∃ row, memory.row node = some row ∧ key row < target)
    : ∃ turns,
        (Locating.step key target memory)^[turns] { phase := .reads place level, fix := fix }
          = { phase := .reads (ahead.getLast?.or place) level, fix := fix } := by
  induction ahead generalizing place with
  | nil => exact ⟨0, rfl⟩
  | cons node ahead ih =>
      obtain ⟨points, behind⟩ := chain
      obtain ⟨row, first, below⟩ := lower node List.mem_cons_self
      obtain ⟨turns, reaches⟩ :=
        @ih (some node) behind fun other member => lower other (List.mem_cons_of_mem node member)
      refine ⟨turns + 2, ?_⟩
      have moves : (Locating.step key target memory)^[2]
          { phase := .reads place level, fix := fix }
          = { phase := .reads (some node) level, fix := fix } := by
        simp [Locating.step, points, first, not_le.mpr below]
      rw [Function.iterate_add_apply, moves, reaches]
      cases ahead with
      | nil => rfl
      | cons other others => simp [List.getLast?_cons]

/-- At the end of a level `locate` leaves it. -/
theorem Locating.run_leave {level : Nat} {rest : List ν} {place : Option ν}
    (chain
      : IsChain (fun node => memory.next (some node) level) (memory.next place level) rest)
    (higher : ∀ node ∈ rest.head?, ∃ row, memory.row node = some row ∧ target ≤ key row)
    : ∃ turns,
        (Locating.step key target memory)^[turns] { phase := .reads place level, fix := fix }
          = Locating.leave { phase := .reads place level, fix := fix } place level := by
  cases rest with
  | nil =>
      have ends : memory.next place level = none := chain
      exact ⟨1, by simp [Locating.step, ends, Locating.leave]⟩
  | cons node rest =>
      obtain ⟨row, first, above⟩ := higher node rfl
      exact ⟨2, by simp [Locating.step, chain.1, first, above, Locating.leave]⟩

/-- On a sorted level the nodes below a key come first. -/
theorem sorted_split {nodes : List ν}
    (sorted : nodes.Pairwise (fun node other => nodeKey node < nodeKey other))
    : nodes = nodesBelow nodeKey target nodes ++ nodesFrom nodeKey target nodes := by
  induction nodes with
  | nil => rfl
  | cons node rest ih =>
      obtain ⟨first, others⟩ := List.pairwise_cons.mp sorted
      have split := ih others
      simp only [nodesBelow, nodesFrom, List.filter_cons] at split ⊢
      by_cases lower : nodeKey node < target
      · simpa [lower, not_le.mpr lower] using split
      · have none : rest.filter (fun node => nodeKey node < target) = [] := by
          refine List.filter_eq_nil_iff.mpr fun other member => ?_
          simpa using (not_lt.mp lower).trans (first other member).le
        rw [none, List.nil_append] at split
        simpa [lower, not_lt.mp lower, none] using split

/-- The place before a key is the header or a node below the key. -/
theorem placeBefore_below {nodes : List ν} {node : ν}
    (place : placeBefore nodeKey target nodes = some node)
    : node ∈ nodes ∧ nodeKey node < target := by
  have member : node ∈ nodesBelow nodeKey target nodes := List.mem_of_getLast? place
  simpa [nodesBelow] using member

/-- Every node of the level below the key is the place before it or before that. -/
theorem placeBefore_last {nodes : List ν} {node : ν}
    (sorted : nodes.Pairwise (fun node other => nodeKey node < nodeKey other))
    (member : node ∈ nodes) (lower : nodeKey node < target)
    : ∃ last, placeBefore nodeKey target nodes = some last ∧ nodeKey node ≤ nodeKey last := by
  have inside : node ∈ nodesBelow nodeKey target nodes := by simpa [nodesBelow] using ⟨member, lower⟩
  obtain ⟨before, last, split⟩ :=
    (List.eq_nil_or_concat' _).resolve_left (List.ne_nil_of_mem inside)
  refine ⟨last, by simp [placeBefore, split], ?_⟩
  have sorted' : (nodesBelow nodeKey target nodes).Pairwise
      (fun node other => nodeKey node < nodeKey other) :=
    sorted.filter _
  rw [split] at sorted' inside
  rcases List.mem_append.mp inside with earlier | here
  · exact ((List.pairwise_append.mp sorted').2.2 node earlier last (by simp)).le
  · obtain rfl : node = last := by simpa using here
    exact le_rfl

/-- Following a level past its first nodes. -/
theorem chain_rest {level : Nat} {earlier rest : List ν} {place : Option ν}
    (chain
      : IsChain (fun node => memory.next (some node) level) (memory.next place level)
          (earlier ++ rest))
    : IsChain (fun node => memory.next (some node) level)
        (memory.next (earlier.getLast?.or place) level) rest := by
  induction earlier generalizing place with
  | nil => exact chain
  | cons node earlier ih =>
      have behind := @ih (some node) chain.2
      cases earlier with
      | nil => exact behind
      | cons other others => simpa [List.getLast?_cons] using behind

namespace IndexMemory.Levelled

theorem sublist (levelled : memory.Levelled key nodeKey levels) (level : Nat)
    : (levels level).Sublist (levels 0) := by
  induction level with
  | zero => exact List.Sublist.refl _
  | succ level ih => exact (levelled.nested level).trans ih

theorem level_sorted (levelled : memory.Levelled key nodeKey levels) (level : Nat)
    : (levels level).Pairwise (fun node other => nodeKey node < nodeKey other) :=
  levelled.sorted.sublist (levelled.sublist level)

/-- Two nodes with one key are the same node. -/
theorem injective (levelled : memory.Levelled key nodeKey levels) {node other : ν}
    (here : node ∈ levels 0) (there : other ∈ levels 0) (same : nodeKey node = nodeKey other)
    : node = other := by
  by_contra different
  rcases List.pairwise_iff_getElem.mp levelled.sorted with apart
  obtain ⟨i, low, rfl⟩ := List.mem_iff_getElem.mp here
  obtain ⟨j, low', rfl⟩ := List.mem_iff_getElem.mp there
  rcases lt_trichotomy i j with before | rfl | behind
  · exact (apart i j low low' before).ne same
  · exact different rfl
  · exact (apart j i low' low behind).ne same.symm

/-- Behind the place before a key come the nodes of the level from the key on. -/
theorem behind_place (levelled : memory.Levelled key nodeKey levels) (target : κ) (level : Nat)
    : IsChain (fun node => memory.next (some node) level)
        (memory.next (placeBefore nodeKey target (levels level)) level)
        (nodesFrom nodeKey target (levels level)) := by
  have chain := levelled.linked level
  rw [@sorted_split _ _ _ nodeKey target _ (levelled.level_sorted level)] at chain
  have rest := chain_rest chain
  rwa [Option.or_none] at rest

/-- The place before a key has no node above it that is below the key, so on the level below the
search goes on from there.
-/
theorem place_split (levelled : memory.Levelled key nodeKey levels) (target : κ) (level : Nat)
    : ∃ earlier ahead,
        nodesBelow nodeKey target (levels level) = earlier ++ ahead
        ∧ earlier.getLast? = placeBefore nodeKey target (levels (level + 1)) := by
  cases place : placeBefore nodeKey target (levels (level + 1)) with
  | none => exact ⟨[], _, rfl, rfl⟩
  | some node =>
      obtain ⟨member, lower⟩ := placeBefore_below place
      have inside : node ∈ nodesBelow nodeKey target (levels level) := by
        simpa [nodesBelow] using ⟨(levelled.nested level).mem member, lower⟩
      obtain ⟨before, after, split⟩ := List.append_of_mem inside
      exact ⟨before ++ [node], after, by simp [split], by simp⟩

/-- `locate` reaches the place before its target on every level, by induction from the top. -/
theorem locate_reaches (levelled : memory.Levelled key nodeKey levels) (target : κ)
    (fix : Nat → Option ν) {level : Nat} (low : level ≤ memory.curh)
    : ∃ turns locating,
        (Locating.step key target memory)^[turns] (Locating.start memory fix) = locating
        ∧ locating.phase = .reads (placeBefore nodeKey target (levels level)) level
        ∧ ∀ above, level < above → above ≤ memory.curh
            → locating.fix above = placeBefore nodeKey target (levels above) := by
  obtain ⟨distance, top⟩ := Nat.exists_eq_add_of_le low
  induction distance generalizing level with
  | zero =>
      have here : level = memory.curh := by omega
      refine ⟨0, _, rfl, ?_, ?_⟩
      · simp [Locating.start, here, levelled.top _ le_rfl, placeBefore, nodesBelow]
      · intro above higher lower
        omega
  | succ distance ih =>
      obtain ⟨turns, locating, reaches, phase, array⟩ :=
        @ih (level + 1) (by omega) (by omega)
      obtain ⟨phase', fix'⟩ := locating
      obtain rfl : phase' = _ := phase
      obtain ⟨leaving, left⟩ :=
        @Locating.run_leave _ _ _ _ memory key target fix' _ _ _
          (levelled.behind_place target (level + 1)) (by
            intro node first
            have member : node ∈ nodesFrom nodeKey target (levels (level + 1)) :=
              List.mem_of_mem_head? first
            obtain ⟨inside, above⟩ : node ∈ levels (level + 1) ∧ target ≤ nodeKey node := by
              simpa [nodesFrom] using member
            obtain ⟨row, loaded, keyed⟩ :=
              levelled.first node ((levelled.sublist (level + 1)).mem inside)
            exact ⟨row, loaded, keyed ▸ above⟩)
      obtain ⟨earlier, ahead, split, last⟩ := levelled.place_split target level
      have chain := levelled.linked level
      rw [@sorted_split _ _ _ nodeKey target _ (levelled.level_sorted level), split,
        List.append_assoc] at chain
      have rest := chain_rest chain
      rw [last, Option.or_none] at rest
      obtain ⟨walking, walked⟩ :=
        @Locating.run_level _ _ _ _ memory key target
          (Function.update fix' (level + 1) (placeBefore nodeKey target (levels (level + 1))))
          _ _ _ _ rest (by
            intro node member
            have below : node ∈ nodesBelow nodeKey target (levels level) := by
              rw [split]
              exact List.mem_append_right _ member
            obtain ⟨inside, lower⟩ : node ∈ levels level ∧ nodeKey node < target := by
              simpa [nodesBelow] using below
            obtain ⟨row, loaded, keyed⟩ := levelled.first node ((levelled.sublist level).mem inside)
            exact ⟨row, loaded, keyed ▸ lower⟩)
      refine ⟨walking + (leaving + turns), {
        phase := .reads (placeBefore nodeKey target (levels level)) level
        fix := Function.update fix' (level + 1)
          (placeBefore nodeKey target (levels (level + 1)))
      }, ?_, rfl, ?_⟩
      · rw [Function.iterate_add_apply, Function.iterate_add_apply, reaches, left]
        refine walked.trans ?_
        rw [← last, placeBefore, split, List.getLast?_append]
      · intro above higher lower
        by_cases here : above = level + 1
        · subst here
          exact Function.update_self ..
        · change Function.update fix' _ _ above = _
          rw [Function.update_of_ne here]
          exact array above (by omega) lower

/-- `locate` ends at the place before its target on the lowest level. -/
theorem locate_ends (levelled : memory.Levelled key nodeKey levels) (target : κ)
    (fix : Nat → Option ν)
    : ∃ turns locating,
        (Locating.step key target memory)^[turns] (Locating.start memory fix) = locating
        ∧ locating.phase = .located (placeBefore nodeKey target (levels 0))
        ∧ ∀ level ≤ memory.curh,
            locating.fix level = placeBefore nodeKey target (levels level) := by
  obtain ⟨turns, locating, reaches, phase, array⟩ :=
    levelled.locate_reaches target fix (Nat.zero_le _)
  obtain ⟨phase', fix'⟩ := locating
  obtain rfl : phase' = _ := phase
  obtain ⟨leaving, left⟩ :=
    @Locating.run_leave _ _ _ _ memory key target fix' _ _ _ (levelled.behind_place target 0) (by
      intro node first
      have member : node ∈ nodesFrom nodeKey target (levels 0) := List.mem_of_mem_head? first
      obtain ⟨inside, above⟩ : node ∈ levels 0 ∧ target ≤ nodeKey node := by
        simpa [nodesFrom] using member
      obtain ⟨row, loaded, keyed⟩ := levelled.first node inside
      exact ⟨row, loaded, keyed ▸ above⟩)
  refine ⟨leaving + turns, _, by rw [Function.iterate_add_apply, reaches, left], rfl, ?_⟩
  intro level low
  rw [Locating.leave_fix]
  cases level with
  | zero => rw [Function.update_self]
  | succ level =>
      rw [Function.update_of_ne (Nat.succ_ne_zero level)]
      exact array _ (Nat.succ_pos level) low

/-- Behind a place of a level come the nodes of the level that are above it. -/
theorem onward (levelled : memory.Levelled key nodeKey levels) {level : Nat} {place : Option ν}
    (placed : ∀ node, place = some node → node ∈ levels level)
    : ∃ after,
        IsChain (fun node => memory.next (some node) level) (memory.next place level) after
        ∧ after.Pairwise (fun node other => nodeKey node < nodeKey other)
        ∧ ∀ node, node ∈ after
            ↔ node ∈ levels level ∧ ∀ other, place = some other → nodeKey other < nodeKey node := by
  cases place with
  | none => exact ⟨levels level, levelled.linked level, levelled.level_sorted level, by simp⟩
  | some first =>
      obtain ⟨before, after, split⟩ := List.append_of_mem (placed first rfl)
      have chain := levelled.linked level
      have sorted := levelled.level_sorted level
      rw [split] at chain sorted
      have rest : IsChain (fun node => memory.next (some node) level)
          (memory.next (some first) level) after := by
        have rest := @chain_rest _ _ memory level (before ++ [first]) after none (by
          simpa using chain)
        simpa using rest
      obtain ⟨-, sorted', earlier⟩ := List.pairwise_append.mp sorted
      obtain ⟨above, sorted'⟩ := List.pairwise_cons.mp sorted'
      refine ⟨after, rest, sorted', ?_⟩
      intro node
      constructor
      · intro member
        refine ⟨by simp [split, member], ?_⟩
        rintro _ ⟨⟩
        exact above node member
      · rintro ⟨member, behind⟩
        have behind := behind first rfl
        rw [split] at member
        rcases List.mem_append.mp member with before' | here
        · exact absurd (earlier node before' first List.mem_cons_self) behind.not_gt
        · rcases List.mem_cons.mp here with rfl | later
          · exact absurd behind (lt_irrefl _)
          · exact later

end IndexMemory.Levelled

/-- What a well-formed skip list shows a search. -/
theorem IndexMemory.Holds.shows {lists : RowLists ν ρ}
    (holds : memory.Holds key nodeKey levels lists) {scope : IndexScope ν ρ κ}
    (keys : scope.nodeKey = nodeKey) (before : scope.before = lists)
    (known : ∀ node ∈ levels 0, node ∈ scope.nodes) (changed : Prop)
    : scope.Shows { held := fun node level => node ∈ levels level, changed := changed } memory where
  known := known _
  lower := fun member => (holds.levelled.nested _).mem member
  ahead := by
    intro place level next placed points
    obtain ⟨after, chain, -, members⟩ := holds.levelled.onward placed
    cases after with
    | nil => exact nomatch points.symm.trans chain
    | cons first rest =>
        obtain rfl : next = first := by simpa using points.symm.trans chain.1
        obtain ⟨member, behind⟩ := (members next).mp List.mem_cons_self
        exact ⟨member, fun other same => keys ▸ behind other same⟩
  passes := by
    intro place node row placed stays behind
    have row_listed : row ∈ lists node := before ▸ stays.1
    have member : node ∈ levels 0 := (holds.filled node).mpr (List.ne_nil_of_mem row_listed)
    obtain ⟨after, chain, sorted, members⟩ := holds.levelled.onward placed
    have later : node ∈ after := by
      refine (members node).mpr ⟨member, fun other same => ?_⟩
      have lower := behind other same
      rwa [keys] at lower
    cases after with
    | nil => exact absurd later List.not_mem_nil
    | cons first rest =>
        refine ⟨first, chain.1, ?_⟩
        rw [keys]
        rcases List.mem_cons.mp later with rfl | further
        · exact le_rfl
        · exact ((List.pairwise_cons.mp sorted).1 node further).le
  bucket := by
    intro node member
    exact ⟨lists node, Or.inl (by rw [before]), (holds.filled node).mp member,
      holds.rows.linked node⟩

end Levels

end SpeedTables.Shared
