import Mathlib
import SpeedTables.Shared.IndexWalk

/-! What the functions that update an index load and store, and which stores no search notices. -/

namespace SpeedTables.Shared
open SpeedTables.Lib

variable {ν ρ κ α : Type} [LinearOrder κ]

-----------------------------------------------------------------------------------------
-- Loads and stores
-----------------------------------------------------------------------------------------

@[simp]
def IndexMemory.setNext [DecidableEq ν] (memory : IndexMemory ν ρ) (place : Option ν) (level : Nat)
    (value : Option ν) : IndexMemory ν ρ :=
  { memory with
    next := Function.update memory.next place
      (Function.update (memory.next place) level value) }

@[simp]
def IndexMemory.setRows (memory : IndexMemory ν ρ) (rows : ListMemory ν ρ) : IndexMemory ν ρ :=
  { memory with rows := rows }

namespace IndexWriter

variable [DecidableEq ν] [DecidableEq ρ]

/-- `p->next[i]` -/
def nextOf (place : Option ν) (level : Nat) : Storing (IndexMemory ν ρ) (Option ν) :=
  .load (fun memory => memory.next place level)

/-- `p->next[i] = value` -/
def setNext (place : Option ν) (level : Nat) (value : Option ν)
    : Storing (IndexMemory ν ρ) Unit :=
  .store (fun memory => memory.setNext place level value)

/-- `node->row` -/
def rowOf (node : ν) : Storing (IndexMemory ν ρ) (Option ρ) :=
  .load (fun memory => memory.row node)

/-- `node->row = value` -/
def setRow (node : ν) (value : Option ρ) : Storing (IndexMemory ν ρ) Unit :=
  .store (fun memory => memory.setRows (memory.rows.setLink (.head node) value))

def curh : Storing (IndexMemory ν ρ) Nat := .load IndexMemory.curh

def setCurh (value : Nat) : Storing (IndexMemory ν ρ) Unit :=
  .store (fun memory => { memory with curh := value })

/-- `locate`, which only loads: its update array and the place it returns. The fuel bounds the
number of its loads.
-/
def locate (key : ρ → κ) (target : κ) (fuel : Nat) (fix : Nat → Option ν)
    : Storing (IndexMemory ν ρ) ((Nat → Option ν) × Option ν) :=
  fun memory =>
    let locating := (Locating.step key target memory)^[fuel] (.start memory fix)
    match locating.phase with
    | .located place => some ((locating.fix, place), [])
    | _ => none

/-- A function on the row lists. -/
def onRows : ListProgram ν ρ α → Storing (IndexMemory ν ρ) α
  | .done result => pure result
  | .loadLink link rest => do
      onRows (rest (← Storing.load fun memory => memory.rows.link link))
  | .loadPrev row rest => do
      onRows (rest (← Storing.load fun memory => memory.rows.prev row))
  | .loadHead row rest => do
      onRows (rest (← Storing.load fun memory => memory.rows.head row))
  | .storeLink link value rest => do
      Storing.store fun memory => memory.setRows (memory.rows.setLink link value)
      onRows rest
  | .storePrev row value rest => do
      Storing.store fun memory => memory.setRows (memory.rows.setPrev row value)
      onRows rest
  | .storeHead row value rest => do
      Storing.store fun memory => memory.setRows (memory.rows.setHead row value)
      onRows rest
  | .crash => Storing.crash

end IndexWriter

-----------------------------------------------------------------------------------------
-- Locating
-----------------------------------------------------------------------------------------

section Locating

variable {memory : IndexMemory ν ρ} {key : ρ → κ} {nodeKey : ν → κ} {levels : Nat → List ν}

/-- With enough fuel `locate` finds the places before its target. -/
theorem IndexMemory.Levelled.locate_gives (levelled : memory.Levelled key nodeKey levels)
    (target : κ) (array : Nat → Option ν)
    : ∃ (enough : Nat) (fix : Nat → Option ν),
        (∀ fuel ≥ enough,
          (IndexWriter.locate key target fuel array).Gives memory
            (fix, placeBefore nodeKey target (levels 0)) [])
        ∧ ∀ level ≤ memory.curh, fix level = placeBefore nodeKey target (levels level) := by
  obtain ⟨turns, locating, reaches, phase, places⟩ := levelled.locate_ends target array
  refine ⟨turns, locating.fix, ?_, places⟩
  intro fuel more
  obtain ⟨idle, rfl⟩ := Nat.exists_eq_add_of_le' more
  have stays : (Locating.step key target memory)^[idle] locating = locating := by
    refine Function.iterate_fixed ?_ idle
    simp only [Locating.step, phase]
  simp only [Storing.Gives, IndexWriter.locate, Function.iterate_add_apply, reaches, stays, phase]

end Locating

-----------------------------------------------------------------------------------------
-- Stores that no search notices
-----------------------------------------------------------------------------------------

namespace IndexScope

variable {scope : IndexScope ν ρ κ} {view : IndexView ν} {memory memory' : IndexMemory ν ρ}

/-- A memory that differs only off the nodes that a search may hold and off the rows of these. -/
structure Unnoticed (scope : IndexScope ν ρ κ) (view : IndexView ν)
    (memory memory' : IndexMemory ν ρ) : Prop where
  next
    : ∀ place level,
        (∀ node, place = some node → view.held node level)
        → memory'.next place level = memory.next place level
  link
    : ∀ node rows,
        view.held node 0
        → scope.Has view.changed node rows
        → ∀ link ∈ (Link.head node).through rows,
            memory'.rows.link link = memory.rows.link link

omit [LinearOrder κ] in
theorem Unnoticed.refl (scope : IndexScope ν ρ κ) (view : IndexView ν) (memory : IndexMemory ν ρ)
    : scope.Unnoticed view memory memory where
  next := fun _ _ _ => rfl
  link := fun _ _ _ _ _ _ => rfl

theorem Unnoticed.shows (unnoticed : scope.Unnoticed view memory memory')
    (shows : scope.Shows view memory)
    : scope.Shows view memory' where
  known := shows.known
  lower := shows.lower
  ahead := by
    intro place level other holds points
    rw [unnoticed.next place level holds] at points
    exact shows.ahead holds points
  passes := by
    intro place node row holds
    rw [unnoticed.next place 0 holds]
    exact shows.passes holds
  bucket := by
    intro node holds
    obtain ⟨rows, has, filled, leads⟩ := shows.bucket holds
    exact ⟨rows, has, filled, leads.congr (unnoticed.link node rows holds has)⟩

/-- Stores that are not noticed. -/
theorem Unnoticed.publishes {versions : List (IndexMemory ν ρ)} (shows : scope.Shows view memory)
    (unnoticed : ∀ version ∈ versions, scope.Unnoticed view memory version)
    : Publishes scope.Changes view memory versions view := by
  refine Publishes.of_forall ?_ (Unnoticed.refl scope view memory) unnoticed
  intro first second before after
  refine ⟨id, after.shows shows, ?_⟩
  rintro node bucket holds ⟨rows, has, sees⟩
  refine ⟨rows, has, sees.congr ?_⟩
  intro link member
  rw [after.link node rows holds has link member, before.link node rows holds has link member]

/-- A store of a row link that turns the rows of one node into those after the change. -/
theorem Changes.of_rows (shows : scope.Shows view memory) {view' : IndexView ν} {node : ν}
    {before old new : List ρ} (same : view'.held = view.held) (changed : view'.changed)
    (old_rows : scope.before node = before ++ old) (new_rows : scope.after node = before ++ new)
    (filled : before ++ new ≠ [])
    (nexts : memory'.next = memory.next)
    (unchanged : ¬ view.changed)
    (apart
      : ∀ other,
          other ≠ node
          → (Link.head node).behind before ∉ (Link.head other).through (scope.before other))
    (distinct : ((Link.head node).through (before ++ old)).Nodup)
    (link
      : ∀ link,
          link ≠ (Link.head node).behind before
          → memory'.rows.link link = memory.rows.link link)
    (leads : LeadsTo memory'.rows.link ((Link.head node).behind before) new)
    : scope.Changes view memory view' memory' := by
  have unmoved (other : ν) (different : other ≠ node)
      : ∀ place ∈ (Link.head other).through (scope.before other),
          memory'.rows.link place = memory.rows.link place := by
    intro place member
    refine link place ?_
    rintro rfl
    exact apart other different member
  constructor
  · intro other level holds
    rwa [same]
  · constructor
    · intro other holds
      exact shows.known (same ▸ holds)
    · intro other level holds
      rw [same] at holds ⊢
      exact shows.lower holds
    · intro place level other holds points
      rw [nexts] at points
      rw [same] at holds ⊢
      exact shows.ahead holds points
    · intro place other row holds
      rw [nexts]
      rw [same] at holds
      exact shows.passes holds
    · intro other holds
      rw [same] at holds
      obtain ⟨rows, has, full, path⟩ := shows.bucket holds
      obtain rfl : rows = scope.before other := has.resolve_right fun done => unchanged done.1
      by_cases here : other = node
      · subst here
        refine ⟨scope.after other, Or.inr ⟨changed, rfl⟩, new_rows ▸ filled, ?_⟩
        rw [old_rows] at path
        rw [new_rows]
        have first : ((Link.head other).through before).Nodup :=
          distinct.sublist (((List.sublist_append_left before old).map _).cons_cons _)
        exact path.splice first (fun place _ => link place) leads
      · exact ⟨scope.before other, Or.inl rfl, full, path.congr (unmoved other here)⟩
  · rintro other bucket holds ⟨rows, has, sees⟩
    obtain rfl : rows = scope.before other := has.resolve_right fun done => unchanged done.1
    by_cases here : other = node
    · subst here
      rw [old_rows] at sees
      rcases sees.splice distinct link leads with before | after
      · exact ⟨scope.before other, Or.inl rfl, old_rows ▸ before⟩
      · exact ⟨scope.after other, Or.inr ⟨changed, rfl⟩, new_rows ▸ after⟩
    · exact ⟨scope.before other, Or.inl rfl, sees.congr (unmoved other here)⟩

end IndexScope

-----------------------------------------------------------------------------------------
-- Functions on the row lists
-----------------------------------------------------------------------------------------

section Rows

variable [DecidableEq ν] [DecidableEq ρ] {place : Link ν ρ} {hidden : Link ν ρ → Prop}
  {new : List ρ}

/-- Nothing changes but the back pointers of rows. -/
def SameLinks (memory memory' : IndexMemory ν ρ) : Prop :=
  memory'.next = memory.next ∧ memory'.curh = memory.curh ∧ memory'.rows.link = memory.rows.link

/-- The versions of a list function that shows readers nothing more. -/
theorem onRows_silent {program : ListProgram ν ρ α} {memory : IndexMemory ν ρ}
    (silent : program.Silent memory.rows)
    : (IndexWriter.onRows program).Keeps memory (SameLinks memory)
        (fun result memory' => SameLinks memory memory'
          ∧ program.run memory.rows = some (result, memory'.rows)) := by
  induction program generalizing memory with
  | done result => exact .pure ⟨⟨rfl, rfl, rfl⟩, rfl⟩
  | loadLink link rest ih => exact .load (ih _ silent)
  | loadPrev row rest ih => exact .load (ih _ silent)
  | loadHead row rest ih => exact .load (ih _ silent)
  | storeLink => exact silent.elim
  | storePrev row value rest ih =>
      exact .store ⟨rfl, rfl, rfl⟩ (@ih (memory.setRows (memory.rows.setPrev row value)) silent)
  | storeHead row value rest ih =>
      exact .store ⟨rfl, rfl, rfl⟩ (@ih (memory.setRows (memory.rows.setHead row value)) silent)
  | crash => exact silent.elim

/-- Nothing changes but hidden links and the back pointers of rows. -/
def SameButHidden (hidden : Link ν ρ → Prop) (memory memory' : IndexMemory ν ρ) : Prop :=
  memory'.next = memory.next ∧ memory'.curh = memory.curh
    ∧ ∀ link, ¬ hidden link → memory'.rows.link link = memory.rows.link link

omit [DecidableEq ν] [DecidableEq ρ] in
theorem SameButHidden.refl {hidden : Link ν ρ → Prop} (memory : IndexMemory ν ρ)
    : SameButHidden hidden memory memory :=
  ⟨rfl, rfl, fun _ _ => rfl⟩

/-- The versions of a list function that shows readers one change. -/
theorem onRows_publishes {program : ListProgram ν ρ α} {memory start : IndexMemory ν ρ}
    (same : SameButHidden hidden start memory)
    (publishes : program.Publishes place hidden new memory.rows)
    : ∃ result before version after,
        (IndexWriter.onRows program).Gives memory result (before ++ version :: after)
        ∧ (∀ earlier ∈ before, SameButHidden hidden start earlier)
        ∧ SameButHidden (fun link => hidden link ∨ link = place) start version
        ∧ (∀ link,
            link ≠ place → version.rows.link link = (latest memory before).rows.link link)
        ∧ LeadsTo version.rows.link place new
        ∧ (∀ later ∈ after, SameLinks version later)
        ∧ program.run memory.rows = some (result, (latest version after).rows) := by
  induction program generalizing memory with
  | done => exact publishes.elim
  | crash => exact publishes.elim
  | loadLink link rest ih =>
      obtain ⟨result, before, version, after, gives, others⟩ := ih _ same publishes
      exact ⟨result, before, version, after, gives.of_load, others⟩
  | loadPrev row rest ih =>
      obtain ⟨result, before, version, after, gives, others⟩ := ih _ same publishes
      exact ⟨result, before, version, after, gives.of_load, others⟩
  | loadHead row rest ih =>
      obtain ⟨result, before, version, after, gives, others⟩ := ih _ same publishes
      exact ⟨result, before, version, after, gives.of_load, others⟩
  | storePrev row value rest ih =>
      have same' : SameButHidden hidden start (memory.setRows (memory.rows.setPrev row value)) :=
        same
      obtain ⟨result, before, version, after, gives, good, others⟩ := ih same' publishes
      refine ⟨result, _ :: before, version, after, gives.of_store, ?_, by simpa using others⟩
      exact List.forall_mem_cons.mpr ⟨same', good⟩
  | storeHead row value rest ih =>
      have same' : SameButHidden hidden start (memory.setRows (memory.rows.setHead row value)) :=
        same
      obtain ⟨result, before, version, after, gives, good, others⟩ := ih same' publishes
      refine ⟨result, _ :: before, version, after, gives.of_store, ?_, by simpa using others⟩
      exact List.forall_mem_cons.mpr ⟨same', good⟩
  | storeLink link value rest ih =>
      have apart (other : Link ν ρ) (different : other ≠ link)
          : (memory.setRows (memory.rows.setLink link value)).rows.link other
            = memory.rows.link other :=
        Function.update_of_ne different ..
      simp only [ListProgram.Publishes] at publishes
      split at publishes
      · rename_i here
        subst here
        obtain ⟨result, versions, gives, good, -, run⟩ :=
          @onRows_silent _ _ _ _ _ _ (memory.setRows (memory.rows.setLink link value)) publishes.2
        refine ⟨result, [], _, versions, gives.of_store, nofun, ⟨same.1, same.2.1, ?_⟩,
          apart, publishes.1, good, run⟩
        intro other visible
        rw [apart other fun here => visible (Or.inr here)]
        exact same.2.2 other fun covert => visible (Or.inl covert)
      · have same' : SameButHidden hidden start
            (memory.setRows (memory.rows.setLink link value)) := by
          refine ⟨same.1, same.2.1, ?_⟩
          intro other visible
          rw [apart other (fun here => visible (here ▸ publishes.1))]
          exact same.2.2 other visible
        obtain ⟨result, before, version, after, gives, good, others⟩ := ih same' publishes.2
        refine ⟨result, _ :: before, version, after, gives.of_store, ?_, by simpa using others⟩
        exact List.forall_mem_cons.mpr ⟨same', good⟩

/-- A list function that shows readers one change of the rows of one node changes the index so. -/
theorem IndexScope.onRows_changes {scope : IndexScope ν ρ κ} {view : IndexView ν}
    {memory : IndexMemory ν ρ} {program : ListProgram ν ρ α} {node : ν} {before old : List ρ}
    (shows : scope.Shows view memory) (unchanged : ¬ view.changed)
    (old_rows : scope.before node = before ++ old) (new_rows : scope.after node = before ++ new)
    (filled : before ++ new ≠ [])
    (unseen
      : ∀ link, hidden link → ∀ other, link ∉ (Link.head other).through (scope.before other))
    (apart
      : ∀ other,
          other ≠ node
          → (Link.head node).behind before ∉ (Link.head other).through (scope.before other))
    (distinct : ((Link.head node).through (before ++ old)).Nodup)
    (publishes : program.Publishes ((Link.head node).behind before) hidden new memory.rows)
    : ∃ result versions,
        (IndexWriter.onRows program).Gives memory result versions
        ∧ Publishes scope.Changes view memory versions { view with changed := True }
        ∧ SameButHidden (fun link => hidden link ∨ link = (Link.head node).behind before) memory
            (latest memory versions)
        ∧ program.run memory.rows = some (result, (latest memory versions).rows) := by
  obtain ⟨result, earlier, version, later, gives, good, visible, only, leads, silent, run⟩ :=
    onRows_publishes (.refl memory) publishes
  have unnoticed {changed : IndexMemory ν ρ} (same : SameButHidden hidden memory changed)
      : scope.Unnoticed view memory changed := by
    refine ⟨fun place level _ => congrFun (congrFun same.1 place) level, ?_⟩
    intro other rows _ has link member
    obtain rfl : rows = scope.before other := has.resolve_right fun done => unchanged done.1
    exact same.2.2 link fun covert => unseen link covert other member
  have last : SameButHidden hidden memory (latest memory earlier) := by
    cases earlier using List.reverseRecOn with
    | nil => exact ⟨rfl, rfl, fun _ _ => rfl⟩
    | append_singleton others last _ => simpa using good last (by simp)
  have change : scope.Changes view (latest memory earlier) { view with changed := True } version :=
    Changes.of_rows ((unnoticed last).shows shows) rfl trivial old_rows new_rows filled
      (visible.1.trans last.1.symm) unchanged apart distinct only leads
  have after : ∀ memory' ∈ later,
      scope.Unnoticed { view with changed := True } version memory' := by
    intro memory' member
    obtain ⟨next, -, link⟩ := silent memory' member
    exact ⟨fun place level _ => congrFun (congrFun next place) level,
      fun _ _ _ _ place _ => congrFun link place⟩
  refine ⟨result, earlier ++ version :: later, gives, ?_, ?_, by simpa using run⟩
  · refine (Unnoticed.publishes shows fun memory' member => unnoticed (good memory' member)).append ?_
    exact .store change (Unnoticed.publishes change.shows after)
  · rw [latest_append, latest_cons]
    cases later using List.reverseRecOn with
    | nil => exact visible
    | append_singleton others final _ =>
        obtain ⟨next, tallest, link⟩ := silent final (by simp)
        simp only [latest_append, latest_cons, latest_nil]
        exact ⟨next.trans visible.1, tallest.trans visible.2.1,
          fun place seen => (congrFun link place).trans (visible.2.2 place seen)⟩

end Rows

-----------------------------------------------------------------------------------------
-- A small index
-----------------------------------------------------------------------------------------

/-- An index with one node, number 1, of height one, whose only row is its key 20. -/
def smallIndex : IndexMemory Nat Nat where
  next := fun place level => if place = none ∧ level = 0 then some 1 else none
  curh := 1
  rows := {
    link := fun link => if link = .head 1 then some 20 else none
    prev := fun row => if row = 20 then some (.head 1) else none
    head := fun row => if row = 20 then some 1 else none
  }

def smallLevels (level : Nat) : List Nat := if level = 0 then [1] else []

def smallLists (node : Nat) : List Nat := if node = 1 then [20] else []

theorem smallIndex_holds
    : smallIndex.Holds id (fun _ => 20) smallLevels smallLists where
  levelled := {
    linked := by
      intro level
      by_cases bottom : level = 0 <;> simp [smallLevels, smallIndex, bottom, Lib.IsChain]
    nested := by
      intro level
      simp [smallLevels]
    top := by
      intro level (high : 1 ≤ level)
      simp [smallLevels, show level ≠ 0 by omega]
    sorted := by simp [smallLevels]
    first := by simp [smallLevels, smallIndex, IndexMemory.row]
  }
  rows := {
    linked := by
      intro list
      by_cases here : list = 1 <;> simp [smallLists, smallIndex, here]
    distinct := by
      intro list
      by_cases here : list = 1 <;> simp [smallLists, here]
    apart := by
      intro list other row member member'
      simp only [smallLists] at member member'
      split at member <;> split at member' <;> simp_all
    prev := by
      intro list link row member points
      simp only [smallIndex] at points ⊢
      split at points
      · rename_i here
        simp_all
      · cases points
    head := by
      intro list row member
      simp only [smallLists] at member
      split at member <;> simp_all [smallIndex]
    unlisted := by
      intro row unlisted
      have different : row ≠ 20 := by
        rintro rfl
        exact unlisted ⟨1, by simp [smallLists]⟩
      simp [smallIndex, different]
  }
  keyed := by
    intro node row member
    simp only [smallLists] at member
    split at member <;> simp_all
  filled := by
    intro node
    by_cases here : node = 1 <;> simp [smallLevels, smallLists, here]

end SpeedTables.Shared
