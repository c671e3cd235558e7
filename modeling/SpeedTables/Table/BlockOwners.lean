import SpeedTables.Table.Allocation

/-! Every block of a row, key or string has one owner, which releases it to where it came from, as
long as the rows that are kept between calls stay with the tables they were made for.
-/

namespace SpeedTables.Allocation

open Lib (BlockHistory)

variable {type : RowType}

-----------------------------------------------------------------------------------------
-- The property
-----------------------------------------------------------------------------------------

namespace Process

/-- Neither the row nor its key nor a string of it has been released. -/
structure Intact (process : Process type) (row : Nat) : Prop where
  self : ¬process.history.Released row
  key : ∀ block, (process.rows row).key = some block → ¬process.history.Released block
  strings : ∀ field block, ((process.rows row).strings field).pointer = some block →
    ¬process.history.Released block

/-- Released blocks are released once and to where they came from, no row of a table and no hash
entry refers to one, and no null key value and no default string is one.
-/
structure Disciplined (process : Process type) : Prop where
  history : process.history.Disciplined
  rows : ∀ t, ∀ row ∈ process.llHead t, process.Intact row
  entries : ∀ t, ∀ row ∈ process.keyTable t, process.Intact row
  nullKeys : ∀ t table, process.tables t = some table → ∀ key, table.nullKeyValue = some key →
    ¬process.history.Released key
  defaults : ∀ t table, process.tables t = some table → ∀ field,
    ¬process.history.Released (table.defaultStrings field)

/-- The row has the key of the template of new rows, not the null key value of its table. -/
def ForeignKey (process : Process type) (table : CTable type) (row : Nat) : Prop :=
  process.baseCopy = some (process.rows row).key ∧ (process.rows row).key ≠ table.nullKeyValue

/-- What keeps an action off the blocks of other tables. A new row of a master is not made from a
row that was prepared on another share. A row that fields are set in, or that is deleted, is in the
table. A row being created gets no other key. A comparison row whose key is set, or freed, has not
got the null key value of another table.
-/
def Proper (process : Process type) (t : Nat) (table : CTable type) : Action type → Prop
  | .findOrCreate _ key _ _ =>
      table.isMaster = true → process.findHashEntry t key = none →
        ∀ row, process.savedSharedRow = some row → process.history.region row = table.place
  | .setKey _ row value indexCtl _ =>
      match indexCtl with
      | .privateRow => ¬process.ForeignKey table row
      | .new =>
          row ∈ process.llHead t
            ∧ (process.sameKey table row value = some true
              ∨ (process.findHashEntry t value).isSome = true)
      | _ => row ∈ process.llHead t
  | .setString _ row _ _ indexCtl _ => indexCtl = .privateRow ∨ row ∈ process.llHead t
  | .searchDelete _ row => row ∈ process.llHead t
  | .deleteComparison _ row =>
      table.isMaster = true ∨ (process.rows row).key = none ∨ ¬process.ForeignKey table row
  | _ => True

end Process

-----------------------------------------------------------------------------------------
-- Owners
-----------------------------------------------------------------------------------------

/-- What a row is for: it is in the list of a table, a comparison row of one, or prepared. -/
inductive Home where
  | listed (t : Nat)
  | comparison (t : Nat)
  | saved
  deriving DecidableEq

/-- What has a block: it is a row, the key or a string of a row, or is never released. -/
inductive Owner where
  | row (home : Home)
  | key (row : Nat)
  | string (row field : Nat)
  | constant
  deriving DecidableEq

/-- The owner of each block, and where it is to release the block to. -/
abbrev Owners := Nat → Option (Owner × Region)

/-- The owner of the block is the row or a part of it. -/
def Owner.Concerns (owner : Owner) (block row : Nat) : Prop :=
  match owner with
  | .row _ => block = row
  | .key other | .string other _ => other = row
  | .constant => False

/-- The string is allocated and owned by its row, or is a constant or NULL. -/
structure StringField.Fits (string : StringField) (owner : Owners) (row field : Nat)
    (place : Region) : Prop where
  allocated : 0 < string.allocatedLength →
    ∃ block, string.pointer = some block ∧ owner block = some (.string row field, place)
  constant : string.allocatedLength = 0 → ∀ block, string.pointer = some block →
    ∃ origin, owner block = some (.constant, origin)

/-- The key of a row fits what the row is for. -/
def KeyFits (process : Process type) (owner : Owners) (row : Nat) (place : Region) : Home → Prop
  | .listed t =>
      (∃ table, process.tables t = some table ∧ table.isReader = false ∧ place = table.place)
        ∧ ∃ key, (process.rows row).key = some key ∧ owner key = some (.key row, place)
  | .comparison t =>
      (∃ table, process.tables t = some table) ∧ place = .heap
        ∧ (process.baseCopy = some (process.rows row).key
          ∨ ∃ key, (process.rows row).key = some key ∧ owner key = some (.key row, .heap))
  | .saved => ∀ field, ((process.rows row).strings field).allocatedLength = 0

/-- The pointers of a row fit what the row is for. -/
structure RowFits (process : Process type) (owner : Owners) (row : Nat) (place : Region)
    (home : Home) : Prop where
  key : KeyFits process owner row place home
  strings : ∀ field, ((process.rows row).strings field).Fits owner row field place

/-- Every block has an owner that knows it. -/
structure Blocks (process : Process type) (owner : Owners) : Prop where
  owned : process.history.Owned owner
  rows : ∀ row home place, owner row = some (.row home, place) →
    RowFits process owner row place home
  nullKeys : ∀ t table, process.tables t = some table → ∀ key, table.nullKeyValue = some key →
    ∃ origin, owner key = some (.constant, origin)
  defaults : ∀ t table, process.tables t = some table → ∀ field,
    ∃ origin, owner (table.defaultStrings field) = some (.constant, origin)
  base : ∀ key, process.baseCopy = some (some key) → ∃ origin, owner key = some (.constant, origin)
  program : ∀ field : Fin type.strings, owner field = some (.constant, .program)

/-- The rows that the process can reach are rows for what it uses them for. -/
structure Lists (process : Process type) (owner : Owners) : Prop where
  listed : ∀ t, ∀ row ∈ process.llHead t, ∃ place, owner row = some (.row (.listed t), place)
  apart : ∀ t, (process.llHead t).Nodup
  linked : ∀ t, (process.keyTable t).Perm (process.llHead t)
  comparisons : ∀ entry ∈ process.comparisons,
    owner entry.2 = some (.row (.comparison entry.1), .heap)
  once : process.comparisons.Nodup
  saved : ∀ row, process.savedRow = some row → owner row = some (.row .saved, .heap)
  savedShared : ∀ row, process.savedSharedRow = some row →
    ∃ share, owner row = some (.row .saved, .share share)

/-- The blocks of the process have owners that know them, and its lists agree. -/
structure Consistent (process : Process type) (owner : Owners) : Prop where
  blocks : Blocks process owner
  lists : Lists process owner

-----------------------------------------------------------------------------------------
-- What the owners give
-----------------------------------------------------------------------------------------

section Consistent

variable {process process' : Process type} {owner owner' : Owners} {row : Nat} {place : Region}
variable {home : Home}

theorem Blocks.intact (blocks : Blocks process owner) {t : Nat}
    (here : owner row = some (.row (.listed t), place))
    : process.Intact row := by
  have fits := blocks.rows row _ place here
  refine ⟨blocks.owned.kept here, fun block points => ?_, fun field block points => ?_⟩
  · obtain ⟨-, key, has, mine⟩ := fits.key
    obtain rfl : key = block := Option.some.inj (has.symm.trans points)
    exact blocks.owned.kept mine
  · rcases Nat.eq_zero_or_pos ((process.rows row).strings field).allocatedLength with none | some
    · obtain ⟨origin, mine⟩ := (fits.strings field).constant none block points
      exact blocks.owned.kept mine
    · obtain ⟨string, has, mine⟩ := (fits.strings field).allocated some
      obtain rfl : string = block := Option.some.inj (has.symm.trans points)
      exact blocks.owned.kept mine

theorem Consistent.disciplined (consistent : Consistent process owner) : process.Disciplined := by
  have ⟨blocks, lists⟩ := consistent
  have intact (t : Nat) (row : Nat) (listed : row ∈ process.llHead t) : process.Intact row := by
    obtain ⟨place, here⟩ := lists.listed t row listed
    exact blocks.intact here
  refine ⟨blocks.owned.disciplined, intact, fun t row linked => ?_, ?_, ?_⟩
  · exact intact t row ((lists.linked t).mem_iff.mp linked)
  · intro t table found key isNull
    obtain ⟨origin, mine⟩ := blocks.nullKeys t table found key isNull
    exact blocks.owned.kept mine
  · intro t table found field
    obtain ⟨origin, mine⟩ := blocks.defaults t table found field
    exact blocks.owned.kept mine

-----------------------------------------------------------------------------------------
-- Changes around a row
-----------------------------------------------------------------------------------------

/-- Only blocks of the row, and blocks without an owner, change hands. -/
structure Around (owner owner' : Owners) (row : Nat) : Prop where
  kept : ∀ block held, owner block = some held → ¬held.1.Concerns block row →
    owner' block = some held
  rows : ∀ block home place, block ≠ row → owner' block = some (.row home, place) →
    owner block = some (.row home, place)

/-- A block without an owner becomes the row or a part of a row. -/
theorem Around.gain {block : Nat} {held : Owner × Region} (free : owner block = none)
    (ours : ∀ home, held.1 = .row home → block = row)
    : Around owner (Function.update owner block (some held)) row where
  kept := fun other held' has _ => by
    have apart : other ≠ block := by
      rintro rfl
      rw [free] at has
      cases has
    rw [Function.update_of_ne apart, has]
  rows := fun other home place apart has => by
    by_cases same : other = block
    · rw [same, Function.update_self] at has
      exact absurd (same.trans (ours home (congrArg Prod.fst (Option.some.inj has)))) apart
    · rwa [Function.update_of_ne same] at has

theorem StringField.Fits.around {string : StringField} {other field : Nat}
    (fits : string.Fits owner other field place) (around : Around owner owner' row)
    (apart : other ≠ row)
    : string.Fits owner' other field place where
  allocated := fun some => by
    obtain ⟨block, has, mine⟩ := fits.allocated some
    exact ⟨block, has, around.kept block _ mine apart⟩
  constant := fun none block has => by
    obtain ⟨origin, mine⟩ := fits.constant none block has
    exact ⟨origin, around.kept block _ mine id⟩

/-- A process that differs in the row, and may have got a template of new rows. -/
structure Beside (process process' : Process type) (row : Nat) : Prop where
  rows : ∀ other, other ≠ row → process'.rows other = process.rows other
  tables : process'.tables = process.tables
  base : ∀ key, process.baseCopy = some key → process'.baseCopy = some key

theorem RowFits.around {other : Nat} (fits : RowFits process owner other place home)
    (beside : Beside process process' row) (around : Around owner owner' row)
    (apart : other ≠ row)
    : RowFits process' owner' other place home := by
  refine ⟨?_, fun field => ?_⟩
  · have key := fits.key
    cases home with
    | listed t =>
        obtain ⟨table, key, has, mine⟩ := key
        rw [KeyFits, beside.tables, beside.rows other apart]
        exact ⟨table, key, has, around.kept key _ mine apart⟩
    | comparison t =>
        obtain ⟨table, heap, template | ⟨key, has, mine⟩⟩ := key
        · rw [KeyFits, beside.tables, beside.rows other apart]
          exact ⟨table, heap, .inl (beside.base _ template)⟩
        · rw [KeyFits, beside.tables, beside.rows other apart]
          exact ⟨table, heap, .inr ⟨key, has, around.kept key _ mine apart⟩⟩
    | saved =>
        rw [KeyFits, beside.rows other apart]
        exact key
  · rw [beside.rows other apart]
    exact (fits.strings field).around around apart

theorem RowFits.congr (fits : RowFits process owner row place home)
    (rows : process'.rows = process.rows) (tables : process'.tables = process.tables)
    (base : process'.baseCopy = process.baseCopy)
    : RowFits process' owner row place home := by
  refine ⟨?_, fun field => ?_⟩
  · have key := fits.key
    cases home <;> simpa only [KeyFits, rows, tables, base] using key
  · rw [rows]
    exact fits.strings field

/-- Only the lists differ. -/
theorem Blocks.congr (blocks : Blocks process owner)
    (history : process'.history = process.history) (rows : process'.rows = process.rows)
    (tables : process'.tables = process.tables) (base : process'.baseCopy = process.baseCopy)
    : Blocks process' owner := by
  refine ⟨history ▸ blocks.owned, fun row home place has => ?_, ?_, ?_, ?_, ?_⟩
  · exact (blocks.rows row home place has).congr rows tables base
  · rw [tables]
    exact blocks.nullKeys
  · rw [tables]
    exact blocks.defaults
  · rw [base]
    exact blocks.base
  · exact blocks.program

/-- The blocks stay with their owners when only a row changes, and fits what it is for. -/
theorem Blocks.around (blocks : Blocks process owner) (beside : Beside process process' row)
    (around : Around owner owner' row) (owned : process'.history.Owned owner')
    (base : process'.baseCopy = process.baseCopy
      ∨ ∀ key, process'.baseCopy = some (some key) →
        ∃ origin, owner' key = some (.constant, origin))
    (here : ∀ home place, owner' row = some (.row home, place) →
      RowFits process' owner' row place home)
    : Blocks process' owner' := by
  refine ⟨owned, fun other home place has => ?_, fun t table found key isNull => ?_,
    fun t table found field => ?_, fun key isBase => ?_,
    fun field => around.kept field _ (blocks.program field) id⟩
  · by_cases same : other = row
    · subst same
      exact here home place has
    · exact (blocks.rows other home place (around.rows other home place same has)).around beside
        around same
  · rw [beside.tables] at found
    obtain ⟨origin, mine⟩ := blocks.nullKeys t table found key isNull
    exact ⟨origin, around.kept key _ mine id⟩
  · rw [beside.tables] at found
    obtain ⟨origin, mine⟩ := blocks.defaults t table found field
    exact ⟨origin, around.kept _ _ mine id⟩
  · rcases base with same | fits
    · rw [same] at isBase
      obtain ⟨origin, mine⟩ := blocks.base key isBase
      exact ⟨origin, around.kept key _ mine id⟩
    · exact fits key isBase

/-- Only memory, rows and hash tables differ. -/
structure Same (process process' : Process type) : Prop where
  tables : process'.tables = process.tables
  base : process'.baseCopy = process.baseCopy
  llHead : process'.llHead = process.llHead
  comparisons : process'.comparisons = process.comparisons
  saved : process'.savedRow = process.savedRow
  savedShared : process'.savedSharedRow = process.savedSharedRow

/-- The lists stay in agreement when no row changes hands. -/
theorem Lists.same (lists : Lists process owner) (llHead : process'.llHead = process.llHead)
    (keyTable : ∀ t, (process'.keyTable t).Perm (process.keyTable t))
    (comparisons : process'.comparisons = process.comparisons)
    (saved : process'.savedRow = process.savedRow)
    (savedShared : process'.savedSharedRow = process.savedSharedRow)
    (rows : ∀ block home place, owner block = some (.row home, place) →
      owner' block = some (.row home, place))
    : Lists process' owner' := by
  refine ⟨?_, ?_, ?_, ?_, ?_, ?_, ?_⟩
  · rw [llHead]
    intro t row listed
    obtain ⟨place, here⟩ := lists.listed t row listed
    exact ⟨place, rows row _ place here⟩
  · rw [llHead]
    exact lists.apart
  · rw [llHead]
    exact fun t => (keyTable t).trans (lists.linked t)
  · rw [comparisons]
    exact fun entry inside => rows _ _ _ (lists.comparisons entry inside)
  · rw [comparisons]
    exact lists.once
  · rw [saved]
    exact fun row isSaved => rows row _ _ (lists.saved row isSaved)
  · rw [savedShared]
    intro row isSaved
    obtain ⟨share, here⟩ := lists.savedShared row isSaved
    exact ⟨share, rows row _ _ here⟩

-----------------------------------------------------------------------------------------
-- Changes of a part of a row
-----------------------------------------------------------------------------------------

/-- Only blocks of one part of a row, and blocks without an owner, change hands. -/
structure Trades (owner owner' : Owners) (part : Owner) : Prop where
  kept : ∀ block held, owner block = some held → held.1 ≠ part → owner' block = some held
  rows : ∀ block home place, owner' block = some (.row home, place) →
    owner block = some (.row home, place)

theorem Trades.refl {part : Owner} : Trades owner owner part :=
  ⟨fun _ _ has _ => has, fun _ _ _ has => has⟩

/-- The part gets a block. -/
theorem Trades.gain {block : Nat} {part : Owner} (free : owner block = none)
    (isPart : ∀ home, part ≠ .row home)
    : Trades owner (Function.update owner block (some (part, place))) part where
  kept := fun other held has _ => by
    have apart : other ≠ block := by
      rintro rfl
      rw [free] at has
      cases has
    rw [Function.update_of_ne apart, has]
  rows := fun other home place has => by
    by_cases same : other = block
    · rw [same, Function.update_self] at has
      exact absurd (congrArg Prod.fst (Option.some.inj has)) (isPart home)
    · rwa [Function.update_of_ne same] at has

/-- The part loses a block. -/
theorem Trades.lose {block : Nat} {part : Owner} (has : owner block = some (part, place))
    : Trades owner (Function.update owner block none) part where
  kept := fun other held has' others => by
    have apart : other ≠ block := by
      rintro rfl
      rw [has] at has'
      exact others (congrArg Prod.fst (Option.some.inj has')).symm
    rw [Function.update_of_ne apart, has']
  rows := fun other home place has' => by
    by_cases same : other = block
    · rw [same, Function.update_self] at has'
      cases has'
    · rwa [Function.update_of_ne same] at has'

theorem Trades.trans {owner'' : Owners} {part : Owner} (first : Trades owner owner' part)
    (second : Trades owner' owner'' part)
    : Trades owner owner'' part where
  kept := fun block held has others =>
    second.kept block held (first.kept block held has others) others
  rows := fun block home place has =>
    first.rows block home place (second.rows block home place has)

theorem Trades.around {part : Owner} (trades : Trades owner owner' part)
    (concerns : ∀ block, part.Concerns block row)
    : Around owner owner' row where
  kept := fun block held has others =>
    trades.kept block held has fun same => others (same ▸ concerns block)
  rows := fun block home place _ has => trades.rows block home place has

/-- The process stays consistent when a part of a row changes and fits what the row is for. -/
theorem Consistent.trades {part : Owner} (consistent : Consistent process owner)
    (here : owner row = some (.row home, place)) (trades : Trades owner owner' part)
    (concerns : ∀ block, part.Concerns block row) (isPart : part ≠ .row home)
    (same : Same process process')
    (others : ∀ other, other ≠ row → process'.rows other = process.rows other)
    (owned : process'.history.Owned owner') (fits : RowFits process' owner' row place home)
    (keyTable : ∀ t, (process'.keyTable t).Perm (process.keyTable t))
    : Consistent process' owner' where
  blocks := by
    refine consistent.blocks.around ⟨others, same.tables, fun key => same.base ▸ id⟩
      (trades.around concerns) owned (.inl same.base) fun home' place' has => ?_
    have has := trades.rows row home' place' has
    rw [here] at has
    cases has
    exact fits
  lists := consistent.lists.same same.llHead keyTable same.comparisons same.saved
    same.savedShared fun block home' place' has => by
    refine trades.kept block _ has ?_
    rintro rfl
    have isRow := concerns block
    rw [show block = row from isRow, here] at has
    cases has
    exact isPart rfl

end Consistent

end SpeedTables.Allocation
