import Mathlib
import SpeedTables.Table.FieldBlocks

/-! Rows are prepared, enter a table or serve a comparison, and are released. -/

namespace SpeedTables.Allocation

open Lib (BlockHistory)

variable {type : RowType} {process process' : Process type} {owner owner' : Owners} {row : Nat}
variable {place : Region} {home : Home}

-----------------------------------------------------------------------------------------
-- New rows
-----------------------------------------------------------------------------------------

section NewRows

variable {table : CTable type} {t : Nat}

/-- A new row is prepared, or made for a comparison. -/
theorem Blocks.init (blocks : Blocks process owner) (found : process.tables t = some table)
    (place : Region) (home : Home) (isHome : home = .saved ∨ home = .comparison t ∧ place = .heap)
    : Blocks ((process.allocate place).init table process.history.next)
        (Function.update owner process.history.next (some (.row home, place))) := by
  have fresh := blocks.owned.fresh
  have around : Around owner (Function.update owner process.history.next
      (some (Owner.row home, place))) process.history.next :=
    .gain fresh fun _ _ => rfl
  have beside : Beside process ((process.allocate place).init table process.history.next)
      process.history.next := by
    refine ⟨fun other apart => Function.update_of_ne apart .., rfl, fun key template => ?_⟩
    show some (process.baseCopy.getD _) = _
    rw [template]
    rfl
  refine blocks.around beside around (blocks.owned.allocate (.row home, place)) (.inr ?_) ?_
  · intro key template
    have same : process.baseCopy.getD table.nullKeyValue = some key := Option.some.inj template
    cases base : process.baseCopy with
    | none =>
        rw [base] at same
        obtain ⟨origin, mine⟩ := blocks.nullKeys t table found key same
        exact ⟨origin, around.kept key _ mine id⟩
    | some template =>
        rw [base] at same
        obtain ⟨origin, mine⟩ := blocks.base key (by rw [base]; exact congrArg some same)
        exact ⟨origin, around.kept key _ mine id⟩
  · intro home' place' has
    rw [Function.update_self] at has
    cases has
    have self : ((process.allocate place).init table process.history.next).rows
        process.history.next = _ := Function.update_self ..
    refine ⟨?_, fun field => ?_⟩
    · rcases isHome with rfl | ⟨rfl, rfl⟩
      · rw [KeyFits, self]
        exact fun _ => rfl
      · refine ⟨⟨table, found⟩, rfl, .inl ?_⟩
        rw [self]
        rfl
    · rw [self]
      refine ⟨fun set => absurd set (Nat.lt_irrefl 0), fun _ block points => ?_⟩
      simp only at points
      split at points
      · cases points
        obtain ⟨origin, mine⟩ := blocks.defaults t table found field
        exact ⟨origin, around.kept _ _ mine id⟩
      · cases points

/-- A comparison row is made. -/
theorem Consistent.makeComparison (consistent : Consistent process owner)
    (found : process.tables t = some table)
    : ∃ owner', Consistent { (process.makeEmptyRow table).2 with
        comparisons := (t, process.history.next) :: (process.makeEmptyRow table).2.comparisons }
      owner' := by
  have ⟨blocks, lists⟩ := consistent
  have fresh := blocks.owned.fresh
  have init := blocks.init found .heap (.comparison t) (.inr ⟨rfl, rfl⟩)
  have kept {block : Nat} {held : Owner × Region} (has : owner block = some held) :=
    blocks.owned.still has (Owner.row (.comparison t), Region.heap)
  refine ⟨_, init.congr rfl rfl rfl rfl, ?_, lists.apart, lists.linked, ?_, ?_, ?_, ?_⟩
  · intro t row listed
    obtain ⟨place, here⟩ := lists.listed t row listed
    exact ⟨place, kept here⟩
  · intro entry inside
    rcases List.mem_cons.mp inside with rfl | inside
    · exact Function.update_self ..
    · exact kept (lists.comparisons entry inside)
  · refine List.nodup_cons.mpr ⟨fun inside => ?_, lists.once⟩
    have mine := lists.comparisons _ inside
    rw [fresh] at mine
    cases mine
  · exact fun row isSaved => kept (lists.saved row isSaved)
  · intro row isSaved
    obtain ⟨share, here⟩ := lists.savedShared row isSaved
    exact ⟨share, kept here⟩

/-- A row that is not in use yet, in private memory or in a share as the table needs it. -/
structure Prepared (owner : Owners) (table : CTable type) (row : Nat) (place : Region) : Prop where
  here : owner row = some (.row .saved, place)
  shared : table.isMaster = true → ∃ share, place = .share share
  unshared : table.isMaster = false → place = .heap

theorem CTable.place_master (master : table.isMaster = true)
    : ∃ share, table.shareType = .master share ∧ table.place = .share share := by
  rw [isMaster] at master
  rw [place]
  cases shape : table.shareType with
  | master share => exact ⟨share, rfl, rfl⟩
  | none => simp [shape] at master
  | reader share => simp [shape] at master

theorem CTable.place_private (notMaster : table.isMaster = false) : table.place = .heap := by
  rw [isMaster] at notMaster
  rw [place]
  cases shape : table.shareType with
  | master share => simp [shape] at notMaster
  | none => rfl
  | reader share => rfl

/-- The process stays consistent when it prepares a row. Nothing changes below the new block. -/
theorem Consistent.nextRow {next : Nat} {room : Bool} (consistent : Consistent process owner)
    (found : process.tables t = some table)
    (result : process.nextRow table room = some (next, process'))
    : ∃ owner' place, Consistent process' owner' ∧ Prepared owner' table next place
      ∧ (table.isMaster = true → place = table.place
          ∨ process.savedSharedRow = some next ∧ owner next = owner' next)
      ∧ process'.tables = process.tables ∧ process'.llHead = process.llHead
      ∧ process'.keyTable = process.keyTable ∧ process'.contents = process.contents
      ∧ process.history.next ≤ process'.history.next
      ∧ ∀ row, row < process.history.next → process'.rows row = process.rows row := by
  have ⟨blocks, lists⟩ := consistent
  rw [Process.nextRow] at result
  split at result
  · next row saved =>
      cases result
      refine ⟨owner, ?_⟩
      cases master : table.isMaster with
      | true =>
          rw [master, if_pos rfl] at saved
          obtain ⟨share, here⟩ := lists.savedShared next saved
          have shared : table.isMaster = false → Region.share share = .heap := fun no => by
            rw [master] at no
            cases no
          exact ⟨.share share, consistent, ⟨here, fun _ => ⟨share, rfl⟩, shared⟩,
            fun _ => .inr ⟨saved, rfl⟩, rfl, rfl, rfl, rfl, Nat.le_refl _, fun _ _ => rfl⟩
      | false =>
          rw [master, if_neg Bool.false_ne_true] at saved
          have notShared {p : Prop} (no : table.isMaster = true) : p := by
            rw [master] at no
            cases no
          exact ⟨.heap, consistent, ⟨lists.saved next saved, notShared, fun _ => rfl⟩, nofun, rfl,
            rfl, rfl, rfl, Nat.le_refl _, fun _ _ => rfl⟩
  · split at result
    · cases result
    · cases result
      have init := blocks.init found table.place .saved (.inl rfl)
      have lists' : Lists ((process.allocate table.place).init table process.history.next)
          (Function.update owner process.history.next (some (.row .saved, table.place))) :=
        lists.same rfl (fun _ => .rfl) rfl rfl rfl fun block home place has =>
          blocks.owned.still has (.row .saved, table.place)
      refine ⟨_, table.place, ⟨init, lists'⟩, ⟨Function.update_self .., fun master => ?_,
        CTable.place_private⟩, fun _ => .inl rfl, rfl, rfl, rfl, rfl, Nat.le_succ _,
        fun row old => ?_⟩
      · obtain ⟨share, -, place⟩ := CTable.place_master master
        exact ⟨share, place⟩
      · exact Function.update_of_ne (Nat.ne_of_lt old) ..

theorem Process.saveRow_fields (process : Process type) (table : CTable type) (saved : Option Nat)
    : (process.saveRow table saved).history = process.history
      ∧ (process.saveRow table saved).rows = process.rows
      ∧ (process.saveRow table saved).tables = process.tables
      ∧ (process.saveRow table saved).baseCopy = process.baseCopy
      ∧ (process.saveRow table saved).llHead = process.llHead
      ∧ (process.saveRow table saved).keyTable = process.keyTable
      ∧ (process.saveRow table saved).comparisons = process.comparisons := by
  rw [saveRow]
  split <;> exact ⟨rfl, rfl, rfl, rfl, rfl, rfl, rfl⟩

/-- The prepared row is kept for the next key. -/
theorem Consistent.saveRow (consistent : Consistent process owner)
    (prepared : Prepared owner table row place)
    : Consistent (process.saveRow table (some row)) owner := by
  have ⟨blocks, lists⟩ := consistent
  obtain ⟨history, rows, tables, base, -⟩ := process.saveRow_fields table (some row)
  refine ⟨blocks.congr history rows tables base, ?_⟩
  rw [Process.saveRow]
  split
  · next master =>
      obtain ⟨share, rfl⟩ := prepared.shared master
      refine ⟨lists.listed, lists.apart, lists.linked, lists.comparisons, lists.once, lists.saved,
        fun other saved => ?_⟩
      cases saved
      exact ⟨share, prepared.here⟩
  · next notMaster =>
      obtain rfl := prepared.unshared (Bool.eq_false_iff.mpr notMaster)
      refine ⟨lists.listed, lists.apart, lists.linked, lists.comparisons, lists.once,
        fun other saved => ?_, lists.savedShared⟩
      cases saved
      exact prepared.here

/-- A prepared row with a key enters the table. -/
theorem Consistent.enlist {mem : Nat} (consistent : Consistent process owner)
    (found : process.tables t = some table) (notReader : table.isReader = false)
    (prepared : Prepared owner table row table.place)
    (mine : owner mem = some (.key row, table.place))
    : ∃ owner', Consistent (((process.setKey row (some mem)).setLists t (row :: process.llHead t)
        (row :: process.keyTable t)).saveRow table none) owner' := by
  have ⟨blocks, lists⟩ := consistent
  have here := prepared.here
  have fits := blocks.rows row _ _ here
  have kept {block : Nat} {held : Owner × Region} (has : owner block = some held)
      (other : held.1 ≠ .row .saved)
      : Function.update owner row (some (.row (.listed t), table.place)) block = some held := by
    have apart : block ≠ row := by
      rintro rfl
      rw [here] at has
      cases has
      exact other rfl
    rw [Function.update_of_ne apart, has]
  refine ⟨Function.update owner row (some (.row (.listed t), table.place)), ?_, ?_⟩
  · obtain ⟨history, rows, tables, base, -⟩ := Process.saveRow_fields ((process.setKey row
      (some mem)).setLists t (row :: process.llHead t) (row :: process.keyTable t)) table none
    refine Blocks.congr ?_ history rows tables base
    refine blocks.around ⟨fun other apart => Function.update_of_ne apart .., rfl, fun _ => id⟩
      ⟨fun block held has others => ?_, fun block home place apart has => ?_⟩
      (blocks.owned.pass here _) (.inl rfl) fun home place has => ?_
    · have apart : block ≠ row := by
        rintro rfl
        rw [here] at has
        cases has
        exact others rfl
      rw [Function.update_of_ne apart, has]
    · rwa [Function.update_of_ne apart] at has
    · rw [Function.update_self] at has
      cases has
      have self : (((process.setKey row (some mem)).setLists t (row :: process.llHead t)
          (row :: process.keyTable t)).rows row) = { process.rows row with key := some mem } :=
        Function.update_self ..
      refine ⟨⟨⟨table, found, notReader, rfl⟩, mem, ?_, kept mine nofun⟩, fun field => ?_⟩
      · rw [self]
      · rw [self]
        refine ⟨fun set => ?_, fun unset block points => ?_⟩
        · exact absurd (fits.key field) (Nat.ne_of_gt set)
        · obtain ⟨origin, constant⟩ := (fits.strings field).constant unset block points
          exact ⟨origin, kept constant nofun⟩
  · have elsewhere {other : Nat} {t' : Nat} (listed : other ∈ process.llHead t') : other ≠ row := by
      rintro rfl
      obtain ⟨place, has⟩ := lists.listed t' other listed
      rw [here] at has
      cases has
    obtain ⟨-, -, -, -, llHead, keyTable, comparisons⟩ := Process.saveRow_fields ((process.setKey
      row (some mem)).setLists t (row :: process.llHead t) (row :: process.keyTable t)) table none
    refine ⟨fun t' => ?_, fun t' => ?_, fun t' => ?_, ?_, ?_, fun other saved => ?_,
      fun other saved => ?_⟩
    · rw [llHead]
      intro other listed
      change other ∈ Function.update process.llHead t (row :: process.llHead t) t' at listed
      by_cases same : t' = t
      · subst same
        rw [Function.update_self] at listed
        rcases List.mem_cons.mp listed with rfl | listed
        · exact ⟨_, Function.update_self ..⟩
        · obtain ⟨place, has⟩ := lists.listed t' other listed
          exact ⟨place, kept has nofun⟩
      · rw [Function.update_of_ne same] at listed
        obtain ⟨place, has⟩ := lists.listed t' other listed
        exact ⟨place, kept has nofun⟩
    · rw [llHead]
      change (Function.update process.llHead t (row :: process.llHead t) t').Nodup
      by_cases same : t' = t
      · subst same
        rw [Function.update_self]
        exact List.nodup_cons.mpr ⟨fun listed => elsewhere listed rfl, lists.apart t'⟩
      · rw [Function.update_of_ne same]
        exact lists.apart t'
    · rw [llHead, keyTable]
      change (Function.update process.keyTable t (row :: process.keyTable t) t').Perm
        (Function.update process.llHead t (row :: process.llHead t) t')
      by_cases same : t' = t
      · subst same
        rw [Function.update_self, Function.update_self]
        exact (lists.linked t').cons row
      · rw [Function.update_of_ne same, Function.update_of_ne same]
        exact lists.linked t'
    · rw [comparisons]
      exact fun entry inside => kept (lists.comparisons entry inside) nofun
    · rw [comparisons]
      exact lists.once
    · rw [Process.saveRow] at saved
      split at saved
      · next master =>
          obtain ⟨share, place⟩ := prepared.shared master
          have has := lists.saved other saved
          have apart : other ≠ row := by
            rintro rfl
            rw [here, place] at has
            cases has
          rw [Function.update_of_ne apart, has]
      · cases saved
    · rw [Process.saveRow] at saved
      split at saved
      · cases saved
      · next notMaster =>
          obtain ⟨share, has⟩ := lists.savedShared other saved
          have apart : other ≠ row := by
            rintro rfl
            rw [here, prepared.unshared (Bool.eq_false_iff.mpr notMaster)] at has
            cases has
          exact ⟨share, by rw [Function.update_of_ne apart, has]⟩

/-- A prepared row has a key block for a while, or loses it. -/
theorem Consistent.tradeKey (consistent : Consistent process owner)
    (here : owner row = some (.row .saved, place)) (trades : Trades owner owner' (.key row))
    (same : Same process process') (rows : process'.rows = process.rows)
    (keyTable : process'.keyTable = process.keyTable) (owned : process'.history.Owned owner')
    : Consistent process' owner' := by
  have fits := consistent.blocks.rows row _ _ here
  refine consistent.trades here trades (fun _ => rfl) (fun same => by cases same) same
    (fun other _ => by rw [rows])
    owned ⟨?_, fun field => ?_⟩ fun t => keyTable ▸ .rfl
  · rw [KeyFits, rows]
    exact fits.key
  · rw [rows]
    refine ⟨fun set => absurd (fits.key field) (Nat.ne_of_gt set), fun unset block points => ?_⟩
    obtain ⟨origin, constant⟩ := (fits.strings field).constant unset block points
    exact ⟨origin, trades.kept block _ constant (fun same => by cases same)⟩

/-- Lookups see only what the keys of the table point to. -/
theorem Consistent.findHashEntry_eq {key : CString} (consistent : Consistent process owner)
    (keyTable : process'.keyTable t = process.keyTable t)
    (rows : ∀ row, row < process.history.next → process'.rows row = process.rows row)
    (contents : ∀ block, block < process.history.next →
      process'.contents block = process.contents block)
    : process'.findHashEntry t key = process.findHashEntry t key := by
  rw [Process.findHashEntry, Process.findHashEntry, keyTable]
  refine List.find?_congr fun row linked => ?_
  obtain ⟨place, here⟩ :=
    consistent.lists.listed t row ((consistent.lists.linked t).mem_iff.mp linked)
  obtain ⟨-, own, has, mine⟩ := (consistent.blocks.rows row _ place here).key
  rw [rows row (consistent.blocks.owned.handedOut row _ here), has]
  simp only [Option.any_some]
  rw [contents own (consistent.blocks.owned.handedOut own _ mine)]

theorem Process.storeRow_old {key : CString} {static : Option Nat} {other : Nat}
    (there : process.findHashEntry t key = some other)
    : process.storeRow t table key static row
      = ((other, false), (process.free static table.place).saveRow table (some row)) := by
  cases static <;> simp [storeRow, storeHashEntry, there]

theorem Process.storeRow_static {key : CString} {mem : Nat}
    (absent : process.findHashEntry t key = none)
    : process.storeRow t table key (some mem) row
      = ((row, true), ((process.setKey row (some mem)).setLists t (row :: process.llHead t)
          (row :: process.keyTable t)).saveRow table none) := by
  simp [storeRow, storeHashEntry_static absent, setLists, setKey, setRow]

theorem Process.storeRow_volatile {key : CString}
    (absent : process.findHashEntry t key = none)
    : process.storeRow t table key none row
      = ((row, true), (((process.allocateText .heap key).setKey row
          (some process.history.next)).setLists t (row :: process.llHead t)
            (row :: process.keyTable t)).saveRow table none) := by
  simp [storeRow, storeHashEntry_volatile absent, setLists, setKey, setRow, allocateText]

/-- Looking a key up in a master's table, with a prepared row and a key block in the share. -/
theorem Consistent.storeShared {share : Nat} {key : CString}
    (consistent : Consistent process owner) (found : process.tables t = some table)
    (shape : table.shareType = .master share) (ready : Prepared owner table row place)
    (turn : process.findHashEntry t key = none → place = table.place)
    (same : (process.allocateText (.share share) key).findHashEntry t key
      = process.findHashEntry t key)
    : ∃ owner', Consistent ((process.allocateText (.share share) key).storeRow t table key
        (some process.history.next) row).2 owner' := by
  have owned := consistent.blocks.owned
  have here : table.place = .share share := by rw [CTable.place, shape]
  have notReader : table.isReader = false := by rw [CTable.isReader, shape]
  have gain : Trades owner (Function.update owner process.history.next
      (some (Owner.key row, Region.share share))) (.key row) :=
    .gain owned.fresh (fun row same => by cases same)
  have gained := owned.allocate (Owner.key row, Region.share share)
  have allocated : Consistent (process.allocateText (.share share) key) _ :=
    consistent.tradeKey ready.here gain ⟨rfl, rfl, rfl, rfl, rfl, rfl⟩ rfl rfl gained
  have mine := Function.update_self process.history.next
    (some (Owner.key row, Region.share share)) owner
  have ready' : Prepared _ table row place :=
    ⟨owned.still ready.here (Owner.key row, Region.share share), ready.shared, ready.unshared⟩
  cases there : (process.allocateText (.share share) key).findHashEntry t key with
  | some other =>
      rw [Process.storeRow_old there, here]
      have lost : Consistent ((process.allocateText (.share share) key).free
          (some process.history.next) (.share share)) _ :=
        allocated.tradeKey ready'.here (.lose mine) ⟨rfl, rfl, rfl, rfl, rfl, rfl⟩ rfl rfl
          (gained.release mine)
      refine ⟨_, lost.saveRow ⟨?_, ready.shared, ready.unshared⟩⟩
      rw [Function.update_of_ne (Nat.ne_of_lt (owned.handedOut row _ ready.here))]
      exact ready'.here
  | none =>
      rw [Process.storeRow_static there]
      obtain rfl := turn (same ▸ there)
      exact allocated.enlist found notReader ready' (here ▸ mine)

/-- Looking a key up in a private table, with a prepared row. -/
theorem Consistent.storePrivate {key : CString} (consistent : Consistent process owner)
    (found : process.tables t = some table) (notReader : table.isReader = false)
    (notMaster : table.isMaster = false) (ready : Prepared owner table row place)
    : ∃ owner', Consistent (process.storeRow t table key none row).2 owner' := by
  have owned := consistent.blocks.owned
  have here := CTable.place_private notMaster
  obtain rfl := ready.unshared notMaster
  cases there : process.findHashEntry t key with
  | some other =>
      rw [Process.storeRow_old there]
      exact ⟨_, consistent.saveRow ready⟩
  | none =>
      rw [Process.storeRow_volatile there]
      have gain : Trades owner (Function.update owner process.history.next
          (some (Owner.key row, Region.heap))) (.key row) :=
        .gain owned.fresh nofun
      have allocated : Consistent (process.allocateText .heap key) _ :=
        consistent.tradeKey ready.here gain ⟨rfl, rfl, rfl, rfl, rfl, rfl⟩ rfl rfl
          (owned.allocate (Owner.key row, Region.heap))
      refine allocated.enlist found notReader ⟨?_, fun no => ?_, fun _ => here⟩ ?_
      · rw [here]
        exact owned.still ready.here _
      · rw [notMaster] at no
        cases no
      · rw [here]
        exact Function.update_self ..

/-- Looking a key up, and creating its row, keeps the process consistent. -/
theorem Consistent.findOrCreate {key : CString} {roomForRow roomForKey : Bool}
    {found? : Option (Nat × Bool)} (consistent : Consistent process owner)
    (found : process.tables t = some table) (notReader : table.isReader = false)
    (proper : process.Proper t table (.findOrCreate t key roomForRow roomForKey))
    (result : process.findOrCreate t table key roomForRow roomForKey = some (found?, process'))
    : ∃ owner', Consistent process' owner' := by
  have outOfMemory {process₁ : Process type} {owner₁ : Owners}
      (consistent : Consistent process₁ owner₁)
      (result : process₁.outOfMemory table = some (found?, process'))
      : ∃ owner', Consistent process' owner' := by
    rw [Process.outOfMemory] at result
    split at result
    · cases result
    · cases result
      exact ⟨owner₁, consistent⟩
  rw [Process.findOrCreate] at result
  split at result
  · exact outOfMemory consistent result
  · next next prepared isNext =>
      obtain ⟨owner₁, place, consistent₁, ready, fits, tables, llHead, keyTable, contents, later,
        rows⟩ := consistent.nextRow found isNext
      have found₁ : prepared.tables t = some table := tables ▸ found
      cases shape : table.shareType with
      | master share =>
          have master : table.isMaster = true := by rw [CTable.isMaster, shape]
          simp only [shape] at result
          split at result
          · cases result
            have before : prepared.findHashEntry t key = process.findHashEntry t key :=
              consistent.findHashEntry_eq (congrFun keyTable t) rows fun _ _ => by rw [contents]
            refine consistent₁.storeShared found₁ shape ready (fun absent => ?_) ?_
            · -- A row that was prepared before is from the share of the table.
              rcases fits master with home | ⟨saved, unchanged⟩
              · exact home
              · have region : process.history.region next = place :=
                  consistent.blocks.owned.placed next _ (unchanged.trans ready.here)
                rw [← region]
                exact proper master (before ▸ absent) next saved
            · exact consistent₁.findHashEntry_eq rfl (fun _ _ => rfl) fun block old =>
                Function.update_of_ne (Nat.ne_of_lt old) ..
          · exact outOfMemory consistent₁ result
      | none =>
          have notMaster : table.isMaster = false := by rw [CTable.isMaster, shape]
          simp only [shape] at result
          cases result
          exact consistent₁.storePrivate found₁ notReader notMaster ready
      | reader share =>
          have notMaster : table.isMaster = false := by rw [CTable.isMaster, shape]
          simp only [shape] at result
          cases result
          exact consistent₁.storePrivate found₁ notReader notMaster ready

end NewRows

-----------------------------------------------------------------------------------------
-- Deleted rows
-----------------------------------------------------------------------------------------

section Deletion

variable {table : CTable type} {t : Nat}

/-- The allocated strings of a row. -/
def Row.stringBlocks (row : Row type) : List Nat :=
  (List.finRange type.strings).filterMap fun field =>
    if 0 < (row.strings field).allocatedLength then (row.strings field).pointer else none

theorem Process.freeRow_eq {indexCtl : IndexCtl} (process : Process type)
    (turn : table.deletePlace indexCtl = some place)
    : process.freeRow table row indexCtl
      = { process with
          history := process.history.releaseAll ((process.rows row).stringBlocks ++ [row]) place }
      := by
  have strings (fields : List (Fin type.strings)) (process : Process type)
      : fields.foldl (fun process field => process.freeString row place field) process
        = { process with
            history := process.history.releaseAll (fields.filterMap fun field =>
              if 0 < ((process.rows row).strings field).allocatedLength then
                ((process.rows row).strings field).pointer
              else none) place } := by
    induction fields generalizing process with
    | nil => rfl
    | cons field rest ih =>
        rw [List.foldl_cons, ih, List.filterMap_cons]
        rw [Process.freeString]
        split
        · cases points : ((process.rows row).strings field).pointer with
          | none => rfl
          | some block => rfl
        · rfl
  rw [Process.freeRow, turn]
  simp only [strings, BlockHistory.releaseAll_append]
  rfl

/-- All strings of a row in use are its own. -/
theorem RowFits.stringBlocks (fits : RowFits process owner row place home)
    : (process.rows row).stringBlocks.Nodup
      ∧ ∀ block ∈ (process.rows row).stringBlocks,
          ∃ field, owner block = some (.string row field, place) := by
  have own {field : Fin type.strings} {block : Nat}
      (inside : (if 0 < ((process.rows row).strings field).allocatedLength then
        ((process.rows row).strings field).pointer else none) = some block)
      : owner block = some (.string row field, place) := by
    split at inside
    · next set =>
        obtain ⟨string, has, mine⟩ := (fits.strings field).allocated set
        obtain rfl : string = block := Option.some.inj (has.symm.trans inside)
        exact mine
    · cases inside
  constructor
  · refine List.Nodup.filterMap (fun field other block here there => ?_) (List.nodup_finRange _)
    have same := (own here).symm.trans (own there)
    exact Fin.ext (Owner.string.inj (Prod.mk.inj (Option.some.inj same)).1).2
  · intro block inside
    obtain ⟨field, -, isString⟩ := List.mem_filterMap.mp inside
    exact ⟨field, own isString⟩

/-- The blocks stay with their owners when a row is released with parts of it. -/
theorem Blocks.discard {released : List Nat} (blocks : Blocks process owner)
    (apart : released.Nodup)
    (ours : ∀ block ∈ released, ∃ held, owner block = some (held, place) ∧ held.Concerns block row)
    (inside : row ∈ released) (beside : Beside process process' row)
    (base : process'.baseCopy = process.baseCopy)
    (memory : process'.history = process.history.releaseAll released place)
    : Blocks process' (fun block => if block ∈ released then none else owner block) := by
  have owned := blocks.owned.releaseAll apart fun block member => by
    obtain ⟨held, has, -⟩ := ours block member
    exact ⟨held, has⟩
  refine blocks.around beside ⟨fun block held has others => ?_, fun block home place _ has => ?_⟩
    (memory ▸ owned) (.inl base) fun home place has => ?_
  · have outside : block ∉ released := fun member => by
      obtain ⟨held', has', concerns⟩ := ours block member
      rw [has] at has'
      cases has'
      exact others concerns
    rw [if_neg outside, has]
  · split at has
    · cases has
    · exact has
  · rw [if_pos inside] at has
    cases has

/-- The blocks of a row in a table: its key, its strings and itself. -/
theorem Consistent.listedBlocks (consistent : Consistent process owner)
    (found : process.tables t = some table) (listed : row ∈ process.llHead t)
    : ∃ key, (process.rows row).key = some key ∧ some key ≠ table.nullKeyValue
      ∧ (key :: ((process.rows row).stringBlocks ++ [row])).Nodup
      ∧ ∀ block ∈ key :: ((process.rows row).stringBlocks ++ [row]),
          ∃ held, owner block = some (held, table.place) ∧ held.Concerns block row := by
  obtain ⟨key, has, mine, here, notNull⟩ := consistent.ownKey found listed
  obtain ⟨apart, strings⟩ := (consistent.blocks.rows row _ _ here).stringBlocks
  refine ⟨key, has, has ▸ notNull, ?_, ?_⟩
  · refine List.nodup_cons.mpr ⟨fun inside => ?_, List.nodup_append.mpr
      ⟨apart, List.nodup_singleton row, fun block inside other single => ?_⟩⟩
    · rcases List.mem_append.mp inside with inside | inside
      · obtain ⟨field, isString⟩ := strings key inside
        rw [mine] at isString
        cases isString
      · obtain rfl := List.mem_singleton.mp inside
        rw [mine] at here
        cases here
    · obtain rfl := List.mem_singleton.mp single
      rintro rfl
      obtain ⟨field, isString⟩ := strings block inside
      rw [here] at isString
      cases isString
  · intro block inside
    rcases List.mem_cons.mp inside with rfl | inside
    · exact ⟨_, mine, rfl⟩
    · rcases List.mem_append.mp inside with inside | inside
      · obtain ⟨field, isString⟩ := strings block inside
        exact ⟨_, isString, rfl⟩
      · obtain rfl := List.mem_singleton.mp inside
        exact ⟨_, here, rfl⟩

/-- A row leaves its list, and it is released with parts of it. -/
theorem Consistent.remove {released : List Nat} {rowPlace : Region}
    (consistent : Consistent process owner) (here : owner row = some (.row home, rowPlace))
    (live : home ≠ .saved) (apart : released.Nodup)
    (ours : ∀ block ∈ released, ∃ held, owner block = some (held, place) ∧ held.Concerns block row)
    (inside : row ∈ released) (beside : Beside process process' row)
    (base : process'.baseCopy = process.baseCopy)
    (memory : process'.history = process.history.releaseAll released place)
    (llHead : ∀ t, (process'.llHead t).Sublist (process.llHead t) ∧ row ∉ process'.llHead t)
    (keyTable : ∀ t, (process'.keyTable t).Perm (process'.llHead t))
    (comparisons : process'.comparisons.Sublist process.comparisons
      ∧ ∀ t, (t, row) ∉ process'.comparisons)
    (saved : process'.savedRow = process.savedRow)
    (savedShared : process'.savedSharedRow = process.savedSharedRow)
    : ∃ owner', Consistent process' owner' := by
  have ⟨blocks, lists⟩ := consistent
  have kept {block : Nat} {home : Home} {place : Region}
      (has : owner block = some (.row home, place)) (other : block ≠ row)
      : (if block ∈ released then none else owner block) = some (.row home, place) := by
    have outside : block ∉ released := fun member => by
      obtain ⟨held, has', concerns⟩ := ours block member
      rw [has] at has'
      cases has'
      exact other concerns
    rw [if_neg outside, has]
  have unsaved {block : Nat} {place : Region} (has : owner block = some (.row .saved, place))
      : block ≠ row := by
    rintro rfl
    rw [here] at has
    cases has
    exact live rfl
  refine ⟨_, blocks.discard apart ours inside beside base memory, fun t other member => ?_,
    fun t => (lists.apart t).sublist (llHead t).1, keyTable, fun entry member => ?_,
    lists.once.sublist comparisons.1, ?_, ?_⟩
  · obtain ⟨place, has⟩ := lists.listed t other ((llHead t).1.subset member)
    exact ⟨place, kept has fun same => (llHead t).2 (same ▸ member)⟩
  · refine kept (lists.comparisons entry (comparisons.1.subset member)) fun same => ?_
    exact comparisons.2 entry.1 (same ▸ member)
  · rw [saved]
    intro other isSaved
    have has := lists.saved other isSaved
    exact kept has (unsaved has)
  · rw [savedShared]
    intro other isSaved
    obtain ⟨share, has⟩ := lists.savedShared other isSaved
    exact ⟨share, kept has (unsaved has)⟩

/-- A row leaves its table, and its blocks are released. -/
theorem Consistent.unlist {released : List Nat} (consistent : Consistent process owner)
    (listed : row ∈ process.llHead t) (apart : released.Nodup)
    (ours : ∀ block ∈ released, ∃ held, owner block = some (held, place) ∧ held.Concerns block row)
    (inside : row ∈ released) (beside : Beside process process' row)
    (base : process'.baseCopy = process.baseCopy)
    (memory : process'.history = process.history.releaseAll released place)
    (llHead : process'.llHead = Function.update process.llHead t ((process.llHead t).erase row))
    (keyTable : ∀ t, (process'.keyTable t).Perm (process'.llHead t))
    (comparisons : process'.comparisons = process.comparisons)
    (saved : process'.savedRow = process.savedRow)
    (savedShared : process'.savedSharedRow = process.savedSharedRow)
    : ∃ owner', Consistent process' owner' := by
  have lists := consistent.lists
  obtain ⟨rowPlace, here⟩ := lists.listed t row listed
  refine consistent.remove here nofun apart ours inside beside base memory (fun t' => ?_) keyTable
    ⟨comparisons ▸ .refl _, fun t' member => ?_⟩ saved savedShared
  · rw [llHead]
    by_cases same : t' = t
    · subst same
      rw [Function.update_self]
      exact ⟨List.erase_sublist, (lists.apart t').not_mem_erase⟩
    · rw [Function.update_of_ne same]
      refine ⟨.refl _, fun member => ?_⟩
      obtain ⟨place, has⟩ := lists.listed t' row member
      rw [here] at has
      cases has
      exact same rfl
  · rw [comparisons] at member
    have has := lists.comparisons _ member
    rw [here] at has
    cases has

theorem CTable.deletePlace_listed {indexCtl : IndexCtl} (notReader : table.isReader = false)
    (mode : indexCtl = .normal ∨ indexCtl = .fastDelete)
    : table.deletePlace indexCtl = some table.place := by
  rw [isReader] at notReader
  cases shape : table.shareType with
  | none => simp [deletePlace, place, shape]
  | master share => rcases mode with rfl | rfl <;> simp [deletePlace, place, shape]
  | reader share => simp [shape] at notReader

theorem Process.deleteKey_own {key : Nat} (process : Process type)
    (has : (process.rows row).key = some key) (notNull : some key ≠ table.nullKeyValue)
    : process.deleteKey table row true
      = (process.free (some key) table.place).setKey row table.nullKeyValue := by
  rw [deleteKey, has, if_neg notNull, CTable.place]
  cases table.shareType <;> rfl

/-- Deleting a row from a table keeps the process consistent. -/
theorem Consistent.deleteRow (consistent : Consistent process owner)
    (found : process.tables t = some table) (notReader : table.isReader = false)
    (listed : row ∈ process.llHead t)
    (result : process.deleteRow t table row .normal = some process')
    : ∃ owner', Consistent process' owner' := by
  obtain ⟨key, has, notNull, apart, ours⟩ := consistent.listedBlocks found listed
  have linked := (consistent.lists.linked t).mem_iff.mpr listed
  have deleted : process.deleteRow t table row .normal
      = some ((((process.setLists t ((process.llHead t).erase row)
          ((process.keyTable t).erase row)).free (some key) table.place).setKey row
            table.nullKeyValue).freeRow table row .normal) := by
    simp only [Process.deleteRow]
    rw [Process.deleteKey_own (process.setLists t ((process.llHead t).erase row)
      (process.keyTable t)) has notNull, Process.unlinkHashEntry, if_pos]
    · rw [Process.setKey_key, if_pos rfl]
      simp [Process.setLists, Process.setKey, Process.setRow, Process.free]
    · simpa using linked
  rw [deleted, Process.freeRow_eq _ (CTable.deletePlace_listed notReader (.inl rfl))] at result
  have same : ((((process.setLists t ((process.llHead t).erase row)
      ((process.keyTable t).erase row)).free (some key) table.place).setKey row
        table.nullKeyValue).rows row).stringBlocks = (process.rows row).stringBlocks := by
    simp [Row.stringBlocks, Process.setKey, Process.setRow]
  rw [same] at result
  cases result
  refine consistent.unlist listed apart ours (by simp)
    ⟨fun other unequal => Function.update_of_ne unequal .., rfl, fun _ => id⟩ rfl rfl rfl
    (fun t' => ?_) rfl rfl rfl
  change (Function.update process.keyTable t ((process.keyTable t).erase row) t').Perm
    (Function.update process.llHead t ((process.llHead t).erase row) t')
  by_cases here : t' = t
  · subst here
    rw [Function.update_self, Function.update_self]
    exact (consistent.lists.linked t').erase row
  · rw [Function.update_of_ne here, Function.update_of_ne here]
    exact consistent.lists.linked t'

theorem Process.clearRow_eq (process : Process type) (notReader : table.isReader = false)
    {key : Nat} (has : (process.rows row).key = some key)
    : process.clearRow table row
      = { process with
          history := process.history.releaseAll
            (key :: ((process.rows row).stringBlocks ++ [row])) table.place
          rows := Function.update process.rows row { process.rows row with key := none } } := by
  have same : (((process.free (some key) table.place).setKey row none).rows row).stringBlocks
      = (process.rows row).stringBlocks := by
    simp [Row.stringBlocks, Process.setKey, Process.setRow]
  rw [clearRow, has, freeRow_eq _ (CTable.deletePlace_listed notReader (.inr rfl)), same]
  rfl

/-- Clearing the first row of a table. -/
theorem Consistent.clearRow {rest : List Nat} (consistent : Consistent process owner)
    (found : process.tables t = some table) (notReader : table.isReader = false)
    (isList : process.llHead t = row :: rest)
    : ∃ owner', Consistent ((process.clearRow table row).setLists t rest rest) owner' := by
  have listed : row ∈ process.llHead t := isList ▸ List.mem_cons_self
  obtain ⟨key, has, notNull, apart, ours⟩ := consistent.listedBlocks found listed
  rw [Process.clearRow_eq _ notReader has]
  have erased : (process.llHead t).erase row = rest := by rw [isList, List.erase_cons_head]
  refine consistent.unlist listed apart ours (by simp)
    ⟨fun other unequal => Function.update_of_ne unequal .., rfl, fun _ => id⟩ rfl rfl ?_
    (fun t' => ?_) rfl rfl rfl
  · rw [erased]
    rfl
  · change (Function.update process.keyTable t rest t').Perm
      (Function.update process.llHead t rest t')
    by_cases here : t' = t
    · subst here
      rw [Function.update_self, Function.update_self]
    · rw [Function.update_of_ne here, Function.update_of_ne here]
      exact consistent.lists.linked t'

/-- Clearing a row does not depend on the lists. -/
theorem Process.clearRow_setLists (process : Process type) (notReader : table.isReader = false)
    (llHead keyTable : List Nat)
    : (process.setLists t llHead keyTable).clearRow table row
      = (process.clearRow table row).setLists t llHead keyTable := by
  have turn := CTable.deletePlace_listed notReader (.inr rfl)
  rw [clearRow, clearRow, freeRow_eq _ turn, freeRow_eq _ turn, setLists_rows]
  cases (process.rows row).key <;> rfl

theorem Process.clearRows_setLists (process : Process type) (notReader : table.isReader = false)
    (rows llHead keyTable : List Nat)
    : rows.foldl (fun process row => process.clearRow table row)
        (process.setLists t llHead keyTable)
      = (rows.foldl (fun process row => process.clearRow table row) process).setLists t llHead
          keyTable := by
  induction rows generalizing process with
  | nil => rfl
  | cons row rest ih =>
      rw [List.foldl_cons, List.foldl_cons, clearRow_setLists _ notReader, ih]

/-- The hash table may list the rows of the table in any order. -/
theorem Consistent.relist (consistent : Consistent process owner)
    : Consistent (process.setLists t (process.llHead t) (process.llHead t)) owner where
  blocks := consistent.blocks.congr rfl rfl rfl rfl
  lists := by
    have ⟨blocks, lists⟩ := consistent
    refine lists.same Process.setLists_llHead (fun t' => ?_) rfl rfl rfl fun _ _ _ has => has
    change (Function.update process.keyTable t (process.llHead t) t').Perm (process.keyTable t')
    by_cases here : t' = t
    · subst here
      rw [Function.update_self]
      exact (lists.linked t').symm
    · rw [Function.update_of_ne here]

/-- A table may forget its rows: they stay allocated. -/
theorem Consistent.forget (consistent : Consistent process owner)
    : Consistent (process.setLists t [] []) owner where
  blocks := consistent.blocks.congr rfl rfl rfl rfl
  lists := by
    have ⟨blocks, lists⟩ := consistent
    have part (t' : Nat) (rows : Nat → List Nat)
        : Function.update rows t [] t' = rows t' ∨ Function.update rows t [] t' = [] := by
      by_cases here : t' = t
      · exact .inr (here ▸ Function.update_self ..)
      · exact .inl (Function.update_of_ne here ..)
    refine ⟨fun t' row listed => ?_, fun t' => ?_, fun t' => ?_, lists.comparisons, lists.once,
      lists.saved, lists.savedShared⟩
    · change row ∈ Function.update process.llHead t [] t' at listed
      rcases part t' process.llHead with same | empty
      · exact lists.listed t' row (same ▸ listed)
      · simp [empty] at listed
    · change (Function.update process.llHead t [] t').Nodup
      rcases part t' process.llHead with same | empty
      · exact same ▸ lists.apart t'
      · simp [empty]
    · change (Function.update process.keyTable t [] t').Perm (Function.update process.llHead t [] t')
      by_cases here : t' = t
      · subst here
        rw [Function.update_self, Function.update_self]
      · rw [Function.update_of_ne here, Function.update_of_ne here]
        exact lists.linked t'

theorem Process.setLists_setLists (process : Process type) (llHead keyTable : List Nat)
    (llHead' keyTable' : List Nat)
    : (process.setLists t llHead keyTable).setLists t llHead' keyTable'
      = process.setLists t llHead' keyTable' := by
  simp [Process.setLists]

/-- Clearing the first rows of a table, by induction on them. -/
theorem Consistent.clearRows (consistent : Consistent process owner) (rows rest : List Nat)
    (found : process.tables t = some table) (notReader : table.isReader = false)
    (isList : process.llHead t = rows ++ rest)
    : ∃ owner', Consistent ((rows.foldl (fun process row => process.clearRow table row)
        process).setLists t rest rest) owner' := by
  induction rows generalizing process owner with
  | nil =>
      have relisted := @Consistent.relist _ _ _ t consistent
      rw [isList] at relisted
      exact ⟨owner, relisted⟩
  | cons row rows ih =>
      rw [List.cons_append] at isList
      obtain ⟨owner', cleared⟩ := consistent.clearRow found notReader isList
      have same : ((process.clearRow table row).setLists t (rows ++ rest) (rows ++ rest)).tables
          = process.tables := by
        have listed : row ∈ process.llHead t := isList ▸ List.mem_cons_self
        obtain ⟨key, has, -⟩ := consistent.listedBlocks found listed
        rw [Process.clearRow_eq _ notReader has]
        rfl
      obtain ⟨owner'', done⟩ := ih cleared (same ▸ found) (Function.update_self ..)
      refine ⟨owner'', ?_⟩
      rwa [Process.clearRows_setLists _ notReader, Process.setLists_setLists] at done

/-- Resetting a table keeps the process consistent. -/
theorem Consistent.reset (consistent : Consistent process owner)
    (found : process.tables t = some table)
    : ∃ owner', Consistent (process.reset t table) owner' := by
  rw [Process.reset]
  split
  · exact ⟨owner, consistent⟩
  · next notReader =>
      obtain ⟨rest, isList⟩ := List.dropLast_prefix (process.llHead t)
      obtain ⟨owner', cleared⟩ := consistent.clearRows _ rest found
        (Bool.eq_false_iff.mpr notReader) isList.symm
      refine ⟨owner', ?_⟩
      have forgotten := @Consistent.forget _ _ _ t cleared
      rwa [Process.setLists_setLists] at forgotten

/-- The last row of a table stays allocated when the table is reset, with its key and its strings. -/
theorem Consistent.reset_last {rows : List Nat} (consistent : Consistent process owner)
    (found : process.tables t = some table) (notReader : table.isReader = false)
    (isList : process.llHead t = rows ++ [row])
    : (process.reset t table).Intact row := by
  obtain ⟨owner', cleared⟩ := consistent.clearRows rows [row] found notReader isList
  have intact := cleared.disciplined.rows t row (by simp [Process.setLists])
  rw [Process.reset, if_neg (by simp [notReader]), isList, List.dropLast_concat]
  exact ⟨intact.self, intact.key, intact.strings⟩

/-- What `${table}_deleteKey` does to a comparison row: it frees at most the key of a row that is
not a master's, if it is not the null key value.
-/
theorem Process.deleteKey_comparison (process : Process type) (table : CTable type) (row : Nat)
    : ∃ (keys : List Nat) (value : Option Nat),
        process.deleteKey table row false
          = { process with
              history := process.history.releaseAll keys .heap
              rows := Function.update process.rows row { process.rows row with key := value } }
        ∧ (keys = [] ∨ ∃ key, keys = [key] ∧ (process.rows row).key = some key
            ∧ some key ≠ table.nullKeyValue ∧ table.isMaster = false) := by
  rw [deleteKey]
  split
  · refine ⟨[], (process.rows row).key, ?_, .inl rfl⟩
    rw [show ({ process.rows row with key := (process.rows row).key } : Row type)
      = process.rows row from rfl, Function.update_eq_self]
    rfl
  · next notNull =>
      cases shape : table.shareType with
      | master share => exact ⟨[], table.nullKeyValue, rfl, .inl rfl⟩
      | none =>
          cases has : (process.rows row).key with
          | none => exact ⟨[], table.nullKeyValue, rfl, .inl rfl⟩
          | some key =>
              exact ⟨[key], table.nullKeyValue, rfl,
                .inr ⟨key, rfl, rfl, has ▸ notNull, by rw [CTable.isMaster, shape]⟩⟩
      | reader share =>
          cases has : (process.rows row).key with
          | none => exact ⟨[], table.nullKeyValue, rfl, .inl rfl⟩
          | some key =>
              exact ⟨[key], table.nullKeyValue, rfl,
                .inr ⟨key, rfl, rfl, has ▸ notNull, by rw [CTable.isMaster, shape]⟩⟩

/-- Cleaning up a comparison row keeps the process consistent. -/
theorem Consistent.deleteComparison (consistent : Consistent process owner)
    (member : (t, row) ∈ process.comparisons)
    (proper : process.Proper t table (.deleteComparison t row))
    (result : process.deleteRow t table row .privateRow = some process')
    : ∃ owner', Consistent { process' with comparisons := process'.comparisons.erase (t, row) }
        owner' := by
  have ⟨blocks, lists⟩ := consistent
  have here := lists.comparisons _ member
  have fits := blocks.rows row _ _ here
  obtain ⟨apart, strings⟩ := fits.stringBlocks
  have turn : table.deletePlace .privateRow = some .heap := by
    rw [CTable.deletePlace]
    cases table.shareType <;> rfl
  obtain ⟨keys, value, isDeleted, fewKeys⟩ := process.deleteKey_comparison table row
  -- A key that is released is the row's own: the null key value of another table is excluded.
  have own : ∀ key ∈ keys, owner key = some (.key row, .heap) := by
    intro key inside
    rcases fewKeys with rfl | ⟨freed, rfl, has, notNull, notMaster⟩
    · cases inside
    · obtain rfl := List.mem_singleton.mp inside
      have foreign : ¬process.ForeignKey table row := by
        rcases proper with master | none | foreign
        · rw [notMaster] at master
          cases master
        · rw [has] at none
          cases none
        · exact foreign
      obtain ⟨-, -, template | ⟨own, has', mine⟩⟩ := fits.key
      · exact absurd ⟨template, has ▸ notNull⟩ foreign
      · obtain rfl : own = key := Option.some.inj (has'.symm.trans has)
        exact mine
  have few : keys.Nodup := by
    rcases fewKeys with rfl | ⟨freed, rfl, -⟩
    · exact List.nodup_nil
    · exact List.nodup_singleton _
  have notSelf {block : Nat} {part : Owner} (has : owner block = some (part, .heap))
      (isPart : part ≠ .row (.comparison t))
      : block ≠ row := by
    rintro rfl
    rw [here] at has
    cases has
    exact isPart rfl
  have same : ((process.deleteKey table row false).rows row).stringBlocks
      = (process.rows row).stringBlocks := by
    rw [isDeleted]
    simp [Row.stringBlocks]
  simp only [Process.deleteRow] at result
  rw [Process.freeRow_eq _ turn, same, isDeleted] at result
  cases result
  refine consistent.remove here nofun ?_ ?_ ?_
    ⟨fun other unequal => Function.update_of_ne unequal .., rfl, fun _ => id⟩ rfl
    (BlockHistory.releaseAll_append.symm) (fun t' => ⟨.refl _, fun inside => ?_⟩) lists.linked
    ⟨List.erase_sublist, fun t' inside => ?_⟩ rfl rfl
  · refine List.nodup_append.mpr ⟨few, List.nodup_append.mpr ⟨apart, List.nodup_singleton row,
      fun block inside other single => ?_⟩, fun key inside block member => ?_⟩
    · obtain rfl := List.mem_singleton.mp single
      obtain ⟨field, isString⟩ := strings block inside
      exact notSelf isString nofun
    · rcases List.mem_append.mp member with member | single
      · obtain ⟨field, isString⟩ := strings block member
        exact BlockHistory.Owned.ne_of_owner (own key inside) isString nofun
      · obtain rfl := List.mem_singleton.mp single
        exact notSelf (own key inside) nofun
  · intro block inside
    rcases List.mem_append.mp inside with inside | inside
    · exact ⟨_, own block inside, rfl⟩
    · rcases List.mem_append.mp inside with inside | single
      · obtain ⟨field, isString⟩ := strings block inside
        exact ⟨_, isString, rfl⟩
      · obtain rfl := List.mem_singleton.mp single
        exact ⟨_, here, rfl⟩
  · simp
  · obtain ⟨place, has⟩ := lists.listed t' row inside
    rw [here] at has
    cases has
  · obtain ⟨unequal, inside⟩ := lists.once.mem_erase_iff.mp inside
    have has := lists.comparisons _ inside
    rw [here] at has
    cases has
    exact unequal rfl

end Deletion

end SpeedTables.Allocation
