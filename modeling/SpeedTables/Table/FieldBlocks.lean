import SpeedTables.Table.BlockOwners

/-! Setting strings and keys: the old block is released to where the new one comes from. -/

namespace SpeedTables.Allocation

open Lib (BlockHistory)

variable {type : RowType} {process process' : Process type} {owner owner' : Owners} {row : Nat}
variable {place : Region} {home : Home}

-----------------------------------------------------------------------------------------
-- Strings
-----------------------------------------------------------------------------------------

/-- A string is replaced in a row of a table or a comparison row. -/
theorem Consistent.setString {string : StringField} {field : Fin type.strings}
    (consistent : Consistent process owner) (here : owner row = some (.row home, place))
    (live : home ≠ .saved) (trades : Trades owner owner' (.string row field))
    (same : Same process process') (keyTable : process'.keyTable = process.keyTable)
    (rows : process'.rows = Function.update process.rows row
      { process.rows row with
        strings := Function.update (process.rows row).strings field string })
    (owned : process'.history.Owned owner') (fits : string.Fits owner' row field place)
    : Consistent process' owner' := by
  have before := consistent.blocks.rows row home place here
  have key : (process'.rows row).key = (process.rows row).key := by
    rw [rows, Function.update_self]
  refine consistent.trades here trades (fun _ => rfl) (fun same => by cases same) same
    (fun other apart => ?_) owned
    ⟨?_, fun other => ?_⟩ fun t => keyTable ▸ .rfl
  · rw [rows, Function.update_of_ne apart]
  · have fits := before.key
    cases home with
    | listed t =>
        obtain ⟨table, key', has, mine⟩ := fits
        rw [KeyFits, same.tables, key]
        exact ⟨table, key', has, trades.kept key' _ mine (fun same => by cases same)⟩
    | comparison t =>
        obtain ⟨table, heap, template | ⟨key', has, mine⟩⟩ := fits
        · rw [KeyFits, same.tables, same.base, key]
          exact ⟨table, heap, .inl template⟩
        · rw [KeyFits, same.tables, same.base, key]
          exact ⟨table, heap, .inr ⟨key', has, trades.kept key' _ mine (fun same => by cases same)⟩⟩
    | saved => exact absurd rfl live
  · rw [rows, Function.update_self]
    show (Function.update (process.rows row).strings field string other).Fits ..
    by_cases this : other = field
    · rw [this, Function.update_self]
      exact fits
    · rw [Function.update_of_ne this]
      have old := before.strings other
      refine ⟨fun some => ?_, fun none block has => ?_⟩
      · obtain ⟨block, has, mine⟩ := old.allocated some
        refine ⟨block, has, trades.kept block _ mine fun same => this ?_⟩
        exact Fin.ext (Owner.string.inj same).2
      · obtain ⟨origin, mine⟩ := old.constant none block has
        exact ⟨origin, trades.kept block _ mine (fun same => by cases same)⟩

section Strings

variable {table : CTable type} {field : Fin type.strings} {value : CString} {failed : Bool}

theorem Consistent.replaceString {isNull room : Bool} (consistent : Consistent process owner)
    (here : owner row = some (.row home, place)) (live : home ≠ .saved)
    (result : process.replaceString table row field value isNull place room
      = some (failed, process'))
    : ∃ owner', Consistent process' owner' := by
  have fits := (consistent.blocks.rows row home place here).strings field
  have owned := consistent.blocks.owned
  simp only [Process.replaceString] at result
  split at result
  · split at result
    · cases result
    · cases result
      exact ⟨owner, consistent.setString here live .refl ⟨rfl, rfl, rfl, rfl, rfl, rfl⟩ rfl rfl
        owned ⟨fits.allocated, fits.constant⟩⟩
  · cases result
    have gained := owned.allocate (.string row field, place)
    have gain : Trades owner (Function.update owner process.history.next
        (some (Owner.string row field, place))) (.string row field) :=
      .gain owned.fresh nofun
    have fresh {owner' : Owners}
        (mine : owner' process.history.next = some (.string row field, place))
        : StringField.Fits ⟨some process.history.next, value.length, value.length + 1, isNull⟩
            owner' row field place :=
      ⟨fun _ => ⟨_, rfl, mine⟩, fun zero => absurd zero (Nat.succ_ne_zero _)⟩
    rcases Nat.eq_zero_or_pos ((process.rows row).strings field).allocatedLength with unset | set
    · simp only [unset, Nat.lt_irrefl, if_false]
      exact ⟨_, consistent.setString here live gain ⟨rfl, rfl, rfl, rfl, rfl, rfl⟩ rfl rfl gained
        (fresh (Function.update_self ..))⟩
    · obtain ⟨block, has, mine⟩ := fits.allocated set
      have apart : block ≠ process.history.next := Nat.ne_of_lt (owned.handedOut block _ mine)
      have still : Function.update owner process.history.next
          (some (Owner.string row field, place)) block = some (Owner.string row field, place) := by
        rw [Function.update_of_ne apart, mine]
      simp only [set, if_true, has]
      refine ⟨_, consistent.setString here live (gain.trans (.lose still))
        ⟨rfl, rfl, rfl, rfl, rfl, rfl⟩ rfl rfl (gained.release still) (fresh ?_)⟩
      rw [Function.update_of_ne apart.symm, Function.update_self]

/-- Setting a string field keeps the process consistent. -/
theorem Consistent.setStringField {indexCtl : IndexCtl} {room : Bool}
    (consistent : Consistent process owner) (here : owner row = some (.row home, place))
    (live : home ≠ .saved) (turn : table.placeOf indexCtl = place)
    (result : process.setStringField table row field value indexCtl room
      = some (failed, process'))
    : ∃ owner', Consistent process' owner' := by
  simp only [Process.setStringField, turn] at result
  split at result
  · cases result
  · cases result
    exact ⟨owner, consistent⟩
  · next isNull _ =>
      split at result
      · next block points =>
          split at result
          · next fitsIn =>
              cases result
              have fits := (consistent.blocks.rows row home place here).strings field
              exact ⟨owner, consistent.setString here live .refl ⟨rfl, rfl, rfl, rfl, rfl, rfl⟩ rfl
                rfl consistent.blocks.owned ⟨fits.allocated, fits.constant⟩⟩
          · exact consistent.replaceString here live result
      · exact consistent.replaceString here live result

end Strings

-----------------------------------------------------------------------------------------
-- Keys
-----------------------------------------------------------------------------------------

section Keys

variable {table : CTable type} {t : Nat} {value : CString} {failed : Bool}

/-- A row of a table or a comparison row gets another key. -/
theorem Consistent.setKey {mem : Nat} (consistent : Consistent process owner)
    (here : owner row = some (.row home, place)) (live : home ≠ .saved)
    (trades : Trades owner owner' (.key row)) (same : Same process process')
    (keyTable : ∀ t, (process'.keyTable t).Perm (process.keyTable t))
    (rows : process'.rows
      = Function.update process.rows row { process.rows row with key := some mem })
    (owned : process'.history.Owned owner') (mine : owner' mem = some (.key row, place))
    : Consistent process' owner' := by
  have before := consistent.blocks.rows row home place here
  have key : (process'.rows row).key = some mem := by
    rw [rows, Function.update_self]
  have strings : (process'.rows row).strings = (process.rows row).strings := by
    rw [rows, Function.update_self]
  refine consistent.trades here trades (fun _ => rfl) (fun same => by cases same) same
    (fun other apart => ?_) owned
    ⟨?_, fun field => ?_⟩ keyTable
  · rw [rows, Function.update_of_ne apart]
  · have fits := before.key
    cases home with
    | listed t =>
        rw [KeyFits, same.tables]
        exact ⟨fits.1, mem, key, mine⟩
    | comparison t =>
        obtain ⟨table, rfl, -⟩ := fits
        rw [KeyFits, same.tables]
        exact ⟨table, rfl, .inr ⟨mem, key, mine⟩⟩
    | saved => exact absurd rfl live
  · rw [strings]
    have old := before.strings field
    refine ⟨fun set => ?_, fun unset block has => ?_⟩
    · obtain ⟨block, has, mine⟩ := old.allocated set
      exact ⟨block, has, trades.kept block _ mine (fun same => by cases same)⟩
    · obtain ⟨origin, mine⟩ := old.constant unset block has
      exact ⟨origin, trades.kept block _ mine (fun same => by cases same)⟩

/-- The key of a row in a table is its own, and not the null key value. -/
theorem Consistent.ownKey (consistent : Consistent process owner)
    (found : process.tables t = some table) (listed : row ∈ process.llHead t)
    : ∃ key, (process.rows row).key = some key ∧ owner key = some (.key row, table.place)
      ∧ owner row = some (.row (.listed t), table.place)
      ∧ (process.rows row).key ≠ table.nullKeyValue := by
  obtain ⟨place, here⟩ := consistent.lists.listed t row listed
  obtain ⟨⟨table', found', -, rfl⟩, key, has, mine⟩ := (consistent.blocks.rows row _ place here).key
  obtain rfl : table = table' := Option.some.inj (found.symm.trans found')
  refine ⟨key, has, mine, here, fun isNull => ?_⟩
  obtain ⟨origin, constant⟩ := consistent.blocks.nullKeys t table found key (isNull ▸ has)
  rw [mine] at constant
  cases constant

/-- A key that is not in the table is not there either when a row has been unlinked. -/
theorem Consistent.findHashEntry_none (consistent : Consistent process owner) (row : Nat)
    (absent : process.findHashEntry t value = none)
    (keyTable : process'.keyTable t = (process.keyTable t).erase row)
    (rows : ∀ other, other ≠ row → process'.rows other = process.rows other)
    (contents : ∀ block, block < process.history.next →
      process'.contents block = process.contents block)
    : process'.findHashEntry t value = none := by
  rw [Process.findHashEntry, List.find?_eq_none] at absent ⊢
  intro other linked
  rw [keyTable] at linked
  have nodup := (consistent.lists.linked t).nodup_iff.mpr (consistent.lists.apart t)
  obtain ⟨apart, linked⟩ := nodup.mem_erase_iff.mp linked
  obtain ⟨place, here⟩ :=
    consistent.lists.listed t other ((consistent.lists.linked t).mem_iff.mp linked)
  obtain ⟨-, key, has, mine⟩ := (consistent.blocks.rows other _ place here).key
  have differs := absent other linked
  rw [has] at differs
  rw [rows other apart, has]
  simpa only [Option.any_some, contents key (consistent.blocks.owned.handedOut key _ mine)]
    using differs

/-- An old key is released and a new block becomes the key. -/
theorem Consistent.replaceKey {key : Nat}
    (consistent : Consistent process owner) (here : owner row = some (.row home, place))
    (live : home ≠ .saved) (mine : owner key = some (.key row, place))
    (same : Same process process')
    (keyTable : ∀ t, (process'.keyTable t).Perm (process.keyTable t))
    (rows : process'.rows = Function.update process.rows row
      { process.rows row with key := some process.history.next })
    (memory : process'.history = ((process.history.allocate place).release key place))
    : ∃ owner', Consistent process' owner' := by
  have owned := consistent.blocks.owned
  have gained := owned.allocate (Owner.key row, place)
  have apart : key ≠ process.history.next := Nat.ne_of_lt (owned.handedOut key _ mine)
  have still : Function.update owner process.history.next (some (Owner.key row, place)) key
      = some (Owner.key row, place) := by
    rw [Function.update_of_ne apart, mine]
  have gain : Trades owner (Function.update owner process.history.next
      (some (Owner.key row, place))) (.key row) :=
    .gain owned.fresh nofun
  refine ⟨_, consistent.setKey here live (gain.trans (.lose still)) same keyTable rows
    (memory ▸ gained.release still) ?_⟩
  rw [Function.update_of_ne apart.symm, Function.update_self]

/-- The hash table of a row that is unlinked and linked again. -/
theorem relinked_perm (process : Process type) (linked : row ∈ process.keyTable t)
    (other : Nat)
    : (Function.update (Function.update process.keyTable t ((process.keyTable t).erase row)) t
        (row :: Function.update process.keyTable t ((process.keyTable t).erase row) t)
        other).Perm (process.keyTable other) := by
  rw [Function.update_idem, Function.update_self]
  by_cases same : other = t
  · subst same
    rw [Function.update_self]
    exact (List.perm_cons_erase linked).symm
  · rw [Function.update_of_ne same]

theorem Process.deleteHashEntry_master (process : Process type) {share key : Nat}
    (shape : table.shareType = .master share)
    (has : (process.rows row).key = some key) (notNull : some key ≠ table.nullKeyValue)
    (linked : row ∈ process.keyTable t)
    : process.deleteHashEntry t table row
      = some (((process.free (some key) (.share share)).setKey row table.nullKeyValue).setLists t
          (process.llHead t) ((process.keyTable t).erase row)) := by
  simp only [deleteHashEntry, shape, has, notNull, if_false, unlinkHashEntry, setKey_keyTable,
    free_keyTable, linked, if_true, setKey_key]
  rfl

theorem Process.deleteHashEntry_private (process : Process type) {key : Nat}
    (notMaster : table.isMaster = false)
    (has : (process.rows row).key = some key) (notNull : some key ≠ table.nullKeyValue)
    (linked : row ∈ process.keyTable t)
    : process.deleteHashEntry t table row
      = some ((process.setLists t (process.llHead t) ((process.keyTable t).erase row)).free
          (some key) .heap) := by
  have unlink : process.unlinkHashEntry t table row
      = some ((process.setLists t (process.llHead t) ((process.keyTable t).erase row)).free
          (some key) .heap) := by
    simp only [unlinkHashEntry, linked, if_true, has, notNull, if_false]
  cases shape : table.shareType with
  | master share =>
      rw [CTable.isMaster, shape] at notMaster
      cases notMaster
  | none => simp only [deleteHashEntry, shape, unlink]
  | reader share => simp only [deleteHashEntry, shape, unlink]

theorem Process.storeHashEntry_static {mem : Nat} (absent : process.findHashEntry t value = none)
    : process.storeHashEntry t value (some mem) row
      = ((row, true), (process.setKey row (some mem)).setLists t (process.llHead t)
          (row :: process.keyTable t)) := by
  rw [storeHashEntry, absent]
  rfl

theorem Process.storeHashEntry_volatile (absent : process.findHashEntry t value = none)
    : process.storeHashEntry t value none row
      = ((row, true), ((process.allocateText .heap value).setKey row
          (some process.history.next)).setLists t (process.llHead t)
            (row :: process.keyTable t)) := by
  rw [storeHashEntry, absent]
  rfl

/-- The row of a master is unlinked with its key and linked under a key in the share. -/
theorem Consistent.relinkMaster {share key : Nat} (consistent : Consistent process owner)
    (here : owner row = some (.row (.listed t), .share share))
    (shape : table.shareType = .master share) (has : (process.rows row).key = some key)
    (mine : owner key = some (.key row, .share share)) (notNull : some key ≠ table.nullKeyValue)
    (linked : row ∈ process.keyTable t) (absent : process.findHashEntry t value = none)
    : ∃ deleted, (process.allocateText (.share share) value).deleteHashEntry t table row
          = some deleted
        ∧ deleted.findHashEntry t value = none
        ∧ ∃ owner', Consistent ((deleted.setKey row (some process.history.next)).setLists t
            (deleted.llHead t) (row :: deleted.keyTable t)) owner' := by
  refine ⟨_, Process.deleteHashEntry_master (process.allocateText (.share share) value) shape has
    notNull linked, ?_, consistent.replaceKey here nofun mine ⟨rfl, rfl, ?_, rfl, rfl, rfl⟩
      (relinked_perm process linked) ?_ rfl⟩
  · refine consistent.findHashEntry_none row absent ?_ (fun other apart => ?_) fun block old => ?_
    · rw [Process.setLists_keyTable]
      rfl
    · exact Function.update_of_ne apart ..
    · exact Function.update_of_ne (Nat.ne_of_lt old) ..
  · simp [Process.setLists, Process.setKey, Process.setRow, Process.free, Process.allocateText]
  · simp [Process.setLists, Process.setKey, Process.setRow, Process.free, Process.allocateText]

/-- The row of a private table is unlinked with its key and linked under a copy of the new one. -/
theorem Consistent.relinkPrivate {key : Nat} (consistent : Consistent process owner)
    (here : owner row = some (.row (.listed t), .heap)) (notMaster : table.isMaster = false)
    (has : (process.rows row).key = some key) (mine : owner key = some (.key row, .heap))
    (notNull : some key ≠ table.nullKeyValue) (linked : row ∈ process.keyTable t)
    (absent : process.findHashEntry t value = none)
    : ∃ deleted, process.deleteHashEntry t table row = some deleted
        ∧ ∃ owner', Consistent (deleted.storeHashEntry t value none row).2 owner' := by
  refine ⟨_, Process.deleteHashEntry_private process notMaster has notNull linked, ?_⟩
  rw [Process.storeHashEntry_volatile]
  · refine consistent.replaceKey here nofun mine ⟨rfl, rfl, ?_, rfl, rfl, rfl⟩
      (relinked_perm process linked) rfl rfl
    simp [Process.setLists, Process.setKey, Process.setRow, Process.free, Process.allocateText]
  · refine consistent.findHashEntry_none row absent ?_ (fun other apart => ?_) fun _ _ => rfl
    · rw [Process.free_keyTable, Process.setLists_keyTable]
    · rw [Process.free_rows, Process.setLists_rows]

/-- A row of a table is unlinked with its key, linked under another one, and the process stays
consistent.
-/
theorem Consistent.reinsertRow {room : Bool} (consistent : Consistent process owner)
    (found : process.tables t = some table) (listed : row ∈ process.llHead t)
    (result : process.reinsertRow t table value row .normal room = some (failed, process'))
    : ∃ owner', Consistent process' owner' := by
  obtain ⟨key, has, mine, here, notNull⟩ := consistent.ownKey found listed
  rw [has] at notNull
  have linked := (consistent.lists.linked t).mem_iff.mpr listed
  simp only [Process.reinsertRow] at result
  split at result
  · cases result
    exact ⟨owner, consistent⟩
  · next absent =>
      simp only [if_true] at result
      cases shape : table.shareType with
      | master share =>
          have turn : table.place = .share share := by rw [CTable.place, shape]
          rw [turn] at mine here
          obtain ⟨deleted, isDeleted, absent', after⟩ :=
            consistent.relinkMaster here shape has mine notNull linked absent
          simp only [shape, isDeleted, Process.storeHashEntry_static absent', if_true] at result
          split at result
          · cases result
            exact after
          · split at result
            · cases result
            · cases result
              exact ⟨owner, consistent⟩
      | none =>
          have turn : table.place = .heap := by rw [CTable.place, shape]
          have notMaster : table.isMaster = false := by rw [CTable.isMaster, shape]
          rw [turn] at mine here
          obtain ⟨deleted, isDeleted, after⟩ :=
            consistent.relinkPrivate here notMaster has mine notNull linked absent
          simp only [shape, isDeleted] at result
          cases result
          exact after
      | reader share =>
          have turn : table.place = .heap := by rw [CTable.place, shape]
          have notMaster : table.isMaster = false := by rw [CTable.isMaster, shape]
          rw [turn] at mine here
          obtain ⟨deleted, isDeleted, after⟩ :=
            consistent.relinkPrivate here notMaster has mine notNull linked absent
          simp only [shape, isDeleted] at result
          cases result
          exact after

/-- Setting the key field of a row in a table keeps the process consistent. -/
theorem Consistent.setKeyField {indexCtl : IndexCtl} {room : Bool}
    (consistent : Consistent process owner) (found : process.tables t = some table)
    (mode : indexCtl = .normal ∨ indexCtl = .new)
    (proper : process.Proper t table (.setKey t row value indexCtl room))
    (result : process.setKeyField t table row value indexCtl room = some (failed, process'))
    : ∃ owner', Consistent process' owner' := by
  rcases mode with rfl | rfl
  · simp only [Process.setKeyField] at result
    split at result
    · cases result
    · cases result
      exact ⟨owner, consistent⟩
    · exact consistent.reinsertRow found proper result
  · obtain ⟨-, same | taken⟩ := proper
    · simp only [Process.setKeyField, same] at result
      cases result
      exact ⟨owner, consistent⟩
    · obtain ⟨other, taken⟩ := Option.isSome_iff_exists.mp taken
      simp only [Process.setKeyField, Process.reinsertRow, taken] at result
      split at result
      · cases result
      · cases result
        exact ⟨owner, consistent⟩
      · cases result
        exact ⟨owner, consistent⟩

/-- Setting the key field of a comparison row keeps the process consistent. -/
theorem Consistent.setComparisonKey {room : Bool} (consistent : Consistent process owner)
    (found : process.tables t = some table)
    (here : owner row = some (.row (.comparison t), .heap))
    (proper : ¬process.ForeignKey table row)
    (result : process.setKeyField t table row value .privateRow room = some (failed, process'))
    : ∃ owner', Consistent process' owner' := by
  have owned := consistent.blocks.owned
  simp only [Process.setKeyField] at result
  split at result
  · cases result
  · cases result
    exact ⟨owner, consistent⟩
  · cases result
    obtain ⟨-, -, template | ⟨key, has, mine⟩⟩ := (consistent.blocks.rows row _ _ here).key
    · have isNull : (process.rows row).key = table.nullKeyValue := by
        by_contra differs
        exact proper ⟨template, differs⟩
      simp only [isNull, if_true]
      have gain : Trades owner (Function.update owner process.history.next
          (some (Owner.key row, Region.heap))) (.key row) :=
        .gain owned.fresh nofun
      exact ⟨_, consistent.setKey here nofun gain ⟨rfl, rfl, rfl, rfl, rfl, rfl⟩ (fun _ => .rfl)
        rfl (owned.allocate (Owner.key row, Region.heap)) (Function.update_self ..)⟩
    · have notNull : (process.rows row).key ≠ table.nullKeyValue := fun isNull => by
        obtain ⟨origin, constant⟩ := consistent.blocks.nullKeys t table found key (isNull ▸ has)
        rw [mine] at constant
        cases constant
      rw [has] at notNull
      simp only [has, notNull, if_false]
      exact consistent.replaceKey here nofun mine ⟨rfl, rfl, rfl, rfl, rfl, rfl⟩ (fun _ => .rfl)
        rfl rfl

end Keys

end SpeedTables.Allocation
