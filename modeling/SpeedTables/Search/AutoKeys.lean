import SpeedTables.Search.Scripts
import SpeedTables.Table.CommandSteps
import SpeedTables.Table.Sample

/-! Insertions with automatic keys, and the rows they could overwrite. -/

namespace SpeedTables

open Lib

variable {creator : CreatorTable} {host : Host}

-----------------------------------------------------------------------------------------
-- Settled pointers along commands
-----------------------------------------------------------------------------------------

/-- Every stop leaves the state that errors leave, if faults are free to. -/
theorem stopped_left {failed : CTable creator → Prop} {stop : Stop} {after : CTable creator}
    (left : failed after)
    : stopped failed (fun _ => True) stop after := by
  cases stop with
  | tcl error => exact left
  | fault fault => trivial

/-- Moving the position of an index changes no pointer to a row. -/
theorem CTable.Leads.setCurl {table : CTable creator} (leads : table.Leads)
    (field : creator.Field) (curl : Option NodeId)
    : (table.setCurl field curl).Leads := by
  unfold CTable.setCurl
  split
  · next skip chain =>
      refine leads.transport (fun _ => rfl) rfl rfl leads.hash ?_ leads.lastNext leads.fresh
      intro other list shape id inside
      by_cases same : other = field
      · subst same
        obtain rfl : { skip with curl := curl } = list := by
          simpa [CTable.setSkipList] using shape
        exact leads.nodes other skip chain id inside
      · exact leads.nodes other list (by simpa [CTable.setSkipList, same] using shape) id inside
  · exact leads

/-- Every command keeps the pointers to rows settled, unless it destroys the table. -/
theorem leadsInvariant (host : Host)
    : @TableInvariant creator host CTable.Leads (fun _ => CTable.LeadsTo) CTable.Leads
        (fun _ => True) (fun _ => True) where
  stops := fun _ leads => leads
  breaks := fun _ _ _ here => here.1
  others := fun _ _ => trivial
  counter := fun table number leads =>
    leads.transport (fun _ => rfl) rfl rfl leads.hash leads.nodes leads.lastNext leads.fresh
  find := fun table key id leads lookup => ⟨leads, leads.findHashEntry_listed lookup⟩
  create := by
    intro table key leads
    refine wp_mono (findOrCreate_spec host key table) (fun _ _ outcome => outcome.leads leads) ?_
    intro stop after stops
    cases stop with
    | fault fault => trivial
    | tcl error =>
        obtain ⟨allocations, rfl⟩ := stops
        exact leads.allocated allocations
  write := by
    intro call _ here
    exact wp_mono (((writeSteps_leads host call.id).write call.ctl call.write).keeps here)
      (fun _ _ after => after)
      (fun _ _ kept => stopped_left kept.1)
  dirty := by
    intro ctl id table here
    exact wp_mono ((writeSteps_leads host id).setDirty.keeps here) (fun _ _ after => after)
      (fun _ _ kept => stopped_left kept.1)
  finish := by
    intro ctl id table here
    exact wp_mono (((writeSteps_leads host id).finishRow ctl).keeps here)
      (fun _ _ after => after.1)
      (fun _ _ kept => stopped_left kept.1)
  leads := fun _ leads => leads
  move := fun _ field _ _ leads _ _ => leads.setCurl field _
  aside := fun _ _ _ _ leads =>
    leads.transport (fun _ => rfl) rfl rfl leads.hash leads.nodes leads.lastNext leads.fresh
  own := fun _ _ leads listed => ⟨leads, listed⟩
  discard := by
    intro table id leads
    by_cases listed : id ∈ table.llHead
    · refine discardRow_spec (fun _ _ => trivial) ?_
      have kept := (respects_leaveIndexes id).keeps (show table.LeadsTo id from ⟨leads, listed⟩)
      have faults : wp (leaveIndexes id) (fun _ _ => True)
          (stopped (fun _ => False) (fun _ => True)) table := by
        refine @wp_forM Stop (CTable creator) _ (fun field => removeFromIndex field id) _
          (fun _ => True) _ _ (fun field _ state _ => ?_) trivial
        rw [removeFromIndex, wp_bind, wp_inspect]
        exact ⟨fun _ _ => trivial, fun _ _ => trivial⟩
      refine wp_mono (wp_and kept faults) ?_ (fun _ _ both => both.2)
      rintro - left ⟨⟨leads, listed⟩, -⟩ keyTable deleted - -
      exact leads.discarded listed deleted
    · rw [discardRow, wp_bind, deleteRow, wp_bind, removeFromAllIndexes, wp_bind, wp_get,
        if_neg listed]
      trivial
  reset := by
    intro table after leads emptied
    have cleared : table.Emptied { after with keyTable := after.keyTable.init } :=
      { emptied with }
    exact cleared.leads leads (fun _ => rfl)
  drop := fun _ field leads => leads.dropIndex field
  build := by
    intro table field depth leads _
    exact wp_mono (createIndex_leads host field depth leads) (fun _ _ after => after)
      (fun _ _ kept => stopped_left kept)

-----------------------------------------------------------------------------------------
-- The row list along commands
-----------------------------------------------------------------------------------------

/-- Rows that joined the list are new, and nothing was counted. -/
structure CTable.MoreRows (before after : CTable creator) : Prop where
  nextRow : before.nextRow ≤ after.nextRow
  listed : ∀ id ∈ after.llHead, id ∈ before.llHead ∨ before.nextRow ≤ id
  autoRowNumber : after.autoRowNumber = before.autoRowNumber

instance moreRows_preorder : IsPreorder (CTable creator) CTable.MoreRows where
  refl := fun _ => ⟨Nat.le_refl _, fun _ listed => .inl listed, rfl⟩
  trans := by
    intro first second third before after
    refine ⟨before.nextRow.trans after.nextRow, ?_,
      after.autoRowNumber.trans before.autoRowNumber⟩
    intro id listed
    rcases after.listed id listed with old | late
    · exact before.listed id old
    · exact .inr (before.nextRow.trans late)

/-- The list, the next address and the counter are as before. -/
theorem CTable.MoreRows.of_same {before after : CTable creator}
    (nextRow : after.nextRow = before.nextRow) (llHead : after.llHead = before.llHead)
    (autoRowNumber : after.autoRowNumber = before.autoRowNumber)
    : before.MoreRows after :=
  ⟨Nat.le_of_eq nextRow.symm, fun _ listed => .inl (llHead ▸ listed), autoRowNumber⟩

theorem CTable.RowFrame.grown {before after : CTable creator} {id : RowId}
    (frame : before.RowFrame id after)
    : before.MoreRows after :=
  .of_same frame.nextRow frame.llHead frame.autoRowNumber

theorem CTable.IndexFrame.grown {before after : CTable creator} {field : creator.Field}
    (frame : before.IndexFrame field after)
    : before.MoreRows after :=
  .of_same frame.nextRow frame.llHead frame.autoRowNumber

theorem CTable.MoreRows.setCurl (table : CTable creator) (field : creator.Field)
    (curl : Option NodeId)
    : table.MoreRows (table.setCurl field curl) := by
  unfold CTable.setCurl
  split <;> exact .of_same rfl rfl rfl

theorem CTable.MoreRows.memoryTested (table : CTable creator)
    : table.MoreRows table.memoryTested := by
  unfold CTable.memoryTested
  split <;> exact .of_same rfl rfl rfl

/-- The commands that write rows only add new ones. -/
theorem commandSteps_grown (host : Host) : CommandSteps host (@CTable.MoreRows creator) where
  write := fun id => (writeSteps_rowFrame host id).mono CTable.RowFrame.grown
  create := by
    intro key table
    have counted : Respects (@CTable.MoreRows creator) (allocateRow host key) := by
      refine Respects.get.bind fun table => Respects.ite (Respects.bind ?_ fun room => ?_) Respects.pure
      · exact fun table => .of_same rfl rfl rfl
      · exact Respects.ite Respects.pure (Respects.ite Respects.throw Respects.throw)
    rw [findOrCreate, wp_bind]
    refine wp_mono (counted table) ?_ (fun _ _ grown => grown)
    intro _ middle grown
    rw [wp_bind, wp_get, wp_bind]
    refine wp_mono (storeHashEntry_spec middle key middle.nextRow creator.init) ?_ ?_
    · intro row after stored
      cases stored with
      | found lookup => exact grown
      | created lookup linked =>
          refine moreRows_preorder.trans _ _ _ grown ⟨Nat.le_succ _, fun id listed => ?_, rfl⟩
          rcases List.mem_cons.mp listed with rfl | old
          · exact .inr (Nat.le_refl _)
          · exact .inl old
    · rintro stop after ⟨-, rfl | rfl⟩
      · exact grown
      · exact moreRows_preorder.trans _ _ _ grown (.of_same rfl rfl rfl)

theorem respects_discardRow_grown (id : RowId)
    : Respects (@CTable.MoreRows creator) (discardRow id) := by
  have framed : Respects (@CTable.MoreRows creator) (leaveIndexes id) :=
    Respects.forM fun field _ =>
      (respects_removeFromIndex field id).mono CTable.IndexFrame.grown
  refine Respects.bind ?_ fun _ => fun table => .of_same rfl rfl rfl
  refine Respects.bind ?_ fun _ => Respects.bind ?_ fun _ => fun table => .of_same rfl rfl rfl
  · intro table
    rw [removeFromAllIndexes, wp_bind, wp_get]
    split
    · rw [wp_bind, wp_set]
      have shorter : table.MoreRows { table with llHead := table.llHead.erase id } :=
        ⟨Nat.le_refl _, fun other inside => .inl (List.mem_of_mem_erase inside), rfl⟩
      exact wp_mono (framed _) (fun _ _ after => moreRows_preorder.trans _ _ _ shorter after)
        (fun _ _ after => moreRows_preorder.trans _ _ _ shorter after)
    · exact moreRows_preorder.refl table
  · exact (respects_unlinkHashEntry id id).mono fun frame => frame.toRowFrame.grown

theorem respects_createIndex_grown (field : creator.Field) (depth : Int)
    : Respects CTable.MoreRows (createIndex host field depth : TableM creator Unit) := by
  refine Respects.get.bind fun table => Respects.ite Respects.throw (Respects.ite Respects.pure ?_)
  refine (respects_inspect _).bind fun skip => Respects.bind (fun table => .of_same rfl rfl rfl) ?_
  intro _ middle
  have filled : Respects (@CTable.MoreRows creator)
      (table.llHead.forM (fun id => insertIntoIndex host field id)) :=
    Respects.forM fun id _ => (respects_insertIntoIndex host field id).mono CTable.IndexFrame.grown
  rw [wp_onTclError]
  refine wp_mono (filled middle) (fun _ _ after => after) ?_
  intro stop after grown
  cases stop with
  | fault fault => exact grown
  | tcl error => exact moreRows_preorder.trans _ _ _ grown (.of_same rfl rfl rfl)

theorem respects_resetCurl_grown (field : creator.Field) (skip : SkipList RowId)
    : Respects (@CTable.MoreRows creator) (resetCurl field skip) :=
  Respects.ite Respects.throw (fun table => .setCurl table field _)

theorem respects_listIndex_grown (field : creator.Field)
    : Respects (@CTable.MoreRows creator) (listIndex host field) := by
  refine Respects.get.bind fun table => ?_
  split
  · exact Respects.pure
  · next skip _ =>
      refine (respects_resetCurl_grown field skip).bind fun _ => Respects.bind ?_ fun values =>
        Respects.bind (fun table => .setCurl table field none) fun _ => Respects.pure
      intro start
      refine wp_mapM (fun node middle grown => ?_) skip.nodes (moreRows_preorder.refl start)
      split
      · exact grown
      · rw [wp_bind, wp_inspect]
        exact ⟨fun _ _ => grown, fun _ _ => grown⟩

theorem respects_indexSpan_grown (field : creator.Field)
    : Respects (@CTable.MoreRows creator) (lappendIndexLowAndHi host field) := by
  refine Respects.get.bind fun table => ?_
  split
  · exact Respects.throw
  · next skip _ =>
      refine (respects_resetCurl_grown field skip).bind fun _ => ?_
      split
      · split
        · exact (respects_inspect _).bind fun low =>
            Respects.bind (fun table => .setCurl table field _) fun _ =>
              (respects_inspect _).bind fun high => Respects.pure
        · exact Respects.throw
      · exact Respects.pure

/-- The key of the next row when a command counts for it: a line without a key column, or pairs
without the key field. A command that is refused counts nothing.
-/
def Command.automaticKey (host : Host) (table : CTable creator) : Command creator → Option CString
  | .store arguments =>
      if table.cursors ≠ [] then none
      else if table.sharedMaster && host.freeMemoryLow table.memoryTests then none
      else
        match storeArguments host arguments with
        | .ok (_, elements) =>
            if keyFromKeylist creator elements = none then some (decimal table.autoRowNumber)
            else none
        | .error _ => none
  | .readTabsep options _ =>
      if table.cursors ≠ [] then none
      else if options.keyColumn = none then some (decimalSigned table.autoRowNumber)
      else none
  | _ => none

/-- An empty table that starts to count again. -/
def CTable.Restarted (table : CTable creator) : Prop :=
  table.llHead = [] ∧ table.autoRowNumber = 0

/-- A command that does not count adds new rows only, unless it empties the table. -/
theorem Command.run_grown {command : Command creator} {table : CTable creator}
    (uncounted : command.automaticKey host table = none)
    : wp (command.run host) (fun _ after => table.MoreRows after ∨ after.Restarted)
        (stopped table.MoreRows (fun _ => True)) table := by
  have same := moreRows_preorder.refl table
  have tested := CTable.MoreRows.memoryTested table
  have steps := @commandSteps_grown creator host
  have plain : ∀ {action : TableM creator Unit}, Respects CTable.MoreRows action →
      wp action (fun _ after => table.MoreRows after ∨ after.Restarted)
        (stopped table.MoreRows (fun _ => True)) table := fun respects =>
    wp_mono (respects table) (fun _ _ after => .inl after) (fun _ _ after => stopped_left after)
  have checked : ∀ {error : TclError} {action : TableM creator Unit},
      Respects CTable.MoreRows action →
      wp (checkMemory host error action) (fun _ after => table.MoreRows after ∨ after.Restarted)
        (stopped table.MoreRows (fun _ => True)) table := by
    intro error action respects
    refine wp_checkMemory tested (wp_mono (respects table.memoryTested) ?_ ?_)
    · exact fun _ _ after => .inl (moreRows_preorder.trans _ _ _ tested after)
    · exact fun _ _ after => stopped_left (moreRows_preorder.trans _ _ _ tested after)
  have emptied : wp deleteAllRows (fun _ after => after.Restarted)
      (stopped table.MoreRows (fun _ => True)) table := by
    have counter : wp deleteAllRows (fun _ after => after.autoRowNumber = 0)
        (stopped table.MoreRows (fun _ => True)) table := rfl
    have list : wp deleteAllRows (fun _ after => after.llHead = [])
        (stopped table.MoreRows (fun _ => True)) table :=
      deleteAllRows_spec fun _ emptied _ => emptied.llHead
    exact wp_mono (wp_and list counter) (fun _ _ both => both) (fun _ _ both => both.2)
  cases command with
  | set arguments => exact wp_refuseCursors same (checked (steps.set arguments))
  | store arguments =>
      change wp (refuseCursors "store" _) _ _ _
      rw [refuseCursors, wp_bind, wp_get]
      split
      · exact same
      · next free =>
          simp only [Command.automaticKey, if_neg free] at uncounted
          by_cases low : (table.sharedMaster && host.freeMemoryLow table.memoryTests) = true
          · obtain ⟨shared, low⟩ := Bool.and_eq_true_iff.mp low
            rw [checkMemory, wp_bind, wp_get, if_pos shared, wp_bind, wp_set, if_pos low]
            exact .of_same rfl rfl rfl
          · rw [if_neg low] at uncounted
            refine checked ((steps.store fun nocomplain elements ok => ?_).bind fun _ =>
              Respects.pure)
            rw [ok] at uncounted
            unfold storeKey
            split
            · exact Respects.pure
            · next unkeyed => simp [unkeyed] at uncounted
  | incr arguments =>
      exact wp_refuseCursors same (checked ((steps.incr arguments).bind fun _ => Respects.pure))
  | null arguments => exact wp_refuseCursors same (plain (steps.null arguments))
  | readTabsep options line =>
      change wp (refuseCursors "read_tabsep" _) _ _ _
      rw [refuseCursors, wp_bind, wp_get]
      split
      · exact same
      · next free =>
          simp only [Command.automaticKey, if_neg free] at uncounted
          refine plain (steps.readTabsep ?_)
          unfold lineKey
          split
          · next unkeyed => simp [unkeyed] at uncounted
          · exact respects_inspect _
  | delete arguments =>
      refine wp_refuseCursors same (plain (Respects.bind ?_ fun _ => Respects.pure))
      refine Respects.get.bind fun _ =>
        Respects.ite Respects.throw (Respects.ite Respects.throw ?_)
      split
      · refine (respects_inspect _).bind fun entry => ?_
        cases entry with
        | none => exact Respects.pure
        | some id => exact (respects_discardRow_grown id).bind fun _ => Respects.pure
      · exact Respects.throw
  | reset =>
      refine wp_refuseCursors same ?_
      rw [resetCommand, wp_bind]
      exact wp_mono emptied (fun _ _ empty => .inr empty) (fun _ _ stop => stop)
  | destroy =>
      refine wp_refuseCursors same ?_
      rw [destroyCtable, wp_bind]
      exact wp_mono emptied (fun _ _ empty => .inr empty) (fun _ _ stop => stop)
  | indexCreate arguments =>
      refine wp_refuseCursors same (checked ?_)
      unfold indexCreateCommand
      split
      · exact Respects.throw
      · exact Respects.throw
      · split
        · exact Respects.throw
        · split
          · exact respects_createIndex_grown _ 20
          · split
            · exact Respects.throw
            · exact respects_createIndex_grown _ _
  | indexDrop arguments =>
      refine wp_refuseCursors same (plain ?_)
      unfold indexDropCommand
      split
      · split
        · exact Respects.throw
        · next field _ =>
            intro start
            change start.MoreRows (start.dropIndex field)
            unfold CTable.dropIndex
            split <;> exact .of_same rfl rfl rfl
      · exact Respects.throw
  | indexList arguments =>
      exact wp_refuseCursors same (plain ((respects_orFail _).bind fun field =>
        (respects_listIndex_grown field).bind fun _ => Respects.pure))
  | indexSpan arguments =>
      exact wp_refuseCursors same (plain ((respects_orFail _).bind fun field =>
        (respects_indexSpan_grown field).bind fun _ => Respects.pure))
  | cursorDestroy name => exact .inl (.of_same rfl rfl rfl)
  | cursorsDestroy => exact .inl (.of_same rfl rfl rfl)
  | commandDeleted =>
      change wp destroyCtable _ _ _
      rw [destroyCtable, wp_bind]
      exact wp_mono emptied (fun _ _ empty => .inr empty) (fun _ _ stop => stop)

-----------------------------------------------------------------------------------------
-- Numerals
-----------------------------------------------------------------------------------------

/-- A key that is printed for a number, without or with a sign. -/
def NumeralOf (number : Nat) (key : CString) : Prop :=
  key = decimal number ∨ key = decimalSigned number

theorem digit_byte {digit : Char} (isDigit : digit.isDigit = true)
    : Char.ofNat digit.toNat.toUInt8.toNat = digit ∧ digit.toNat.toUInt8 ≠ 45 := by
  have bounds : 48 ≤ digit.toNat ∧ digit.toNat ≤ 57 := by
    simp only [Char.isDigit, Bool.and_eq_true, decide_eq_true_eq, ge_iff_le,
      UInt32.le_iff_toNat_le] at isDigit
    exact isDigit
  have small : digit.toNat.toUInt8.toNat = digit.toNat := by
    simp only [Nat.toUInt8, UInt8.toNat_ofNat']
    omega
  refine ⟨by rw [small, Char.ofNat_toNat], fun minus => ?_⟩
  have equal := congrArg UInt8.toNat minus
  rw [small] at equal
  have : digit.toNat = 45 := equal
  omega

theorem decimal_injective : Function.Injective decimal := by
  have back : ∀ number, (decimal number).map (fun byte => Char.ofNat byte.toNat) =
      Nat.toDigits 10 number := by
    intro number
    rw [decimal, List.map_map]
    refine (List.map_congr_left fun digit member => ?_).trans (List.map_id _)
    exact (digit_byte (Nat.isDigit_of_mem_toDigits (by decide) (by decide) member)).1
  intro left right same
  have digits : Nat.toDigits 10 left = Nat.toDigits 10 right := by
    rw [← back, ← back, same]
  rw [← @Nat.ofDigitChars_ten_toDigits left, digits, Nat.ofDigitChars_ten_toDigits]

theorem minus_not_mem_decimal (number : Nat) : 45 ∉ decimal number := by
  intro member
  obtain ⟨digit, inside, minus⟩ := List.mem_map.mp member
  exact (digit_byte (Nat.isDigit_of_mem_toDigits (by decide) (by decide) inside)).2 minus

theorem decimal_ne_nil (number : Nat) : decimal number ≠ [] := by
  simp [decimal, Nat.toDigits_ne_nil]

theorem NumeralOf.ne_nil {number : Nat} {key : CString} (numeral : NumeralOf number key)
    : key ≠ [] := by
  rcases numeral with rfl | rfl
  · exact decimal_ne_nil number
  · unfold decimalSigned
    split
    · exact decimal_ne_nil number
    · exact List.cons_ne_nil _ _

/-- No key is printed for two numbers of 32 bits. -/
theorem NumeralOf.unique {left right : Nat} {key : CString} (first : NumeralOf left key)
    (second : NumeralOf right key) (leftFits : left < 2 ^ 32) (rightFits : right < 2 ^ 32)
    : left = right := by
  have cases : ∀ {number}, NumeralOf number key →
      key = decimal number ∨ 2 ^ 31 ≤ number ∧ key = 45 :: decimal (2 ^ 32 - number) := by
    rintro number (plain | signed)
    · exact .inl plain
    · unfold decimalSigned at signed
      split at signed
      · exact .inl signed
      · exact .inr ⟨by omega, signed⟩
  rcases cases first with plain | ⟨_, minus⟩ <;> rcases cases second with plain' | ⟨_, minus'⟩
  · exact decimal_injective (plain.symm.trans plain')
  · exact absurd (by simp [← plain, minus']) (minus_not_mem_decimal left)
  · exact absurd (by simp [← plain', minus]) (minus_not_mem_decimal right)
  · have same := decimal_injective (List.cons.inj (minus.symm.trans minus')).2
    omega

-----------------------------------------------------------------------------------------
-- Lookups
-----------------------------------------------------------------------------------------

/-- A chain search only returns an entry with the key, by induction on its steps. -/
theorem CTable.searchChain_key {table : CTable creator} {key : CString} {hash : UInt32}
    {found : RowId}
    : ∀ {fuel : Nat} {start : Option RowId},
        table.searchChain key hash fuel start = .ok (some found)
        → ∃ row, table.row found = .ok row ∧ table.entryKey row = .ok key := by
  intro fuel
  induction fuel with
  | zero =>
      intro start result
      cases start <;> simp [CTable.searchChain] at result
  | succ fuel ih =>
      intro start result
      cases start with
      | none => simp [CTable.searchChain] at result
      | some entry =>
          rw [CTable.searchChain] at result
          split at result
          · cases result
          · next row read =>
              split at result
              · split at result
                · cases result
                · next entryKey keyed =>
                    split at result
                    · next same =>
                        cases result
                        exact ⟨row, read, same ▸ keyed⟩
                    · exact ih result
              · exact ih result

/-- A row that is looked up under a key has the key. -/
theorem CTable.findHashEntry_key {table : CTable creator} {key : CString} {found : RowId}
    (lookup : table.findHashEntry key = .ok (some found)) (some : key ≠ [])
    : (table.rowAt found).key = .some key := by
  obtain ⟨row, read, keyed⟩ := CTable.searchChain_key lookup
  rw [(CTable.row_eq read).2]
  unfold CTable.entryKey at keyed
  split at keyed
  · next key' isKey =>
      cases keyed
      exact isKey
  · split at keyed <;> cases keyed
    exact absurd rfl some

-----------------------------------------------------------------------------------------
-- Counted insertions
-----------------------------------------------------------------------------------------

/-- Every row of the table is still there, as it was. -/
def CTable.OverwritesNothing (before after : CTable creator) : Prop :=
  ∀ id ∈ before.llHead, id ∈ after.llHead ∧ after.rows id = before.rows id

/-- The next row has been put at the head of the list. -/
def CTable.AddsRow (before after : CTable creator) : Prop :=
  before.nextRow ∉ before.llHead ∧ after.llHead = before.nextRow :: before.llHead

/-- The table with the number of the next automatic key. -/
def CTable.countedOn (table : CTable creator) : CTable creator :=
  { table with autoRowNumber := (table.autoRowNumber + 1) % 2 ^ 32 }

/-- Writing a row under a key that no row has adds a row, and overwrites none. -/
theorem createRow_adds {α : Type} {table : CTable creator} {key : CString}
    {find : TableM creator (RowId × IndexCtl)} {write : RowId × IndexCtl → TableM creator α}
    (leads : table.Leads)
    (found : wp find (table.FoundOrCreated key)
      (stopped (fun after => ∃ allocations, after = { table with allocations := allocations })
        (fun _ => True)) table)
    (missing : ∀ id, table.findHashEntry key ≠ .ok (some id))
    (writes : ∀ row, Respects (CTable.RowFrame row.1) (write row))
    : wp (find >>= write)
        (fun _ after => table.MoreRows after ∧ table.OverwritesNothing after ∧ table.AddsRow after)
        (stopped (fun after => table.MoreRows after ∧ table.OverwritesNothing after)
          (fun _ => True)) table := by
  have notListed : table.nextRow ∉ table.llHead := fun inside =>
    absurd (leads.bounded inside) (Nat.lt_irrefl _)
  rw [wp_bind]
  refine wp_mono found ?_ ?_
  · intro row middle outcome
    cases outcome with
    | found lookup => exact absurd lookup (missing _)
    | @created keyTable allocations lookup linked =>
        have added : table.MoreRows (table.withRow key keyTable allocations) := by
          refine ⟨Nat.le_succ _, fun id listed => ?_, rfl⟩
          rcases List.mem_cons.mp listed with rfl | old
          · exact .inr (Nat.le_refl _)
          · exact .inl old
        have kept : ∀ {after}, (table.withRow key keyTable allocations).RowFrame table.nextRow after →
            table.MoreRows after ∧ table.OverwritesNothing after := by
          intro after frame
          refine ⟨moreRows_preorder.trans _ _ _ added frame.grown, fun id listed => ⟨?_, ?_⟩⟩
          · rw [frame.llHead]
            exact List.mem_cons_of_mem _ listed
          · have apart : id ≠ table.nextRow := fun same => notListed (same ▸ listed)
            rw [frame.rows id apart]
            simp [CTable.withRow, CTable.putRow, apart]
        refine wp_mono (writes (table.nextRow, .new) _) ?_ (fun _ _ frame => stopped_left (kept frame))
        intro _ after frame
        exact ⟨(kept frame).1, (kept frame).2, notListed, frame.llHead⟩
  · intro stop middle left
    cases stop with
    | fault fault => trivial
    | tcl error =>
        obtain ⟨allocations, rfl⟩ := left
        exact ⟨.of_same rfl rfl rfl, fun id listed => ⟨listed, rfl⟩⟩

/-- The same after the key has been counted for, in a table that has the same rows. -/
theorem createRow_counts {α : Type} {table start : CTable creator} {key : CString}
    {find : TableM creator (RowId × IndexCtl)} {write : RowId × IndexCtl → TableM creator α}
    (leads : start.Leads) (rows : start.rows = table.rows) (llHead : start.llHead = table.llHead)
    (nextRow : start.nextRow = table.nextRow) (keyTable : start.keyTable = table.keyTable)
    (sharedMaster : start.sharedMaster = table.sharedMaster)
    (autoRowNumber : start.autoRowNumber = (table.autoRowNumber + 1) % 2 ^ 32)
    (found : wp find (start.FoundOrCreated key)
      (stopped (fun after => ∃ allocations, after = { start with allocations := allocations })
        (fun _ => True)) start)
    (missing : ∀ id, table.findHashEntry key ≠ .ok (some id))
    (writes : ∀ row, Respects (CTable.RowFrame row.1) (write row))
    : wp (find >>= write)
        (fun _ after => table.countedOn.MoreRows after ∧ table.OverwritesNothing after
          ∧ table.AddsRow after)
        (stopped (fun after => table.countedOn.MoreRows after ∧ table.OverwritesNothing after)
          (fun _ => True)) start := by
  have lookup := @CTable.findHashEntry_congr _ start table key rows keyTable sharedMaster nextRow
  have counted : table.countedOn.MoreRows start := .of_same nextRow llHead autoRowNumber
  have kept : ∀ {after}, start.OverwritesNothing after → table.OverwritesNothing after := by
    intro after kept id listed
    obtain ⟨still, same⟩ := kept id (llHead ▸ listed)
    exact ⟨still, same.trans (congrFun rows id)⟩
  refine wp_mono (createRow_adds leads found (fun id => lookup ▸ missing id) writes) ?_ ?_
  · rintro _ after ⟨grown, keeps, absent, added⟩
    refine ⟨moreRows_preorder.trans _ _ _ counted grown, kept keeps, ?_, ?_⟩
    · rw [← nextRow, ← llHead]
      exact absent
    · rw [← nextRow, ← llHead]
      exact added
  · intro stop after left
    cases stop with
    | fault fault => trivial
    | tcl error => exact ⟨moreRows_preorder.trans _ _ _ counted left.1, kept left.2⟩

/-- A command that passes the test of the free memory runs in the tested table. -/
theorem wp_checkMemory_passed {α : Type} {error : TclError} {action : TableM creator α}
    {table : CTable creator} {ok : α → CTable creator → Prop} {err : Stop → CTable creator → Prop}
    (passed : ¬ (table.sharedMaster && host.freeMemoryLow table.memoryTests) = true)
    (allowed : wp action ok err table.memoryTested)
    : wp (checkMemory host error action) ok err table := by
  rw [checkMemory, wp_bind, wp_get]
  unfold CTable.memoryTested at allowed
  split
  · next shared =>
      have roomy : ¬ host.freeMemoryLow table.memoryTests = true := by
        simpa [shared] using passed
      rw [if_pos shared] at allowed
      rw [wp_bind, wp_set, if_neg roomy]
      exact allowed
  · next unshared =>
      rw [if_neg unshared] at allowed
      exact allowed

/-- A command that counts for a key that no row has adds a row and overwrites none. -/
theorem Command.run_adds {command : Command creator} {table : CTable creator} {key : CString}
    (leads : table.Leads) (counted : command.automaticKey host table = some key)
    (missing : ∀ id, table.findHashEntry key ≠ .ok (some id))
    : wp (command.run host)
        (fun _ after => table.countedOn.MoreRows after ∧ table.OverwritesNothing after
          ∧ table.AddsRow after)
        (stopped (fun after => table.countedOn.MoreRows after ∧ table.OverwritesNothing after)
          (fun _ => True)) table := by
  have framed := fun id => @writeSteps_rowFrame creator host id
  have ready : ∀ {start : CTable creator}, start.Leads →
      CTable.Leads { start with autoRowNumber := (start.autoRowNumber + 1) % 2 ^ 32 } :=
    fun leads => (leadsInvariant host).counter _ _ leads
  have found : ∀ (start : CTable creator) key, wp (findOrCreate host key) (start.FoundOrCreated key)
      (stopped (fun after => ∃ allocations, after = { start with allocations := allocations })
        (fun _ => True)) start := by
    intro start key
    refine wp_mono (findOrCreate_spec host key start) (fun _ _ outcome => outcome) ?_
    intro stop after left
    cases stop with
    | fault fault => trivial
    | tcl error => exact left
  cases command with
  | store arguments =>
      simp only [Command.automaticKey] at counted
      split at counted
      · cases counted
      · next free =>
          split at counted
          · cases counted
          · next passed =>
              split at counted
              · next nocomplain elements checked =>
                  split at counted
                  · next unkeyed =>
                      cases counted
                      change wp (refuseCursors "store" _) _ _ _
                      rw [refuseCursors, wp_bind, wp_get, if_neg free]
                      refine wp_checkMemory_passed passed ?_
                      have tested := (leadsInvariant host).memoryTested leads
                      obtain ⟨tests, same⟩ : ∃ tests,
                          table.memoryTested = { table with memoryTests := tests } := by
                        unfold CTable.memoryTested
                        split <;> exact ⟨_, rfl⟩
                      rw [same] at tested ⊢
                      rw [discard, wp_bind, storeCommand, wp_bind, checked]
                      simp only [orFail, wp_pure]
                      rw [wp_bind, storeKey, unkeyed]
                      refine createRow_counts (ready tested) rfl rfl rfl rfl rfl rfl ?_ missing
                        (fun row => ((framed row.1).setPairs row.2 nocomplain elements).bind fun _ =>
                          ((framed row.1).finishRow row.2).bind fun _ => Respects.pure)
                      rw [findOrCreateRow, wp_rethrow]
                      exact found _ _
                  · cases counted
              · cases counted
  | readTabsep options line =>
      simp only [Command.automaticKey] at counted
      split at counted
      · cases counted
      · next free =>
          split at counted
          · next unkeyed =>
              cases counted
              change wp (refuseCursors "read_tabsep" _) _ _ _
              rw [refuseCursors, wp_bind, wp_get, if_neg free, setFromTabsep, wp_bind, lineKey, unkeyed]
              exact createRow_counts (ready leads) rfl rfl rfl rfl rfl rfl (found _ _) missing
                (fun row => (framed row.1).columnsOfLine options row.2 line)
          · cases counted
  | _ => cases counted

-----------------------------------------------------------------------------------------
-- Histories
-----------------------------------------------------------------------------------------

/-- A table, and which rows have a key that was not printed for a number since the counter was
last at zero.
-/
structure Keying (creator : CreatorTable) where
  table : CTable creator
  uncounted : RowId → Prop

namespace Keying

variable {keying next : Keying creator} {command : Command creator}

def new (creator : CreatorTable) (sharedMaster sharePanic : Bool) : Keying creator where
  table := CTable.empty creator sharedMaster sharePanic
  uncounted := fun _ => False

/-- The state that a command leaves in the table `after`. A key that changes is uncounted unless it
is the automatic one, and when the counter wraps around all are.
-/
def left (host : Host) (keying : Keying creator) (command : Command creator)
    (after : CTable creator) : Keying creator where
  table := after
  uncounted := fun id =>
    (command.automaticKey host keying.table ≠ none ∧ after.autoRowNumber = 0)
    ∨ ((after.rowAt id).key = (keying.table.rowAt id).key ∧ keying.uncounted id)
    ∨ ((after.rowAt id).key ≠ (keying.table.rowAt id).key
        ∧ command.automaticKey host keying.table ≠ (after.rowAt id).key)

/-- Run a command, as long as the process and the table live. -/
def step (host : Host) (keying : Keying creator) (command : Command creator)
    : Option (Keying creator) :=
  (keying.table.afterCommand host command).map (keying.left host command)

theorem step_ok {after : CTable creator} (run : command.run host keying.table = .ok () after)
    (stepped : keying.step host command = some next)
    : next = keying.left host command after := by
  simp only [step, CTable.afterCommand, run] at stepped
  split at stepped
  · cases stepped
  · exact (Option.some.inj stepped).symm

theorem step_of_ok {after : CTable creator} (run : command.run host keying.table = .ok () after)
    (living : after.destroyed = false)
    : keying.step host command = some (keying.left host command after) := by
  simp [step, CTable.afterCommand, run, living]

/-- Every command of a history meets a condition in the state it is given in. -/
def Along (host : Host) (meets : Keying creator → Command creator → Prop)
    (keying : Keying creator) : List (Command creator) → Prop
  | [] => True
  | command :: rest =>
      meets keying command
      ∧ ∀ next, keying.step host command = some next → next.Along host meets rest

/-- An insertion with an automatic key creates a row and overwrites none. When it fails, it still
overwrites none.
-/
def Fresh (host : Host) (keying : Keying creator) (command : Command creator) : Prop :=
  command.automaticKey host keying.table ≠ none →
    wp (command.run host)
      (fun _ after => keying.table.OverwritesNothing after ∧ keying.table.AddsRow after)
      (stopped keying.table.OverwritesNothing (fun _ => True)) keying.table

/-- No row with an uncounted key has the automatic key of an insertion. -/
def KeyFree (host : Host) (keying : Keying creator) (command : Command creator) : Prop :=
  ∀ key, command.automaticKey host keying.table = some key →
    ∀ id ∈ keying.table.llHead, keying.uncounted id → (keying.table.rowAt id).key ≠ some key

/-- Pointers are settled, and counted keys are numerals below the counter. -/
structure Counts (keying : Keying creator) : Prop where
  leads : keying.table.Leads
  fits : keying.table.autoRowNumber < 2 ^ 32
  below : ∀ id ∈ keying.table.llHead, ¬ keying.uncounted id →
    ∀ key, (keying.table.rowAt id).key = some key →
      ∃ number < keying.table.autoRowNumber, NumeralOf number key

theorem Counts.new (creator : CreatorTable) (sharedMaster sharePanic : Bool)
    : (Keying.new creator sharedMaster sharePanic).Counts where
  leads := CTable.Leads.empty creator sharedMaster sharePanic
  fits := by simp [Keying.new, CTable.empty]
  below := fun _ listed => by simp [Keying.new, CTable.empty] at listed

theorem automaticKey_numeral {table : CTable creator} {key : CString}
    (counted : command.automaticKey host table = some key)
    : NumeralOf table.autoRowNumber key := by
  unfold Command.automaticKey at counted
  split at counted
  · split at counted
    · cases counted
    · split at counted
      · cases counted
      · split at counted
        · split at counted <;> cases counted
          exact .inl rfl
        · cases counted
  · split at counted
    · cases counted
    · split at counted <;> cases counted
      exact .inr rfl
  · cases counted

/-- No row has the automatic key: a counted one is below the counter. -/
theorem Counts.missing (counts : keying.Counts) (free : keying.KeyFree host command)
    {key : CString} (counted : command.automaticKey host keying.table = some key) (id : RowId)
    : keying.table.findHashEntry key ≠ .ok (some id) := by
  intro lookup
  have numeral := automaticKey_numeral counted
  have listed := counts.leads.findHashEntry_listed lookup
  have keyed := CTable.findHashEntry_key lookup numeral.ne_nil
  by_cases aside : keying.uncounted id
  · exact free key counted id listed aside keyed
  · obtain ⟨number, less, same⟩ := counts.below id listed aside key keyed
    have equal := same.unique numeral (Nat.lt_trans less counts.fits) counts.fits
    exact absurd less (equal ▸ Nat.lt_irrefl _)

/-- A row that has a key and was not in the list has not had one. -/
theorem Counts.unkeyed (counts : keying.Counts) {id : RowId} (late : keying.table.nextRow ≤ id)
    : (keying.table.rowAt id).key = none := by
  simp [CTable.rowAt, counts.leads.unused id late, CreatorTable.init]

/-- What a command that counts leaves. -/
theorem Counts.counted (counts : keying.Counts) {key : CString} {after : CTable creator}
    (counted : command.automaticKey host keying.table = some key) (leads : after.Leads)
    (grown : keying.table.countedOn.MoreRows after) (kept : keying.table.OverwritesNothing after)
    : (keying.left host command after).Counts := by
  have number : after.autoRowNumber = (keying.table.autoRowNumber + 1) % 2 ^ 32 :=
    grown.autoRowNumber
  refine ⟨leads, ?_, ?_⟩
  · change after.autoRowNumber < 2 ^ 32
    rw [number]
    exact Nat.mod_lt _ (by decide)
  · intro id listed inside key' keyed
    change (after.rowAt id).key = some key' at keyed
    simp only [left, counted, keyed, not_or, not_and, not_not, ne_eq, reduceCtorEq,
      not_false_eq_true, true_and] at inside
    obtain ⟨turned, same, changed⟩ := inside
    change ∃ number < after.autoRowNumber, _
    have fits := counts.fits
    have next : after.autoRowNumber = keying.table.autoRowNumber + 1 := by omega
    rw [next]
    rcases grown.listed id listed with old | late
    · have before : (keying.table.rowAt id).key = some key' := by
        rw [← keyed, CTable.rowAt, CTable.rowAt, (kept id old).2]
      obtain ⟨number, less, numeral⟩ := counts.below id old (same before.symm) key' before
      exact ⟨number, Nat.lt_succ_of_lt less, numeral⟩
    · have before := counts.unkeyed late
      have own : some key = some key' := changed (by simp [before])
      cases own
      exact ⟨_, Nat.lt_succ_self _, automaticKey_numeral counted⟩

/-- What a command that does not count leaves. -/
theorem Counts.uncounted (counts : keying.Counts) {after : CTable creator}
    (uncounted : command.automaticKey host keying.table = none) (leads : after.Leads)
    (grown : keying.table.MoreRows after ∨ after.Restarted)
    : (keying.left host command after).Counts := by
  rcases grown with grown | ⟨empty, zero⟩
  · have number : after.autoRowNumber = keying.table.autoRowNumber := grown.autoRowNumber
    refine ⟨leads, number ▸ counts.fits, ?_⟩
    intro id listed inside key keyed
    change (after.rowAt id).key = some key at keyed
    simp only [left, uncounted, keyed, not_or, not_and, not_not, ne_eq, reduceCtorEq] at inside
    obtain ⟨-, same, changed⟩ := inside
    change ∃ number < after.autoRowNumber, _
    rw [number]
    have before : (keying.table.rowAt id).key = some key := by
      by_contra other
      exact nomatch changed (fun equal => other equal.symm)
    rcases grown.listed id listed with old | late
    · exact counts.below id old (same before.symm) key before
    · exact nomatch (counts.unkeyed late).symm.trans before
  · refine ⟨leads, ?_, ?_⟩
    · change after.autoRowNumber < 2 ^ 32
      omega
    · intro id listed
      change id ∈ after.llHead at listed
      simp [empty] at listed

/-- What a command leaves when no uncounted key is in its way, and that it inserts freshly. -/
theorem Counts.step (counts : keying.Counts) (free : keying.KeyFree host command)
    : keying.Fresh host command
      ∧ ∀ next, keying.step host command = some next → next.Counts := by
  have settled : wp (command.run host) (fun _ after => after.Leads ∨ after.Gone)
      (stopped CTable.Leads (fun _ => True)) keying.table := by
    refine Command.run_leaves (leadsInvariant host) trivial counts.leads ?_
    cases command <;> simp [Command.Safe]
  -- The result of the run with both what it keeps and how it grew.
  have steps : ∀ {ok : CTable creator → Prop} {err : CTable creator → Prop},
      wp (command.run host) (fun _ => ok) (stopped err (fun _ => True)) keying.table →
      (∀ after, after.Leads → ok after ∨ err after → (keying.left host command after).Counts) →
      ∀ next, keying.step host command = some next → next.Counts := by
    intro ok err ends kept next stepped
    obtain ⟨after, left, rfl⟩ := Option.map_eq_some_iff.mp stepped
    have leads : after.Leads := by
      rcases CTable.afterCommand_ends settled left with ⟨leads | gone, living⟩ | leads
      · exact leads
      · exact nomatch living.symm.trans gone.1
      · exact leads
    exact kept after leads ((CTable.afterCommand_ends ends left).imp And.left id)
  cases counted : command.automaticKey host keying.table with
  | none =>
      refine ⟨fun counts => absurd counted counts, steps (Command.run_grown counted) ?_⟩
      intro after leads grown
      exact counts.uncounted counted leads (grown.elim id .inl)
  | some key =>
      have adds := Command.run_adds counts.leads counted (counts.missing free counted)
      refine ⟨fun _ => wp_mono adds (fun _ _ after => after.2) ?_, steps adds ?_⟩
      · intro stop after left
        cases stop with
        | tcl error => exact left.2
        | fault fault => trivial
      · intro after leads ended
        have grown : keying.table.countedOn.MoreRows after ∧ keying.table.OverwritesNothing after :=
          ended.elim (fun done => ⟨done.1, done.2.1⟩) id
        exact counts.counted counted leads grown.1 grown.2

/-- Insertions stay fresh along a history, by induction on its commands. -/
theorem Counts.run {commands : List (Command creator)}
    : ∀ {keying : Keying creator}, keying.Counts →
        keying.Along host (KeyFree host) commands →
        keying.Along host (Fresh host) commands := by
  induction commands with
  | nil => exact fun _ _ => trivial
  | cons command rest ih =>
      intro keying counts free
      obtain ⟨fresh, kept⟩ := counts.step free.1
      exact ⟨fresh, fun next stepped => ih (kept next stepped) (free.2 next stepped)⟩

end Keying

/-- Along every history, an insertion with an automatic key creates a new row, if no row with a key
that was not counted has that key.
-/
theorem automatic_keys_fresh (host : Host) (creator : CreatorTable) (sharedMaster sharePanic : Bool)
    (commands : List (Command creator))
    (free : (Keying.new creator sharedMaster sharePanic).Along host (Keying.KeyFree host) commands)
    : (Keying.new creator sharedMaster sharePanic).Along host (Keying.Fresh host) commands :=
  (Keying.Counts.new creator sharedMaster sharePanic).run free

/-- The result of a first command on the sample table. -/
def firstRun (command : Command sampleCreator) : EStateM.Result Stop (CTable sampleCreator) Unit :=
  command.run sampleHost (CTable.empty sampleCreator false false)

/-- Nothing has been counted, and every row has the key `a`. -/
def isNamed : EStateM.Result Stop (CTable sampleCreator) Unit → Bool
  | .ok _ after =>
      after.autoRowNumber == 0 && after.llHead.all (fun id => (after.rowAt id).key == some [97])
  | .error _ _ => false

theorem automatic_keys_fresh_named
    : (Keying.new sampleCreator false false).Along sampleHost (Keying.Fresh sampleHost)
        [.set [[97], [98], [49]], .store [[110], [50]]] := by
  refine automatic_keys_fresh sampleHost sampleCreator false false _ ?_
  refine ⟨fun key counted => (nomatch counted), fun keyed stepped => ⟨?_, fun _ _ => trivial⟩⟩
  have outcome : isNamed (firstRun (.set [[97], [98], [49]])) = true := by decide +kernel
  unfold isNamed at outcome
  split at outcome
  · next after run =>
      obtain rfl := @Keying.step_ok _ _ (Keying.new sampleCreator false false) _ _ _ run stepped
      simp only [Bool.and_eq_true, beq_iff_eq, List.all_eq_true] at outcome
      intro key counted id listed _ same
      obtain rfl : [97] = key := Option.some.inj ((outcome.2 id listed).symm.trans same)
      have numeral : NumeralOf 0 [97] := by
        rw [← outcome.1]
        exact Keying.automaticKey_numeral counted
      rcases numeral with plain | signed
      · exact absurd plain (by decide)
      · exact absurd signed (by decide)
  · cases outcome

/-- A `store` without a key changes the only row, which has had a null field. -/
def isOverwritten : EStateM.Result Stop (CTable sampleCreator) Unit → Bool
  | .ok _ middle =>
      match (Command.store [[110], [50]]).run sampleHost middle with
      | .ok _ after =>
          ((Command.store [[110], [50]]).automaticKey sampleHost middle).isSome
            && !middle.destroyed && middle.llHead == [0] && after.llHead == [0]
            && ((middle.rowAt 0).cells (1 : Fin 6)).isNull
            && !((after.rowAt 0).cells (1 : Fin 6)).isNull
      | .error _ _ => false
  | .error _ _ => false

/-- After the key 0 has been set, the first automatic key is that of the row. -/
theorem automatic_key_overwrites
    : ¬ (Keying.new sampleCreator false false).Along sampleHost (Keying.Fresh sampleHost)
        [.set [[48], [98], [49]], .store [[110], [50]]] := by
  have outcome : isOverwritten (firstRun (.set [[48], [98], [49]])) = true := by decide +kernel
  unfold isOverwritten at outcome
  split at outcome
  · next middle first =>
      split at outcome
      · next after second =>
          simp only [Bool.and_eq_true, Bool.not_eq_true', beq_iff_eq] at outcome
          obtain ⟨⟨⟨⟨⟨counted, living⟩, one⟩, same⟩, -⟩, -⟩ := outcome
          rintro ⟨-, fresh⟩
          have inserted := (fresh _ (@Keying.step_of_ok _ _ (Keying.new sampleCreator false false) _ _
            first living)).1 (Option.ne_none_iff_isSome.mpr counted)
          have added : middle.AddsRow after := (wp_returns inserted second).2
          have lists := added.2
          rw [same, one] at lists
          simp at lists
      · cases outcome
  · cases outcome

end SpeedTables
