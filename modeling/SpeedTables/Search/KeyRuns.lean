import SpeedTables.Search.AutoKeys
import SpeedTables.Table.KeyCommands

/-! Every command keeps the key hash table, the row list and the counters in agreement, as long as
no setter call gives a new row another key.
-/

namespace SpeedTables

open Lib

variable {creator : CreatorTable} {host : Host}

-----------------------------------------------------------------------------------------
-- The keys after a command
-----------------------------------------------------------------------------------------

theorem CTable.setCurl_sameKeys (table : CTable creator) (field : creator.Field)
    (curl : Option NodeId)
    : table.SameKeys (table.setCurl field curl) := by
  unfold CTable.setCurl
  split <;> exact ⟨rfl, rfl, rfl, rfl, rfl⟩

/-- The agreement of the keys stays in order where no setter call gives a new row another key. -/
theorem keyInvariant (host : Host)
    : @TableInvariant creator host CTable.KeyedRows CTable.KeyedDuring CTable.KeyedRows
        (fun call => ¬ call.RekeysNew) (fun _ => True) where
  toUpkeep := keyUpkeep host
  leads := fun _ here => here.2
  move := fun table field skip part here chain within =>
    ⟨here.1.congr (table.setCurl_sameKeys field _),
      (leadsInvariant host).move table field skip part here.2 chain within⟩
  aside := fun table searches cursors memoryTests here =>
    ⟨{ here.1 with }, (leadsInvariant host).aside table searches cursors memoryTests here.2⟩
  own := fun _ _ here listed => ⟨here, listed⟩
  discard := fun _ _ here => discardRow_keyed here
  reset := fun table after here emptied =>
    ⟨emptied.keyed here.1, (leadsInvariant host).reset table after here.2 emptied⟩
  drop := fun table field here =>
    ⟨here.1.congr (table.dropIndex_dropped field).sameKeys, here.2.dropIndex field⟩
  build := by
    intro table field depth here _
    refine wp_mono (wp_and (keeps_keyed (createIndex_keys field depth) here.1)
      (createIndex_leads host field depth here.2)) (fun _ _ after => after) ?_
    intro stop after both
    cases stop with
    | tcl error => exact both
    | fault fault => trivial

-----------------------------------------------------------------------------------------
-- Agreeing keys
-----------------------------------------------------------------------------------------

/-- Every row of the list is found under its key, and no key occurs twice; every chain of the hash
table ends, passes no entry twice, and holds rows of the list only; and both counters have the
length of the list.
-/
structure CTable.KeysAgree (table : CTable creator) : Prop where
  found : ∀ id ∈ table.llHead, ∃ key,
    (table.rowAt id).key = some key ∧ table.findHashEntry key = .ok (some id)
  distinct : table.llHead.Pairwise (fun left right =>
    (table.rowAt left).key ≠ (table.rowAt right).key)
  chains : ∀ index, ∃ chain,
    IsChain table.keyTable.next (table.keyTable.buckets index) chain ∧ chain.Nodup
      ∧ ∀ id ∈ chain, id ∈ table.llHead
  numEntries : table.keyTable.numEntries = table.llHead.length
  count : table.count = table.llHead.length

/-- Rows that are linked under their keys agree with the hash table. -/
theorem CTable.Keyed.agree {table : CTable creator} (keyed : table.Keyed) : table.KeysAgree := by
  refine ⟨fun id listed => ?_, ?_, fun index => ?_, keyed.numEntries, keyed.count⟩
  · obtain ⟨found, result, isFound⟩ := keyed.findHashEntry_eq (table.rowAt id).keyString
    have hasKey := (keyed.read listed).2
    have here := (isFound id).mpr ⟨listed, hasKey⟩
    exact ⟨_, hasKey, here ▸ result⟩
  · refine keyed.nodup.imp_of_mem ?_
    intro left right inLeft inRight apart same
    exact apart (keyed.distinct left inLeft right inRight same)
  · obtain ⟨chain, linked, nodup, inside⟩ := keyed.linked index
    exact ⟨chain, linked, nodup, fun id member => ((inside id).mp member).1⟩

/-- The setter calls of a command give no new row another key. -/
def Command.KeepsKeys (host : Host) (table : CTable creator) (command : Command creator) : Prop :=
  command.Safe host (fun call => ¬ call.RekeysNew) (fun _ => True) table

/-- After every history of commands, with any errors, whose setter calls give no new row another
key, the keys agree.
-/
theorem keys_agree (host : Host) (creator : CreatorTable) (sharedMaster sharePanic : Bool)
    (commands : List (Command creator)) (after : CTable creator)
    (ran : (CTable.empty creator sharedMaster sharePanic).afterCommands host commands = some after)
    (keeps : (CTable.empty creator sharedMaster sharePanic).AlongCommands host
      (fun table command => command.KeepsKeys host table) commands)
    : after.KeysAgree := by
  have start := CTable.KeyedRows.empty creator sharedMaster sharePanic
  have kept : after.KeyedRows := by
    refine CTable.afterCommands_kept (fun table command next here safe stepped => ?_) start keeps
      ran
    rcases CTable.afterCommand_ends (Command.run_leaves (keyInvariant host) trivial here safe)
      stepped with ⟨kept | gone, living⟩ | kept
    · exact kept
    · exact nomatch living.symm.trans gone.1
    · exact kept
  exact kept.1.agree

/-- The number of hash entries of a table, and the length of its row list. -/
def entriesAndRows : Option (CTable sampleCreator) → Option (Int × Nat)
  | some after => some (after.keyTable.numEntries, after.llHead.length)
  | none => none

/-- A row that is stored with its string, and deleted. -/
theorem keys_agree_deleted
    : ∃ after, (CTable.empty sampleCreator false false).afterCommands sampleHost
          [.set [[97], [115], [120]], .delete [[97]]] = some after
        ∧ after.KeysAgree := by
  have outcome : (entriesAndRows ((CTable.empty sampleCreator false false).afterCommands sampleHost
      [.set [[97], [115], [120]], .delete [[97]]])).isSome = true := by decide +kernel
  have cells : (setCommandCalls sampleHost (CTable.empty sampleCreator false false).memoryTested
      [[97], [115], [120]]).all (fun call =>
        match call.write with
        | .set field _ => field != sampleCreator.keyField
        | _ => true) = true := by
    decide +kernel
  cases ran : (CTable.empty sampleCreator false false).afterCommands sampleHost
      [.set [[97], [115], [120]], .delete [[97]]] with
  | none =>
      rw [ran] at outcome
      cases outcome
  | some after =>
      refine ⟨after, rfl, keys_agree sampleHost sampleCreator false false _ after ran ?_⟩
      refine ⟨fun call member rekeys => ?_, fun _ _ => ⟨trivial, fun _ _ => trivial⟩⟩
      obtain ⟨obj, write, -⟩ := rekeys.rekeys
      have cell := List.all_eq_true.mp cells call member
      rw [write] at cell
      simp at cell

/-- A row that is created under the key `a` and then given the key `b` has two hash entries. -/
theorem keys_rekeyedNew
    : ¬ ∀ (commands : List (Command sampleCreator)) (after : CTable sampleCreator),
        (CTable.empty sampleCreator false false).afterCommands sampleHost commands = some after →
        after.KeysAgree := by
  intro agree
  have outcome : entriesAndRows ((CTable.empty sampleCreator false false).afterCommands sampleHost
      [.set [[97], [107], [98]]]) = some (2, 1) := by decide +kernel
  cases ran : (CTable.empty sampleCreator false false).afterCommands sampleHost
      [.set [[97], [107], [98]]] with
  | none =>
      rw [ran] at outcome
      cases outcome
  | some after =>
      rw [ran] at outcome
      obtain ⟨entries, rows⟩ := Prod.mk.inj (Option.some.inj outcome)
      have same := (agree _ after ran).numEntries
      rw [entries, rows] at same
      exact absurd same (by decide)

end SpeedTables
