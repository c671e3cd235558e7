import SpeedTables.Search.Scripts
import SpeedTables.Table.IndexCommands
import SpeedTables.Table.Sample

/-! Scripts of commands and searches keep every row in every index, as long as no setter call
bypasses one.
-/

namespace SpeedTables

open Lib Std

variable {creator : CreatorTable} {host : Host}

-----------------------------------------------------------------------------------------
-- The indexes during a script
-----------------------------------------------------------------------------------------

/-- A position may move to a node of its list. -/
theorem CTable.Indexed.setCurl {table : CTable creator} {field : creator.Field}
    {curl : Option NodeId} (indexed : table.Indexed)
    (valid : ∀ skip, table.skipLists field = some skip → ∀ id ∈ curl, ∃ n ∈ skip.nodes, n.id = id)
    : (table.setCurl field curl).Indexed := by
  unfold CTable.setCurl
  split
  case h_2 => exact indexed
  case h_1 skip chain =>
    refine ⟨?_, ?_, ?_⟩
    · refine indexed.leads.transport (fun _ => rfl) rfl rfl indexed.leads.hash ?_
        indexed.leads.lastNext indexed.leads.fresh
      intro other list shape e inside
      by_cases same : other = field
      · subst same
        obtain rfl : { skip with curl := curl } = list := by
          simpa [CTable.setSkipList] using shape
        exact indexed.leads.nodes other skip chain e inside
      · exact indexed.leads.nodes other list (by simpa [CTable.setSkipList, same] using shape) e
          inside
    · intro other
      by_cases same : other = field
      · subst same
        obtain ⟨indexable, wf⟩ := (indexed.index other).wf skip chain
        refine ⟨?_, ?_, (indexed.index other).unused⟩
        · intro list shape
          obtain rfl : { skip with curl := curl } = list := by
            simpa [CTable.setSkipList] using shape
          exact ⟨indexable, { wf with curl := valid skip chain }⟩
        · intro absent
          simp [CTable.setSkipList] at absent
      · refine (indexed.index other).transport ?_ rfl rfl rfl (Nat.le_refl _)
          (fun _ _ _ _ _ => ReflCmp.compare_self)
        simp [CTable.setSkipList, same]
    · intro other id listed included exists'
      refine indexed.complete other id listed included ?_
      by_cases same : other = field
      · simp [same, chain]
      · simpa [CTable.setSkipList, same] using exists'

/-- The indexes stay in order where no setter call bypasses one, and no index of depth 0 is made. -/
theorem indexInvariant (host : Host)
    : @TableInvariant creator host CTable.Indexed CTable.IndexedDuring (fun _ => True)
        (fun call => ¬ call.Bypasses host) (· ≠ 0) where
  toUpkeep := indexUpkeep host
  leads := fun _ indexed => indexed.leads
  move := by
    intro table field skip part indexed chain within
    refine indexed.setCurl ?_
    intro list same id member
    obtain rfl : skip = list := Option.some.inj (chain.symm.trans same)
    obtain ⟨node, first, rfl⟩ := Option.map_eq_some_iff.mp member
    exact ⟨node, within (List.mem_of_mem_head? first), rfl⟩
  aside := fun _ _ _ _ indexed => indexed.congr rfl rfl rfl rfl rfl rfl rfl rfl
  own := fun table id indexed listed =>
    ⟨⟨indexed.leads, indexed.index, fun field other inTable _ =>
      indexed.complete field other inTable not_false⟩, listed⟩
  discard := fun _ _ indexed => discardRow_indexed indexed
  reset := by
    intro table after indexed emptied
    have cleared : table.Emptied { after with keyTable := after.keyTable.init } :=
      { emptied with }
    exact cleared.indexed indexed (cleared.leads indexed.leads (fun _ => rfl))
  drop := fun _ field indexed => indexed.dropIndex field
  build := fun _ _ _ indexed deep =>
    wp_mono (createIndex_indexed indexed deep) (fun _ _ after => after)
      (fun stop after _ => stopped_any stop after)

-----------------------------------------------------------------------------------------
-- Sound indexes
-----------------------------------------------------------------------------------------

/-- A command maintains the indexes when none of its setter calls bypasses one, and when it makes
no index of depth 0.
-/
def Command.Maintains (host : Host) (table : CTable creator) (command : Command creator) : Prop :=
  command.Safe host (fun call => ¬ call.Bypasses host) (· ≠ 0) table

/-- An event maintains the indexes in the same way. -/
def Session.Maintains (host : Host) : Session creator → Event creator → Prop :=
  Session.Safe host (fun call => ¬ call.Bypasses host) (· ≠ 0)

/-- The skip list of a field holds every row of the table once and no other, its nodes ascend
strictly, and the rows of a node are equal and never none, or just one in a unique index.
-/
structure CTable.IndexSound (table : CTable creator) (field : creator.Field)
    (skip : SkipList RowId) : Prop where
  rows : ∀ id, (entries skip.nodes).count id = if id ∈ table.llHead then 1 else 0
  ascending :
    skip.nodes.Pairwise (fun left right => ∀ a ∈ left.bucket, ∀ b ∈ right.bucket,
      creator.compareFunction field (table.rowAt a) (table.rowAt b) = .lt)
  equal : ∀ n ∈ skip.nodes, ∀ a ∈ n.bucket, ∀ b ∈ n.bucket,
    creator.compareFunction field (table.rowAt a) (table.rowAt b) = .eq
  nonempty : ∀ n ∈ skip.nodes, n.bucket ≠ []
  unique : (creator.fields field).unique = true → ∀ n ∈ skip.nodes, n.bucket.length = 1

/-- Indexes in order that hold every row are sound. -/
theorem CTable.Indexed.sound {table : CTable creator} (indexed : table.Indexed)
    {field : creator.Field} {skip : SkipList RowId} (chain : table.skipLists field = some skip)
    : table.IndexSound field skip := by
  obtain ⟨-, wf⟩ := (indexed.index field).wf skip chain
  refine ⟨fun id => ?_, wf.ordered.ascending, wf.ordered.equal, wf.ordered.nonempty, wf.unique⟩
  split
  · next listed =>
      have linked := indexed.complete field id listed not_false (by simp [chain])
      exact List.count_eq_one_of_mem wf.ordered.entries_nodup ((wf.mem_entries_iff listed).mpr linked)
  · next unlisted => exact List.count_eq_zero.mpr fun inside => unlisted (wf.members id inside)

/-- A new table has no index. -/
theorem CTable.Indexed.empty (creator : CreatorTable) (sharedMaster sharePanic : Bool)
    : (CTable.empty creator sharedMaster sharePanic).Indexed := by
  refine ⟨CTable.Leads.empty creator sharedMaster sharePanic, fun field => ?_, ?_⟩
  · refine ⟨?_, fun _ _ _ => rfl, fun _ _ => rfl⟩
    intro skip chain
    simp [CTable.empty] at chain
  · intro field id listed
    simp [CTable.empty] at listed

/-- After every sequence of commands and searches that succeed, and whose setter calls bypass no
index, every index is sound.
-/
theorem index_sound (host : Host) (sharedMaster sharePanic : Bool) (events : List (Event creator))
    (final : Session creator)
    (ran : (Session.new creator sharedMaster sharePanic).run host Option.isNone events = some final)
    (sequential
      : (Session.new creator sharedMaster sharePanic).Along host Session.Sequential events)
    (maintains
      : (Session.new creator sharedMaster sharePanic).Along host (Session.Maintains host) events)
    : ∀ field skip, final.table.skipLists field = some skip →
        final.table.IndexSound field skip := by
  intro field skip chain
  have start := CTable.Indexed.empty creator sharedMaster sharePanic
  have inOrder := Session.InOrder.run (indexInvariant host) (by decide)
    (fun error accepted => .inl (Option.isNone_iff_eq_none.mp accepted))
    (Session.InOrder.ended (.inl start)) ran sequential maintains
  rcases inOrder.idle with indexed | ⟨-, gone⟩
  · exact indexed.sound chain
  · rw [gone field] at chain
    cases chain

/-- Setting a field that is neither the key nor a boolean or an object bypasses no index. -/
theorem Call.maintains_of_write {call : Call creator} {field : creator.Field} {obj : Obj}
    (write : call.write = .set field obj) (notKey : field ≠ creator.keyField)
    (indexing : (creator.type field).storedUnindexed = false)
    : ¬ call.Bypasses host := by
  intro bypasses
  cases bypasses with
  | key other =>
      cases write.symm.trans other
      exact notKey rfl
  | cell other _ unindexed =>
      cases write.symm.trans other
      simp [indexing] at unindexed

/-- The loop of `set` sets fields that its list names, by induction along the pairs. -/
theorem setPairsCalls_names {ctl : IndexCtl} {id : RowId} {nocomplain : Bool}
    : ∀ (elements : List Obj) (table : CTable creator),
        ∀ call ∈ setPairsCalls host ctl id nocomplain elements table,
          ∃ name ∈ elements, ∃ field obj, creator.fieldNumber name = some field
            ∧ call.write = .set field obj
  | [], _ => by simp [setPairsCalls]
  | [_], _ => by simp [setPairsCalls]
  | fieldObj :: obj :: rest, table => by
      have named : ∀ table, ∀ call ∈ setPairsCalls host ctl id nocomplain rest table,
          ∃ name ∈ fieldObj :: obj :: rest, ∃ field obj, creator.fieldNumber name = some field
            ∧ call.write = .set field obj := by
        intro table call member
        obtain ⟨name, inside, found⟩ := setPairsCalls_names rest table call member
        exact ⟨name, by simp [inside], found⟩
      intro call member
      rw [setPairsCalls] at member
      split at member
      · next field number =>
          rcases List.mem_cons.mp member with rfl | later
          · exact ⟨fieldObj, by simp, field, obj, number, rfl⟩
          · unfold callsAfter at later
            split at later
            · exact named _ call later
            · cases later
      · split at member
        · exact named table call member
        · cases member

/-- A `set` sets fields that its checked list names. -/
theorem setCommandCalls_names {table : CTable creator} {key : Obj} {arguments : List Obj}
    {call : Call creator} (member : call ∈ setCommandCalls host table (key :: arguments))
    : ∃ nocomplain rest elements, takeOptions false arguments = .ok (nocomplain, rest)
        ∧ evenKeyValueList host rest = .ok elements
        ∧ ∃ name ∈ elements, ∃ field obj, creator.fieldNumber name = some field
            ∧ call.write = .set field obj := by
  rw [setCommandCalls] at member
  split at member
  · cases member
  · next nocomplain rest options =>
      unfold rowCalls callsAfter at member
      split at member
      · split at member
        · cases member
        · next elements pairs =>
            exact ⟨nocomplain, rest, elements, options, pairs,
              setPairsCalls_names _ _ call member⟩
      · cases member

/-- A `set` whose list names no key, boolean or object field maintains the indexes. -/
theorem Command.set_maintains {table : CTable creator} {key : Obj} {arguments : List Obj}
    (plain : ∀ nocomplain rest elements, takeOptions false arguments = .ok (nocomplain, rest) →
      evenKeyValueList host rest = .ok elements → ∀ name ∈ elements, ∀ field,
        creator.fieldNumber name = some field →
          field ≠ creator.keyField ∧ (creator.type field).storedUnindexed = false)
    : (Command.set (key :: arguments)).Maintains host table := by
  intro call member
  obtain ⟨nocomplain, rest, elements, options, pairs, name, inside, field, obj, number, write⟩ :=
    setCommandCalls_names member
  obtain ⟨notKey, indexing⟩ :=
    plain nocomplain rest elements options pairs name inside field number
  exact Call.maintains_of_write write notKey indexing

/-- A `null` maintains the indexes. -/
theorem Command.null_maintains (table : CTable creator) (arguments : List Obj)
    : (Command.null arguments).Maintains host table := by
  have nulls : ∀ (id : RowId) (fieldObjs : List Obj) (table : CTable creator),
      ∀ call ∈ nullFieldsCalls host id fieldObjs table, ∃ field, call.write = .null field := by
    intro id fieldObjs
    induction fieldObjs with
    | nil => exact fun _ => nofun
    | cons fieldObj rest ih =>
        intro table call member
        rw [nullFieldsCalls] at member
        split at member
        · next field _ =>
            rcases List.mem_cons.mp member with rfl | later
            · exact ⟨field, rfl⟩
            · unfold callsAfter at later
              split at later
              · exact ih _ call later
              · cases later
        · cases member
  intro call member bypasses
  obtain ⟨field, null⟩ : ∃ field, call.write = .null field := by
    unfold nullCommandCalls at member
    split at member
    · cases member
    · split at member
      · exact nulls _ _ _ call member
      · cases member
  cases bypasses with
  | key write => cases null.symm.trans write
  | cell write => cases null.symm.trans write

/-- An index on the field `n`, two rows, and a change of the first one. -/
def numberCommands : List (Command sampleCreator) :=
  [.indexCreate [[110]], .set [[97], [110], [49]], .set [[99], [110], [48]],
    .set [[97], [110], [50]], .null [[99], [110]]]

/-- After them the index on `n` is sound. -/
theorem index_sound_numbers
    : ∃ final, (Session.new sampleCreator false false).run sampleHost Option.isNone
          (numberCommands.map .command) = some final
        ∧ ∀ field skip, final.table.skipLists field = some skip →
            final.table.IndexSound field skip := by
  have completes : ((Session.new sampleCreator false false).run sampleHost Option.isNone
      (numberCommands.map .command)).isSome = true := by decide +kernel
  obtain ⟨final, ran⟩ := Option.isSome_iff_exists.mp completes
  refine ⟨final, ran, index_sound sampleHost false false _ final ran
    (commands_sequential numberCommands rfl) (commands_safe ?_)⟩
  have plain : ∀ (key value : UInt8) (table : CTable sampleCreator),
      sampleCreator.fieldNumber [value] = none →
        (Command.set [[key], [110], [value]]).Maintains sampleHost table := by
    intro key value table unknown
    refine Command.set_maintains ?_
    intro nocomplain rest elements options pairs name inside field number
    cases options
    have list : evenKeyValueList sampleHost [[110], [value]] = .ok [[110], [value]] := by
      simp [evenKeyValueList, keyValueList]
    cases list.symm.trans pairs
    rcases List.mem_pair.mp inside with rfl | rfl
    · have known : sampleCreator.fieldNumber [110] = some (1 : Fin 6) := rfl
      obtain rfl : (1 : Fin 6) = field := Option.some.inj (known.symm.trans number)
      exact ⟨show (1 : Fin 6) ≠ 0 by decide, rfl⟩
    · cases unknown.symm.trans number
  intro command member table
  simp only [numberCommands, List.mem_cons, List.not_mem_nil, or_false] at member
  rcases member with rfl | rfl | rfl | rfl | rfl
  · rintro fieldObj depthObj ⟨⟩
  · exact plain 97 49 table (by decide)
  · exact plain 99 48 table (by decide)
  · exact plain 97 50 table (by decide)
  · exact Command.null_maintains table [[99], [110]]

/-- An index on the boolean field `b`, two rows, and a change of the first to the value of the
second.
-/
def booleanCommands : List (Command sampleCreator) :=
  [.indexCreate [[98]], .set [[97], [98], [49]], .set [[99], [98], [48]],
    .set [[97], [98], [48]]]

/-- The setter of a boolean field leaves the row in its node: after these commands two nodes hold
equal rows.
-/
theorem index_sound_boolean
    : ¬∀ final, (Session.new sampleCreator false false).run sampleHost Option.isNone
          (booleanCommands.map .command) = some final →
        ∀ field skip, final.table.skipLists field = some skip →
          final.table.IndexSound field skip := by
  intro claim
  have broken : ∃ final, (Session.new sampleCreator false false).run sampleHost Option.isNone
        (booleanCommands.map .command) = some final
      ∧ ∃ skip, final.table.skipLists (2 : Fin 6) = some skip
        ∧ ¬ skip.nodes.Pairwise (fun left right => ∀ a ∈ left.bucket, ∀ b ∈ right.bucket,
            sampleCreator.compareFunction (2 : Fin 6) (final.table.rowAt a) (final.table.rowAt b)
              = .lt) := by
    have computed : (((Session.new sampleCreator false false).run sampleHost Option.isNone
        (booleanCommands.map .command)).any (fun final =>
          (final.table.skipLists (2 : Fin 6)).any (fun skip =>
            decide (¬ skip.nodes.Pairwise (fun left right =>
              ∀ a ∈ left.bucket, ∀ b ∈ right.bucket,
                sampleCreator.compareFunction (2 : Fin 6) (final.table.rowAt a)
                  (final.table.rowAt b) = .lt))))) = true := by decide +kernel
    obtain ⟨final, ran, found⟩ := (Option.any_eq_true _ _).mp computed
    obtain ⟨skip, chain, descends⟩ := (Option.any_eq_true _ _).mp found
    exact ⟨final, ran, skip, chain, of_decide_eq_true descends⟩
  obtain ⟨final, ran, skip, chain, descends⟩ := broken
  exact descends (claim final ran (2 : Fin 6) skip chain).ascending

end SpeedTables
