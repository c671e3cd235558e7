import SpeedTables.Table.Increment
import SpeedTables.Table.KeyCommands

/-! What a setter that fails on an existing row leaves behind. -/

namespace SpeedTables

open Lib

variable {creator : CreatorTable} {host : Host} {table after : CTable creator} {id : RowId}
  {field : creator.Field}

-----------------------------------------------------------------------------------------
-- A store that fails
-----------------------------------------------------------------------------------------

/-- The rows of an index in their order. -/
def CTable.indexRows (table : CTable creator) (field : creator.Field) : Option (List RowId) :=
  (table.skipLists field).map (fun skip => entries skip.nodes)

/-- A row stands in the index of a field. -/
def CTable.InIndex (table : CTable creator) (field : creator.Field) (id : RowId) : Prop :=
  ∃ rows, table.indexRows field = some rows ∧ id ∈ rows

theorem CTable.FieldIndex.inIndex_iff (index : table.FieldIndex field) (listed : id ∈ table.llHead)
    : table.InIndex field id ↔ table.links field id ≠ none := by
  cases chain : table.skipLists field with
  | none => simp [CTable.InIndex, CTable.indexRows, chain, index.unlinked chain id listed]
  | some skip =>
      rw [← Option.isSome_iff_ne_none, ← (index.wf skip chain).2.mem_entries_iff listed]
      simp [CTable.InIndex, CTable.indexRows, chain]

theorem CTable.FlatIndex.not_inIndex (flat : table.FlatIndex field) (id : RowId)
    : ¬ table.InIndex field id := by
  rintro ⟨rows, same, inside⟩
  cases chain : table.skipLists field with
  | none => simp [CTable.indexRows, chain] at same
  | some skip =>
      obtain rfl : entries skip.nodes = rows := by simpa [CTable.indexRows, chain] using same
      simp [(flat skip chain).2, entries] at inside

theorem CTable.FlatIndex.indexRows_eq (before : table.FlatIndex field)
    (flat : after.FlatIndex field)
    (same : (after.skipLists field).isSome = (table.skipLists field).isSome)
    : after.indexRows field = table.indexRows field := by
  cases chain : table.skipLists field with
  | none =>
      have absent : after.skipLists field = none := by simpa [chain] using same
      simp [CTable.indexRows, chain, absent]
  | some skip =>
      obtain ⟨next, current⟩ : ∃ next, after.skipLists field = some next := by
        rw [← Option.isSome_iff_exists, same, chain]
        rfl
      simp [CTable.indexRows, chain, current, (before skip chain).2, (flat next current).2]

/-- The field of the row, its null flag, the key and all indexes are as before. -/
structure CTable.Untouched (field : creator.Field) (id : RowId) (before after : CTable creator)
    : Prop where
  cell : (after.rowAt id).cells field = (before.rowAt id).cells field
  key : (after.rowAt id).key = (before.rowAt id).key
  indexes : ∀ other, after.indexRows other = before.indexRows other

theorem CTable.Untouched.refl (field : creator.Field) (id : RowId) (table : CTable creator)
    : table.Untouched field id table :=
  ⟨rfl, rfl, fun _ => rfl⟩

/-- A store that fails leaves what was there: the index does not hold the row, and the cell is the
one that the store has put there before it fails.
-/
def CTable.FailsQuietly (table : CTable creator) (host : Host) (id : RowId)
    (cell flagged : Cell (creator.type field)) (allocates : Bool)
    (stored : Cell (creator.type field)) : Prop :=
  ¬ table.InIndex field id
    ∧ (table.AllocationFails host allocates → cell = flagged)
    ∧ (¬ table.AllocationFails host allocates → cell = stored)

/-- A store in a row that its index does not hold fails without a change of the indexes. -/
theorem storeIndexed_unlinked {row : Row creator} {flagged stored : Cell (creator.type field)}
    {allocates : Bool} (found : table.rows id = some row) (unlinked : table.links field id = none)
    : wp (storeIndexed host .normal id field flagged allocates stored) (fun _ _ => True)
        (stopped (fun after => after.skipLists = table.skipLists) (fun _ => True)) table := by
  rw [storeIndexed, wp_bind]
  refine removeFromIndexSource_unlinked .normal unlinked ?_
  rw [wp_bind, putCell_spec found, wp_bind]
  refine wp_mono allocateMayFail_spec ?_ ?_
  · rintro - allocated ⟨-, count, rfl⟩
    have there : ({ table.putRow id (row.setCell field flagged) with
        allocations := count } : CTable creator).rows id = some (row.setCell field flagged) := by
      simp [CTable.putRow]
    rw [wp_bind, putCell_spec there, insertIntoIndex, wp_bind, wp_get]
    split
    · trivial
    · split
      · trivial
      · rw [wp_bind, wp_inspect]
        refine ⟨fun _ _ => ?_, fun _ _ => trivial⟩
        rw [wp_bind, wp_inspect]
        refine ⟨fun inserted _ => ?_, fun _ _ => trivial⟩
        cases inserted with
        | none => exact rfl
        | some entered => trivial
  · rintro stop allocated ⟨-, ⟨rfl, -⟩ | ⟨rfl, -⟩, count, rfl⟩
    · trivial
    · exact rfl

/-- The cell that a failed store leaves. -/
theorem storeIndexed_leaves {row : Row creator} {flagged stored : Cell (creator.type field)}
    {allocates : Bool} {error : TclError} (index : table.SoundIndex field)
    (listed : id ∈ table.llHead) (old : id < table.nextRow) (found : table.rows id = some row)
    (fails : storeIndexed host .normal id field flagged allocates stored table =
      .error (.tcl error) after)
    : (table.AllocationFails host allocates → (after.rowAt id).cells field = flagged)
        ∧ (¬ table.AllocationFails host allocates → (after.rowAt id).cells field = stored) := by
  by_cases tall : ∃ skip, table.skipLists field = some skip ∧ 1 < skip.maxh
  · obtain ⟨skip, chain, tall⟩ := tall
    have existing : IndexCtl.normal = .new → table.links field id = none := nofun
    obtain ⟨-, ⟨denied, -, here⟩ | ⟨granted, -, here⟩⟩ :=
      wp_stops (storeIndexed_spec (index.tall skip chain tall) listed old found existing) fails
    · exact ⟨fun _ => by simp [CTable.rowAt, here, Row.setCell], fun granted => absurd denied granted⟩
    · exact ⟨fun denied => absurd denied granted, fun _ => by simp [CTable.rowAt, here, Row.setCell]⟩
  · have flat : table.FlatIndex field := index.flatIndex tall
    obtain ⟨denied, -, here⟩ := wp_stops (flat.storeIndexed found) fails
    exact ⟨fun _ => by simp [CTable.rowAt, here, Row.setCell], fun granted => absurd denied granted⟩

/-- A failed store leaves the index of its field as it was exactly when the row is not in it. -/
theorem storeIndexed_indexRows {row : Row creator} {flagged stored : Cell (creator.type field)}
    {allocates : Bool} {error : TclError} (index : table.SoundIndex field)
    (listed : id ∈ table.llHead) (old : id < table.nextRow) (found : table.rows id = some row)
    (fails : storeIndexed host .normal id field flagged allocates stored table =
      .error (.tcl error) after)
    : after.indexRows field = table.indexRows field ↔ ¬ table.InIndex field id := by
  have frame := wp_stops
    (respects_storeIndexed host .normal id field flagged allocates stored table) fails
  by_cases tall : ∃ skip, table.skipLists field = some skip ∧ 1 < skip.maxh
  · obtain ⟨skip, chain, tall⟩ := tall
    have ordered := index.tall skip chain tall
    have existing : IndexCtl.normal = .new → table.links field id = none := nofun
    obtain ⟨left, -⟩ := wp_stops (storeIndexed_spec ordered listed old found existing) fails
    constructor
    · rintro same ⟨rows, present, inside⟩
      have stays : after.InIndex field id := ⟨rows, same.trans present, inside⟩
      exact (left.index.inIndex_iff (frame.llHead ▸ listed)).mp stays left.unlinked
    · intro absent
      rw [ordered.inIndex_iff listed, not_not] at absent
      have same := wp_stops (storeIndexed_unlinked found absent) fails
      rw [stopped_tcl] at same
      rw [CTable.indexRows, CTable.indexRows, same]
  · have flat : table.FlatIndex field := index.flatIndex tall
    obtain ⟨-, flat', -⟩ := wp_stops (flat.storeIndexed found) fails
    exact iff_of_true (flat.indexRows_eq flat' (frame.exists' field)) (flat.not_inIndex id)

/-- A store that fails leaves everything as it was exactly when it fails quietly. -/
theorem storeIndexed_untouched_iff {row : Row creator} {flagged stored : Cell (creator.type field)}
    {allocates : Bool} {error : TclError} (index : table.SoundIndex field)
    (listed : id ∈ table.llHead) (old : id < table.nextRow) (found : table.rows id = some row)
    (fails : storeIndexed host .normal id field flagged allocates stored table =
      .error (.tcl error) after)
    : table.Untouched field id after ↔
        table.FailsQuietly host id (row.cells field) flagged allocates stored := by
  have contents := storeIndexed_leaves index listed old found fails
  have rows := storeIndexed_indexRows index listed old found fails
  have frame := wp_stops
    (respects_storeIndexed host .normal id field flagged allocates stored table) fails
  have before : (table.rowAt id).cells field = row.cells field := by simp [CTable.rowAt, found]
  constructor
  · intro untouched
    have cell : row.cells field = (after.rowAt id).cells field :=
      before.symm.trans untouched.cell.symm
    exact ⟨rows.mp (untouched.indexes field), fun denied => cell.trans (contents.1 denied),
      fun granted => cell.trans (contents.2 granted)⟩
  · rintro ⟨absent, flag, value⟩
    refine ⟨?_, frame.key, fun other => ?_⟩
    · rw [before]
      by_cases denied : table.AllocationFails host allocates
      · exact (contents.1 denied).trans (flag denied).symm
      · exact (contents.2 denied).trans (value denied).symm
    · by_cases same : other = field
      · rw [same]
        exact rows.mpr absent
      · rw [CTable.indexRows, CTable.indexRows, frame.skipLists other same]

-----------------------------------------------------------------------------------------
-- A setter that fails
-----------------------------------------------------------------------------------------

/-- When a setter that fails on a row leaves everything as it was: it fails before it stores, or the
store fails quietly.
-/
def Write.FailsQuietly (host : Host) (table : CTable creator) (id : RowId) (row : Row creator)
    : Write creator → Prop
  | .set field obj =>
      field = creator.keyField ∨ ∀ flagged allocates stored,
        cellSet creator host field (row.cells field) obj = .assign flagged allocates stored →
        table.FailsQuietly host id (row.cells field) flagged allocates stored
  | .incr field obj =>
      ∀ add amount, incrValue host (creator.fields field).type = some add →
        host.getInt obj = some amount →
        ¬ table.InIndex field id
          ∧ row.cells field = { value := add (row.cells field) amount, isNull := false }
  | .null field => (creator.fields field).notnull = true

/-- Marking a row as changed does not fail. -/
theorem markDirty_succeeds (id : RowId) (field : creator.Field) (table : CTable creator)
    : wp (markDirty id field) (fun _ _ => True) (stopped (fun _ => False) (fun _ => True)) table := by
  unfold markDirty setDirty putCell
  split
  · trivial
  · rw [wp_bind, wp_inspect]
    exact ⟨fun _ _ => trivial, fun _ _ => trivial⟩

/-- Storing without index maintenance does not fail. -/
theorem storeUnindexed_succeeds {ctl : IndexCtl} {flagged stored : Cell (creator.type field)}
    : wp (storeUnindexed ctl id field flagged stored) (fun _ _ => True)
        (stopped (fun _ => False) (fun _ => True)) table := by
  have puts : ∀ (cell : Cell (creator.type field)) (table : CTable creator),
      wp (putCell field id cell) (fun _ _ => True) (stopped (fun _ => False) (fun _ => True))
        table := by
    intro cell table
    rw [putCell, wp_bind, wp_inspect]
    exact ⟨fun _ _ => trivial, fun _ _ => trivial⟩
  rw [storeUnindexed, wp_bind, wp_inspect]
  refine ⟨fun row _ => ?_, fun _ _ => trivial⟩
  rw [wp_bind]
  have released : wp (releaseObj field id flagged) (fun _ _ => True)
      (stopped (fun _ => False) (fun _ => True)) table := by
    unfold releaseObj
    split
    · exact puts flagged table
    · trivial
  refine wp_mono released (fun _ middle _ => ?_) (fun _ _ stops => stops)
  split
  · rw [wp_bind]
    have removed : wp (removeFromIndexSource ctl field id) (fun _ _ => True)
        (stopped (fun _ => False) (fun _ => True)) middle := by
      unfold removeFromIndexSource
      split
      · rw [removeFromIndex, wp_bind, wp_inspect]
        exact ⟨fun _ _ => trivial, fun _ _ => trivial⟩
      · trivial
    exact wp_mono removed (fun _ after _ => puts stored after) (fun _ _ stops => stops)
  · exact puts stored middle

/-- A setter that fails leaves the table as it is, or fails in its store. -/
theorem setField_fails {row : Row creator} {obj : Obj} (notKey : field ≠ creator.keyField)
    (found : table.rows id = some row)
    : wp (setField host .normal id field obj) (fun _ _ => True)
        (fun stop after => ∀ error, stop = .tcl error →
          (∃ error, cellSet creator host field (row.cells field) obj = .error error) ∧ after = table
          ∨ ∃ flagged allocates stored,
              cellSet creator host field (row.cells field) obj = .assign flagged allocates stored
              ∧ storeIndexed host .normal id field flagged allocates stored table =
                  .error (.tcl error) after)
        table := by
  rw [setField, wp_bind, wp_inspectRow found, if_neg notKey]
  cases outcome : cellSet creator host field (row.cells field) obj with
  | error error => exact fun _ _ => .inl ⟨⟨error, rfl⟩, rfl⟩
  | same => trivial
  | nullPointer => exact fun _ same => by cases same
  | assign flagged allocates stored =>
      dsimp only
      have marks : ∀ (middle : CTable creator) (P : TclError → CTable creator → Prop),
          wp (markDirty id field) (fun _ _ => True)
            (fun stop after => ∀ error, stop = .tcl error → P error after) middle := by
        intro middle P
        refine wp_mono (markDirty_succeeds id field middle) (fun _ _ _ => trivial) ?_
        rintro stop after never error rfl
        exact never.elim
      rw [wp_bind, storeCell]
      split
      · refine wp_mono storeUnindexed_succeeds (fun _ middle _ => marks middle _) ?_
        rintro stop after never error rfl
        exact never.elim
      · refine wp_of_results (fun _ middle _ => marks middle _) ?_
        rintro stop after fails error rfl
        exact .inr ⟨flagged, allocates, stored, rfl, fails⟩

/-- Setting the key of a row fails before it has changed anything but the count of allocations. -/
theorem setField_key_fails {obj : Obj} (keyed : table.Keyed) (listed : id ∈ table.llHead)
    : wp (setField host .normal id creator.keyField obj) (fun _ _ => True)
        (stopped (fun after => ∃ allocations, after = { table with allocations := allocations })
          (fun _ => True)) table := by
  rw [setField, wp_bind, wp_inspect]
  refine ⟨fun row _ => ?_, fun _ _ => trivial⟩
  rw [if_pos rfl]
  split
  · trivial
  · rw [wp_bind]
    refine wp_mono (reinsertRow_keyed host keyed listed obj) ?_ (fun _ _ stops => stops)
    rintro - middle -
    rw [setDirty, putCell, wp_bind, wp_inspect]
    exact ⟨fun _ _ => trivial, fun _ _ => trivial⟩

/-- An increment that fails leaves the table as it is, or fails in its store. -/
theorem incrField_fails {row : Row creator} {obj : Obj} (found : table.rows id = some row)
    : wp (incrField host .normal id field obj) (fun _ _ => True)
        (fun stop after => ∀ error, stop = .tcl error →
          (incrValue host (creator.fields field).type = none ∨ host.getInt obj = none)
            ∧ after = table
          ∨ ∃ add amount, incrValue host (creator.fields field).type = some add
              ∧ host.getInt obj = some amount
              ∧ storeIndexed host .normal id field
                  { value := add (row.cells field) amount, isNull := false } false
                  { value := add (row.cells field) amount, isNull := false } table =
                  .error (.tcl error) after)
        table := by
  unfold incrField
  dsimp only
  cases numeric : incrValue host (creator.fields field).type with
  | none => exact fun _ _ => .inl ⟨.inl rfl, rfl⟩
  | some add =>
      cases number : host.getInt obj with
      | none => exact fun _ _ => .inl ⟨.inr rfl, rfl⟩
      | some amount =>
          dsimp only
          rw [wp_bind, wp_inspectRow found]
          refine wp_of_results (fun _ _ _ => trivial) ?_
          rintro stop after run error rfl
          exact .inr ⟨add, amount, rfl, rfl, run⟩

/-- A null setting that fails leaves the table as it is, or fails in its store. -/
theorem setNull_fails {row : Row creator} (found : table.rows id = some row)
    : wp (setNull host id field) (fun _ _ => True)
        (fun stop after => ∀ error, stop = .tcl error →
          (creator.fields field).notnull = true ∧ after = table
          ∨ (creator.fields field).notnull = false ∧ (row.cells field).isNull = false
            ∧ storeIndexed host .normal id field { row.cells field with isNull := true } false
                { row.cells field with isNull := true } table = .error (.tcl error) after)
        table := by
  rw [setNull, wp_bind, wp_inspectRow found]
  dsimp only
  split
  · next notnull => exact fun _ _ => .inl ⟨notnull, rfl⟩
  · next nullable =>
      split
      · trivial
      · next isSet =>
          refine wp_of_results (fun _ _ _ => trivial) ?_
          rintro stop after run error rfl
          exact .inr ⟨by simpa using nullable, by simpa using isSet, run⟩

/-- When a set, an increment or a null setting of a field of an existing row fails with an error,
the field, its null flag and all indexes are as before exactly when it fails quietly.
-/
theorem failedWrite_untouched_iff (host : Host) (table after : CTable creator) (id : RowId)
    (row : Row creator) (write : Write creator) (error : TclError) (keyed : table.Keyed)
    (index : table.SoundIndex write.field) (listed : id ∈ table.llHead)
    (found : table.rows id = some row)
    (fails : write.run host .normal id table = .error (.tcl error) after)
    : table.Untouched write.field id after ↔ write.FailsQuietly host table id row := by
  have old := keyed.bounded id listed
  cases write with
  | set field obj =>
      change table.Untouched field id after ↔ _
      change table.SoundIndex field at index
      change setField host .normal id field obj table = .error (.tcl error) after at fails
      rcases Decidable.em (field = creator.keyField) with rfl | notKey
      · obtain ⟨allocations, rfl⟩ := wp_stops (setField_key_fails keyed listed) fails
        exact iff_of_true ⟨rfl, rfl, fun _ => rfl⟩ (.inl rfl)
      · rcases wp_stops (setField_fails notKey found) fails error rfl with
          ⟨⟨refused, outcome⟩, rfl⟩ | ⟨flagged, allocates, stored, outcome, stops⟩
        · refine iff_of_true (.refl field id after) (.inr fun _ _ _ assigns => ?_)
          cases outcome.symm.trans assigns
        · rw [storeIndexed_untouched_iff index listed old found stops]
          refine ⟨fun quiet => .inr fun _ _ _ assigns => ?_, fun quiet => ?_⟩
          · cases outcome.symm.trans assigns
            exact quiet
          · exact quiet.resolve_left notKey flagged allocates stored outcome
  | incr field obj =>
      change table.Untouched field id after ↔ _
      change table.SoundIndex field at index
      rcases wp_stops (incrField_fails found) fails error rfl with
        ⟨refused, rfl⟩ | ⟨add, amount, numeric, number, stops⟩
      · refine iff_of_true (.refl field id after) fun add amount numeric number => ?_
        rcases refused with absent | absent
        · cases absent.symm.trans numeric
        · cases absent.symm.trans number
      · rw [storeIndexed_untouched_iff index listed old found stops]
        simp [CTable.FailsQuietly, CTable.AllocationFails, Write.FailsQuietly, numeric, number]
  | null field =>
      change table.Untouched field id after ↔ _
      change table.SoundIndex field at index
      rcases wp_stops (setNull_fails found) fails error rfl with
        ⟨notnull, rfl⟩ | ⟨nullable, isSet, stops⟩
      · exact iff_of_true (.refl field id after) notnull
      · rw [storeIndexed_untouched_iff index listed old found stops]
        refine iff_of_false ?_ (by simp [Write.FailsQuietly, nullable])
        rintro ⟨-, -, same⟩
        have flips := congrArg Cell.isNull (same (by simp [CTable.AllocationFails]))
        simp [isSet] at flips

/-- Whether a write is not of the key. -/
def Write.sparesKey {creator : CreatorTable} : Write creator → Bool
  | .set field _ => field != creator.keyField
  | _ => true

/-- A number that cannot be read leaves a row as it is. -/
theorem failedWrite_untouched_iff_badNumber
    : ∃ (table after : CTable sampleCreator) (error : TclError),
        setCommand sampleHost [[97], [115], [120]] (CTable.empty sampleCreator false false) =
            .ok () table
          ∧ (Write.set (1 : Fin 6) [120]).run sampleHost .normal 0 table = .error (.tcl error) after
          ∧ table.Untouched (1 : Fin 6) 0 after := by
  have start := CTable.KeyedRows.empty sampleCreator false false
  have cells : (setCommandCalls sampleHost (CTable.empty sampleCreator false false)
      [[97], [115], [120]]).all (fun call => call.write.sparesKey) = true := by
    decide +kernel
  have kept := (keyUpkeep sampleHost).set (fun call member rekeys => by
    obtain ⟨obj, write, -⟩ := rekeys.rekeys
    have cell := List.all_eq_true.mp cells call member
    rw [write] at cell
    simp [Write.sparesKey] at cell) start
  have outcome : endsWell (fun _ table =>
        table.llHead == [0] && (table.rows 0).isSome && (table.skipLists (1 : Fin 6)).isNone
          && endsInError (fun _ => true)
            ((Write.set (1 : Fin 6) [120]).run sampleHost .normal 0 table))
      (setCommand sampleHost [[97], [115], [120]] (CTable.empty sampleCreator false false))
      = true := by
    decide +kernel
  obtain ⟨value, table, made, outcome⟩ := endsWell_iff.mp outcome
  obtain ⟨keyed, -⟩ := wp_returns kept made
  simp only [Bool.and_eq_true, beq_iff_eq, Option.isNone_iff_eq_none] at outcome
  obtain ⟨⟨⟨listed, alive⟩, bare⟩, fails⟩ := outcome
  obtain ⟨row, found⟩ := Option.isSome_iff_exists.mp alive
  obtain ⟨error, after, run, -⟩ := endsInError_iff.mp fails
  refine ⟨table, after, error, made, run, ?_⟩
  have index : table.SoundIndex (1 : Fin 6) :=
    ⟨fun _ chain => (by cases bare.symm.trans chain),
      fun _ chain => by cases bare.symm.trans chain⟩
  refine (failedWrite_untouched_iff sampleHost table after 0 row (.set (1 : Fin 6) [120])
    error keyed index (by simp [listed]) found run).mpr (.inr ?_)
  intro flagged allocates stored assigns
  have refuses : cellSet sampleCreator sampleHost (1 : Fin 6) (row.cells (1 : Fin 6)) [120] =
      .error (.whileConverting (.badValue .int [120]) [110]) := rfl
  cases refuses.symm.trans assigns

/-- The rows with the numbers 1 and 2, and a unique index on the numbers. -/
def distinctNumbers : CTable sampleCreator :=
  sampleTable
    [setCommand sampleHost [[97], [110], [49]], setCommand sampleHost [[98], [110], [50]],
      createIndex sampleHost (1 : Fin 6) 8]

/-- A number that another row has takes the row out of the index. -/
theorem failedWrite_takenOut
    : ¬ ∀ (write : Write sampleCreator) (error : TclError) (after : CTable sampleCreator),
        write.run sampleHost .normal 1 distinctNumbers = .error (.tcl error) after →
        distinctNumbers.Untouched write.field 1 after := by
  intro untouched
  have outcome : endsInError (fun after =>
        after.indexRows (1 : Fin 6) != distinctNumbers.indexRows (1 : Fin 6))
      ((Write.set (1 : Fin 6) [49]).run sampleHost .normal 1 distinctNumbers) = true := by
    decide +kernel
  obtain ⟨error, after, run, apart⟩ := endsInError_iff.mp outcome
  have same := (untouched _ error after run).indexes (1 : Fin 6)
  simp [same] at apart

end SpeedTables
