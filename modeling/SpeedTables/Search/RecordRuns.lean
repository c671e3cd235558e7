import SpeedTables.Search.KeyRuns
import SpeedTables.Table.Records

/-! A table is a map from keys to data: what commands make of the map, without rows, hash chains and
indexes, and that the table follows it.
-/

namespace SpeedTables

open Lib

variable {creator : CreatorTable} {host : Host}

-----------------------------------------------------------------------------------------
-- Stores
-----------------------------------------------------------------------------------------

/-- What a table is for: data under keys, and the number of the next automatic key. -/
structure Store (creator : CreatorTable) where
  data : CString → Option creator.Data
  autoRowNumber : Nat

namespace Store

def empty (creator : CreatorTable) : Store creator where
  data := fun _ => none
  autoRowNumber := 0

/-- Take the data of a key out, make the writes, and put it back under the key that it has then,
which is not that of other data.
-/
def write (host : Host) (store : Store creator) (key : CString) (data : creator.Data)
    (writes : Option (List (Write creator))) : Option (Store creator) :=
  match writes.bind (fun made =>
      ({ key := key, data := data } : Record creator).writes host made) with
  | none => none
  | some record =>
      if record.key ≠ key ∧ (store.data record.key).isSome then none
      else
        some { store with
          data := Function.update (Function.update store.data key none) record.key
            (some record.data) }

/-- Make writes under a key, which may be new. -/
def create (host : Host) (store : Store creator) (key : CString)
    (writes : Option (List (Write creator))) : Option (Store creator) :=
  store.write host key ((store.data key).getD creator.init.data) writes

/-- Count an automatic key. -/
def count (store : Store creator) : Store creator :=
  { store with autoRowNumber := (store.autoRowNumber + 1) % 2 ^ 32 }

/-- What a command makes of a store, unless it fails. -/
def perform (host : Host) (store : Store creator) : Command creator → Option (Store creator)
  | .set (key :: arguments) =>
      match takeOptions false arguments with
      | .error _ => none
      | .ok (nocomplain, arguments) =>
          match evenKeyValueList host arguments with
          | .error _ => none
          | .ok elements => store.create host key (pairWrites creator nocomplain elements)
  | .store arguments =>
      match storeArguments host arguments with
      | .error _ => none
      | .ok (nocomplain, elements) =>
          match keyFromKeylist creator elements with
          | some key => store.create host key (pairWrites creator nocomplain elements)
          | none =>
              store.count.create host (decimal store.autoRowNumber)
                (pairWrites creator nocomplain elements)
  | .incr arguments =>
      match incrArguments arguments with
      | .error _ => none
      | .ok (key, arguments) =>
          match evenKeyValueList host arguments with
          | .error _ => none
          | .ok elements => store.create host key (incrWrites creator elements)
  | .null (key :: fieldObjs) =>
      match store.data key with
      | none => none
      | some data => store.write host key data (nullWrites creator fieldObjs)
  | .readTabsep options line =>
      let writes := columnWrites options options.fieldIds 0 (some line)
      match options.keyColumn with
      | none => store.count.create host (decimalSigned store.autoRowNumber) writes
      | some column =>
          match tabsepKey options column line with
          | .error _ => none
          | .ok key => store.create host key writes
  | .delete [key] => some { store with data := Function.update store.data key none }
  | .reset => some (empty creator)
  | .set [] | .null [] | .delete _ | .destroy | .commandDeleted => none
  | .indexCreate _ | .indexDrop _ | .indexList _ | .indexSpan _ | .cursorDestroy _
  | .cursorsDestroy => some store

end Store

-----------------------------------------------------------------------------------------
-- The store of a table
-----------------------------------------------------------------------------------------

/-- The data that a lookup of a key leads to. -/
def CTable.record (table : CTable creator) (key : CString) : Option creator.Data :=
  match table.findHashEntry key with
  | .ok (some id) => some (table.rowAt id).data
  | _ => none

def CTable.store (table : CTable creator) : Store creator where
  data := table.record
  autoRowNumber := table.autoRowNumber

section Contents

variable {table middle after : CTable creator} {key : CString} {id : RowId}

/-- The data under a key is that of the row with the key. -/
theorem CTable.Keyed.record_iff (keyed : table.Keyed) {data : creator.Data}
    : table.record key = some data
      ↔ ∃ id ∈ table.llHead, (table.rowAt id).key = some key ∧ (table.rowAt id).data = data := by
  obtain ⟨found, looked, isFound⟩ := keyed.findHashEntry_eq key
  rw [CTable.record, looked]
  constructor
  · intro has
    cases found with
    | none => cases has
    | some id =>
        obtain ⟨listed, hasKey⟩ := (isFound id).mp rfl
        exact ⟨id, listed, hasKey, Option.some.inj has⟩
  · rintro ⟨id, listed, hasKey, rfl⟩
    rw [(isFound id).mpr ⟨listed, hasKey⟩]

/-- No row, no data. -/
theorem CTable.Keyed.record_none (keyed : table.Keyed)
    (absent : ∀ id ∈ table.llHead, (table.rowAt id).key ≠ some key)
    : table.record key = none := by
  refine Option.eq_none_iff_forall_ne_some.mpr fun data has => ?_
  obtain ⟨id, listed, hasKey, -⟩ := keyed.record_iff.mp has
  exact absent id listed hasKey

/-- The data is as before when the rows are. -/
theorem CTable.Keyed.record_congr (keyed : table.Keyed) (keyed' : after.Keyed)
    (llHead : after.llHead = table.llHead) (rows : after.rows = table.rows)
    : after.record = table.record := by
  funext key
  refine Option.ext fun data => ?_
  rw [keyed.record_iff, keyed'.record_iff, llHead]
  simp only [CTable.rowAt, rows]

theorem CTable.Keyed.store_congr (keyed : table.Keyed) (keyed' : after.Keyed)
    (llHead : after.llHead = table.llHead) (rows : after.rows = table.rows)
    (autoRowNumber : after.autoRowNumber = table.autoRowNumber)
    : after.store = table.store := by
  rw [CTable.store, CTable.store, keyed.record_congr keyed' llHead rows, autoRowNumber]

/-- The row at an address is the one for a key, which it may have been created for: it shows the
data that there was, or that of new rows, and no other row has changed.
-/
structure CTable.Opens (table : CTable creator) (key : CString) (id : RowId) (data : creator.Data)
    (middle : CTable creator) : Prop where
  listed : ∀ other, other ∈ middle.llHead ↔ other = id ∨ other ∈ table.llHead
  rows : ∀ other, other ≠ id → middle.rows other = table.rows other
  own : ∀ other ∈ table.llHead, (table.rowAt other).key = some key ↔ other = id
  autoRowNumber : middle.autoRowNumber = table.autoRowNumber
  shows' : middle.Shows id { key := key, data := data }

/-- The data after the row for a key has been written: that of the key is gone, and what has been
made of it is under the key of the row.
-/
theorem CTable.Opens.record_written {data : creator.Data} {record : Record creator}
    (opens : table.Opens key id data middle) (keyed : table.Keyed) (keyed' : after.Keyed)
    (frame : middle.RowFrame id after) (written : after.Shows id record)
    : after.record
      = Function.update (Function.update table.record key none) record.key (some record.data) := by
  obtain ⟨row, found, hasKey, hasData⟩ := written
  have here : after.rowAt id = row := by simp [CTable.rowAt, found]
  have listed (other : RowId) : other ∈ after.llHead ↔ other = id ∨ other ∈ table.llHead := by
    rw [frame.llHead]
    exact opens.listed other
  have others (other : RowId) (apart : other ≠ id) : after.rowAt other = table.rowAt other := by
    rw [CTable.rowAt, CTable.rowAt, frame.rows other apart, opens.rows other apart]
  funext asked
  by_cases atRecord : asked = record.key
  · subst atRecord
    rw [Function.update_self, keyed'.record_iff]
    exact ⟨id, (listed id).mpr (.inl rfl), by rw [here, hasKey], by rw [here, hasData]⟩
  · rw [Function.update_of_ne atRecord]
    have notHere : (after.rowAt id).key ≠ some asked := by
      rw [here, hasKey]
      exact fun same => atRecord (Option.some.inj same).symm
    by_cases atKey : asked = key
    · subst atKey
      rw [Function.update_self]
      refine keyed'.record_none fun other inside isKey => ?_
      have apart : other ≠ id := fun same => notHere (same ▸ isKey)
      rw [others other apart] at isKey
      have old := ((listed other).mp inside).resolve_left apart
      exact apart ((opens.own other old).mp isKey)
    · rw [Function.update_of_ne atKey]
      refine Option.ext fun data => ?_
      rw [keyed'.record_iff, keyed.record_iff]
      constructor
      · rintro ⟨other, inside, isKey, isData⟩
        have apart : other ≠ id := fun same => notHere (same ▸ isKey)
        rw [others other apart] at isKey isData
        exact ⟨other, ((listed other).mp inside).resolve_left apart, isKey, isData⟩
      · rintro ⟨other, inside, isKey, isData⟩
        have apart : other ≠ id := by
          intro same
          have own := (opens.own other inside).mpr same
          exact atKey (Option.some.inj (isKey.symm.trans own))
        refine ⟨other, (listed other).mpr (.inr inside), ?_⟩
        rw [others other apart]
        exact ⟨isKey, isData⟩

/-- What the setters make of the row for a key is what the store makes of it. -/
theorem CTable.Opens.store_written {data : creator.Data} {writes : Option (List (Write creator))}
    (opens : table.Opens key id data middle) (keyed : table.Keyed) (keyed' : after.Keyed)
    (frame : middle.RowFrame id after)
    (written : after.Written host id { key := key, data := data } writes)
    : table.store.write host key data writes = some after.store := by
  obtain ⟨made, record, rfl, runs, shows'⟩ := written
  have free : ¬ (record.key ≠ key ∧ (table.record record.key).isSome = true) := by
    rintro ⟨moved, taken⟩
    obtain ⟨data, has⟩ := Option.isSome_iff_exists.mp taken
    obtain ⟨other, inside, isKey, -⟩ := keyed.record_iff.mp has
    obtain ⟨row, found, hasKey, -⟩ := shows'
    have apart : other ≠ id := by
      intro same
      have own := (opens.own other inside).mpr same
      exact moved (Option.some.inj (isKey.symm.trans own))
    have kept : after.rowAt other = table.rowAt other := by
      rw [CTable.rowAt, CTable.rowAt, frame.rows other apart, opens.rows other apart]
    have listed (one : RowId) : one ∈ after.llHead ↔ one = id ∨ one ∈ table.llHead := by
      rw [frame.llHead]
      exact opens.listed one
    refine apart (keyed'.distinct other ((listed other).mpr (.inr inside)) id
      ((listed id).mpr (.inl rfl)) ?_)
    rw [kept, isKey, CTable.rowAt, found]
    exact hasKey.symm
  rw [Store.write, Option.bind_some, runs]
  dsimp only
  rw [CTable.store, if_neg free]
  refine congrArg some ?_
  rw [CTable.store, opens.record_written keyed keyed' frame shows', frame.autoRowNumber,
    opens.autoRowNumber]

/-- `find_or_create` leads to the row for the key. -/
theorem CTable.FoundOrCreated.opens {row : RowId × IndexCtl} (keyed : table.Keyed)
    (outcome : table.FoundOrCreated key row middle)
    : table.Opens key row.1 ((table.record key).getD creator.init.data) middle := by
  cases outcome with
  | @found id allocations lookup =>
      obtain ⟨found, looked, isFound⟩ := keyed.findHashEntry_eq key
      cases lookup.symm.trans looked
      obtain ⟨listed, hasKey⟩ := (isFound id).mp rfl
      have data : table.record key = some (table.rowAt id).data :=
        keyed.record_iff.mpr ⟨id, listed, hasKey, rfl⟩
      refine ⟨fun other => ⟨.inr, ?_⟩, fun _ _ => rfl, fun other inside => ?_, rfl, ?_⟩
      · rintro (rfl | inside)
        · exact listed
        · exact inside
      · constructor
        · intro isKey
          exact (Option.some.inj ((isFound other).mpr ⟨inside, isKey⟩)).symm
        · rintro rfl
          exact hasKey
      · exact ⟨table.rowAt id, (keyed.read listed).1, hasKey, by rw [data]; rfl⟩
  | @created keyTable allocations lookup linked =>
      obtain ⟨found, looked, isFound⟩ := keyed.findHashEntry_eq key
      cases lookup.symm.trans looked
      have absent : ∀ other ∈ table.llHead, (table.rowAt other).key ≠ some key := by
        intro other inside isKey
        cases (isFound other).mpr ⟨inside, isKey⟩
      have new : table.nextRow ∉ table.llHead := fun inside =>
        Nat.lt_irrefl _ (keyed.bounded _ inside)
      refine ⟨fun other => List.mem_cons, fun other apart => ?_, fun other inside => ?_, rfl, ?_⟩
      · simp [CTable.withRow, CTable.putRow, apart]
      · constructor
        · exact fun isKey => absurd isKey (absent other inside)
        · rintro rfl
          exact absurd inside new
      · refine ⟨{ creator.init with key := some key }, by simp [CTable.withRow, CTable.putRow],
          rfl, ?_⟩
        rw [keyed.record_none absent]
        rfl

end Contents

-----------------------------------------------------------------------------------------
-- Computations on one row
-----------------------------------------------------------------------------------------

/-- A computation makes some writes to a row, and changes no other. -/
structure MakesWrites {α : Type} (host : Host) (id : RowId)
    (writes : Option (List (Write creator))) (action : TableM creator α) : Prop where
  framed : Respects (CTable.RowFrame id) action
  written : ∀ table record, table.Shows id record →
    wp action (fun _ => CTable.Written host id record writes) (fun _ _ => True) table

section Writing

variable {α β : Type} {id : RowId} {ctl : IndexCtl} {writes : Option (List (Write creator))}
  {elements : List Obj}

theorem MakesWrites.pure (value : α)
    : MakesWrites host id (some []) (Pure.pure value : TableM creator α) :=
  ⟨Respects.pure, fun _ _ shows' => shows'.written⟩

/-- What follows makes no more writes. -/
theorem MakesWrites.bind {first : TableM creator α} {next : α → TableM creator β}
    (makes : MakesWrites host id writes first)
    (quiet : ∀ value, MakesWrites host id (some []) (next value))
    : MakesWrites host id writes (first >>= next) where
  framed := makes.framed.bind fun value => (quiet value).framed
  written := by
    intro table record shows'
    rw [wp_bind]
    refine wp_mono (makes.written table record shows') ?_ fun _ _ _ => trivial
    rintro value middle ⟨made, next, isMade, runs, here⟩
    refine wp_mono ((quiet value).written middle next here) ?_ fun _ _ _ => trivial
    rintro _ after ⟨none, same, isNone, stays, behind⟩
    cases isNone
    cases stays
    exact ⟨made, next, isMade, runs, behind⟩

/-- The arguments are checked first. -/
theorem MakesWrites.checked {checked : Except TclError (List Obj)}
    {action : List Obj → TableM creator α}
    (makes : ∀ elements, checked = .ok elements → MakesWrites host id writes (action elements))
    : MakesWrites host id writes (do
        let elements ← orFail checked
        action elements) := by
  cases checked with
  | ok elements => exact makes elements rfl
  | error error => exact ⟨Respects.throw, fun _ _ _ => trivial⟩

theorem finishRow_makes
    : MakesWrites host id (some []) (finishRow host ctl id : TableM creator Unit) :=
  ⟨(writeSteps_rowFrame host id).finishRow ctl, fun _ _ shows' => finishRow_written shows'.written⟩

theorem markRead_makes (options : TabsepOptions creator)
    : MakesWrites host id (some []) (markRead options id) := by
  refine ⟨(writeSteps_rowFrame host id).markRead options, fun table record shows' => ?_⟩
  rw [markRead]
  split
  · exact wp_mono (setDirty_shows shows') (fun _ _ after => after.written) fun _ _ _ => trivial
  · exact shows'.written

theorem setPairs_makesWrites (nocomplain : Bool)
    : MakesWrites host id (pairWrites creator nocomplain elements)
        (setPairs host ctl id nocomplain elements) :=
  ⟨(writeSteps_rowFrame host id).setPairs ctl nocomplain elements,
    fun _ _ shows' => setPairs_written nocomplain elements shows'⟩

theorem incrPairs_makesWrites
    : MakesWrites host id (incrWrites creator elements) (incrPairs host ctl id elements) :=
  ⟨(writeSteps_rowFrame host id).incrPairs ctl elements,
    fun _ _ shows' => incrPairs_written elements shows'⟩

theorem nullFields_makesWrites
    : MakesWrites host id (nullWrites creator elements) (nullFields host id elements) :=
  ⟨(writeSteps_rowFrame host id).nullFields elements,
    fun _ _ shows' => nullFields_written elements shows'⟩

theorem setColumns_makesWrites (options : TabsepOptions creator)
    (fields : List (Option creator.Field)) (column : Nat) (line : Option CString)
    : MakesWrites host id (columnWrites options fields column line)
        (setColumns host options ctl id fields column line) :=
  ⟨(writeSteps_rowFrame host id).setColumns options ctl fields column line,
    fun _ _ shows' => setColumns_written options fields column line shows'⟩

end Writing

-----------------------------------------------------------------------------------------
-- Commands
-----------------------------------------------------------------------------------------

/-- A table whose keys agree has the store that is expected. -/
def Expected (expected : Option (Store creator)) (after : CTable creator) : Prop :=
  after.Keyed → expected = some after.store

section Refinement

variable {table : CTable creator} {key : CString} {writes : Option (List (Write creator))}

/-- Writing the row for a key does what the store does. -/
theorem createRow_refines {α : Type} {find : TableM creator (RowId × IndexCtl)}
    {action : RowId × IndexCtl → TableM creator α} (keyed : table.Keyed)
    (found : wp find (table.FoundOrCreated key) (fun _ _ => True) table)
    (makes : ∀ row, MakesWrites host row.1 writes (action row))
    : wp (find >>= action) (fun _ => Expected (table.store.create host key writes))
        (fun _ _ => True) table := by
  rw [wp_bind]
  refine wp_mono found ?_ fun _ _ _ => trivial
  intro row middle outcome
  have opens := outcome.opens keyed
  refine wp_mono (wp_and ((makes row).written _ _ opens.shows') ((makes row).framed middle)) ?_
    fun _ _ _ => trivial
  rintro _ after ⟨written, frame⟩ keyed'
  exact opens.store_written keyed keyed' frame written

theorem findOrCreate_finds
    : wp (findOrCreate host key) (table.FoundOrCreated key) (fun _ _ => True) table :=
  wp_mono (findOrCreate_spec host key table) (fun _ _ found => found) fun _ _ _ => trivial

theorem findOrCreateRow_finds
    : wp (findOrCreateRow host key) (table.FoundOrCreated key) (fun _ _ => True) table :=
  wp_rethrown findOrCreate_finds

/-- A counted key changes the number only. -/
theorem CTable.Keyed.store_counted (keyed : table.Keyed)
    : CTable.store { table with autoRowNumber := (table.autoRowNumber + 1) % 2 ^ 32 }
      = table.store.count := by
  have same := @CTable.Keyed.record_congr creator table
    { table with autoRowNumber := (table.autoRowNumber + 1) % 2 ^ 32 } keyed { keyed with } rfl rfl
  rw [CTable.store, same]
  rfl

/-- Arguments that are in order. -/
theorem wp_orFail {α : Type} {checked : Except TclError α} {ok : α → CTable creator → Prop}
    : wp (orFail checked) ok (fun _ _ => True) table
      ↔ ∀ value, checked = .ok value → ok value table := by
  cases checked with
  | ok value => exact ⟨fun here _ same => Except.ok.inj same ▸ here, fun here => here value rfl⟩
  | error error => exact ⟨fun _ _ same => (by cases same), fun _ => trivial⟩

theorem setCommand_refines (keyed : table.Keyed) (arguments : List Obj)
    : wp (setCommand host arguments)
        (fun _ => Expected (table.store.perform host (.set arguments))) (fun _ _ => True)
        table := by
  cases arguments with
  | nil => trivial
  | cons key arguments =>
      rw [setCommand, Store.perform, wp_bind, wp_orFail]
      rintro ⟨nocomplain, rest⟩ taken
      rw [taken]
      dsimp only
      cases checked : evenKeyValueList host rest with
      | error error =>
          refine @createRow_refines creator host table key none _ _ _ keyed
            findOrCreateRow_finds fun row => MakesWrites.checked fun _ same => ?_
          cases same
      | ok elements =>
          refine createRow_refines keyed findOrCreateRow_finds fun row => ?_
          exact (setPairs_makesWrites nocomplain).bind fun _ => finishRow_makes

theorem storeCommand_refines (keyed : table.Keyed) (arguments : List Obj)
    : wp (storeCommand host arguments)
        (fun _ => Expected (table.store.perform host (.store arguments))) (fun _ _ => True)
        table := by
  rw [storeCommand, Store.perform, wp_bind, wp_orFail]
  rintro ⟨nocomplain, elements⟩ taken
  rw [taken, wp_bind, storeKey]
  have makes (key : CString) (row : RowId × IndexCtl)
      : MakesWrites host row.1 (pairWrites creator nocomplain elements) (do
          setPairs host row.2 row.1 nocomplain elements
          finishRow host row.2 row.1
          pure key) :=
    (setPairs_makesWrites nocomplain).bind fun _ =>
      finishRow_makes.bind fun _ => MakesWrites.pure key
  dsimp only
  cases keyFromKeylist creator elements with
  | some key => exact createRow_refines keyed findOrCreateRow_finds (makes key)
  | none =>
      rw [nextAutoKey, wp_bind, wp_get, wp_bind, wp_set, wp_pure]
      have counted : CTable.Keyed
          { table with autoRowNumber := (table.autoRowNumber + 1) % 2 ^ 32 } :=
        { keyed with }
      have written := createRow_refines counted
        (@findOrCreateRow_finds creator host _ (decimal table.autoRowNumber))
        (makes (decimal table.autoRowNumber))
      rw [keyed.store_counted] at written
      exact written

theorem incrCommand_refines (keyed : table.Keyed) (arguments : List Obj)
    : wp (incrCommand host arguments)
        (fun _ => Expected (table.store.perform host (.incr arguments))) (fun _ _ => True)
        table := by
  rw [incrCommand, Store.perform, wp_bind, wp_orFail]
  rintro ⟨key, rest⟩ taken
  rw [taken]
  dsimp only
  cases checked : evenKeyValueList host rest with
  | error error =>
      refine @createRow_refines creator host table key none _ _ _ keyed
        findOrCreateRow_finds fun row => MakesWrites.checked fun _ same => ?_
      cases same
  | ok elements =>
      refine createRow_refines keyed findOrCreateRow_finds fun row => ?_
      exact incrPairs_makesWrites.bind fun values =>
        finishRow_makes.bind fun _ => MakesWrites.pure values

theorem setFromTabsep_refines (keyed : table.Keyed) (options : TabsepOptions creator)
    (line : CString)
    : wp (setFromTabsep host options line)
        (fun _ => Expected (table.store.perform host (.readTabsep options line)))
        (fun _ _ => True) table := by
  rw [setFromTabsep, Store.perform, wp_bind, lineKey]
  have makes (row : RowId × IndexCtl)
      : MakesWrites host row.1 (columnWrites options options.fieldIds 0 (some line)) (do
          setColumns host options row.2 row.1 options.fieldIds 0 (some line)
          markRead options row.1
          finishRow host row.2 row.1) :=
    (setColumns_makesWrites options _ _ _).bind fun _ =>
      (markRead_makes options).bind fun _ => finishRow_makes
  cases options.keyColumn with
  | none =>
      rw [nextAutoKey, wp_bind, wp_get, wp_bind, wp_set, wp_pure]
      have counted : CTable.Keyed
          { table with autoRowNumber := (table.autoRowNumber + 1) % 2 ^ 32 } :=
        { keyed with }
      have written := createRow_refines counted
        (@findOrCreate_finds creator host _ (decimalSigned table.autoRowNumber)) makes
      rw [keyed.store_counted] at written
      exact written
  | some column =>
      rw [wp_inspect]
      refine ⟨fun key isKey => ?_, fun _ _ => trivial⟩
      dsimp only
      rw [isKey]
      exact createRow_refines keyed findOrCreate_finds makes

/-- The row that is found under a key is the one for it. -/
theorem CTable.Keyed.opens (keyed : table.Keyed) {id : RowId}
    (lookup : table.findHashEntry key = .ok (some id))
    : ∃ data, table.record key = some data ∧ table.Opens key id data table := by
  have opens := CTable.FoundOrCreated.opens keyed
    (@CTable.FoundOrCreated.found creator table key id table.allocations lookup)
  obtain ⟨found, looked, isFound⟩ := keyed.findHashEntry_eq key
  cases lookup.symm.trans looked
  obtain ⟨listed, hasKey⟩ := (isFound id).mp rfl
  have data : table.record key = some (table.rowAt id).data :=
    keyed.record_iff.mpr ⟨id, listed, hasKey, rfl⟩
  rw [data] at opens
  exact ⟨_, data, opens⟩

theorem nullCommand_refines (keyed : table.Keyed) (arguments : List Obj)
    : wp (nullCommand host arguments)
        (fun _ => Expected (table.store.perform host (.null arguments))) (fun _ _ => True)
        table := by
  cases arguments with
  | nil => trivial
  | cons key fieldObjs =>
      rw [nullCommand, Store.perform, wp_bind, wp_inspect]
      refine ⟨fun entry lookup => ?_, fun _ _ => trivial⟩
      cases entry with
      | none => trivial
      | some id =>
          obtain ⟨data, has, opens⟩ := keyed.opens lookup
          have stored : table.store.data key = some data := has
          rw [stored]
          have makes := @nullFields_makesWrites creator host id fieldObjs
          refine wp_mono (wp_and (makes.written _ _ opens.shows') (makes.framed table)) ?_
            fun _ _ _ => trivial
          rintro _ after ⟨written, frame⟩ keyed'
          exact opens.store_written keyed keyed' frame written

/-- Deleting a row takes it off the list, frees it, and changes no other. -/
theorem discardRow_leaves {id : RowId}
    : wp (discardRow id)
        (fun _ after => id ∈ table.llHead ∧ after.llHead = table.llHead.erase id
          ∧ (∀ other, other ≠ id → after.rows other = table.rows other)
          ∧ after.autoRowNumber = table.autoRowNumber)
        (stopped (fun _ => True) (fun _ => True)) table := by
  refine discardRow_spec (fun _ _ => trivial) ?_
  have framed : Respects (@CTable.RowFrame creator id) (leaveIndexes id) :=
    Respects.forM fun field _ =>
      (respects_removeFromIndex field id).mono fun frame => (frame.cellFrame id).toRowFrame
  have faults : wp (leaveIndexes id) (fun _ _ => True)
      (stopped (fun _ => False) (fun _ => True)) table := by
    refine @wp_forM Stop (CTable creator) _ (fun field => removeFromIndex field id) _
      (fun _ => True) _ _ (fun field _ state _ => ?_) trivial
    rw [removeFromIndex, wp_bind, wp_inspect]
    exact ⟨fun _ _ => trivial, fun _ _ => trivial⟩
  refine wp_mono (wp_and (framed table) faults) ?_ fun _ _ both => both.2
  rintro _ left ⟨frame, -⟩ keyTable - listed sameList
  refine ⟨listed, by simp [CTable.discarded, sameList], fun other apart => ?_, frame.autoRowNumber⟩
  rw [← frame.rows other apart]
  simp [CTable.discarded, CTable.freeRow, apart]

theorem deleteCommand_refines (keyed : table.Keyed) (arguments : List Obj)
    : wp (deleteCommand arguments)
        (fun _ => Expected (table.store.perform host (.delete arguments)))
        (stopped (fun _ => True) (fun _ => True)) table := by
  unfold deleteCommand
  rw [wp_bind, wp_get]
  split
  · trivial
  · split
    · trivial
    · rcases arguments with _ | ⟨key, _ | ⟨other, more⟩⟩
      · trivial
      · rw [wp_bind, wp_inspect]
        refine ⟨fun entry lookup => ?_, fun _ _ => trivial⟩
        cases entry with
        | none =>
            intro keyed'
            have absent : table.record key = none := by rw [CTable.record, lookup]
            have same : Function.update table.record key none = table.record := by
              rw [← absent, Function.update_eq_self]
            rw [Store.perform, CTable.store, same]
        | some id =>
            rw [wp_bind]
            refine wp_mono discardRow_leaves ?_ fun _ _ stops => stops
            rintro _ after ⟨listed, shorter, others, counter⟩ keyed'
            obtain ⟨data, -, opens⟩ := keyed.opens lookup
            have inside (one : RowId) : one ∈ after.llHead ↔ one ∈ table.llHead ∧ one ≠ id := by
              rw [shorter, keyed.nodup.mem_erase_iff]
              exact and_comm
            have kept (one : RowId) (apart : one ≠ id) : after.rowAt one = table.rowAt one := by
              rw [CTable.rowAt, CTable.rowAt, others one apart]
            rw [Store.perform, CTable.store, CTable.store, counter]
            refine congrArg some
              (congrArg (Store.mk · table.autoRowNumber) (funext fun asked => ?_))
            by_cases atKey : asked = key
            · subst atKey
              rw [Function.update_self, keyed'.record_none]
              intro one member isKey
              obtain ⟨old, apart⟩ := (inside one).mp member
              rw [kept one apart] at isKey
              exact apart ((opens.own one old).mp isKey)
            · rw [Function.update_of_ne atKey]
              refine Option.ext fun data => ?_
              rw [keyed.record_iff, keyed'.record_iff]
              constructor
              · rintro ⟨one, old, isKey, isData⟩
                have apart : one ≠ id := fun same =>
                  atKey (Option.some.inj (isKey.symm.trans ((opens.own one old).mpr same)))
                refine ⟨one, (inside one).mpr ⟨old, apart⟩, ?_⟩
                rw [kept one apart]
                exact ⟨isKey, isData⟩
              · rintro ⟨one, member, isKey, isData⟩
                obtain ⟨old, apart⟩ := (inside one).mp member
                rw [kept one apart] at isKey isData
                exact ⟨one, old, isKey, isData⟩
      · trivial

/-- An empty list of rows is an empty store. -/
theorem resetCommand_refines
    : wp (resetCommand : TableM creator Unit)
        (fun _ => Expected (table.store.perform host .reset))
        (stopped (fun _ => True) (fun _ => True)) table := by
  rw [resetCommand, wp_bind]
  have counter : wp deleteAllRows (fun _ after => after.autoRowNumber = 0)
      (stopped (fun _ => True) (fun _ => True)) table := rfl
  have list : wp deleteAllRows (fun _ after => after.llHead = [])
      (stopped (fun _ => True) (fun _ => True)) table :=
    deleteAllRows_spec fun _ emptied _ => emptied.llHead
  refine wp_mono (wp_and list counter) ?_ fun _ _ both => both.2
  rintro _ after ⟨emptied, zero⟩ keyed'
  have none : CTable.record { after with keyTable := after.keyTable.init } = fun _ => none := by
    funext key
    refine keyed'.record_none fun id listed => ?_
    rw [emptied] at listed
    cases listed
  rw [Store.perform, CTable.store, none]
  exact congrArg (fun number => some (Store.mk (fun _ => Option.none) number)) zero.symm

/-- The rows and the counter are as they were. -/
structure CTable.SameRecords (before after : CTable creator) : Prop where
  rows : after.rows = before.rows
  llHead : after.llHead = before.llHead
  autoRowNumber : after.autoRowNumber = before.autoRowNumber

/-- A computation that leaves the rows alone leaves the store. -/
theorem CTable.Keyed.unchanged {α : Type} {action : TableM creator α} (keyed : table.Keyed)
    (same : wp action (fun _ => table.SameRecords) (stopped (fun _ => True) (fun _ => True)) table)
    : wp action (fun _ => Expected (some table.store)) (stopped (fun _ => True) (fun _ => True))
        table := by
  refine wp_mono same ?_ fun _ _ stops => stops
  intro _ after kept keyed'
  rw [keyed.store_congr keyed' kept.llHead kept.rows kept.autoRowNumber]

theorem CTable.SameRecords.rowAt {after : CTable creator} (same : table.SameRecords after)
    (id : RowId) : after.rowAt id = table.rowAt id := by
  rw [CTable.rowAt, CTable.rowAt, same.rows]

theorem CTable.dropIndex_sameRecords (table : CTable creator) (field : creator.Field)
    : table.SameRecords (table.dropIndex field) := by
  have dropped := (table.dropIndex_dropped field).sameKeys
  refine ⟨dropped.rows, dropped.llHead, ?_⟩
  unfold CTable.dropIndex
  split <;> rfl

theorem sameRecords_setCurl (field : creator.Field) (curl : Option NodeId)
    : table.SameRecords (table.setCurl field curl) := by
  unfold CTable.setCurl
  split <;> exact ⟨rfl, rfl, rfl⟩

/-- Walks move positions only. -/
theorem sameRecords_walk (host : Host)
    : WalkInvariant (fun after : CTable creator => after.KeyedRows ∧ table.SameRecords after) where
  leads := fun _ here => here.1.2
  move := by
    rintro after field skip part ⟨keyed, same⟩ chain within
    have moved := @sameRecords_setCurl creator after field (part.head?.map Node.id)
    exact ⟨(keyInvariant host).move after field skip part keyed chain within,
      moved.rows.trans same.rows, moved.llHead.trans same.llHead,
      moved.autoRowNumber.trans same.autoRowNumber⟩

theorem createIndex_sameRecords (field : creator.Field) (depth : Int)
    : wp (createIndex host field depth) (fun _ => table.SameRecords)
        (stopped (fun _ => True) (fun _ => True)) table := by
  refine wp_mono (wp_and (createIndex_keys field depth table)
    (respects_createIndex_grown field depth table)) ?_ fun stop after _ => stopped_any stop after
  exact fun _ after both => ⟨both.1.rows, both.1.llHead, both.2.autoRowNumber⟩

theorem CTable.memoryTested_sameRecords (table : CTable creator)
    : table.SameRecords table.memoryTested := by
  unfold CTable.memoryTested
  split <;> exact ⟨rfl, rfl, rfl⟩

theorem CTable.Keyed.memoryTested (keyed : table.Keyed)
    : table.memoryTested.Keyed ∧ table.memoryTested.store = table.store := by
  have tested : table.memoryTested.Keyed := by
    unfold CTable.memoryTested
    split
    · exact { keyed with }
    · exact keyed
  have same := table.memoryTested_sameRecords
  exact ⟨tested, keyed.store_congr tested same.llHead same.rows same.autoRowNumber⟩

/-- A command that returns in a living table whose keys agree does what the store does. -/
theorem Command.run_refines (here : table.KeyedRows) (command : Command creator)
    : wp (command.run host)
        (fun _ after => after.destroyed = false → Expected (table.store.perform host command) after)
        (stopped (fun _ => True) (fun _ => True)) table := by
  have keyed := here.1
  obtain ⟨tested, sameStore⟩ := keyed.memoryTested
  have loose {α : Type} {action : TableM creator α} {start : CTable creator}
      {expected : Option (Store creator)}
      (does : wp action (fun _ => Expected expected) (fun _ _ => True) start)
      : wp action (fun _ after => after.destroyed = false → Expected expected after)
          (stopped (fun _ => True) (fun _ => True)) start :=
    wp_mono does (fun _ _ expects _ => expects) fun stop after _ => stopped_any stop after
  have same {action : TableM creator Unit} {start : CTable creator} (keyed : start.Keyed)
      (stays : wp action (fun _ => start.SameRecords) (stopped (fun _ => True) (fun _ => True))
        start)
      : wp action
          (fun _ after => after.destroyed = false → Expected (some start.store) after)
          (stopped (fun _ => True) (fun _ => True)) start :=
    wp_mono (keyed.unchanged stays) (fun _ _ expects _ => expects) fun _ _ stops => stops
  have destroyed : wp (destroyCtable : TableM creator Unit)
      (fun _ after => after.destroyed = false → Expected none after)
      (stopped (fun _ => True) (fun _ => True)) table := by
    rw [destroyCtable, wp_bind]
    exact deleteAllRows_spec fun after _ _ living => absurd living (by simp)
  cases command with
  | set arguments =>
      refine wp_refuseCursors trivial (wp_checkMemory trivial ?_)
      rw [← sameStore]
      exact loose (setCommand_refines tested arguments)
  | store arguments =>
      refine wp_refuseCursors trivial (wp_checkMemory trivial (wp_discard ?_))
      rw [← sameStore]
      exact loose (storeCommand_refines tested arguments)
  | incr arguments =>
      refine wp_refuseCursors trivial (wp_checkMemory trivial (wp_discard ?_))
      rw [← sameStore]
      exact loose (incrCommand_refines tested arguments)
  | null arguments =>
      exact wp_refuseCursors trivial (loose (nullCommand_refines keyed arguments))
  | readTabsep options line =>
      exact wp_refuseCursors trivial (loose (setFromTabsep_refines keyed options line))
  | delete arguments =>
      refine wp_refuseCursors trivial (wp_discard ?_)
      exact wp_mono (deleteCommand_refines keyed arguments) (fun _ _ expects _ => expects)
        fun _ _ stops => stops
  | reset =>
      refine wp_refuseCursors trivial ?_
      exact wp_mono resetCommand_refines (fun _ _ expects _ => expects) fun _ _ stops => stops
  | destroy => exact wp_refuseCursors trivial destroyed
  | indexCreate arguments =>
      refine wp_refuseCursors trivial (wp_checkMemory trivial ?_)
      rw [Store.perform, ← sameStore]
      refine same tested ?_
      unfold indexCreateCommand
      split
      · trivial
      · trivial
      · split
        · trivial
        · split
          · exact createIndex_sameRecords _ 20
          · split
            · trivial
            · exact createIndex_sameRecords _ _
  | indexDrop arguments =>
      refine wp_refuseCursors trivial (same keyed ?_)
      unfold indexDropCommand
      split
      · split
        · trivial
        · exact table.dropIndex_sameRecords _
      · trivial
  | indexList arguments =>
      refine wp_refuseCursors trivial (same keyed ?_)
      rw [wp_bind]
      cases indexField creator arguments with
      | error error => trivial
      | ok field =>
          have walked := @listIndex_kept creator host _ table
            (@sameRecords_walk creator table host) field ⟨here, rfl, rfl, rfl⟩
          simp only [orFail, wp_pure]
          exact wp_discard (wp_mono walked (fun _ _ kept => kept.2)
            fun stop after _ => stopped_any stop after)
  | indexSpan arguments =>
      refine wp_refuseCursors trivial (same keyed ?_)
      rw [wp_bind]
      cases indexField creator arguments with
      | error error => trivial
      | ok field =>
          have walked := @lappendIndexLowAndHi_kept creator host _ (fun _ => True) table
            (@sameRecords_walk creator table host) trivial field ⟨here, rfl, rfl, rfl⟩
          simp only [orFail, wp_pure]
          exact wp_discard (wp_mono walked (fun _ _ kept => kept.2) fun _ _ stops => stops)
  | cursorDestroy name => exact same keyed ⟨rfl, rfl, rfl⟩
  | cursorsDestroy => exact same keyed ⟨rfl, rfl, rfl⟩
  | commandDeleted => exact destroyed

end Refinement

-----------------------------------------------------------------------------------------
-- Histories
-----------------------------------------------------------------------------------------

/-- The table after a command that succeeds, as long as it lives. -/
def CTable.afterSuccess (host : Host) (table : CTable creator) (command : Command creator)
    : Option (CTable creator) :=
  match command.run host table with
  | .ok _ after => if after.destroyed then none else some after
  | .error _ _ => none

/-- The table after commands that all succeed. -/
def CTable.afterSuccesses (host : Host) (table : CTable creator)
    (commands : List (Command creator)) : Option (CTable creator) :=
  commands.foldlM (CTable.afterSuccess host) table

theorem CTable.afterSuccess_cases {table after : CTable creator} {command : Command creator}
    (left : table.afterSuccess host command = some after)
    : command.run host table = .ok () after ∧ after.destroyed = false := by
  unfold CTable.afterSuccess at left
  split at left
  · next value middle run =>
      split at left
      · cases left
      · next living =>
          cases left
          exact ⟨run, by simpa using living⟩
  · cases left

/-- A command that succeeds and gives no new row another key does what the store does. -/
theorem CTable.KeyedRows.step {table after : CTable creator} {command : Command creator}
    (here : table.KeyedRows) (keeps : command.KeepsKeys host table)
    (left : table.afterSuccess host command = some after)
    : after.KeyedRows ∧ table.store.perform host command = some after.store := by
  obtain ⟨run, living⟩ := CTable.afterSuccess_cases left
  have kept := wp_returns (Command.run_leaves (keyInvariant host) trivial here keeps) run
  have keyed : after.KeyedRows := by
    rcases kept with kept | gone
    · exact kept
    · cases living.symm.trans gone.1
  exact ⟨keyed, wp_returns (Command.run_refines here command) run living keyed.1⟩

/-- A table follows its store along commands, by induction on them. -/
theorem CTable.KeyedRows.run {commands : List (Command creator)}
    : ∀ {table after : CTable creator}, table.KeyedRows →
        table.AlongCommands host (fun table command => command.KeepsKeys host table) commands →
        table.afterSuccesses host commands = some after →
        after.KeyedRows ∧ commands.foldlM (Store.perform host) table.store = some after.store := by
  induction commands with
  | nil =>
      intro table after here _ ran
      cases ran
      exact ⟨here, rfl⟩
  | cons command rest ih =>
      rintro table after here ⟨keeps, later⟩ ran
      obtain ⟨next, stepped, ran⟩ := Option.bind_eq_some_iff.mp ran
      obtain ⟨keyed, performed⟩ := here.step keeps stepped
      obtain ⟨run, living⟩ := CTable.afterSuccess_cases stepped
      have along := later next (by simp [CTable.afterCommand, run, living])
      obtain ⟨final, performs⟩ := ih keyed along ran
      refine ⟨final, ?_⟩
      rw [List.foldlM_cons, performed]
      exact performs

/-- A new table is an empty store. -/
theorem CTable.store_empty (sharedMaster sharePanic : Bool)
    : (CTable.empty creator sharedMaster sharePanic).store = Store.empty creator := by
  have keyed := (CTable.KeyedRows.empty creator sharedMaster sharePanic).1
  have none : (CTable.empty creator sharedMaster sharePanic).record = fun _ => Option.none := by
    funext key
    refine keyed.record_none fun id listed => ?_
    cases listed
  rw [CTable.store, none]
  rfl

/-- After every history of commands that all succeed, and of which none gives a new row another key,
the data that lookups find and the counter of automatic keys are those of the map that the commands
act on.
-/
theorem table_refines_store (host : Host) (creator : CreatorTable) (sharedMaster sharePanic : Bool)
    (commands : List (Command creator)) (after : CTable creator)
    (ran : (CTable.empty creator sharedMaster sharePanic).afterSuccesses host commands = some after)
    (keeps : (CTable.empty creator sharedMaster sharePanic).AlongCommands host
      (fun table command => command.KeepsKeys host table) commands)
    : commands.foldlM (Store.perform host) (Store.empty creator) = some after.store := by
  have start := CTable.KeyedRows.empty creator sharedMaster sharePanic
  rw [← CTable.store_empty sharedMaster sharePanic]
  exact (start.run keeps ran).2

/-- The setter calls of a command. -/
def Command.setterCalls (host : Host) (table : CTable creator)
    : Command creator → List (Call creator)
  | .set arguments => setCommandCalls host table.memoryTested arguments
  | .store arguments => storeCommandCalls host table.memoryTested arguments
  | .incr arguments => incrCommandCalls host table.memoryTested arguments
  | .null arguments => nullCommandCalls host table arguments
  | .readTabsep options line => setFromTabsepCalls host options line table
  | _ => []

/-- Whether the commands of a history set the keys of existing rows only. -/
def sparesNewKeys (host : Host) : CTable creator → List (Command creator) → Bool
  | _, [] => true
  | table, command :: rest =>
      (command.setterCalls host table).all (fun call =>
        call.ctl == .normal || call.write.field != creator.keyField)
      && (table.afterCommand host command).all (fun next => sparesNewKeys host next rest)

/-- Such a history gives no new row another key, by induction on the commands. -/
theorem sparesNewKeys_along {commands : List (Command creator)}
    : ∀ {table : CTable creator}, sparesNewKeys host table commands = true →
        table.AlongCommands host (fun table command => command.KeepsKeys host table) commands := by
  induction commands with
  | nil => exact fun _ => trivial
  | cons command rest ih =>
      intro table spares
      obtain ⟨here, later⟩ := Bool.and_eq_true_iff.mp spares
      have kept : ∀ call ∈ command.setterCalls host table, ¬ call.RekeysNew := by
        intro call member rekeys
        obtain ⟨obj, write, -⟩ := rekeys.rekeys
        have spared := List.all_eq_true.mp here call member
        rw [rekeys.new, write] at spared
        simp [Write.field] at spared
      refine ⟨?_, fun next stepped => ih ?_⟩
      · cases command with
        | indexCreate arguments => exact fun _ _ _ _ _ => trivial
        | set arguments => exact kept
        | store arguments => exact kept
        | incr arguments => exact kept
        | null arguments => exact kept
        | readTabsep options line => exact kept
        | _ => trivial
      · rw [stepped] at later
        exact later

/-- Rows that are created under `a` and under the first automatic key, of which the one moves to `b`
and the other goes.
-/
def recordCommands : List (Command sampleCreator) :=
  [.set [[97], [115], [120]], .set [[97], [107], [98]], .store [[110], [51]],
    .incr [[98], [110], [53]],
    .null [[98], [115]], .delete [[48]]]

theorem table_refines_store_moved
    : ∃ after, (CTable.empty sampleCreator false false).afterSuccesses sampleHost recordCommands
          = some after
        ∧ recordCommands.foldlM (Store.perform sampleHost) (Store.empty sampleCreator)
          = some after.store
        ∧ (after.record [97]).isSome = false ∧ (after.record [98]).isSome = true := by
  have outcome : ((CTable.empty sampleCreator false false).afterSuccesses sampleHost
      recordCommands).any (fun after =>
        !(after.record [97]).isSome && (after.record [98]).isSome) = true := by
    decide +kernel
  have spares : sparesNewKeys sampleHost (CTable.empty sampleCreator false false) recordCommands
      = true := by
    decide +kernel
  obtain ⟨after, ran, found⟩ := (Option.any_eq_true _ _).mp outcome
  rw [Bool.and_eq_true, Bool.not_eq_true'] at found
  exact ⟨after, ran, table_refines_store sampleHost sampleCreator false false recordCommands after
    ran (sparesNewKeys_along spares), found⟩

end SpeedTables
