import Mathlib
import SpeedTables.Table.Values

/-! The names of a share, under which the master publishes tables and strings to its readers. -/

namespace SpeedTables.Shared

-----------------------------------------------------------------------------------------
-- State
-----------------------------------------------------------------------------------------

/-- `SYM_TYPE_DATA` and `SYM_TYPE_STRING` -/
inductive SymbolType where
  | data
  | string
  deriving DecidableEq

/-- A `symbol_t`, whose `addr` can change. -/
structure ShareSymbol where
  id : Nat
  name : CString
  type : SymbolType
  deriving DecidableEq

/-- What readers use of a table: pointers that are not null, and whether the memory behind them, the
list head and the count have been written.
-/
structure TableHeader where
  nullKeyValue : Option Nat
  terminated : Bool
  defaultStrings : Option Nat
  skipLists : Option Nat
  cleared : Bool
  llHead : Bool
  count : Option Nat

/-- Memory as it was allocated, or with null pointers. -/
def TableHeader.blank : TableHeader where
  nullKeyValue := none
  terminated := false
  defaultStrings := none
  skipLists := none
  cleared := false
  llHead := false
  count := none

/-- A string in memory: the value that was asked for, the bytes allocated for it, and those
written.
-/
structure ShareString where
  value : CString
  size : Nat
  bytes : CString

/-- The next step of a `create`, from the allocation of the symbol on. -/
inductive CreateStage where
  | symbol
  | link (id : Nat)
  | count
  | defaultStrings
  | nullKeyValue
  | terminate
  | skipLists
  | clear
  | llHead
  deriving DecidableEq

/-- Where the master stands: in a `create` before its table has memory, or behind that, or in a
`share set`, with memory for a new symbol or for a copy of the value.
-/
inductive PublishTask where
  | idle
  | allocating (name : CString)
  | creating (name : CString) (table : Nat) (stage : CreateStage)
  | setting (name value : CString)
  | adding (name : CString) (string : Nat)
  | replacing (symbol : ShareSymbol) (string : Nat)

/-- What a reader does: it follows the list for a name, or has obtained an address. -/
inductive ReaderTask where
  | idle
  | walking (name : CString) (wanted : SymbolType) (rest : List ShareSymbol)
  | table (address : Nat)
  | string (address : Nat)

/-- A share with its master and readers. Addresses are numbered as they are handed out; `queued` lists
those that have been given to `shmfree`.
-/
structure NamedShare where
  namelist : List ShareSymbol
  addr : Nat → Nat
  tables : Nat → TableHeader
  strings : Nat → ShareString
  fresh : Nat
  queued : List Nat
  task : PublishTask
  readers : Nat → ReaderTask

def NamedShare.new : NamedShare where
  namelist := []
  addr := fun _ => 0
  tables := fun _ => .blank
  strings := fun _ => { value := [], size := 0, bytes := [] }
  fresh := 0
  queued := []
  task := .idle
  readers := fun _ => .idle

-----------------------------------------------------------------------------------------
-- Steps
-----------------------------------------------------------------------------------------

/-- What happens next: the master begins to create a table or to set a string, goes on, where an
allocation may fail, or has destroyed a table; a reader looks a name up, follows the list, or is
done.
-/
inductive PublishEvent where
  | create (name : CString)
  | set (name value : CString)
  | advance (allocates : Bool)
  | destroy (table : Nat)
  | lookUp (reader : Nat) (name : CString) (wanted : SymbolType)
  | follow (reader : Nat)
  | finish (reader : Nat)

namespace NamedShare

variable (share : NamedShare)

/-- `get_symbol` with any type. -/
def find (name : CString) : Option ShareSymbol :=
  share.namelist.find? (fun symbol => symbol.name = name)

def setTask (task : PublishTask) : NamedShare :=
  { share with task := task }

/-- A table changes, and the master goes on. -/
def write (table : Nat) (header : TableHeader) (task : PublishTask) : NamedShare :=
  { share with tables := Function.update share.tables table header, task := task }

/-- `map->namelist = s` -/
def link (symbol : ShareSymbol) (address : Nat) (task : PublishTask) : NamedShare :=
  { share with
    namelist := symbol :: share.namelist
    addr := Function.update share.addr symbol.id address
    task := task }

/-- `createError`: what the table has been given so far is freed, and the table. -/
def createError (table : Nat) : NamedShare :=
  let header := share.tables table
  { share with
    queued :=
      share.queued ++ header.nullKeyValue.toList ++ header.defaultStrings.toList
        ++ header.skipLists.toList ++ [table]
    task := .idle }

/-- `shmalloc`, unless it fails. -/
def allocate (allocates : Bool) (failed : NamedShare) (given : Nat → NamedShare → NamedShare)
    : NamedShare :=
  if allocates then given share.fresh { share with fresh := share.fresh + 1 } else failed

/-- The steps of a `create` behind the allocation of its table. -/
def advanceCreate (allocates : Bool) (name : CString) (table : Nat) (stage : CreateStage)
    : NamedShare :=
  let header := share.tables table
  let error := share.createError table
  match stage with
  | .symbol =>
      share.allocate allocates error fun id share =>
        share.setTask (.creating name table (.link id))
  | .link id =>
      share.link { id := id, name := name, type := .data } table (.creating name table .count)
  | .count =>
      share.write table { header with count := some 0, nullKeyValue := none }
        (.creating name table .defaultStrings)
  | .defaultStrings =>
      share.allocate allocates error fun address share =>
        share.write table { header with defaultStrings := some address }
          (.creating name table .nullKeyValue)
  | .nullKeyValue =>
      share.allocate allocates error fun address share =>
        share.write table { header with nullKeyValue := some address }
          (.creating name table .terminate)
  | .terminate =>
      share.write table { header with terminated := true } (.creating name table .skipLists)
  | .skipLists =>
      share.allocate allocates error fun address share =>
        share.write table { header with skipLists := some address }
          (.creating name table .clear)
  | .clear =>
      share.write table { header with cleared := true } (.creating name table .llHead)
  | .llHead => share.write table { header with llHead := true } .idle

/-- A string in memory that has been allocated for it, with its terminator written too. -/
def putString (address size : Nat) (value : CString) : NamedShare :=
  { share with
    strings := Function.update share.strings address
      { value := value, size := size, bytes := value ++ [0] } }

/-- The steps of `share set`: `add_symbol` has room for the terminator, `set_symbol` not. -/
def advanceSet (allocates : Bool) (name value : CString) : NamedShare :=
  let failed := share.setTask .idle
  match share.find name with
  | none =>
      share.allocate allocates failed fun address share =>
        (share.putString address (value.length + 1) value).setTask (.adding name address)
  | some symbol =>
      if symbol.type = .string then
        share.allocate allocates failed fun address share =>
          (share.putString address value.length value).setTask (.replacing symbol address)
      else failed

/-- The next step of the master. -/
def advance (allocates : Bool) : NamedShare :=
  match share.task with
  | .idle => share
  | .allocating name =>
      share.allocate allocates (share.setTask .idle) fun address share =>
        share.write address .blank (.creating name address .symbol)
  | .creating name table stage => share.advanceCreate allocates name table stage
  | .setting name value => share.advanceSet allocates name value
  | .adding name string =>
      share.link { id := string, name := name, type := .string } string .idle
  | .replacing symbol string =>
      { share with addr := Function.update share.addr symbol.id string, task := .idle }

/-- A step of `get_symbol`. -/
def follow (name : CString) (wanted : SymbolType) : List ShareSymbol → ReaderTask
  | [] => .idle
  | symbol :: rest =>
      if symbol.name = name then
        if symbol.type = wanted then
          match wanted with
          | .data => .table (share.addr symbol.id)
          | .string => .string (share.addr symbol.id)
        else .idle
      else .walking name wanted rest

def setReader (reader : Nat) (task : ReaderTask) : NamedShare :=
  { share with readers := Function.update share.readers reader task }

/-- One step. What cannot happen changes nothing: the master's commands follow each other, and a table
is destroyed when no creation is in progress, which empties it and leaves its memory.
-/
def step : PublishEvent → NamedShare
  | .create name =>
      match share.task with
      | .idle => share.setTask (.allocating name)
      | _ => share
  | .set name value =>
      match share.task with
      | .idle => share.setTask (.setting name value)
      | _ => share
  | .advance allocates => share.advance allocates
  | .destroy table =>
      match share.task with
      | .idle =>
          let header := share.tables table
          share.write table { header with count := header.count.map fun _ => 0 } .idle
      | _ => share
  | .lookUp reader name wanted =>
      match share.readers reader with
      | .idle => share.setReader reader (.walking name wanted share.namelist)
      | _ => share
  | .follow reader =>
      match share.readers reader with
      | .walking name wanted rest => share.setReader reader (share.follow name wanted rest)
      | _ => share
  | .finish reader => share.setReader reader .idle

def run (events : List PublishEvent) : NamedShare :=
  events.foldl step share

-----------------------------------------------------------------------------------------
-- What is to hold
-----------------------------------------------------------------------------------------

end NamedShare

/-- What a reader uses of a table has been written. -/
structure TableHeader.Initialised (header : TableHeader) : Prop where
  nullKeyValue : header.nullKeyValue.isSome
  terminated : header.terminated = true
  skipLists : header.skipLists.isSome
  cleared : header.cleared = true
  llHead : header.llHead = true
  count : header.count.isSome

/-- The whole value and its terminator are written, inside the memory allocated for them. -/
def ShareString.Complete (string : ShareString) : Prop :=
  string.bytes = string.value ++ [0] ∧ string.bytes.length ≤ string.size

/-- The memory of a table. -/
def TableHeader.blocks (header : TableHeader) (table : Nat) : List Nat :=
  table :: header.nullKeyValue.toList ++ header.defaultStrings.toList ++ header.skipLists.toList

namespace NamedShare

/-- A table that a reader has obtained is initialised, and none of its memory queued for freeing, and
a string is complete.
-/
def Published (share : NamedShare) : Prop :=
  ∀ reader,
    match share.readers reader with
    | .table address => (share.tables address).Initialised
        ∧ ∀ block ∈ (share.tables address).blocks address, block ∉ share.queued
    | .string address => (share.strings address).Complete
    | _ => True

end NamedShare

/-- The name of the table is linked. -/
def CreateStage.linked : CreateStage → Bool
  | .symbol | .link _ => false
  | _ => true

/-- The step allocates memory. -/
def CreateStage.allocates : CreateStage → Bool
  | .symbol | .defaultStrings | .nullKeyValue | .skipLists => true
  | _ => false

namespace NamedShare

/-- No creation fails once its name is linked, and until it ends no reader begins to look for a table
of that name; and no string is set that exists.
-/
def Spares (share : NamedShare) : PublishEvent → Prop
  | .advance allocates =>
      match share.task with
      | .creating _ _ stage => stage.linked = true → stage.allocates = true → allocates = true
      | .setting name _ => ∀ symbol, share.find name = some symbol → symbol.type ≠ .string
      | _ => True
  | .lookUp _ name wanted =>
      wanted = .data → ∀ table stage, share.task = .creating name table stage → stage.linked = false
  | _ => True

/-- Every step of a run meets the condition. -/
def Along : NamedShare → List PublishEvent → Prop
  | _, [] => True
  | share, event :: events => share.Spares event ∧ (share.step event).Along events

-----------------------------------------------------------------------------------------
-- The invariant
-----------------------------------------------------------------------------------------

variable {share after : NamedShare}

/-- A table that readers may have: it is initialised, and its memory is not queued or that of a table
in creation.
-/
structure Whole (share : NamedShare) (table : Nat) : Prop where
  initialised : (share.tables table).Initialised
  kept : ∀ block ∈ (share.tables table).blocks table, block < share.fresh ∧ block ∉ share.queued
  apart : ∀ name other stage, share.task = .creating name other stage →
    other ∉ (share.tables table).blocks table

/-- A string that readers may have. -/
def Readable (share : NamedShare) (string : Nat) : Prop :=
  string < share.fresh ∧ (share.strings string).Complete

/-- A symbol leads to what readers may have, unless it is that of the table in creation. -/
def SymbolSound (share : NamedShare) (symbol : ShareSymbol) : Prop :=
  symbol.id < share.fresh
    ∧ match symbol.type with
      | .string => share.Readable (share.addr symbol.id)
      | .data => share.Whole (share.addr symbol.id)
          ∨ ∃ stage, share.task = .creating symbol.name (share.addr symbol.id) stage
            ∧ stage.linked = true

/-- A reader follows symbols of the list, and finds no table in creation. -/
def ReaderSound (share : NamedShare) : ReaderTask → Prop
  | .idle => True
  | .walking name wanted rest => ∀ symbol ∈ rest, symbol ∈ share.namelist
      ∧ (symbol.name = name → wanted = .data → symbol.type = .data →
        share.Whole (share.addr symbol.id))
  | .table address => share.Whole address
  | .string address => share.Readable address

/-- What has been written of a table in creation. -/
def Progress (header : TableHeader) : CreateStage → Prop
  | .symbol | .link _ => header = .blank
  | .count => True
  | .defaultStrings | .nullKeyValue => header.count.isSome
  | .terminate => header.count.isSome ∧ header.nullKeyValue.isSome
  | .skipLists => header.count.isSome ∧ header.nullKeyValue.isSome ∧ header.terminated = true
  | .clear => header.count.isSome ∧ header.nullKeyValue.isSome ∧ header.terminated = true
      ∧ header.skipLists.isSome
  | .llHead => header.count.isSome ∧ header.nullKeyValue.isSome ∧ header.terminated = true
      ∧ header.skipLists.isSome ∧ header.cleared = true

/-- An address is none of the symbols of the list. -/
def Unlinked (share : NamedShare) (id : Nat) : Prop :=
  id < share.fresh ∧ ∀ symbol ∈ share.namelist, symbol.id ≠ id

/-- What the master has in hand. -/
def TaskSound (share : NamedShare) : PublishTask → Prop
  | .creating _ table stage =>
      (∀ block ∈ (share.tables table).blocks table, block < share.fresh ∧ block ∉ share.queued)
        ∧ Progress (share.tables table) stage ∧ ∀ id, stage = .link id → share.Unlinked id
  | .adding _ string => share.Readable string ∧ share.Unlinked string
  | .replacing _ _ => False
  | _ => True

/-- What every step keeps. -/
structure Sound (share : NamedShare) : Prop where
  symbols : ∀ symbol ∈ share.namelist, share.SymbolSound symbol
  readers : ∀ reader, share.ReaderSound (share.readers reader)
  queued : ∀ block ∈ share.queued, block < share.fresh
  task : share.TaskSound share.task

theorem new_sound : NamedShare.new.Sound where
  symbols := nofun
  readers := fun _ => trivial
  queued := nofun
  task := trivial

theorem Sound.published (sound : share.Sound) : share.Published := by
  intro reader
  have kept := sound.readers reader
  split
  case h_1 address same =>
    rw [same] at kept
    exact ⟨kept.initialised, fun block member => (kept.kept block member).2⟩
  case h_2 address same =>
    rw [same] at kept
    exact kept.2
  case h_3 => trivial

/-- What readers may have stays, and the list only grows. -/
structure Extends (share after : NamedShare) : Prop where
  whole : ∀ table, share.Whole table → after.Whole table
  readable : ∀ string, share.Readable string → after.Readable string
  namelist : ∀ symbol ∈ share.namelist, symbol ∈ after.namelist
  addr : ∀ symbol ∈ share.namelist, after.addr symbol.id = share.addr symbol.id

theorem Extends.reader (extends' : share.Extends after) {task : ReaderTask}
    (sound : share.ReaderSound task)
    : after.ReaderSound task := by
  cases task with
  | idle => trivial
  | table address => exact extends'.whole address sound
  | string address => exact extends'.readable address sound
  | walking name wanted rest =>
      intro symbol member
      obtain ⟨listed, found⟩ := sound symbol member
      refine ⟨extends'.namelist symbol listed, fun named data table => ?_⟩
      rw [extends'.addr symbol listed]
      exact extends'.whole _ (found named data table)

theorem Whole.congr {table : Nat} (whole : share.Whole table)
    (same : after.tables table = share.tables table) (grows : share.fresh ≤ after.fresh)
    (unqueued : ∀ block ∈ (share.tables table).blocks table, block ∉ after.queued)
    (apart : ∀ name other stage, after.task = .creating name other stage →
      other ∉ (share.tables table).blocks table)
    : after.Whole table where
  initialised := same ▸ whole.initialised
  kept := by
    rw [same]
    exact fun block member =>
      ⟨Nat.lt_of_lt_of_le (whole.kept block member).1 grows, unqueued block member⟩
  apart := by
    rw [same]
    exact apart

theorem write_tables (share : NamedShare) (table : Nat) (header : TableHeader) (task : PublishTask)
    : (share.write table header task).tables table = header :=
  Function.update_self _ _ _

theorem putString_strings (share : NamedShare) (address size : Nat) (value : CString)
    (task : PublishTask)
    : ((share.putString address size value).setTask task).strings address
      = { value := value, size := size, bytes := value ++ [0] } :=
  Function.update_self _ _ _

theorem putString_strings_of_ne {string address : Nat} (other : string ≠ address)
    (share : NamedShare) (size : Nat) (value : CString) (task : PublishTask)
    : ((share.putString address size value).setTask task).strings string = share.strings string :=
  Function.update_of_ne other _ _

theorem mem_blocks (header : TableHeader) (table : Nat) : table ∈ header.blocks table := by
  simp [TableHeader.blocks]

/-- The master goes on without a change to what is linked. -/
theorem Sound.goOn (sound : share.Sound) (extends' : share.Extends after)
    (readers : after.readers = share.readers) (namelist : after.namelist = share.namelist)
    (grows : share.fresh ≤ after.fresh) (queued : ∀ block ∈ after.queued, block < after.fresh)
    (continues : ∀ name table stage, share.task = .creating name table stage →
      stage.linked = true → after.Whole table
        ∨ ∃ next, after.task = .creating name table next ∧ next.linked = true)
    (task : after.TaskSound after.task)
    : after.Sound where
  symbols := by
    intro symbol member
    rw [namelist] at member
    obtain ⟨bounded, leads⟩ := sound.symbols symbol member
    refine ⟨Nat.lt_of_lt_of_le bounded grows, ?_⟩
    rw [extends'.addr symbol member]
    split at leads
    case h_1 => exact extends'.readable _ leads
    case h_2 =>
      rcases leads with whole | ⟨stage, creating, linked⟩
      · exact .inl (extends'.whole _ whole)
      · exact continues _ _ stage creating linked
  readers := by
    intro reader
    rw [readers]
    exact extends'.reader (sound.readers reader)
  queued := queued
  task := task

/-- The table in creation is written, and its creation goes on or ends. -/
theorem Extends.write {name : CString} {table fresh : Nat} {stage : CreateStage}
    (creating : share.task = .creating name table stage) (grows : share.fresh ≤ fresh)
    (header : TableHeader) {task : PublishTask}
    (goesOn : ∀ next other stage, task = .creating next other stage → other = table)
    : share.Extends
        { share with
          fresh := fresh, tables := Function.update share.tables table header, task := task } where
  whole := by
    intro other whole
    have apart := whole.apart name table stage creating
    have different : other ≠ table := fun same => apart (same ▸ mem_blocks _ _)
    refine whole.congr (Function.update_of_ne different _ _) grows
      (fun block member => (whole.kept block member).2) (fun next inner stage same => ?_)
    rw [goesOn next inner stage same]
    exact apart
  readable := fun string readable => ⟨Nat.lt_of_lt_of_le readable.1 grows, readable.2⟩
  namelist := fun _ member => member
  addr := fun _ _ => rfl

/-- The master is done, or goes on with something other than a creation. -/
theorem Sound.setTask (sound : share.Sound) {task : PublishTask}
    (other : ∀ name table stage, task ≠ .creating name table stage)
    (idle : ∀ name table stage, share.task = .creating name table stage → stage.linked = false)
    (holds : share.TaskSound task)
    : (share.setTask task).Sound := by
  refine sound.goOn ?_ rfl rfl (Nat.le_refl _) sound.queued ?_ ?_
  · exact {
      whole := fun table whole => whole.congr rfl (Nat.le_refl _)
        (fun block member => (whole.kept block member).2)
        (fun name table stage same => absurd same (other name table stage))
      readable := fun _ readable => readable
      namelist := fun _ member => member
      addr := fun _ _ => rfl }
  · intro name table stage creating linked
    rw [idle name table stage creating] at linked
    cases linked
  · cases task with
    | creating name table stage => exact absurd rfl (other name table stage)
    | _ => exact holds

-----------------------------------------------------------------------------------------
-- Creations
-----------------------------------------------------------------------------------------

variable {name : CString} {table : Nat} {stage : CreateStage}

/-- A creation that fails before its name is linked gives back the header of the table, and nothing
that is linked.
-/
theorem Sound.createError (sound : share.Sound) (creating : share.task = .creating name table .symbol)
    : (share.createError table).Sound := by
  have inHand := sound.task
  rw [creating] at inHand
  obtain ⟨bounded, blank, -⟩ := inHand
  have queued : (share.createError table).queued = share.queued ++ [table] := by
    simp [NamedShare.createError, show share.tables table = .blank from blank, TableHeader.blank]
  refine sound.goOn ?_ rfl rfl (Nat.le_refl _) ?_ ?_ trivial
  · exact {
      whole := by
        intro other whole
        refine whole.congr rfl (Nat.le_refl _) (fun block member => ?_) nofun
        rw [queued, List.mem_append, List.mem_singleton, not_or]
        refine ⟨(whole.kept block member).2, fun same => ?_⟩
        exact whole.apart name table .symbol creating (same ▸ member)
      readable := fun _ readable => readable
      namelist := fun _ member => member
      addr := fun _ _ => rfl }
  · intro block member
    rw [queued] at member
    rcases List.mem_append.mp member with member | member
    · exact sound.queued block member
    · rw [List.mem_singleton.mp member]
      exact (bounded table (mem_blocks _ _)).1
  · intro other inner stage same linked
    rw [creating] at same
    cases same
    cases linked

/-- A creation writes to its table, and goes on. -/
theorem Sound.write (sound : share.Sound) (creating : share.task = .creating name table stage)
    {fresh : Nat} (grows : share.fresh ≤ fresh) {header : TableHeader} {next : CreateStage}
    (linked : next.linked = true)
    (blocks : ∀ block ∈ header.blocks table, block < fresh ∧ block ∉ share.queued)
    (progress : Progress header next)
    : ({ share with
          fresh := fresh, tables := Function.update share.tables table header,
          task := .creating name table next } : NamedShare).Sound := by
  refine sound.goOn (.write creating grows header ?_) rfl rfl grows ?_ ?_ ?_
  · intro other inner stage same
    cases same
    rfl
  · exact fun block member => Nat.lt_of_lt_of_le (sound.queued block member) grows
  · intro other inner stage same _
    rw [creating] at same
    cases same
    exact .inr ⟨next, rfl, linked⟩
  · refine ⟨?_, ?_, ?_⟩
    · simpa using blocks
    · simpa using progress
    · intro id same
      rw [same] at linked
      cases linked

/-- A creation is given memory for its table, and goes on. -/
theorem Sound.give (sound : share.Sound) (creating : share.task = .creating name table stage)
    {header : TableHeader} {next : CreateStage} (linked : next.linked = true)
    (blocks : ∀ block ∈ header.blocks table,
      block = share.fresh ∨ block ∈ (share.tables table).blocks table)
    (progress : Progress header next)
    : ({ share with
          fresh := share.fresh + 1, tables := Function.update share.tables table header,
          task := .creating name table next } : NamedShare).Sound := by
  have inHand := sound.task
  rw [creating] at inHand
  refine sound.write creating (Nat.le_succ _) linked (fun block member => ?_) progress
  rcases blocks block member with rfl | member
  · exact ⟨Nat.lt_succ_self _, fun queued => absurd (sound.queued _ queued) (Nat.lt_irrefl _)⟩
  · exact ⟨Nat.lt_succ_of_lt (inHand.1 block member).1, (inHand.1 block member).2⟩

/-- A symbol is linked in front of the list. -/
theorem Sound.link (sound : share.Sound) {symbol : ShareSymbol} {address : Nat} {task : PublishTask}
    (unlinked : share.Unlinked symbol.id)
    (leads : (share.link symbol address task).SymbolSound symbol)
    (continues : ∀ name table stage, share.task = .creating name table stage →
      stage.linked = false ∧ ∀ name other stage, task = .creating name other stage → other = table)
    (others : (∀ name table stage, share.task ≠ .creating name table stage) →
      ∀ name table stage, task ≠ .creating name table stage)
    (holds : (share.link symbol address task).TaskSound task)
    : (share.link symbol address task).Sound := by
  have apart : ∀ earlier ∈ share.namelist,
      (share.link symbol address task).addr earlier.id = share.addr earlier.id :=
    fun earlier member => Function.update_of_ne (unlinked.2 earlier member) _ _
  have extends' : share.Extends (share.link symbol address task) := {
    whole := by
      intro table whole
      refine whole.congr rfl (Nat.le_refl _) (fun block member => (whole.kept block member).2) ?_
      intro next inner stage same
      cases before : share.task with
      | creating name outer stage =>
          rw [(continues name outer stage before).2 next inner _ same]
          exact whole.apart name outer stage before
      | _ => exact absurd same (others (by rw [before]; exact nofun) next inner stage)
    readable := fun _ readable => readable
    namelist := fun _ member => List.mem_cons_of_mem _ member
    addr := apart }
  exact {
    symbols := by
      refine List.forall_mem_cons.mpr ⟨leads, fun earlier member => ?_⟩
      obtain ⟨bounded, before⟩ := sound.symbols earlier member
      refine ⟨bounded, ?_⟩
      rw [apart earlier member]
      split at before
      case h_1 => exact before
      case h_2 =>
        rcases before with whole | ⟨stage, creating, linked⟩
        · exact .inl (extends'.whole _ whole)
        · rw [(continues _ _ stage creating).1] at linked
          cases linked
    readers := fun reader => extends'.reader (sound.readers reader)
    queued := sound.queued
    task := holds }

/-- A creation is given memory for its symbol. -/
theorem Sound.allocateSymbol (sound : share.Sound)
    (creating : share.task = .creating name table .symbol)
    : ({ share with
          fresh := share.fresh + 1, task := .creating name table (.link share.fresh) }
        : NamedShare).Sound := by
  have inHand := sound.task
  rw [creating] at inHand
  obtain ⟨bounded, blank, -⟩ := inHand
  have extends' : share.Extends
      { share with
        fresh := share.fresh + 1
        tables := Function.update share.tables table (share.tables table)
        task := .creating name table (.link share.fresh) } := by
    refine .write creating (Nat.le_succ _) _ ?_
    intro next other stage same
    cases same
    rfl
  rw [Function.update_eq_self] at extends'
  refine sound.goOn extends' rfl rfl (Nat.le_succ _) ?_ ?_ ⟨?_, blank, ?_⟩
  · exact fun block member => Nat.lt_succ_of_lt (sound.queued block member)
  · intro next other stage same linked
    rw [creating] at same
    cases same
    cases linked
  · exact fun block member =>
      ⟨Nat.lt_succ_of_lt (bounded block member).1, (bounded block member).2⟩
  · intro id same
    cases same
    exact ⟨Nat.lt_succ_self _, fun symbol member => Nat.ne_of_lt (sound.symbols symbol member).1⟩

/-- A creation ends. -/
theorem Sound.complete (sound : share.Sound) (creating : share.task = .creating name table .llHead)
    : (share.write table { share.tables table with llHead := true } .idle).Sound := by
  have inHand := sound.task
  rw [creating] at inHand
  obtain ⟨bounded, ⟨count, nullKeyValue, terminated, skipLists, cleared⟩, -⟩ := inHand
  refine sound.goOn (.write creating (Nat.le_refl _) _ nofun) rfl rfl (Nat.le_refl _) sound.queued ?_
    trivial
  intro next other stage same _
  rw [creating] at same
  cases same
  refine .inl { initialised := ?_, kept := ?_, apart := nofun }
  · rw [write_tables]
    exact ⟨nullKeyValue, terminated, skipLists, cleared, rfl, count⟩
  · rw [write_tables]
    exact bounded

theorem Sound.advanceCreate (sound : share.Sound) {allocates : Bool}
    (creating : share.task = .creating name table stage)
    (spares : stage.linked = true → stage.allocates = true → allocates = true)
    : (share.advanceCreate allocates name table stage).Sound := by
  have inHand := sound.task
  rw [creating] at inHand
  obtain ⟨bounded, progress, unlinked⟩ := inHand
  cases stage with
  | symbol =>
      cases allocates with
      | true => exact sound.allocateSymbol creating
      | false => exact sound.createError creating
  | link id =>
      have free := unlinked id rfl
      refine sound.link free ⟨free.1, .inr ⟨.count, ?_, rfl⟩⟩ ?_ ?_ ⟨bounded, trivial, nofun⟩
      · show PublishTask.creating name table .count
          = .creating name (Function.update share.addr id table id) .count
        rw [Function.update_self]
      · intro next other stage same
        rw [creating] at same
        cases same
        refine ⟨rfl, fun name other stage same => ?_⟩
        cases same
        rfl
      · exact fun none => absurd creating (none _ _ _)
  | count =>
      refine sound.write creating (Nat.le_refl _) rfl (fun block member => bounded block ?_) rfl
      simp only [TableHeader.blocks, List.mem_append, List.mem_cons, Option.toList_none] at member ⊢
      grind
  | defaultStrings =>
      rw [spares rfl rfl]
      refine sound.give creating rfl (fun block member => ?_) progress
      simp only [TableHeader.blocks, List.mem_append, List.mem_cons, Option.toList_some] at member ⊢
      grind
  | nullKeyValue =>
      rw [spares rfl rfl]
      refine sound.give creating rfl (fun block member => ?_) ⟨progress, rfl⟩
      simp only [TableHeader.blocks, List.mem_append, List.mem_cons, Option.toList_some] at member ⊢
      grind
  | terminate =>
      exact sound.write creating (Nat.le_refl _) rfl bounded ⟨progress.1, progress.2, rfl⟩
  | skipLists =>
      rw [spares rfl rfl]
      obtain ⟨count, nullKeyValue, terminated⟩ := progress
      refine sound.give creating rfl (fun block member => ?_)
        ⟨count, nullKeyValue, terminated, rfl⟩
      simp only [TableHeader.blocks, List.mem_append, List.mem_cons, Option.toList_some] at member ⊢
      grind
  | clear =>
      obtain ⟨count, nullKeyValue, terminated, skipLists⟩ := progress
      exact sound.write creating (Nat.le_refl _) rfl bounded
        ⟨count, nullKeyValue, terminated, skipLists, rfl⟩
  | llHead => exact sound.complete creating

-----------------------------------------------------------------------------------------
-- Strings
-----------------------------------------------------------------------------------------

/-- Memory for a string that is to be added. -/
theorem Sound.allocateString (sound : share.Sound) {value : CString}
    (idle : ∀ name table stage, share.task ≠ .creating name table stage)
    : ((({ share with fresh := share.fresh + 1 } : NamedShare).putString share.fresh
        (value.length + 1) value).setTask (.adding name share.fresh)).Sound := by
  refine sound.goOn ?_ rfl rfl (Nat.le_succ _) ?_ ?_ ?_
  · exact {
      whole := fun table whole => whole.congr rfl (Nat.le_succ _)
        (fun block member => (whole.kept block member).2) nofun
      readable := by
        intro string readable
        refine ⟨Nat.lt_succ_of_lt readable.1, ?_⟩
        rw [putString_strings_of_ne (Nat.ne_of_lt readable.1)]
        exact readable.2
      namelist := fun _ member => member
      addr := fun _ _ => rfl }
  · exact fun block member => Nat.lt_succ_of_lt (sound.queued block member)
  · exact fun next table stage creating => absurd creating (idle next table stage)
  · refine ⟨⟨Nat.lt_succ_self _, ?_⟩, Nat.lt_succ_self _, ?_⟩
    · rw [putString_strings]
      exact ⟨rfl, by simp⟩
    · exact fun symbol member => Nat.ne_of_lt (sound.symbols symbol member).1

/-- The header of a new table. -/
theorem Sound.allocateTable (sound : share.Sound)
    (idle : ∀ name table stage, share.task ≠ .creating name table stage)
    : (({ share with fresh := share.fresh + 1 } : NamedShare).write share.fresh .blank
        (.creating name share.fresh .symbol)).Sound := by
  refine sound.goOn ?_ rfl rfl (Nat.le_succ _) ?_ ?_ ?_
  · exact {
      whole := by
        intro table whole
        have bounded := fun block member => (whole.kept block member).1
        refine whole.congr ?_ (Nat.le_succ _) (fun block member => (whole.kept block member).2) ?_
        · exact Function.update_of_ne (Nat.ne_of_lt (bounded table (mem_blocks _ _))) _ _
        · intro next other stage same member
          cases same
          exact absurd (bounded _ member) (Nat.lt_irrefl _)
      readable := fun string readable => ⟨Nat.lt_succ_of_lt readable.1, readable.2⟩
      namelist := fun _ member => member
      addr := fun _ _ => rfl }
  · exact fun block member => Nat.lt_succ_of_lt (sound.queued block member)
  · exact fun next table stage creating => absurd creating (idle next table stage)
  · refine ⟨?_, write_tables _ _ _ _, nofun⟩
    intro block member
    rw [write_tables] at member
    have same : block = share.fresh := by
      simpa [TableHeader.blocks, TableHeader.blank] using member
    subst same
    exact ⟨Nat.lt_succ_self _, fun queued => absurd (sound.queued _ queued) (Nat.lt_irrefl _)⟩

theorem Sound.advance (sound : share.Sound) {allocates : Bool}
    (spares : share.Spares (.advance allocates))
    : (share.advance allocates).Sound := by
  have inHand := sound.task
  unfold NamedShare.advance
  cases task : share.task with
  | idle => exact sound
  | allocating name =>
      have idle : ∀ name table stage, share.task ≠ .creating name table stage := by
        rw [task]
        exact nofun
      cases allocates with
      | true => exact sound.allocateTable idle
      | false =>
          exact sound.setTask nofun (fun _ _ _ same => absurd same (idle _ _ _)) trivial
  | creating name table stage =>
      simp only [NamedShare.Spares, task] at spares
      exact sound.advanceCreate task spares
  | setting name value =>
      have idle : ∀ name table stage, share.task ≠ .creating name table stage := by
        rw [task]
        exact nofun
      have stops : (share.setTask .idle).Sound :=
        sound.setTask nofun (fun _ _ _ same => absurd same (idle _ _ _)) trivial
      simp only [NamedShare.Spares, task] at spares
      dsimp only [NamedShare.advanceSet]
      split
      case h_1 =>
        cases allocates with
        | true => exact sound.allocateString idle
        | false => exact stops
      case h_2 symbol found =>
        rw [if_neg (spares symbol found)]
        exact stops
  | adding name string =>
      rw [task] at inHand
      obtain ⟨readable, unlinked⟩ := inHand
      refine sound.link unlinked ⟨unlinked.1, ?_⟩ ?_ (fun _ => nofun) trivial
      · show NamedShare.Readable _ (Function.update share.addr string string string)
        rw [Function.update_self]
        exact readable
      · intro name table stage same
        rw [task] at same
        cases same
  | replacing symbol string =>
      rw [task] at inHand
      exact inHand.elim

-----------------------------------------------------------------------------------------
-- Readers
-----------------------------------------------------------------------------------------

theorem Sound.setReader (sound : share.Sound) {reader : Nat} {task : ReaderTask}
    (holds : share.ReaderSound task)
    : (share.setReader reader task).Sound where
  symbols := by
    intro symbol member
    obtain ⟨bounded, leads⟩ := sound.symbols symbol member
    refine ⟨bounded, ?_⟩
    split at leads
    case h_1 => exact leads
    case h_2 => exact leads.imp (fun whole => { whole with }) id
  readers := by
    intro other
    have kept : share.ReaderSound ((share.setReader reader task).readers other) := by
      show share.ReaderSound (Function.update share.readers reader task other)
      by_cases same : other = reader
      · rw [same, Function.update_self]
        exact holds
      · rw [Function.update_of_ne same]
        exact sound.readers other
    have extends' : share.Extends (share.setReader reader task) := {
      whole := fun _ whole => { whole with }
      readable := fun _ readable => readable
      namelist := fun _ member => member
      addr := fun _ _ => rfl }
    exact extends'.reader kept
  queued := sound.queued
  task := by
    have inHand := sound.task
    show (share.setReader reader task).TaskSound share.task
    cases hand : share.task <;> rw [hand] at inHand <;> exact inHand

theorem Sound.follow (sound : share.Sound) {wanted : SymbolType} {rest : List ShareSymbol}
    (walking : share.ReaderSound (.walking name wanted rest))
    : share.ReaderSound (share.follow name wanted rest) := by
  cases rest with
  | nil => trivial
  | cons symbol rest =>
      obtain ⟨⟨listed, found⟩, behind⟩ := List.forall_mem_cons.mp walking
      dsimp only [NamedShare.follow]
      split
      case isFalse => exact behind
      case isTrue named =>
        split
        case isFalse => trivial
        case isTrue typed =>
          cases wanted with
          | data => exact found named rfl typed
          | string =>
              have leads := (sound.symbols symbol listed).2
              rw [typed] at leads
              exact leads

/-- A table is emptied, and stays. -/
theorem Sound.destroy (sound : share.Sound) (idle : share.task = .idle) (table : Nat)
    : (share.write table
        { share.tables table with count := (share.tables table).count.map fun _ => 0 } .idle).Sound := by
  refine sound.goOn ?_ rfl rfl (Nat.le_refl _) sound.queued ?_ trivial
  · exact {
      whole := by
        intro other whole
        by_cases same : other = table
        · subst same
          have initialised := whole.initialised
          refine { initialised := ?_, kept := ?_, apart := nofun }
          · rw [write_tables]
            exact { initialised with count := by simpa using initialised.count }
          · rw [write_tables]
            exact whole.kept
        · exact whole.congr (Function.update_of_ne same _ _) (Nat.le_refl _)
            (fun block member => (whole.kept block member).2) nofun
      readable := fun _ readable => readable
      namelist := fun _ member => member
      addr := fun _ _ => rfl }
  · intro name other stage creating
    rw [idle] at creating
    cases creating

theorem Sound.step (sound : share.Sound) (event : PublishEvent) (spares : share.Spares event)
    : (share.step event).Sound := by
  have idle {task : PublishTask} (idle : share.task = .idle)
      (other : ∀ name table stage, task ≠ .creating name table stage) (holds : share.TaskSound task)
      : (share.setTask task).Sound :=
    sound.setTask other (fun _ _ _ same => absurd (idle.symm.trans same) nofun) holds
  cases event with
  | create name =>
      simp only [NamedShare.step]
      split
      case h_1 before => exact idle before nofun trivial
      case h_2 => exact sound
  | set name value =>
      simp only [NamedShare.step]
      split
      case h_1 before => exact idle before nofun trivial
      case h_2 => exact sound
  | advance allocates => exact sound.advance spares
  | destroy table =>
      simp only [NamedShare.step]
      split
      case h_1 before => exact sound.destroy before table
      case h_2 => exact sound
  | lookUp reader name wanted =>
      simp only [NamedShare.step]
      split
      case h_2 => exact sound
      case h_1 =>
        refine sound.setReader fun symbol member => ⟨member, fun named data typed => ?_⟩
        have leads := (sound.symbols symbol member).2
        rw [typed] at leads
        rcases leads with whole | ⟨stage, creating, linked⟩
        · exact whole
        · rw [named] at creating
          rw [spares data _ stage creating] at linked
          cases linked
  | follow reader =>
      simp only [NamedShare.step]
      split
      case h_2 => exact sound
      case h_1 name wanted rest walking =>
        have holds := sound.readers reader
        rw [walking] at holds
        exact sound.setReader (sound.follow holds)
  | finish reader => exact sound.setReader trivial

theorem Sound.run (sound : share.Sound) {events : List PublishEvent} (along : share.Along events)
    : (share.run events).Sound := by
  induction events generalizing share with
  | nil => exact sound
  | cons event events ih => exact ih (sound.step event along.1) along.2

end NamedShare

/-- In every run in which no creation fails behind the linking of its name or is looked up before its
end, and no string is set again, what readers obtain is whole.
-/
theorem names_published (events : List PublishEvent) (along : NamedShare.new.Along events)
    : (NamedShare.new.run events).Published :=
  (NamedShare.new_sound.run along).published

/-- A table that is looked up when it has been created. -/
theorem names_published_created
    : (NamedShare.new.run (.create [116] :: List.replicate 10 (.advance true)
        ++ [.lookUp 0 [116] .data, .follow 0])).Published :=
  names_published _ (by
    refine ⟨trivial, trivial, ?_, ?_, ?_, ?_, ?_, ?_, ?_, ?_, ?_, fun _ _ _ => nofun, trivial, trivial⟩
    all_goals exact fun _ _ => rfl)

/-- A table that is looked up when its name has just been linked has no null key value yet. -/
theorem create_linkedEarly
    : ¬(NamedShare.new.run (.create [116] :: List.replicate 3 (.advance true)
        ++ [.lookUp 0 [116] .data, .follow 0])).Published := by
  intro published
  have initialised := (published 0).1
  exact absurd initialised.nullKeyValue (by decide)

end SpeedTables.Shared
