import SpeedTables.Shared.Publication

/-! `share set`, `share get` and table creations by the creator of a share: its names as
registers.
-/

namespace SpeedTables.Shared

-----------------------------------------------------------------------------------------
-- The names of a share
-----------------------------------------------------------------------------------------

/-- The text of an argument, which ends where its terminator is. -/
structure ArgText where
  bytes : CString
  terminated : 0 ∉ bytes
  deriving DecidableEq

/-- A `symbol_t` -/
structure NameSymbol where
  name : CString
  type : SymbolType
  addr : Nat
  deriving DecidableEq

/-- The bytes written at an address, and the room from there to the end of the allocated block. -/
structure StoredText where
  room : Nat
  bytes : CString
  deriving DecidableEq

/-- The list of names, newest first, and the texts in memory. -/
structure NameList where
  namelist : List NameSymbol
  texts : Nat → StoredText
  fresh : Nat

def NameList.new : NameList where
  namelist := []
  texts := fun _ => { room := 0, bytes := [] }
  fresh := 1

/-- `sizeof(symbol_t)`, which is padded behind the empty name. -/
def sizeofSymbol : Nat := 24

/-- `offsetof(symbol_t, name)` -/
def offsetofName : Nat := 20

/-- An `int` that is passed as a `size_t`. -/
def intToSize (len : Nat) : Nat :=
  if len % 2 ^ 32 < 2 ^ 31 then len % 2 ^ 32 else len % 2 ^ 32 + 2 ^ 64 - 2 ^ 32

/-- The bytes of a symbol behind the terminator of its name. A block may have some to spare. -/
def valueRoom (name value : CString) (spare : Nat) : Nat :=
  intToSize (sizeofSymbol + name.length + 1 + value.length + 1) + spare
    - (offsetofName + name.length + 1)

namespace NameList

variable (share : NameList)

def find (name : CString) : Option NameSymbol :=
  share.namelist.find? (fun symbol => symbol.name = name)

/-- `get_symbol`, with any type if none is wanted. -/
def getSymbol (name : CString) (wanted : Option SymbolType) : Option Nat :=
  match share.find name with
  | none => none
  | some symbol =>
      if wanted ≠ none ∧ wanted ≠ some symbol.type then none else some symbol.addr

/-- A symbol in front of the list. -/
def link (symbol : NameSymbol) : NameList :=
  { share with namelist := symbol :: share.namelist }

/-- A text in a block that has been allocated for it. -/
def store (room : Nat) (value : CString) : NameList :=
  { share with
    texts := Function.update share.texts share.fresh { room := room, bytes := value ++ [0] }
    fresh := share.fresh + 1 }

/-- `add_symbol` with a string. The allocation fails, or gives a block with bytes to spare. -/
def addString (name value : CString) (spare : Option Nat) : Option NameList :=
  spare.map fun spare =>
    (share.store (valueRoom name value spare) value).link
      { name := name, type := .string, addr := share.fresh }

/-- `add_symbol` with the address of a table. -/
def addData (name : CString) (address : Nat) (spare : Option Nat) : Option NameList :=
  spare.map fun _ => share.link { name := name, type := .data, addr := address }

/-- The first symbol of the name gets another address. -/
def readdress (name : CString) (addr : Nat) : List NameSymbol → List NameSymbol
  | [] => []
  | symbol :: rest =>
      if symbol.name = name then { symbol with addr := addr } :: rest
      else symbol :: readdress name addr rest

/-- `set_symbol` with a string. The block has no byte for the terminator, unless there are some to
spare.
-/
def setString (name value : CString) (spare : Option Nat) : Option NameList :=
  match share.find name with
  | none => none
  | some symbol =>
      if symbol.type ≠ .string then none
      else
        spare.map fun spare =>
          { share.store (value.length + spare) value with
            namelist := readdress name share.fresh share.namelist }

/-- A pair of a `share set`, with the outcome of its allocation. -/
structure Assignment where
  name : ArgText
  value : ArgText
  spare : Option Nat

/-- The pairs of the arguments. -/
def assignments : List ArgText → List (Option Nat) → List Assignment
  | name :: value :: rest, spares =>
      { name := name, value := value, spare := spares.headD none } :: assignments rest spares.tail
  | _, _ => []

/-- The loop over the pairs: what `set_symbol` and `add_symbol` return is not looked at. -/
def assign (assignment : Assignment) : NameList :=
  let name := assignment.name.bytes
  let value := assignment.value.bytes
  if (share.getSymbol name none).isSome then
    (share.setString name value assignment.spare).getD share
  else (share.addString name value assignment.spare).getD share

/-- `share set`, or an error. -/
def set (args : List ArgText) (spares : List (Option Nat)) : Option NameList :=
  if args.length % 2 = 1 then none else some ((assignments args spares).foldl assign share)

/-- The text at an address. -/
def read (address : Nat) : CString :=
  (share.texts address).bytes.takeWhile (· ≠ 0)

/-- `share get`, or an error. -/
def get (name : ArgText) : Option CString :=
  (share.getSymbol name.bytes (some .string)).map share.read

/-- `share multiget`, or an error. -/
def multiget (names : List ArgText) : Option (List CString) :=
  names.mapM share.get

/-- A table is created under a name, if its memory and then that of the symbol can be allocated. -/
def create (name : ArgText) (table symbol : Option Nat) : NameList :=
  match table with
  | none => share
  | some _ =>
      let created := { share with fresh := share.fresh + 1 }
      (created.addData name.bytes share.fresh symbol).getD created

end NameList

/-- The creator sets names, or creates a table. -/
inductive NameEvent where
  | set (args : List ArgText) (spares : List (Option Nat))
  | create (name : ArgText) (table symbol : Option Nat)

namespace NameList

variable (share : NameList)

def step : NameEvent → NameList
  | .set args spares => (share.set args spares).getD share
  | .create name table symbol => share.create name table symbol

def run (events : List NameEvent) : NameList :=
  events.foldl step share

-----------------------------------------------------------------------------------------
-- Registers
-----------------------------------------------------------------------------------------

/-- What a name stands for. -/
inductive Register where
  | text (value : CString)
  | table (address : Nat)

/-- The register of a symbol. -/
def register (symbol : NameSymbol) : Register :=
  match symbol.type with
  | .string => .text (share.read symbol.addr)
  | .data => .table symbol.addr

/-- The names of a share as registers. -/
def registers (name : CString) : Option Register :=
  (share.find name).map share.register

/-- The bytes that are stored for values lie in the blocks allocated for them. -/
def Inside : Prop :=
  ∀ address, (share.texts address).bytes.length ≤ (share.texts address).room

/-- The last value that the assignments give to a name. -/
def lastValue (name : CString) (assignments : List Assignment) : Option CString :=
  (assignments.reverse.find? (fun assignment => assignment.name.bytes = name)).map
    (·.value.bytes)

/-- What is to hold after a `share set`. -/
structure SetLaw (before after : NameList) (assigned : List Assignment) : Prop where
  get : ∀ assignment ∈ assigned,
    after.get assignment.name = lastValue assignment.name.bytes assigned
  multiget : ∀ names : List ArgText,
    (∀ name ∈ names, ∃ assignment ∈ assigned, assignment.name = name) →
    after.multiget names = names.mapM (fun name => lastValue name.bytes assigned)
  inside : after.Inside
  tables : ∀ name, after.getSymbol name (some .data) = before.getSymbol name (some .data)

/-- A new name has room for its value, and an old one is that of a string and has a block with a
byte to spare.
-/
def AssignmentFits (assignment : Assignment) : Prop :=
  match share.find assignment.name.bytes, assignment.spare with
  | none, some spare =>
      assignment.value.bytes.length
        < valueRoom assignment.name.bytes assignment.value.bytes spare
  | some symbol, some spare => symbol.type = .string ∧ 0 < spare
  | _, none => False

/-- Each pair of a `share set` fits where it is set. -/
def AllFit : NameList → List Assignment → Prop
  | _, [] => True
  | share, assignment :: rest =>
      share.AssignmentFits assignment ∧ (share.assign assignment).AllFit rest

def Fits : NameEvent → Prop
  | .set args spares => share.AllFit (assignments args spares)
  | .create _ _ _ => True

/-- Every step of a run meets the condition. -/
def Along : NameList → List NameEvent → Prop
  | _, [] => True
  | share, event :: events => share.Fits event ∧ (share.step event).Along events

-----------------------------------------------------------------------------------------
-- The invariant
-----------------------------------------------------------------------------------------

/-- The names lead to allocated memory, and no text is longer than its room. -/
structure Sound : Prop where
  addressed : ∀ symbol ∈ share.namelist, symbol.addr < share.fresh
  inside : share.Inside

variable {share : NameList} {assignment : Assignment}

theorem find_link (symbol : NameSymbol) (name : CString)
    : (share.link symbol).find name
      = if symbol.name = name then some symbol else share.find name := by
  rw [find, link, List.find?_cons]
  by_cases same : symbol.name = name
  · simp [same]
  · simp [same, find]

/-- The symbol of the name is found with the new address, and the others as before, by induction on
the list.
-/
theorem find_readdress (name other : CString) (addr : Nat) (namelist : List NameSymbol)
    : (readdress name addr namelist).find? (fun symbol => symbol.name = other)
      = if other = name then
          (namelist.find? (fun symbol => symbol.name = name)).map ({ · with addr := addr })
        else namelist.find? (fun symbol => symbol.name = other) := by
  induction namelist with
  | nil => simp [readdress]
  | cons symbol rest ih =>
      by_cases own : symbol.name = name
      · by_cases same : other = name
        · simp [readdress, own, same]
        · have apart : name ≠ other := fun equal => same equal.symm
          simp [readdress, own, same, apart]
      · by_cases same : other = name
        · subst same
          simpa [readdress, own] using ih
        · by_cases this : symbol.name = other
          · simp [readdress, same, this]
          · simpa [readdress, own, same, this] using ih

/-- A stored text is read as it was given. -/
theorem read_store (room : Nat) (value : ArgText)
    : (share.store room value.bytes).read share.fresh = value.bytes := by
  have text : (share.store room value.bytes).texts share.fresh
      = { room := room, bytes := value.bytes ++ [0] } := Function.update_self ..
  rw [read, text]
  have whole : ∀ byte ∈ value.bytes, (decide (byte ≠ 0)) = true := by
    intro byte inside
    rw [decide_eq_true_iff]
    rintro rfl
    exact value.terminated inside
  rw [List.takeWhile_append_of_pos whole]
  simp

/-- The registers of symbols with earlier addresses do not change. -/
theorem register_store (room : Nat) (value : CString) {symbol : NameSymbol}
    (earlier : symbol.addr < share.fresh)
    : (share.store room value).register symbol = share.register symbol := by
  have apart : symbol.addr ≠ share.fresh := Nat.ne_of_lt earlier
  rw [register, register]
  cases symbol.type with
  | data => rfl
  | string => simp only [read, store, Function.update_of_ne apart]

/-- A text with its terminator lies in a block that has room for both. -/
theorem Sound.store (sound : share.Sound) {room : Nat} {value : CString}
    (fits : value.length < room)
    : (share.store room value).Inside := by
  intro address
  by_cases same : address = share.fresh
  · subst same
    simpa [NameList.store] using fits
  · simpa [NameList.store, Function.update_of_ne same] using sound.inside address

theorem getSymbol_any {name : CString}
    : (share.getSymbol name none).isSome = (share.find name).isSome := by
  rw [getSymbol]
  cases share.find name with
  | none => rfl
  | some symbol => rfl

theorem addr_lt (sound : share.Sound) {name : CString} {symbol : NameSymbol}
    (found : share.find name = some symbol)
    : symbol.addr < share.fresh :=
  sound.addressed symbol (List.mem_of_find?_eq_some found)

/-- A new name has its value, and the other names what they had. -/
theorem addString_spec (sound : share.Sound) (name value : ArgText) (spare : Nat)
    (fits : value.bytes.length < valueRoom name.bytes value.bytes spare)
    : ∃ after, share.addString name.bytes value.bytes (some spare) = some after ∧ after.Sound
        ∧ after.registers
          = Function.update share.registers name.bytes (some (.text value.bytes)) := by
  refine ⟨_, rfl, ⟨?_, sound.store fits⟩, ?_⟩
  · intro symbol inside
    obtain rfl | more := List.mem_cons.mp inside
    · exact Nat.lt_succ_self _
    · exact Nat.lt_succ_of_lt (sound.addressed symbol more)
  · funext other
    rw [registers, find_link]
    by_cases same : name.bytes = other
    · subst same
      rw [if_pos rfl, Function.update_self]
      exact congrArg (fun text => some (Register.text text)) (read_store _ value)
    · rw [if_neg same, Function.update_of_ne (Ne.symm same), registers]
      change (share.find other).map _ = _
      cases found : share.find other with
      | none => rfl
      | some symbol => exact congrArg some (register_store _ _ (addr_lt sound found))

/-- The name of a string has its new value, and the other names what they had. -/
theorem setString_spec (sound : share.Sound) (name value : ArgText) (spare : Nat)
    {symbol : NameSymbol} (found : share.find name.bytes = some symbol)
    (string : symbol.type = .string) (fits : 0 < spare)
    : ∃ after, share.setString name.bytes value.bytes (some spare) = some after ∧ after.Sound
        ∧ after.registers
          = Function.update share.registers name.bytes (some (.text value.bytes)) := by
  rw [setString, found]
  simp only [string, ne_eq, not_true_eq_false, if_false]
  refine ⟨_, rfl, ⟨?_, sound.store (Nat.lt_add_of_pos_right fits)⟩, ?_⟩
  · have grown : ∀ namelist : List NameSymbol, (∀ symbol ∈ namelist, symbol.addr < share.fresh) →
        ∀ symbol ∈ readdress name.bytes share.fresh namelist, symbol.addr < share.fresh + 1 := by
      intro namelist addressed
      induction namelist with
      | nil => exact List.forall_mem_nil _
      | cons first rest ih =>
          obtain ⟨own, others⟩ := List.forall_mem_cons.mp addressed
          rw [readdress]
          split
          · exact List.forall_mem_cons.mpr ⟨Nat.lt_succ_self _,
              fun symbol inside => Nat.lt_succ_of_lt (others symbol inside)⟩
          · exact List.forall_mem_cons.mpr ⟨Nat.lt_succ_of_lt own, ih others⟩
    exact grown share.namelist sound.addressed
  · funext other
    rw [registers, find, find_readdress]
    by_cases same : other = name.bytes
    · subst same
      rw [if_pos rfl, Function.update_self]
      rw [find] at found
      rw [found]
      change some (register _ { symbol with addr := share.fresh }) = _
      rw [register, string]
      exact congrArg (fun text => some (Register.text text)) (read_store _ value)
    · rw [if_neg same, Function.update_of_ne same, registers, find]
      cases found : share.namelist.find? (fun symbol => symbol.name = other) with
      | none => rfl
      | some symbol => exact congrArg some (register_store _ _ (addr_lt sound found))

/-- The address under the name of a table. -/
def tableAt (register : Option Register) : Option Nat :=
  match register with
  | some (.table address) => some address
  | _ => none

/-- The value under the name of a string. -/
def textAt (register : Option Register) : Option CString :=
  match register with
  | some (.text value) => some value
  | _ => none

theorem getSymbol_data (name : CString)
    : share.getSymbol name (some .data) = tableAt (share.registers name) := by
  rw [getSymbol, registers]
  cases share.find name with
  | none => rfl
  | some symbol =>
      obtain ⟨name, type, addr⟩ := symbol
      cases type with
      | data => rfl
      | string => rfl

theorem get_eq (name : ArgText)
    : share.get name = textAt (share.registers name.bytes) := by
  rw [get, getSymbol, registers]
  cases share.find name.bytes with
  | none => rfl
  | some symbol =>
      obtain ⟨name, type, addr⟩ := symbol
      cases type with
      | data => rfl
      | string => rfl

/-- A pair that fits gives its name the value, and no table another address. -/
theorem assign_spec (sound : share.Sound) (fits : share.AssignmentFits assignment)
    : (share.assign assignment).Sound
      ∧ (share.assign assignment).registers = Function.update share.registers
          assignment.name.bytes (some (.text assignment.value.bytes))
      ∧ tableAt (share.registers assignment.name.bytes) = none := by
  obtain ⟨name, value, spare⟩ := assignment
  rw [AssignmentFits] at fits
  cases found : share.find name.bytes with
  | none =>
      cases spare with
      | none => simp [found] at fits
      | some spare =>
          simp only [found] at fits
          obtain ⟨after, added, kept, changed⟩ := addString_spec sound name value spare fits
          have same : share.assign { name := name, value := value, spare := some spare }
              = after := by
            rw [assign, getSymbol_any, found]
            simp [added]
          rw [same]
          exact ⟨kept, changed, by rw [registers, found]; rfl⟩
  | some symbol =>
      cases spare with
      | none => simp [found] at fits
      | some spare =>
          simp only [found] at fits
          obtain ⟨string, positive⟩ := fits
          obtain ⟨after, set, kept, changed⟩ :=
            setString_spec sound name value spare found string positive
          have same : share.assign { name := name, value := value, spare := some spare }
              = after := by
            rw [assign, getSymbol_any, found]
            simp [set]
          rw [same]
          refine ⟨kept, changed, ?_⟩
          rw [registers, found, Option.map_some, register, string]
          rfl

/-- The last of the assignments to a name counts, by the first one and the rest. -/
theorem lastValue_cons (name : CString) (rest : List Assignment)
    : lastValue name (assignment :: rest)
      = (lastValue name rest).or
          (if assignment.name.bytes = name then some assignment.value.bytes else none) := by
  rw [lastValue, lastValue, List.reverse_cons, List.find?_append]
  cases (rest.reverse.find? (fun assignment => assignment.name.bytes = name)) with
  | some found => rfl
  | none =>
      by_cases same : assignment.name.bytes = name
      · simp [same]
      · simp [same]

/-- The loop over the pairs, by induction on them: each name has its last value, and the tables have
their addresses.
-/
theorem assignments_spec (sound : share.Sound) {assigned : List Assignment}
    (fit : share.AllFit assigned)
    : (assigned.foldl assign share).Sound
      ∧ (∀ name, (assigned.foldl assign share).registers name
          = ((lastValue name assigned).map Register.text).or (share.registers name))
      ∧ ∀ name, tableAt ((assigned.foldl assign share).registers name)
          = tableAt (share.registers name) := by
  induction assigned generalizing share with
  | nil => exact ⟨sound, fun _ => rfl, fun _ => rfl⟩
  | cons assignment rest ih =>
      obtain ⟨kept, changed, noTable⟩ := assign_spec sound fit.1
      obtain ⟨final, values, tables⟩ := ih kept fit.2
      refine ⟨final, fun name => ?_, fun name => ?_⟩
      · rw [List.foldl_cons, values, changed, lastValue_cons]
        by_cases same : assignment.name.bytes = name
        · subst same
          rw [Function.update_self, if_pos rfl]
          cases lastValue assignment.name.bytes rest with
          | none => rfl
          | some value => rfl
        · rw [Function.update_of_ne (Ne.symm same), if_neg same, Option.or_none]
      · rw [List.foldl_cons, tables, changed]
        by_cases same : assignment.name.bytes = name
        · subst same
          rw [Function.update_self, noTable]
          rfl
        · rw [Function.update_of_ne (Ne.symm same)]

/-- A name that is assigned has a last value. -/
theorem lastValue_isSome {assigned : List Assignment} (inside : assignment ∈ assigned)
    : (lastValue assignment.name.bytes assigned).isSome = true := by
  rw [lastValue, Option.isSome_map, List.find?_isSome]
  exact ⟨assignment, List.mem_reverse.mpr inside, by simp⟩

/-- A `share set` whose pairs fit keeps the law. -/
theorem setLaw_of_fit (sound : share.Sound) {assigned : List Assignment}
    (fit : share.AllFit assigned)
    : SetLaw share (assigned.foldl assign share) assigned := by
  obtain ⟨final, values, tables⟩ := assignments_spec sound fit
  have got : ∀ assignment ∈ assigned, (assigned.foldl assign share).get assignment.name
      = lastValue assignment.name.bytes assigned := by
    intro assignment inside
    obtain ⟨value, last⟩ := Option.isSome_iff_exists.mp (lastValue_isSome inside)
    rw [get_eq, values, last]
    rfl
  refine ⟨got, ?_, final.inside, ?_⟩
  · intro names among
    rw [multiget]
    induction names with
    | nil => rfl
    | cons name names ih =>
        obtain ⟨⟨assignment, inside, rfl⟩, others⟩ := List.forall_mem_cons.mp among
        rw [List.mapM_cons, List.mapM_cons, got assignment inside, ih others]
  · intro name
    rw [getSymbol_data, getSymbol_data, tables]

/-- A creation leaves the texts as they are. -/
theorem Sound.create (sound : share.Sound) (name : ArgText) (table symbol : Option Nat)
    : (share.create name table symbol).Sound := by
  have later : ∀ symbol ∈ share.namelist, symbol.addr < share.fresh + 1 :=
    fun symbol inside => Nat.lt_succ_of_lt (sound.addressed symbol inside)
  cases table with
  | none => exact sound
  | some spare =>
      cases symbol with
      | none => exact ⟨later, sound.inside⟩
      | some room => exact ⟨List.forall_mem_cons.mpr ⟨Nat.lt_succ_self _, later⟩, sound.inside⟩

/-- A step that fits keeps the invariant. -/
theorem Sound.step (sound : share.Sound) {event : NameEvent} (fits : share.Fits event)
    : (share.step event).Sound := by
  cases event with
  | set args spares =>
      rw [NameList.step, NameList.set]
      split
      · exact sound
      · exact (assignments_spec sound fits).1
  | create name table symbol => exact sound.create name table symbol

theorem along_append {events later : List NameEvent}
    : share.Along (events ++ later) ↔ share.Along events ∧ (share.run events).Along later := by
  induction events generalizing share with
  | nil => exact ⟨fun along => ⟨trivial, along⟩, fun ⟨_, along⟩ => along⟩
  | cons event events ih =>
      rw [List.cons_append, Along, Along, ih, and_assoc]
      rfl

/-- A run whose steps fit keeps the invariant, by induction on the steps. -/
theorem Sound.run (sound : share.Sound) {events : List NameEvent} (fits : share.Along events)
    : (share.run events).Sound := by
  induction events generalizing share with
  | nil => exact sound
  | cons event events ih => exact ih (sound.step fits.1) fits.2

theorem sound_new : NameList.new.Sound where
  addressed := List.forall_mem_nil _
  inside := fun _ => Nat.le_refl _

/-- In a run whose steps all fit, every stored byte is in its block, and after each `share set` the
names it was given have their last values, and the names of tables their addresses.
-/
theorem run_setLaw (events : List NameEvent) (fits : NameList.new.Along events)
    : (NameList.new.run events).Inside
      ∧ ∀ earlier args spares later, events = earlier ++ .set args spares :: later →
          ∀ after, (NameList.new.run earlier).set args spares = some after →
            SetLaw (NameList.new.run earlier) after (assignments args spares) := by
  refine ⟨(sound_new.run fits).inside, ?_⟩
  intro earlier args spares later split after given
  rw [split, along_append] at fits
  obtain ⟨before, own, -⟩ := fits
  rw [set] at given
  split at given
  · cases given
  · obtain rfl := Option.some.inj given
    exact setLaw_of_fit (sound_new.run before) own

/-- A table, a name that is set twice in one command, the second time with a byte to spare. -/
def namedRun : List NameEvent :=
  [.create ⟨[116], by decide⟩ (some 0) (some 0),
    .set [⟨[97], by decide⟩, ⟨[120], by decide⟩, ⟨[97], by decide⟩, ⟨[121, 122], by decide⟩]
      [some 0, some 1]]

theorem run_setLaw_named
    : (NameList.new.run namedRun).Inside
      ∧ ∀ earlier args spares later, namedRun = earlier ++ .set args spares :: later →
          ∀ after, (NameList.new.run earlier).set args spares = some after →
            SetLaw (NameList.new.run earlier) after (assignments args spares) := by
  refine run_setLaw namedRun ⟨trivial, ⟨?_, ?_, trivial⟩, trivial⟩
  · change 1 < valueRoom [97] [120] 0
    decide
  · exact ⟨rfl, Nat.one_pos⟩

/-- The name of a table is set: the command returns OK, and the name has no value. -/
theorem run_setLaw_table
    : ¬ ∀ events : List NameEvent,
        (NameList.new.run events).Inside
        ∧ ∀ earlier args spares later, events = earlier ++ .set args spares :: later →
            ∀ after, (NameList.new.run earlier).set args spares = some after →
              SetLaw (NameList.new.run earlier) after (assignments args spares) := by
  intro claim
  have name : (0 : UInt8) ∉ [116] := by decide
  have value : (0 : UInt8) ∉ [120] := by decide
  have law := (claim [.create ⟨[116], name⟩ (some 0) (some 0),
    .set [⟨[116], name⟩, ⟨[120], value⟩] [some 8]]).2 [.create ⟨[116], name⟩ (some 0) (some 0)]
    _ _ [] rfl _ (if_neg (by simp))
  have got := law.get { name := ⟨[116], name⟩, value := ⟨[120], value⟩, spare := some 8 }
    List.mem_cons_self
  cases got

end NameList

end SpeedTables.Shared
