import SpeedTables.Table.IndexCreation

/-! Increments of integer fields against the sums they stand for. -/

namespace SpeedTables

open Lib (SkipList)
open Lib Std

variable {creator : CreatorTable} {host : Host} {field : creator.Field}

-----------------------------------------------------------------------------------------
-- Integer fields
-----------------------------------------------------------------------------------------

/-- The width of the C type of an integer field. -/
def CtableType.intWidth : CtableType → Option Nat
  | .short => some 16
  | .int => some 32
  | .long | .wide => some 64
  | _ => none

/-- The number that a stored integer is. -/
def Storage.number : (type : CtableType) → Storage type → Int
  | .short, value | .int, value | .long, value | .wide, value => value
  | _, _ => 0

/-- The stored form of a number. -/
def Storage.ofNumber : (type : CtableType) → Int → Storage type
  | .short, number | .int, number | .long, number | .wide, number => number
  | type, _ => Storage.zero 0 type

/-- The number in an integer field: a null counts as 0. -/
def Cell.number {type : CtableType} (cell : Cell type) : Int :=
  if cell.isNull then 0 else Storage.number type cell.value

/-- The numbers that a signed C type of a width holds. -/
def InRange (width : Nat) (value : Int) : Prop :=
  -2 ^ (width - 1) ≤ value ∧ value < 2 ^ (width - 1)

/-- Narrowing to a C type keeps the numbers that it holds, and no others. -/
theorem narrow_eq_iff {width : Nat} (wide : 0 < width) {value : Int}
    : narrow width value = value ↔ InRange width value := by
  obtain ⟨half, rfl⟩ := Nat.exists_eq_succ_of_ne_zero (Nat.ne_of_gt wide)
  have double : 2 ^ (half + 1) = 2 * 2 ^ half := Nat.pow_succ'
  have positive : 0 < 2 ^ half := Nat.two_pow_pos half
  rw [narrow, Int.bmod_eq_iff (by omega), InRange]
  simp only [Nat.succ_eq_add_one, double, Nat.add_sub_cancel, Int.sub_self, Int.dvd_zero, and_true]
  push_cast
  constructor <;> rintro ⟨low, high⟩ <;> constructor <;> omega

theorem CtableType.intWidth_pos {type : CtableType} {width : Nat}
    (integer : type.intWidth = some width)
    : 0 < width := by
  cases type <;> simp [CtableType.intWidth] at integer <;> omega

/-- The increment of an integer field stores the narrowed sum. -/
theorem incrValue_integer {type : CtableType} {width : Nat} (integer : type.intWidth = some width)
    : incrValue host type = some (fun cell amount =>
        Storage.ofNumber type (narrow width (cell.number + amount))) := by
  cases type <;> simp only [CtableType.intWidth, reduceCtorEq, Option.some.injEq] at integer <;>
    subst integer <;> refine congrArg some ?_ <;> funext cell amount <;>
    cases null : cell.isNull <;>
    simp [Storage.number, Storage.ofNumber, Cell.number, Cell.addend, null]

@[simp]
theorem Storage.number_ofNumber {type : CtableType} {width : Nat}
    (integer : type.intWidth = some width) (number : Int)
    : Storage.number type (.ofNumber type number) = number := by
  cases type <;> simp only [CtableType.intWidth, reduceCtorEq] at integer <;> rfl

-----------------------------------------------------------------------------------------
-- Storing a value whose index cannot refuse it
-----------------------------------------------------------------------------------------

/-- The index of a field, if there is one, has no levels that a node could be linked at. -/
def CTable.FlatIndex (table : CTable creator) (field : creator.Field) : Prop :=
  ∀ skip, table.skipLists field = some skip → skip.maxh ≤ 1 ∧ skip.nodes = []

theorem CTable.FlatIndex.serase {table : CTable creator} {skip erased : SkipList RowId}
    {row : Row creator} (empty : skip.nodes = [])
    (erases : table.serase field skip row = .ok erased)
    : erased = skip := by
  unfold CTable.serase at erases
  split at erases
  · cases erases
  · cases erases
    rfl
  · next node rest located =>
      unfold CTable.locate at located
      split at located
      · cases located
      · simpa [empty] using Lib.locate_subset located (List.mem_cons_self ..)

theorem CTable.FlatIndex.removeFromIndex {table after : CTable creator} {id : RowId}
    (flat : table.FlatIndex field) (removes : table.removeFromIndex field id = .ok after)
    : after.FlatIndex field := by
  unfold CTable.removeFromIndex at removes
  split at removes
  · next skip node chain _ =>
      obtain ⟨low, empty⟩ := flat skip chain
      split at removes
      · cases removes
      · dsimp only at removes
        split at removes
        · split at removes
          · cases removes
          · next erases =>
              cases removes
              rw [CTable.FlatIndex.serase empty erases]
              intro next same
              obtain rfl : _ = next := by simpa [CTable.setSkipList] using same
              exact ⟨low, by simp [empty, Lib.setBucket]⟩
        · cases removes
          intro next same
          obtain rfl : _ = next := by simpa [CTable.setSkipList] using same
          exact ⟨low, by simp [empty, Lib.setBucket]⟩
  · cases removes
    exact flat

theorem CTable.FlatIndex.removeFromIndexSource {table : CTable creator} {ctl : IndexCtl}
    {id : RowId} (flat : table.FlatIndex field)
    : wp (removeFromIndexSource ctl field id)
        (fun _ after => after.rows = table.rows ∧ after.FlatIndex field
          ∧ after.sharedMaster = table.sharedMaster ∧ after.allocations = table.allocations)
        (stopped (fun _ => False) (fun _ => True)) table := by
  cases ctl with
  | new => exact ⟨rfl, flat, rfl, rfl⟩
  | normal =>
      rw [SpeedTables.removeFromIndexSource, if_pos rfl, SpeedTables.removeFromIndex, wp_bind,
        wp_inspect]
      refine ⟨fun after removes => ?_, fun _ _ => trivial⟩
      have frame := CTable.removeFromIndex_frame removes
      exact ⟨frame.rows, flat.removeFromIndex removes, frame.sharedMaster,
        CTable.removeFromIndex_allocations removes⟩

/-- A flat index lets every value be stored. Only the allocation can fail, and leaves it flat. -/
theorem CTable.FlatIndex.storeIndexed {table : CTable creator} {ctl : IndexCtl} {id : RowId}
    {row : Row creator} {flagged stored : Cell (creator.type field)} {allocates : Bool}
    (flat : table.FlatIndex field) (found : table.rows id = some row)
    : wp (storeIndexed host ctl id field flagged allocates stored)
        (fun _ after => after.rows id = some (row.setCell field stored))
        (stopped
          (fun after => table.AllocationFails host allocates ∧ after.FlatIndex field
            ∧ after.rows id = some (row.setCell field flagged))
          (fun _ => True)) table := by
  rw [SpeedTables.storeIndexed, wp_bind]
  refine wp_mono flat.removeFromIndexSource ?_ ?_
  · rintro _ removed ⟨rows, flat, sharedMaster, allocations⟩
    have there : removed.rows id = some row := rows ▸ found
    rw [wp_bind, putCell_spec there, wp_bind]
    refine wp_mono allocateMayFail_spec ?_ ?_
    · rintro _ allocated ⟨-, count, rfl⟩
      have contents : ({ removed.putRow id (row.setCell field flagged) with
          allocations := count } : CTable creator).rows id = some (row.setCell field flagged) := by
        simp [CTable.putRow]
      have same : (row.setCell field flagged).setCell field stored = row.setCell field stored := by
        simp [Row.setCell]
      rw [wp_bind, putCell_spec contents, same]
      generalize hNext : CTable.putRow _ id (row.setCell field stored) = next
      have stores : next.rows id = some (row.setCell field stored) := by
        simp [← hNext, CTable.putRow]
      have stays : next.FlatIndex field := by
        intro skip chain
        exact flat skip (by simpa [← hNext, CTable.putRow] using chain)
      cases chain : next.skipLists field with
      | none =>
          rw [insertIntoIndex, wp_bind, wp_get]
          simp only [chain]
          exact stores
      | some skip =>
          refine wp_mono (insertIntoIndex_links chain) ?_ ?_
          · rintro _ after ⟨-, linked, -⟩
            rw [linked.frame.rows, stores]
          · intro stop after stops
            cases stop with
            | fault fault => trivial
            | tcl error =>
                obtain ⟨-, other, inside⟩ := stops
                simp [(stays skip chain).2, Lib.entries] at inside
    · rintro stop after ⟨denied, how, count, rfl⟩
      rcases how with ⟨rfl, -⟩ | ⟨rfl, -⟩
      · trivial
      · refine ⟨?_, flat, by simp [CTable.putRow]⟩
        simpa [CTable.AllocationFails, CTable.putRow, sharedMaster, allocations] using denied
  · rintro stop after stops
    cases stop with
    | fault fault => trivial
    | tcl error => exact stops.elim

-----------------------------------------------------------------------------------------
-- The increment of a field
-----------------------------------------------------------------------------------------

/-- An index whose nodes can be linked is in order. One of depth 0 links none. -/
structure CTable.SoundIndex (table : CTable creator) (field : creator.Field) : Prop where
  tall : ∀ skip, table.skipLists field = some skip → 1 < skip.maxh → table.FieldIndex field
  flat : ∀ skip, table.skipLists field = some skip → skip.maxh ≤ 1 → skip.nodes = []

theorem CTable.SoundIndex.flatIndex {table : CTable creator} (sound : table.SoundIndex field)
    (low : ¬ ∃ skip, table.skipLists field = some skip ∧ 1 < skip.maxh)
    : table.FlatIndex field := by
  push Not at low
  exact fun skip chain => ⟨low skip chain, sound.flat skip chain (low skip chain)⟩

/-- The unique index of a field refuses the row: another row of the index is equal. -/
def CTable.Refuses (table : CTable creator) (field : creator.Field) (id : RowId)
    (row : Row creator) : Prop :=
  (∀ skip, table.skipLists field = some skip → 1 < skip.maxh) ∧ table.Clashes field id row

/-- Storing in an integer field stores, unless a unique index refuses the value: then the value
is stored, but not entered.
-/
theorem CTable.SoundIndex.storeIndexed {table : CTable creator} {ctl : IndexCtl} {id : RowId}
    {row : Row creator} {cell : Cell (creator.type field)} (sound : table.SoundIndex field)
    (found : table.rows id = some row) (listed : id ∈ table.llHead) (old : id < table.nextRow)
    (free : ctl = .new → table.links field id = none)
    : wp (storeIndexed host ctl id field cell false cell)
        (fun _ after => after.rows id = some (row.setCell field cell)
          ∧ ¬ table.Refuses field id (row.setCell field cell))
        (stopped
          (fun after => after.rows id = some (row.setCell field cell)
            ∧ table.Refuses field id (row.setCell field cell))
          (fun _ => True))
        table := by
  by_cases tall : ∃ skip, table.skipLists field = some skip ∧ 1 < skip.maxh
  · obtain ⟨skip, chain, tall⟩ := tall
    have high : ∀ other, table.skipLists field = some other → 1 < other.maxh := by
      intro other same
      exact Option.some.inj (chain.symm.trans same) ▸ tall
    refine wp_mono (storeIndexed_spec (sound.tall skip chain tall) listed old found free) ?_ ?_
    · rintro _ after ⟨stored, -, accepted⟩
      exact ⟨stored.contents, fun refuses => accepted refuses.2⟩
    · intro stop after stops
      cases stop with
      | fault fault => trivial
      | tcl error =>
          rcases stops.2 with ⟨⟨never, -⟩, -⟩ | ⟨-, clashes, contents⟩
          · cases never
          · exact ⟨contents, high, clashes⟩
  · have flat := sound.flatIndex tall
    push Not at tall
    have never : ¬ table.Refuses field id (row.setCell field cell) := by
      rintro ⟨high, -, present, -⟩
      obtain ⟨skip, chain⟩ := Option.isSome_iff_exists.mp present
      exact absurd (high skip chain) (Nat.not_lt.mpr (tall skip chain))
    refine wp_mono (flat.storeIndexed found) (fun _ _ contents => ⟨contents, never⟩) ?_
    intro stop after stops
    cases stop with
    | fault fault => trivial
    | tcl error => cases stops.1.1

/-- What `incr` is to do with one field: store and return the sum, or leave the field as it is
with an error.
-/
def IncrCorrect (host : Host) (field : creator.Field) (id : RowId) (row : Row creator)
    (amount : Option Int) : EStateM.Result Stop (CTable creator) (List CString) → Prop
  | .ok values after =>
      ∃ number now, amount = some number ∧ after.rows id = some now
        ∧ (now.cells field).isNull = false
        ∧ (now.cells field).number = (row.cells field).number + number
        ∧ values = [host.format (creator.type field) (now.cells field).value]
  | .error (.tcl _) after =>
      ∃ now, after.rows id = some now ∧ now.cells field = row.cells field
  | .error (.fault _) _ => True

/-- The cell that the increment of an integer field stores. -/
def Row.incremented (row : Row creator) (field : creator.Field) (width : Nat) (amount : Int)
    : Cell (creator.type field) where
  value := .ofNumber (creator.type field) (narrow width ((row.cells field).number + amount))
  isNull := false

/-- When an increment is exact: the type holds the sum and no unique index refuses it. One that is
refused still leaves the field as it is if it adds nothing.
-/
def CTable.IncrFits (table : CTable creator) (field : creator.Field) (id : RowId)
    (row : Row creator) (width : Nat) (amount : Int) : Prop :=
  let cell := row.incremented field width amount
  (InRange width ((row.cells field).number + amount)
      ∧ ¬ table.Refuses field id (row.setCell field cell))
    ∨ (row.cells field = cell ∧ table.Refuses field id (row.setCell field cell))

section Increment

variable {table : CTable creator} {ctl : IndexCtl} {id : RowId} {row : Row creator}
  {fieldObj obj : Obj} {width : Nat}

/-- The increment of one field stores the narrowed sum, and returns it unless it is refused. -/
theorem incrPairs_stores {amount : Int} (named : creator.fieldNumber fieldObj = some field)
    (integer : (creator.type field).intWidth = some width) (sound : table.SoundIndex field)
    (found : table.rows id = some row) (listed : id ∈ table.llHead) (old : id < table.nextRow)
    (free : ctl = .new → table.links field id = none) (adds : host.getInt obj = some amount)
    : wp (incrPairs host ctl id [fieldObj, obj])
        (fun values after =>
          after.rows id = some (row.setCell field (row.incremented field width amount))
          ∧ ¬ table.Refuses field id (row.setCell field (row.incremented field width amount))
          ∧ values = [getString host (row.setCell field (row.incremented field width amount)) field])
        (stopped
          (fun after => after.rows id = some (row.setCell field (row.incremented field width amount))
            ∧ table.Refuses field id (row.setCell field (row.incremented field width amount)))
          (fun _ => True))
        table := by
  simp only [incrPairs, named]
  rw [wp_bind, wp_onTclError, incrField]
  simp only [incrValue_integer integer, adds]
  rw [wp_bind, wp_inspectRow found]
  change wp (SpeedTables.storeIndexed host ctl id field (row.incremented field width amount) false
    (row.incremented field width amount)) _ _ _
  refine wp_mono (sound.storeIndexed found listed old free) ?_ ?_
  · rintro _ after ⟨contents, accepted⟩
    rw [wp_bind, wp_inspectRow contents]
    exact ⟨contents, accepted, rfl⟩
  · intro stop after stops
    cases stop with
    | fault fault => trivial
    | tcl error => exact stops

/-- Incrementing an integer field stores and returns the exact sum, or leaves it with an error, if
and only if the type of the field holds the sum and no unique index refuses it.
-/
theorem incr_correct_iff (named : creator.fieldNumber fieldObj = some field)
    (integer : (creator.type field).intWidth = some width) (sound : table.SoundIndex field)
    (found : table.rows id = some row) (listed : id ∈ table.llHead) (old : id < table.nextRow)
    (free : ctl = .new → table.links field id = none)
    (returns : ∀ fault after,
      incrPairs host ctl id [fieldObj, obj] table ≠ .error (.fault fault) after)
    : IncrCorrect host field id row (host.getInt obj) (incrPairs host ctl id [fieldObj, obj] table)
      ↔ ∀ amount, host.getInt obj = some amount → table.IncrFits field id row width amount := by
  have notKey : field ≠ creator.keyField := by
    rintro rfl
    have type : creator.type creator.keyField = .key := (creator.keyField_iff _).mpr rfl
    simp [type, CtableType.intWidth] at integer
  cases adds : host.getInt obj with
  | none =>
      have refused : ∃ error, incrPairs host ctl id [fieldObj, obj] table = .error (.tcl error) table := by
        simp only [incrPairs, named, incrField, incrValue_integer integer, adds]
        exact ⟨_, rfl⟩
      obtain ⟨error, run⟩ := refused
      simp only [run, reduceCtorEq, false_implies, implies_true, iff_true]
      exact ⟨row, found, rfl⟩
  | some amount =>
      have stores := incrPairs_stores named integer sound found listed old free adds
      have cellNumber : (row.incremented field width amount).number
          = narrow width ((row.cells field).number + amount) := by
        simp [Cell.number, Row.incremented, Storage.number_ofNumber integer]
      have here : (row.setCell field (row.incremented field width amount)).cells field
          = row.incremented field width amount := by
        simp [Row.setCell]
      simp only [Option.some.injEq, forall_eq']
      cases run : incrPairs host ctl id [fieldObj, obj] table with
      | ok values after =>
          obtain ⟨contents, accepted, returned⟩ := wp_returns stores run
          constructor
          · rintro ⟨number, now, same, reads, -, sum, -⟩
            cases same
            obtain rfl := Option.some.inj (reads.symm.trans contents)
            rw [here, cellNumber, narrow_eq_iff (CtableType.intWidth_pos integer)] at sum
            exact .inl ⟨sum, accepted⟩
          · rintro (⟨fits, -⟩ | ⟨-, refuses⟩)
            · refine ⟨amount, _, rfl, contents, by rw [here]; rfl, ?_, ?_⟩
              · rw [here, cellNumber, narrow_eq_iff (CtableType.intWidth_pos integer)]
                exact fits
              · rw [returned, getString, if_neg notKey, here]
                simp [Row.incremented]
            · exact absurd refuses accepted
      | error stop after =>
          cases stop with
          | fault fault => exact absurd run (returns fault after)
          | tcl error =>
              obtain ⟨contents, refuses⟩ := wp_stops stores run
              constructor
              · rintro ⟨now, reads, same⟩
                obtain rfl := Option.some.inj (reads.symm.trans contents)
                rw [here] at same
                exact .inr ⟨same.symm, refuses⟩
              · rintro (⟨-, accepted⟩ | ⟨same, -⟩)
                · exact absurd refuses accepted
                · exact ⟨_, contents, by rw [here, same]⟩

end Increment

/-- The text `2147483647`. -/
def largestInt : Obj :=
  [50, 49, 52, 55, 52, 56, 51, 54, 52, 55]

/-- A host that reads this number too. -/
def countingHost : Host :=
  { sampleHost with
    getInt := fun obj => if obj = largestInt then some (2 ^ 31 - 1) else digitValue obj }

/-- A row with the largest int. -/
def fullRow : CTable sampleCreator :=
  sampleTable [setCommand countingHost [[97], [110], largestInt]]

/-- The number that an increment returned with has stored. -/
def storedNumber : EStateM.Result Stop (CTable sampleCreator) (List CString) → Option Int
  | .ok _ after => (after.rows 0).map (fun row => (row.cells (1 : Fin 6)).number)
  | .error _ _ => none

theorem incr_correct_iff_full
    : IncrCorrect countingHost (1 : Fin 6) 0 (fullRow.rowAt 0) (countingHost.getInt [49])
        (incrPairs countingHost .normal 0 [[110], [49]] fullRow)
      ↔ ∀ amount, countingHost.getInt [49] = some amount →
          fullRow.IncrFits (1 : Fin 6) 0 (fullRow.rowAt 0) 32 amount := by
  have absent : fullRow.skipLists (1 : Fin 6) = none := by decide +kernel
  have present : (fullRow.rows 0).isSome := by decide +kernel
  have found : fullRow.rows 0 = some (fullRow.rowAt 0) := by
    obtain ⟨row, here⟩ := Option.isSome_iff_exists.mp present
    simp [CTable.rowAt, here]
  have stored : (storedNumber (incrPairs countingHost .normal 0 [[110], [49]] fullRow)).isSome := by
    decide +kernel
  refine incr_correct_iff (by decide +kernel) (by decide +kernel)
    ⟨by simp [absent], by simp [absent]⟩ found (by decide +kernel) (by decide +kernel) (by simp) ?_
  intro fault after run
  simp [run, storedNumber] at stored

/-- The increment of the largest int by 1 returns, and has stored the smallest. -/
theorem incr_wraps
    : ¬ IncrCorrect countingHost (1 : Fin 6) 0 (fullRow.rowAt 0) (countingHost.getInt [49])
        (incrPairs countingHost .normal 0 [[110], [49]] fullRow) := by
  have before : ((fullRow.rowAt 0).cells (1 : Fin 6)).number = 2 ^ 31 - 1 := by decide +kernel
  have amount : countingHost.getInt [49] = some 1 := by decide +kernel
  have stored : storedNumber (incrPairs countingHost .normal 0 [[110], [49]] fullRow)
      = some (-2 ^ 31) := by
    decide +kernel
  intro correct
  cases run : incrPairs countingHost .normal 0 [[110], [49]] fullRow with
  | error stop after => simp [run, storedNumber] at stored
  | ok values after =>
      rw [run] at correct stored
      obtain ⟨number, now, same, contents, -, sum, -⟩ := correct
      simp only [storedNumber, contents, Option.map_some, Option.some.injEq] at stored
      rw [amount, Option.some.injEq] at same
      omega

end SpeedTables
