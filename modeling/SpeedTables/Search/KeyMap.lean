import SpeedTables.Search.Session
import SpeedTables.Table.KeyInvariant
import SpeedTables.Table.Sample

/-! The key hash table is a finite map from keys to entries. -/

namespace SpeedTables

open Lib

variable {creator : CreatorTable}

-----------------------------------------------------------------------------------------
-- Operations
-----------------------------------------------------------------------------------------

/-- An operation on the key hash table. The entry to store is a part of a row that is provided. -/
inductive HashOp (creator : CreatorTable) where
  | store (key : CString) (entry : RowId) (fresh : Row creator)
  | find (key : CString)
  | delete (entry : RowId)
  | iterate

/-- What an operation answers. -/
inductive HashAnswer where
  | stored (entry : RowId) (isNew : Bool)
  | found (entry : Option RowId)
  | deleted
  | visited (entries : List RowId)

/-- The entries that `ctable_NextHashEntry` returns until it returns none. -/
def CTable.visitEntries (table : CTable creator) : Nat → ForeachFrame → Except Fault (List RowId)
  | fuel, frame =>
      match table.keyTable.nextHashEntry frame with
      | none => .ok []
      | some (entry, index) =>
          match fuel with
          | 0 => .error .endlessLoop
          | fuel + 1 =>
              match table.row entry with
              | .error fault => .error fault
              | .ok _ =>
                  (table.visitEntries fuel
                    { frame with nextIndex := index, nextEntry := table.keyTable.next entry }).map
                    (entry :: ·)

/-- The record that `ctable_FirstHashEntry` sets up. -/
def firstFrame : ForeachFrame where
  pattern := none
  nextIndex := 0
  nextEntry := none

/-- Carry out an operation. A row that is provided has been allocated. -/
def HashOp.perform : HashOp creator → TableM creator HashAnswer
  | .store key entry fresh => do
      modify (fun table => { table with nextRow := max table.nextRow (entry + 1) })
      let (stored, isNew) ← storeHashEntry key entry fresh
      pure (.stored stored isNew)
  | .find key => do
      let found ← inspect (CTable.findHashEntry · key)
      pure (.found found)
  | .delete entry => do
      let keyTable ← inspect (CTable.deleteHashEntry · entry)
      modify (fun table => { table with keyTable := keyTable })
      pure .deleted
  | .iterate => do
      let entries ← inspect (fun table => table.visitEntries table.chainFuel firstFrame)
      pure (.visited entries)

/-- Carry out operations, one after another. -/
def performAll : List (HashOp creator) → TableM creator (List HashAnswer)
  | [] => pure []
  | op :: ops => do
      let answer ← op.perform
      let answers ← performAll ops
      pure (answer :: answers)

-----------------------------------------------------------------------------------------
-- The map
-----------------------------------------------------------------------------------------

/-- A map from keys to entries. -/
abbrev EntryMap :=
  CString → Option RowId

/-- The map after an operation. An entry that is stored already stays. -/
def HashOp.after (map : EntryMap) : HashOp creator → EntryMap
  | .store key entry _ =>
      if (map key).isSome then map else Function.update map key (some entry)
  | .find _ => map
  | .delete entry => fun key => if map key = some entry then none else map key
  | .iterate => map

/-- An entry that is provided is in no use, and one that is deleted is stored. -/
def HashOp.Allowed (map : EntryMap) : HashOp creator → Prop
  | .store _ entry _ => ∀ key, map key ≠ some entry
  | .find _ => True
  | .delete entry => ∃ key, map key = some entry
  | .iterate => True

/-- The answer that the map gives. -/
def HashOp.Answers (map : EntryMap) : HashOp creator → HashAnswer → Prop
  | .store key entry _, .stored stored isNew =>
      stored = (map key).getD entry ∧ isNew = (map key).isNone
  | .find key, .found found => found = map key
  | .delete _, .deleted => True
  | .iterate, .visited entries =>
      entries.Nodup ∧ ∀ entry, entry ∈ entries ↔ ∃ key, map key = some entry
  | _, _ => False

/-- The map after some operations. -/
def mapAfter (map : EntryMap) (ops : List (HashOp creator)) : EntryMap :=
  ops.foldl HashOp.after map

/-- All operations are allowed. -/
def AllAllowed : EntryMap → List (HashOp creator) → Prop
  | _, [] => True
  | map, op :: ops => op.Allowed map ∧ AllAllowed (op.after map) ops

/-- All answers are those of the map. -/
def AllAnswer : EntryMap → List (HashOp creator) → List HashAnswer → Prop
  | _, [], [] => True
  | map, op :: ops, answer :: answers => op.Answers map answer ∧ AllAnswer (op.after map) ops answers
  | _, _, _ => False

/-- Every entry stands in the chain of the bucket that a lookup of its key computes. -/
def CTable.Placed (table : CTable creator) (map : EntryMap) : Prop :=
  ∀ key entry, map key = some entry →
    ∃ chain,
      IsChain table.keyTable.next
          (table.keyTable.buckets (table.keyTable.randomIndex (hashStringKey key))) chain
        ∧ entry ∈ chain

/-- A run from the empty map gave the answers of the map and left every entry where a lookup looks, or
stopped because the next rebuild would take the shift out of its range.
-/
def RefinesMap (ops : List (HashOp creator))
    : EStateM.Result Stop (CTable creator) (List HashAnswer) → Prop
  | .ok answers after =>
      AllAnswer (fun _ => none) ops answers ∧ after.Placed (mapAfter (fun _ => none) ops)
  | .error stop after => stop = .fault .integerOverflow ∧ after.keyTable.downShift < 4

/-- The sizes of a hash table that was rebuilt so many times. -/
def HashTable.Rebuilt (table : HashTable) (times : Nat) : Prop :=
  table.rebuildSize = 48 * 16 ^ times ∧ table.downShift = 26 - 4 * times ∧ times ≤ 6

-----------------------------------------------------------------------------------------
-- Rebuilding ends
-----------------------------------------------------------------------------------------

/-- The row of an entry is there. -/
def CTable.Alive (table : CTable creator) (entry : RowId) : Prop :=
  ∃ row, table.row entry = .ok row

theorem CTable.alive_of_rows {table : CTable creator} {entry : RowId} {row : Row creator}
    (found : table.rows entry = some row)
    : table.row entry = .ok row := by
  rw [CTable.row, found]

/-- Moving an old chain of rows that are there ends, by induction on the chain. -/
theorem CTable.rehashChain_ends {table : CTable creator} {chain : List RowId}
    {start : Option RowId} {fuel : Nat} {moved : HashTable}
    (linked : IsChain moved.next start chain) (distinct : chain.Nodup)
    (alive : ∀ entry ∈ chain, table.Alive entry) (enough : chain.length ≤ fuel)
    : ∃ after, table.rehashChain fuel start moved = .ok after := by
  induction chain generalizing start fuel moved with
  | nil =>
      cases linked
      exact ⟨moved, by cases fuel <;> rfl⟩
  | cons entry rest ih =>
      obtain ⟨rfl, behind⟩ := linked
      obtain ⟨notBehind, distinctRest⟩ := List.nodup_cons.mp distinct
      obtain ⟨fuel, rfl⟩ := Nat.exists_eq_succ_of_ne_zero (Nat.ne_of_gt (Nat.zero_lt_of_lt enough))
      obtain ⟨row, found⟩ := alive entry (by simp)
      have chainKept : IsChain (moved.push entry).next (moved.next entry) rest := by
        refine behind.congr ?_
        intro other member
        have different : other ≠ entry := fun same => notBehind (same ▸ member)
        simp [HashTable.push, different]
      rw [CTable.rehashChain, found]
      exact ih chainKept distinctRest (fun other member => alive other (by simp [member]))
        (Nat.le_of_succ_le_succ enough)

/-- Moving the entries of old buckets ends, by induction on the bucket numbers. -/
theorem CTable.rehashBuckets_ends {table : CTable creator} {old : Nat → Option RowId}
    {oldIndex : RowId → Nat} {all indexes members : List RowId} {moved : HashTable}
    (distinct : indexes.Nodup)
    (chains : ∀ i ∈ indexes, ∃ chain, IsChain moved.next (old i) chain ∧ chain.Nodup
      ∧ ∀ entry, entry ∈ chain ↔ entry ∈ all ∧ oldIndex entry = i)
    (apart : ∀ entry ∈ members, oldIndex entry ∉ indexes) (holds : moved.Linked members)
    (alive : ∀ entry ∈ all, table.Alive entry) (bounded : ∀ entry ∈ all, entry < table.nextRow)
    : ∃ after, table.rehashBuckets old indexes moved = .ok after := by
  induction indexes generalizing members moved with
  | nil => exact ⟨moved, rfl⟩
  | cons index rest ih =>
      obtain ⟨notAgain, distinctRest⟩ := List.nodup_cons.mp distinct
      obtain ⟨chain, linked, nodup, inside⟩ := chains index (by simp)
      have short : chain.length ≤ 3 * table.chainFuel := by
        have part : chain ⊆ List.range table.nextRow := by
          intro entry member
          exact List.mem_range.mpr (bounded entry ((inside entry).mp member).1)
        have length := (List.subperm_of_subset nodup part).length_le
        rw [List.length_range] at length
        rw [CTable.chainFuel]
        omega
      obtain ⟨middle, moving⟩ :=
        CTable.rehashChain_ends linked nodup
          (fun entry member => alive entry ((inside entry).mp member).1) short
      have fresh : ∀ entry ∈ chain, entry ∉ members := by
        intro entry member old
        exact apart entry old (by simp [((inside entry).mp member).2])
      obtain ⟨holdsMore, -, unmoved⟩ := CTable.rehashChain_spec linked nodup fresh holds moving
      have chainsRest : ∀ i ∈ rest, ∃ chain, IsChain middle.next (old i) chain ∧ chain.Nodup
          ∧ ∀ entry, entry ∈ chain ↔ entry ∈ all ∧ oldIndex entry = i := by
        intro i later
        obtain ⟨other, linkedOther, nodupOther, insideOther⟩ := chains i (by simp [later])
        refine ⟨other, linkedOther.congr ?_, nodupOther, insideOther⟩
        intro entry member
        refine unmoved entry fun first => ?_
        have equal := ((inside entry).mp first).2.symm.trans ((insideOther entry).mp member).2
        exact notAgain (equal ▸ later)
      have apartRest : ∀ entry ∈ chain.reverse ++ members, oldIndex entry ∉ rest := by
        intro entry member later
        rcases List.mem_append.mp member with first | former
        · rw [((inside entry).mp (List.mem_reverse.mp first)).2] at later
          exact notAgain later
        · exact apart entry former (by simp [later])
      rw [CTable.rehashBuckets, moving]
      exact ih distinctRest chainsRest apartRest holdsMore

/-- Moving an old chain leaves the sizes as they are. -/
theorem CTable.rehashChain_sizes {table : CTable creator} {fuel : Nat} {start : Option RowId}
    {moved after : HashTable} (result : table.rehashChain fuel start moved = .ok after)
    : after.rebuildSize = moved.rebuildSize ∧ after.downShift = moved.downShift := by
  induction fuel generalizing start moved with
  | zero =>
      cases start with
      | none =>
          cases result
          exact ⟨rfl, rfl⟩
      | some entry => cases result
  | succ fuel ih =>
      cases start with
      | none =>
          cases result
          exact ⟨rfl, rfl⟩
      | some entry =>
          rw [CTable.rehashChain] at result
          split at result
          next => cases result
          next =>
            obtain ⟨size, shift⟩ := ih result
            exact ⟨size, shift⟩

theorem CTable.rehashBuckets_sizes {table : CTable creator} {old : Nat → Option RowId}
    {indexes : List Nat} {moved after : HashTable}
    (result : table.rehashBuckets old indexes moved = .ok after)
    : after.rebuildSize = moved.rebuildSize ∧ after.downShift = moved.downShift := by
  induction indexes generalizing moved with
  | nil =>
      cases result
      exact ⟨rfl, rfl⟩
  | cons index rest ih =>
      rw [CTable.rehashBuckets] at result
      split at result
      next => cases result
      next middle moving =>
        obtain ⟨size, shift⟩ := CTable.rehashChain_sizes moving
        obtain ⟨sizeRest, shiftRest⟩ := ih result
        exact ⟨sizeRest.trans size, shiftRest.trans shift⟩

/-- Rebuilding fails only when the shift would leave its range. -/
theorem CTable.rebuildTable_ends {table : CTable creator} {members : List RowId}
    {full : HashTable} {times : Nat} (holds : full.Linked members)
    (alive : ∀ entry ∈ members, table.Alive entry)
    (bounded : ∀ entry ∈ members, entry < table.nextRow) (rebuilt : full.Rebuilt times)
    : (∃ after, table.rebuildTable full = .ok after ∧ ∃ times, after.Rebuilt times)
      ∨ table.rebuildTable full = .error .integerOverflow ∧ full.downShift < 4 := by
  obtain ⟨size, shift, few⟩ := rebuilt
  have last (more : times ≠ 6) : 16 ^ times ≤ 16 ^ 5 :=
    Nat.pow_le_pow_right (by omega) (by omega)
  unfold CTable.rebuildTable
  split
  next large =>
    refine .inr ⟨rfl, ?_⟩
    have times6 : times = 6 := by
      by_contra more
      have power := last more
      omega
    omega
  next small =>
    have more : times ≠ 6 := by
      rintro rfl
      omega
    obtain ⟨after, result⟩ :=
      @CTable.rehashBuckets_ends creator table full.buckets full.entryIndex members
        (List.range full.numBuckets) []
        { full with
          buckets := fun _ => none
          numBuckets := full.numBuckets * 16
          rebuildSize := full.rebuildSize * 16
          downShift := full.downShift - 4
          mask := (full.mask <<< 4) + 15 }
        List.nodup_range (fun i _ => holds i) nofun (BucketsHold.empty _ _) alive bounded
    obtain ⟨sizeAfter, shiftAfter⟩ := CTable.rehashBuckets_sizes result
    refine .inl ⟨after, result, times + 1, ?_, ?_, by omega⟩
    · rw [sizeAfter]
      dsimp only
      rw [size, Nat.pow_succ, Nat.mul_assoc]
    · rw [shiftAfter]
      dsimp only
      omega

/-- Linking an entry of a row that is there fails only when the shift would leave its range. -/
theorem CTable.linkHashEntry_ends {table : CTable creator} {members : List RowId} {entry : RowId}
    {times : Nat} (key : CString) (holds : table.keyTable.Linked members) (fresh : entry ∉ members)
    (alive : ∀ other ∈ entry :: members, table.Alive other)
    (bounded : ∀ other ∈ entry :: members, other < table.nextRow)
    (rebuilt : table.keyTable.Rebuilt times)
    : (∃ after, table.linkHashEntry key entry = .ok after ∧ ∃ times, after.Rebuilt times)
      ∨ table.linkHashEntry key entry = .error .integerOverflow ∧ table.keyTable.downShift < 4 := by
  have hashedHolds
      : HashTable.Linked
          { table.keyTable with
            hash := Function.update table.keyTable.hash entry (hashStringKey key) } members := by
    refine BucketsHold.index_congr holds ?_
    intro other member
    have different : other ≠ entry := fun same => fresh (same ▸ member)
    simp [HashTable.entryIndex, HashTable.randomIndex, different]
  have pushed := hashedHolds.push fresh
  unfold CTable.linkHashEntry
  dsimp only
  split
  next => exact CTable.rebuildTable_ends pushed alive bounded rebuilt
  next => exact .inl ⟨_, rfl, times, rebuilt⟩

-----------------------------------------------------------------------------------------
-- Deleting ends
-----------------------------------------------------------------------------------------

/-- An element of a chain that is not the first has an element before it, by induction on the
chain.
-/
theorem CTable.searchPrevious_ends {table : CTable creator} {chain : List RowId} {entry : RowId}
    {start : Option RowId} {fuel : Nat} (linked : IsChain table.keyTable.next start chain)
    (member : entry ∈ chain) (notFirst : start ≠ some entry)
    (alive : ∀ other ∈ chain, table.Alive other) (enough : chain.length ≤ fuel)
    : ∃ previous, table.searchPrevious entry fuel start = .ok previous := by
  induction chain generalizing start fuel with
  | nil => cases member
  | cons head rest ih =>
      obtain ⟨rfl, behind⟩ := linked
      obtain ⟨fuel, rfl⟩ := Nat.exists_eq_succ_of_ne_zero (Nat.ne_of_gt (Nat.zero_lt_of_lt enough))
      obtain ⟨row, found⟩ := alive head (by simp)
      rw [CTable.searchPrevious, found]
      dsimp only
      split
      next => exact ⟨head, rfl⟩
      next notNext =>
        rcases List.mem_cons.mp member with rfl | later
        · exact absurd rfl notFirst
        · exact ih behind later notNext (fun other inside => alive other (by simp [inside]))
            (Nat.le_of_succ_le_succ enough)

/-- Deleting a member never meets the end of its chain. -/
theorem CTable.deleteHashEntry_ends {table : CTable creator} {members : List RowId} {entry : RowId}
    (holds : table.keyTable.Linked members) (member : entry ∈ members)
    (alive : ∀ other ∈ members, table.Alive other)
    (bounded : ∀ other ∈ members, other < table.nextRow)
    : ∃ after, table.deleteHashEntry entry = .ok after
        ∧ after.rebuildSize = table.keyTable.rebuildSize
        ∧ after.downShift = table.keyTable.downShift := by
  unfold CTable.deleteHashEntry
  dsimp only
  split
  next => exact ⟨_, rfl, rfl, rfl⟩
  next notFirst =>
    obtain ⟨chain, linked, nodup, inside⟩ := holds (table.keyTable.entryIndex entry)
    have enough : chain.length ≤ table.chainFuel := by
      have part : chain ⊆ List.range table.nextRow := by
        intro other here
        exact List.mem_range.mpr (bounded other ((inside other).mp here).1)
      have length := (List.subperm_of_subset nodup part).length_le
      rw [List.length_range] at length
      exact Nat.le_succ_of_le length
    obtain ⟨previous, found⟩ :=
      CTable.searchPrevious_ends linked ((inside entry).mpr ⟨member, rfl⟩) notFirst
        (fun other here => alive other ((inside other).mp here).1) enough
    have found' : table.searchPrevious entry table.chainFuel
        (table.keyTable.buckets (table.keyTable.randomIndex (table.keyTable.hash entry)))
          = .ok previous := found
    rw [found']
    exact ⟨_, rfl, rfl, rfl⟩

-----------------------------------------------------------------------------------------
-- Iterations
-----------------------------------------------------------------------------------------

/-- The entries that an iteration still has to visit: the rest of a chain, and the chains of the
buckets that were not read yet.
-/
structure HashTable.Remaining (table : HashTable) (frame : ForeachFrame) (chain : List RowId)
    (chains : List (List RowId)) : Prop where
  started : IsChain table.next frame.nextEntry chain
  buckets : List.Forall₂ (fun index chain => IsChain table.next (table.buckets index) chain)
    ((List.range table.numBuckets).drop frame.nextIndex) chains

/-- The next entry of an iteration is the first that remains, by induction on the buckets. -/
theorem HashTable.nextHashEntry_remaining {table : HashTable} {frame : ForeachFrame}
    {chain : List RowId} {chains : List (List RowId)} (remaining : table.Remaining frame chain chains)
    : table.nextHashEntry frame = none ∧ chain ++ chains.flatten = []
      ∨ ∃ entry index rest more, table.nextHashEntry frame = some (entry, index)
        ∧ chain ++ chains.flatten = entry :: (rest ++ more.flatten)
        ∧ table.Remaining { frame with nextIndex := index, nextEntry := table.next entry } rest
            more := by
  obtain ⟨started, buckets⟩ := remaining
  obtain ⟨pattern, nextIndex, nextEntry⟩ := frame
  dsimp only at started buckets
  cases chain with
  | cons entry rest =>
      obtain ⟨rfl, behind⟩ := started
      exact .inr ⟨entry, nextIndex, rest, chains, rfl, rfl, behind, buckets⟩
  | nil =>
      cases started
      simp only [HashTable.nextHashEntry, List.nil_append]
      induction chains generalizing nextIndex with
      | nil =>
          rw [List.forall₂_nil_right_iff] at buckets
          rw [buckets]
          exact .inl ⟨rfl, rfl⟩
      | cons chain chains ih =>
          obtain ⟨index, others, linked, behind, split⟩ := List.forall₂_cons_right_iff.mp buckets
          have inside : nextIndex < (List.range table.numBuckets).length := by
            by_contra outside
            rw [List.drop_eq_nil_of_le (by omega)] at split
            cases split
          rw [List.drop_eq_getElem_cons inside, List.getElem_range] at split ⊢
          obtain ⟨rfl, rfl⟩ := List.cons.inj split
          cases chain with
          | nil =>
              have empty : table.buckets nextIndex = none := linked
              simp only [List.findSome?_cons, empty, Option.map_none, List.flatten_cons,
                List.nil_append]
              exact ih (nextIndex + 1) behind
          | cons entry rest =>
              obtain ⟨first, tail⟩ := linked
              refine .inr ⟨entry, nextIndex + 1, rest, chains, ?_, rfl, tail, behind⟩
              simp only [List.findSome?_cons, first, Option.map_some]

/-- An iteration visits what remains, by induction on it. -/
theorem CTable.visitEntries_eq {table : CTable creator} {frame : ForeachFrame}
    {chain : List RowId} {chains : List (List RowId)} {fuel : Nat}
    (remaining : table.keyTable.Remaining frame chain chains)
    (alive : ∀ entry ∈ chain ++ chains.flatten, table.Alive entry)
    (enough : (chain ++ chains.flatten).length ≤ fuel)
    : table.visitEntries fuel frame = .ok (chain ++ chains.flatten) := by
  induction fuel generalizing frame chain chains with
  | zero =>
      rcases HashTable.nextHashEntry_remaining remaining with
        ⟨none, empty⟩ | ⟨entry, index, rest, more, -, split, -⟩
      · rw [CTable.visitEntries, none, empty]
      · rw [split] at enough
        cases enough
  | succ fuel ih =>
      rcases HashTable.nextHashEntry_remaining remaining with
        ⟨none, empty⟩ | ⟨entry, index, rest, more, next, split, later⟩
      · rw [CTable.visitEntries, none, empty]
      · rw [split] at alive enough
        obtain ⟨row, found⟩ := alive entry (by simp)
        have visits :=
          ih later (fun other member => alive other (List.mem_cons_of_mem _ member))
            (Nat.le_of_succ_le_succ enough)
        rw [CTable.visitEntries, next, split]
        dsimp only
        rw [found]
        dsimp only
        rw [visits]
        rfl

/-- An iteration over a table visits each member of its chains once. -/
theorem CTable.visitEntries_members {table : CTable creator} {members : List RowId}
    (holds : table.keyTable.Linked members)
    (mask : table.keyTable.mask + 1 = table.keyTable.numBuckets)
    (alive : ∀ entry ∈ members, table.Alive entry)
    (bounded : ∀ entry ∈ members, entry < table.nextRow)
    : ∃ visited, table.visitEntries table.chainFuel firstFrame = .ok visited
        ∧ visited.Nodup ∧ ∀ entry, entry ∈ visited ↔ entry ∈ members := by
  choose chainOf linked nodup inside using holds
  have remaining
      : table.keyTable.Remaining firstFrame []
          ((List.range table.keyTable.numBuckets).map chainOf) := by
    refine ⟨rfl, ?_⟩
    rw [show firstFrame.nextIndex = 0 from rfl, List.drop_zero, List.forall₂_map_right_iff,
      List.forall₂_same]
    exact fun index _ => linked index
  have flat
      : [] ++ ((List.range table.keyTable.numBuckets).map chainOf).flatten
          = (List.range table.keyTable.numBuckets).flatMap chainOf := by
    rw [List.nil_append, List.flatMap_def]
  have distinct : ((List.range table.keyTable.numBuckets).flatMap chainOf).Nodup := by
    refine List.nodup_flatMap.mpr ⟨fun index _ => nodup index, ?_⟩
    refine List.nodup_range.imp ?_
    intro left right apart entry inLeft inRight
    exact apart (((inside left entry).mp inLeft).2.symm.trans ((inside right entry).mp inRight).2)
  have same (entry : RowId)
      : entry ∈ (List.range table.keyTable.numBuckets).flatMap chainOf ↔ entry ∈ members := by
    rw [List.mem_flatMap]
    constructor
    · rintro ⟨index, -, member⟩
      exact ((inside index entry).mp member).1
    · intro member
      have bound : table.keyTable.entryIndex entry ≤ table.keyTable.mask := Nat.and_le_right
      exact ⟨table.keyTable.entryIndex entry, List.mem_range.mpr (by omega),
        (inside _ entry).mpr ⟨member, rfl⟩⟩
  refine ⟨_, CTable.visitEntries_eq remaining ?_ ?_, ?_, ?_⟩
  · rw [flat]
    exact fun entry member => alive entry ((same entry).mp member)
  · rw [flat]
    have part : (List.range table.keyTable.numBuckets).flatMap chainOf ⊆ List.range table.nextRow := by
      intro entry member
      exact List.mem_range.mpr (bounded entry ((same entry).mp member))
    have length := (List.subperm_of_subset distinct part).length_le
    rw [List.length_range] at length
    exact Nat.le_succ_of_le length
  · rw [flat]
    exact distinct
  · rw [flat]
    exact same

-----------------------------------------------------------------------------------------
-- The table represents the map
-----------------------------------------------------------------------------------------

/-- The chains hold the entries of a map, each with its key. -/
structure CTable.Represents (table : CTable creator) (map : EntryMap) (members : List RowId)
    : Prop where
  linked : table.keyTable.Linked members
  readable : ∀ id ∈ members, table.HasKey id
  bounded : ∀ id ∈ members, id < table.nextRow
  maps : ∀ key id, map key = some id ↔ id ∈ members ∧ (table.rowAt id).key = some key
  mask : table.keyTable.mask + 1 = table.keyTable.numBuckets
  rebuilt : ∃ times, table.keyTable.Rebuilt times

section Represents

variable {table : CTable creator} {map : EntryMap} {members : List RowId}

theorem CTable.Represents.alive (represents : table.Represents map members) {id : RowId}
    (member : id ∈ members)
    : table.Alive id :=
  ⟨_, CTable.alive_of_rows (represents.readable id member).1⟩

theorem CTable.Represents.distinct (represents : table.Represents map members)
    : ∀ left ∈ members, ∀ right ∈ members,
        (table.rowAt left).key = (table.rowAt right).key → left = right := by
  intro left inLeft right inRight same
  have hasKey := (represents.readable left inLeft).2.1
  have first := (represents.maps (table.rowAt left).keyString left).mpr ⟨inLeft, hasKey⟩
  have second := (represents.maps (table.rowAt left).keyString right).mpr
    ⟨inRight, same.symm.trans hasKey⟩
  exact Option.some.inj (first.symm.trans second)

/-- A new hash table represents the empty map. -/
theorem CTable.Represents.empty (sharedMaster sharePanic : Bool)
    : (CTable.empty creator sharedMaster sharePanic).Represents (fun _ => none) [] where
  linked := BucketsHold.empty _ _
  readable := nofun
  bounded := nofun
  maps _ _ := by simp
  mask := rfl
  rebuilt := ⟨0, rfl, rfl, Nat.zero_le 6⟩

/-- Every entry is where a lookup of its key looks. -/
theorem CTable.Represents.placed (represents : table.Represents map members)
    : table.Placed map := by
  intro key entry found
  obtain ⟨member, hasKey⟩ := (represents.maps key entry).mp found
  obtain ⟨chain, linked, -, inside⟩ := represents.linked (table.keyTable.entryIndex entry)
  have hash : table.keyTable.hash entry = hashStringKey key := by
    rw [(represents.readable entry member).2.2, Row.keyString, hasKey]
    rfl
  refine ⟨chain, ?_, (inside entry).mpr ⟨member, rfl⟩⟩
  rw [← hash]
  exact linked

/-- A lookup gives what the map gives. -/
theorem CTable.Represents.find (represents : table.Represents map members) (key : CString)
    : table.findHashEntry key = .ok (map key) := by
  obtain ⟨found, result, inside⟩ :=
    CTable.findHashEntry_spec key represents.linked represents.readable represents.distinct
      represents.bounded
  rw [result]
  congr 1
  rcases present : map key with _ | id
  · cases found with
    | none => rfl
    | some other =>
        have absent := (represents.maps key other).mpr ((inside other).mp rfl)
        rw [present] at absent
        cases absent
  · exact (inside id).mpr ((represents.maps key id).mp present)

/-- An entry that is in no use is no member. -/
theorem CTable.Represents.unused (represents : table.Represents map members) {entry : RowId}
    (unused : ∀ key, map key ≠ some entry)
    : entry ∉ members := by
  intro member
  have hasKey := (represents.readable entry member).2.1
  exact unused _ ((represents.maps (table.rowAt entry).keyString entry).mpr ⟨member, hasKey⟩)

theorem CTable.Represents.allocate (represents : table.Represents map members) (nextRow : RowId)
    (more : table.nextRow ≤ nextRow)
    : CTable.Represents { table with nextRow := nextRow } map members :=
  { represents with
    bounded := fun id member => Nat.lt_of_lt_of_le (represents.bounded id member) more }

/-- Linking an entry that is in no use fails only when the shift would leave its range. -/
theorem CTable.Represents.link_ends (represents : table.Represents map members) (key : CString)
    {entry : RowId} (fresh : Row creator) (unused : entry ∉ members)
    (allocated : entry < table.nextRow)
    : (∃ after,
          (table.putRow entry { fresh with key := some key }).linkHashEntry key entry = .ok after
            ∧ ∃ times, after.Rebuilt times)
        ∨ (table.putRow entry { fresh with key := some key }).linkHashEntry key entry
            = .error .integerOverflow ∧ table.keyTable.downShift < 4 := by
  obtain ⟨times, rebuilt⟩ := represents.rebuilt
  refine @CTable.linkHashEntry_ends creator (table.putRow entry { fresh with key := some key })
    members entry times key represents.linked unused ?_ ?_ rebuilt
  · intro other member
    rcases Decidable.em (other = entry) with rfl | different
    · exact ⟨_, CTable.alive_of_rows (Function.update_self ..)⟩
    · have old := (List.mem_cons.mp member).resolve_left different
      have found := (represents.readable other old).1
      exact ⟨_, CTable.alive_of_rows ((Function.update_of_ne different ..).trans found)⟩
  · intro other member
    rcases List.mem_cons.mp member with rfl | old
    · exact allocated
    · exact represents.bounded other old

/-- Storing an entry under a new key adds it to the map. -/
theorem CTable.Represents.store (represents : table.Represents map members) {key : CString}
    {entry : RowId} {fresh : Row creator} {keyTable : HashTable} {times : Nat}
    (unused : entry ∉ members) (allocated : entry < table.nextRow) (absent : map key = none)
    (linked :
      (table.putRow entry { fresh with key := some key }).linkHashEntry key entry = .ok keyTable)
    (rebuilt : keyTable.Rebuilt times)
    : CTable.Represents
        { table.putRow entry { fresh with key := some key } with keyTable := keyTable }
        (Function.update map key (some entry)) (entry :: members) := by
  obtain ⟨holds, hash, mask, -⟩ :=
    @CTable.linkHashEntry_spec _ (table.putRow entry { fresh with key := some key }) _ _ _ _
      represents.linked unused represents.mask linked
  have stored
      : CTable.rowAt
          { table.putRow entry { fresh with key := some key } with keyTable := keyTable } entry
          = { fresh with key := some key } := by
    simp [CTable.rowAt, CTable.putRow]
  have others (id : RowId) (other : id ≠ entry)
      : CTable.rowAt
          { table.putRow entry { fresh with key := some key } with keyTable := keyTable } id
          = table.rowAt id := by
    simp [CTable.rowAt, CTable.putRow, other]
  have apart {id : RowId} (member : id ∈ members) : id ≠ entry := fun same =>
    unused (same ▸ member)
  refine ⟨holds, ?_, ?_, ?_, mask, times, rebuilt⟩
  · intro id member
    rcases List.mem_cons.mp member with rfl | member
    · refine ⟨?_, ?_, ?_⟩
      · rw [stored]
        simp [CTable.putRow]
      · rw [stored]
        rfl
      · rw [stored]
        simp only [hash, Function.update_self]
        rfl
    · obtain ⟨found, hasKey, hashed⟩ := represents.readable id member
      refine ⟨?_, ?_, ?_⟩
      · rw [others id (apart member)]
        simpa [CTable.putRow, apart member] using found
      · rw [others id (apart member)]
        exact hasKey
      · rw [others id (apart member)]
        simp only [hash, Function.update_of_ne (apart member)]
        exact hashed
  · intro id member
    rcases List.mem_cons.mp member with rfl | member
    · exact allocated
    · exact represents.bounded id member
  · intro other id
    rcases Decidable.em (other = key) with rfl | different
    · rw [Function.update_self, List.mem_cons]
      constructor
      · rintro ⟨⟩
        exact ⟨.inl rfl, by rw [stored]⟩
      · rintro ⟨rfl | member, hasKey⟩
        · rfl
        · rw [others id (apart member)] at hasKey
          have present := (represents.maps other id).mpr ⟨member, hasKey⟩
          rw [absent] at present
          cases present
    · rw [Function.update_of_ne different, represents.maps other id, List.mem_cons]
      constructor
      · rintro ⟨member, hasKey⟩
        rw [others id (apart member)]
        exact ⟨.inr member, hasKey⟩
      · rintro ⟨rfl | member, hasKey⟩
        · rw [stored] at hasKey
          exact absurd (Option.some.inj hasKey).symm different
        · rw [others id (apart member)] at hasKey
          exact ⟨member, hasKey⟩

/-- Deleting an entry takes it out of the map. -/
theorem CTable.Represents.delete (represents : table.Represents map members) {entry : RowId}
    {keyTable : HashTable} (result : table.deleteHashEntry entry = .ok keyTable)
    (rebuilt : ∃ times, keyTable.Rebuilt times)
    : CTable.Represents { table with keyTable := keyTable }
        (fun key => if map key = some entry then none else map key)
        (members.filter (· ≠ entry)) := by
  obtain ⟨holds, hash, mask, -⟩ :=
    CTable.deleteHashEntry_spec represents.linked represents.mask result
  refine ⟨holds, ?_, ?_, ?_, mask, rebuilt⟩
  · intro id member
    obtain ⟨found, hasKey, hashed⟩ := represents.readable id (List.mem_of_mem_filter member)
    refine ⟨found, hasKey, ?_⟩
    dsimp only
    rw [hash]
    exact hashed
  · exact fun id member => represents.bounded id (List.mem_of_mem_filter member)
  · intro key id
    have maps := represents.maps key id
    rw [List.mem_filter]
    constructor
    · intro present
      split at present
      next => cases present
      next kept =>
        obtain ⟨member, hasKey⟩ := maps.mp present
        refine ⟨⟨member, ?_⟩, hasKey⟩
        simp only [decide_eq_true_eq]
        exact fun same => kept (same ▸ present)
    · rintro ⟨⟨member, other⟩, hasKey⟩
      have present := maps.mpr ⟨member, hasKey⟩
      simp only [decide_eq_true_eq] at other
      rw [if_neg, present]
      rw [present]
      exact fun same => other (Option.some.inj same)

-----------------------------------------------------------------------------------------
-- Runs
-----------------------------------------------------------------------------------------

/-- The table code stops because the shift would leave its range, and in no other way. -/
def ShiftExhausted : Stop → CTable creator → Prop := fun stop table =>
  stop = .fault .integerOverflow ∧ table.keyTable.downShift < 4

/-- An operation answers as the map does, and leaves a table that represents the next map. -/
theorem HashOp.perform_spec (represents : table.Represents map members) {op : HashOp creator}
    (allowed : op.Allowed map)
    : wp op.perform
        (fun answer after =>
          op.Answers map answer ∧ ∃ members, after.Represents (op.after map) members)
        ShiftExhausted table := by
  cases op with
  | find key =>
      rw [HashOp.perform, wp_bind, wp_inspect, represents.find key]
      refine ⟨?_, fun fault same => by cases same⟩
      rintro found ⟨⟩
      exact ⟨rfl, members, represents⟩
  | iterate =>
      obtain ⟨visited, result, nodup, inside⟩ :=
        CTable.visitEntries_members represents.linked represents.mask
          (fun _ member => represents.alive member) represents.bounded
      rw [HashOp.perform, wp_bind, wp_inspect, result]
      refine ⟨?_, fun fault same => by cases same⟩
      rintro entries ⟨⟩
      refine ⟨⟨nodup, fun entry => ?_⟩, members, represents⟩
      rw [inside]
      constructor
      · intro member
        exact ⟨_, (represents.maps _ entry).mpr ⟨member, (represents.readable entry member).2.1⟩⟩
      · rintro ⟨key, present⟩
        exact ((represents.maps key entry).mp present).1
  | delete entry =>
      obtain ⟨key, present⟩ := allowed
      obtain ⟨member, -⟩ := (represents.maps key entry).mp present
      obtain ⟨keyTable, result, size, shift⟩ :=
        CTable.deleteHashEntry_ends represents.linked member
          (fun _ member => represents.alive member) represents.bounded
      obtain ⟨times, rebuilt⟩ := represents.rebuilt
      have same : keyTable.Rebuilt times :=
        ⟨size.trans rebuilt.1, shift.trans rebuilt.2.1, rebuilt.2.2⟩
      rw [HashOp.perform, wp_bind, wp_inspect, result]
      refine ⟨?_, fun fault same => by cases same⟩
      rintro _ ⟨⟩
      exact ⟨trivial, _, represents.delete result ⟨times, same⟩⟩
  | store key entry fresh =>
      have unused := represents.unused allowed
      have roomy := represents.allocate (max table.nextRow (entry + 1)) (Nat.le_max_left _ _)
      rw [HashOp.perform, wp_bind, wp_modify, wp_bind, storeHashEntry, wp_bind, wp_inspect,
        roomy.find key]
      refine ⟨?_, fun fault same => by cases same⟩
      rintro _ ⟨⟩
      rcases present : map key with _ | old
      · have allocated : entry < max table.nextRow (entry + 1) :=
          Nat.lt_of_succ_le (Nat.le_max_right _ _)
        dsimp only
        rw [wp_bind, wp_modify, wp_bind, wp_inspect]
        rcases roomy.link_ends key fresh unused allocated with
          ⟨keyTable, linked, timesAfter, rebuiltAfter⟩ | ⟨overflows, exhausted⟩
        · rw [linked]
          refine ⟨?_, fun fault same => by cases same⟩
          rintro _ ⟨⟩
          refine ⟨⟨?_, ?_⟩, entry :: members, ?_⟩
          · rw [present]
            rfl
          · rw [present]
            rfl
          · rw [HashOp.after, present]
            exact roomy.store unused allocated present linked rebuiltAfter
        · rw [overflows]
          refine ⟨fun found same => (by cases same), ?_⟩
          rintro _ ⟨⟩
          exact ⟨rfl, exhausted⟩
      · refine ⟨⟨?_, ?_⟩, members, ?_⟩
        · rw [present]
          rfl
        · rw [present]
          rfl
        · rw [HashOp.after, present]
          exact roomy

/-- All answers are those of the map, as long as the shift stays in its range. -/
theorem performAll_spec {ops : List (HashOp creator)} (represents : table.Represents map members)
    (allowed : AllAllowed map ops)
    : wp (performAll ops)
        (fun answers after =>
          AllAnswer map ops answers ∧ ∃ members, after.Represents (mapAfter map ops) members)
        ShiftExhausted table := by
  induction ops generalizing table map members with
  | nil => exact ⟨trivial, members, represents⟩
  | cons op ops ih =>
      obtain ⟨first, rest⟩ := allowed
      rw [performAll, wp_bind]
      refine wp_mono (HashOp.perform_spec represents first) ?_ (fun _ _ exhausted => exhausted)
      rintro answer middle ⟨answers, members, next⟩
      rw [wp_bind]
      refine wp_mono (ih next rest) ?_ (fun _ _ exhausted => exhausted)
      rintro others after ⟨answersRest, final⟩
      exact ⟨⟨answers, answersRest⟩, final⟩

end Represents

/-- The hash table of a new table answers every sequence of stores, lookups, deletions and
iterations as a map does, and leaves every entry where a lookup of its key looks. It stops only at a
store after which a rebuild would take the shift out of its range.
-/
theorem hashTable_refinesMap (sharedMaster sharePanic : Bool) (ops : List (HashOp creator))
    (allowed : AllAllowed (fun _ => none) ops)
    : RefinesMap ops (performAll ops (CTable.empty creator sharedMaster sharePanic)) := by
  have spec := performAll_spec (CTable.Represents.empty sharedMaster sharePanic) allowed
  unfold wp at spec
  split at spec
  next answers after run =>
    obtain ⟨answered, members, represents⟩ := spec
    rw [run]
    exact And.intro answered represents.placed
  next stop after run =>
    rw [run]
    exact spec

/-- The operations that reuse an entry for a key that was deleted. -/
def reuseOps : List (HashOp sampleCreator) :=
  [.store [97] 0 sampleCreator.init, .store [98] 1 sampleCreator.init, .delete 0, .find [97],
    .store [97] 0 sampleCreator.init, .iterate]

theorem hashTable_refinesMap_reused
    : RefinesMap reuseOps (performAll reuseOps (CTable.empty sampleCreator false false)) := by
  apply hashTable_refinesMap
  refine ⟨nofun, ?_, ⟨[97], rfl⟩, trivial, ?_, trivial, trivial⟩ <;>
  · intro key present
    simp [HashOp.after, Function.update_apply] at present

end SpeedTables
