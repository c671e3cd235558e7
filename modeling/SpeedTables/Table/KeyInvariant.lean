import SpeedTables.Lib.Chains
import SpeedTables.Table.Rows

/-! The key hash table and the row list hold the same rows, each under its own key. -/

namespace SpeedTables

open Lib

variable {creator : CreatorTable}

-----------------------------------------------------------------------------------------
-- The invariant
-----------------------------------------------------------------------------------------

/-- The bucket number of an entry. -/
def HashTable.entryIndex (table : HashTable) (entry : RowId) : Nat :=
  table.randomIndex (table.hash entry)

/-- The bucket chains hold the given entries. -/
def HashTable.Linked (table : HashTable) (members : List RowId) : Prop :=
  BucketsHold table.entryIndex table.next table.buckets members

/-- The row list, the hash table and the counters agree: every row of the list has a key of
its own and is linked in the bucket of that key, and nothing else is linked.
-/
structure CTable.Keyed (table : CTable creator) : Prop where
  nodup : table.llHead.Nodup
  keyed : ∀ id ∈ table.llHead, ∃ row key, table.rows id = some row ∧ row.key = some key
  distinct : ∀ left ∈ table.llHead, ∀ right ∈ table.llHead,
    (table.rowAt left).key = (table.rowAt right).key → left = right
  bounded : ∀ id ∈ table.llHead, id < table.nextRow
  unused : ∀ id, table.nextRow ≤ id → table.rows id = none
  hash : ∀ id ∈ table.llHead, table.keyTable.hash id = hashStringKey (table.rowAt id).keyString
  linked : table.keyTable.Linked table.llHead
  mask : table.keyTable.mask + 1 = table.keyTable.numBuckets
  numEntries : table.keyTable.numEntries = table.llHead.length
  count : table.count = table.llHead.length

-----------------------------------------------------------------------------------------
-- Lookups
-----------------------------------------------------------------------------------------

/-- A row of the table can be read, and has a key. -/
theorem CTable.Keyed.read {table : CTable creator} (keyed : table.Keyed) {id : RowId}
    (listed : id ∈ table.llHead)
    : table.rows id = some (table.rowAt id)
      ∧ (table.rowAt id).key = some (table.rowAt id).keyString := by
  obtain ⟨row, key, found, isKey⟩ := keyed.keyed id listed
  simp [CTable.rowAt, found, Row.keyString, isKey]

/-- A row that is there, with a key and its hash. -/
def CTable.HasKey (table : CTable creator) (id : RowId) : Prop :=
  table.rows id = some (table.rowAt id)
    ∧ (table.rowAt id).key = some (table.rowAt id).keyString
    ∧ table.keyTable.hash id = hashStringKey (table.rowAt id).keyString

theorem CTable.Keyed.hasKey {table : CTable creator} (keyed : table.Keyed) {id : RowId}
    (listed : id ∈ table.llHead)
    : table.HasKey id :=
  ⟨(keyed.read listed).1, (keyed.read listed).2, keyed.hash id listed⟩

/-- Walking a chain of rows finds the first with the key, by induction on the chain. -/
theorem CTable.searchChain_eq {table : CTable creator} (key : CString)
    : ∀ {chain : List RowId} {start : Option RowId} {fuel : Nat},
        IsChain table.keyTable.next start chain
        → (∀ id ∈ chain, table.HasKey id)
        → chain.length ≤ fuel
        → table.searchChain key (hashStringKey key) fuel start =
            .ok (chain.find? (fun id => (table.rowAt id).key = some key)) := by
  intro chain
  induction chain with
  | nil =>
      intro start fuel linked readable enough
      cases linked
      cases fuel <;> simp [CTable.searchChain]
  | cons entry rest ih =>
      intro start fuel linked readable enough
      obtain ⟨rfl, behind⟩ := linked
      obtain ⟨fuel, rfl⟩ : ∃ smaller, fuel = smaller + 1 :=
        ⟨fuel - 1, by simp at enough; omega⟩
      obtain ⟨found, hasKey, hash⟩ := readable entry (by simp)
      have read : table.row entry = .ok (table.rowAt entry) := by
        unfold CTable.row
        split
        · next row shape => simp [CTable.rowAt, shape]
        · next absent => cases found.symm.trans absent
      have next := @ih (table.keyTable.next entry) fuel behind
        (fun id member => readable id (by simp [member])) (by simpa using enough)
      have readKey : table.entryKey (table.rowAt entry) = .ok (table.rowAt entry).keyString := by
        rw [CTable.entryKey, hasKey]
      simp only [CTable.searchChain, read, hash, readKey, next]
      by_cases same : (table.rowAt entry).keyString = key
      · simp [same, hasKey]
      · simp [same, hasKey]

/-- A lookup ends, and finds the member of the chains with the key, if there is one. -/
theorem CTable.findHashEntry_spec {table : CTable creator} {members : List RowId} (key : CString)
    (linked : table.keyTable.Linked members) (readable : ∀ id ∈ members, table.HasKey id)
    (distinct : ∀ left ∈ members, ∀ right ∈ members,
      (table.rowAt left).key = (table.rowAt right).key → left = right)
    (bounded : ∀ id ∈ members, id < table.nextRow)
    : ∃ found, table.findHashEntry key = .ok found
        ∧ ∀ id, found = some id ↔ id ∈ members ∧ (table.rowAt id).key = some key := by
  obtain ⟨chain, isChain, nodup, inside⟩ :=
    linked (table.keyTable.randomIndex (hashStringKey key))
  have listed : ∀ id ∈ chain, id ∈ members := fun id member => ((inside id).mp member).1
  have fits : chain.length ≤ table.nextRow := by
    have part : chain ⊆ List.range table.nextRow := by
      intro id member
      exact List.mem_range.mpr (bounded id (listed id member))
    simpa using (List.subperm_of_subset nodup part).length_le
  refine ⟨_, CTable.searchChain_eq key isChain (fun id member => readable id (listed id member))
    (by simp [CTable.chainFuel]; omega), ?_⟩
  intro id
  constructor
  · intro found
    refine ⟨listed id (List.mem_of_find?_eq_some found), ?_⟩
    simpa using List.find?_some found
  · rintro ⟨inTable, hasKey⟩
    have member : id ∈ chain := by
      refine (inside id).mpr ⟨inTable, ?_⟩
      rw [HashTable.entryIndex, (readable id inTable).2.2]
      simp [Row.keyString, hasKey]
    have some : ∃ other, chain.find? (fun id => (table.rowAt id).key = some key) = some other := by
      rw [← Option.isSome_iff_exists, List.find?_isSome]
      exact ⟨id, member, by simpa using hasKey⟩
    obtain ⟨other, found⟩ := some
    have same := distinct other (listed other (List.mem_of_find?_eq_some found)) id inTable
      (by rw [hasKey]; simpa using List.find?_some found)
    rw [found, same]

theorem CTable.Keyed.findHashEntry_eq {table : CTable creator} (keyed : table.Keyed)
    (key : CString)
    : ∃ found, table.findHashEntry key = .ok found
        ∧ ∀ id, found = some id ↔ id ∈ table.llHead ∧ (table.rowAt id).key = some key :=
  CTable.findHashEntry_spec key keyed.linked (fun _ listed => keyed.hasKey listed) keyed.distinct
    keyed.bounded

/-- The lookup of an entry's predecessor ends at an element of its bucket that points to it,
by induction on the chain.
-/
theorem CTable.searchPrevious_eq {table : CTable creator} {entry previous : RowId}
    : ∀ {chain : List RowId} {start : Option RowId} {fuel : Nat},
        IsChain table.keyTable.next start chain
        → table.searchPrevious entry fuel start = .ok previous
        → previous ∈ chain ∧ table.keyTable.next previous = some entry := by
  intro chain
  induction chain with
  | nil =>
      intro start fuel linked result
      cases linked
      cases fuel <;> simp [CTable.searchPrevious] at result
  | cons head rest ih =>
      intro start fuel linked result
      obtain ⟨rfl, behind⟩ := linked
      cases fuel with
      | zero => simp [CTable.searchPrevious] at result
      | succ fuel =>
          rw [CTable.searchPrevious] at result
          split at result
          · cases result
          · split at result
            · next pointsThere =>
                cases result
                exact ⟨by simp, pointsThere⟩
            · obtain ⟨member, points⟩ := ih behind result
              exact ⟨by simp [member], points⟩

-----------------------------------------------------------------------------------------
-- Linking and unlinking
-----------------------------------------------------------------------------------------

/-- The two hash tables differ in their buckets and chains only. -/
structure HashTable.SameEntries (before after : HashTable) : Prop where
  hash : after.hash = before.hash
  numBuckets : after.numBuckets = before.numBuckets
  numEntries : after.numEntries = before.numEntries
  downShift : after.downShift = before.downShift
  mask : after.mask = before.mask

theorem HashTable.SameEntries.entryIndex {before after : HashTable}
    (same : before.SameEntries after)
    : after.entryIndex = before.entryIndex := by
  funext entry
  simp [HashTable.entryIndex, HashTable.randomIndex, same.hash, same.downShift, same.mask]

theorem HashTable.SameEntries.trans {first second third : HashTable}
    (left : first.SameEntries second) (right : second.SameEntries third)
    : first.SameEntries third where
  hash := right.hash.trans left.hash
  numBuckets := right.numBuckets.trans left.numBuckets
  numEntries := right.numEntries.trans left.numEntries
  downShift := right.downShift.trans left.downShift
  mask := right.mask.trans left.mask

/-- Pushing an entry links it in its bucket. -/
theorem HashTable.Linked.push {table : HashTable} {members : List RowId} {entry : RowId}
    (linked : table.Linked members) (fresh : entry ∉ members)
    : (table.push entry).Linked (entry :: members) :=
  BucketsHold.push linked fresh

theorem HashTable.push_sameEntries (table : HashTable) (entry : RowId)
    : table.SameEntries (table.push entry) := by
  constructor <;> rfl

/-- Moving the entries of an old chain links them all, by induction on the chain. -/
theorem CTable.rehashChain_spec {table : CTable creator}
    : ∀ {chain members : List RowId} {start : Option RowId} {fuel : Nat} {moved after : HashTable},
        IsChain moved.next start chain
        → chain.Nodup
        → (∀ entry ∈ chain, entry ∉ members)
        → moved.Linked members
        → table.rehashChain fuel start moved = .ok after
        → after.Linked (chain.reverse ++ members) ∧ moved.SameEntries after
          ∧ ∀ entry, entry ∉ chain → after.next entry = moved.next entry := by
  intro chain
  induction chain with
  | nil =>
      intro members start fuel moved after linked distinct fresh holds result
      cases linked
      have same : after = moved := by
        cases fuel <;> simpa [CTable.rehashChain, eq_comm] using result
      subst same
      exact ⟨by simpa using holds, by constructor <;> rfl, fun _ _ => rfl⟩
  | cons entry rest ih =>
      intro members start fuel moved after linked distinct fresh holds result
      obtain ⟨rfl, behind⟩ := linked
      obtain ⟨notBehind, distinctRest⟩ := List.nodup_cons.mp distinct
      cases fuel with
      | zero => simp [CTable.rehashChain] at result
      | succ fuel =>
          rw [CTable.rehashChain] at result
          split at result
          · cases result
          · have pushed := holds.push (fresh entry (by simp))
            have others : ∀ other, other ≠ entry → (moved.push entry).next other = moved.next other := by
              intro other different
              simp [HashTable.push, different]
            have chainKept : IsChain (moved.push entry).next (moved.next entry) rest := by
              refine behind.congr ?_
              rintro other member
              refine others other ?_
              rintro rfl
              exact notBehind member
            have freshRest : ∀ other ∈ rest, other ∉ entry :: members := by
              intro other member inside
              rcases List.mem_cons.mp inside with rfl | old
              · exact notBehind member
              · exact fresh other (by simp [member]) old
            obtain ⟨final, same, unmoved⟩ := ih chainKept distinctRest freshRest pushed result
            refine ⟨by simpa using final, (HashTable.push_sameEntries moved entry).trans same, ?_⟩
            intro other absent
            simp only [List.mem_cons, not_or] at absent
            rw [unmoved other absent.2, others other absent.1]

/-- Moving the entries of old buckets links them all, by induction on the bucket numbers. -/
theorem CTable.rehashBuckets_spec {table : CTable creator} {old : Nat → Option RowId}
    {oldIndex : RowId → Nat} {all : List RowId}
    : ∀ {indexes : List Nat} {members : List RowId} {moved after : HashTable},
        indexes.Nodup
        → (∀ i ∈ indexes, ∃ chain, IsChain moved.next (old i) chain ∧ chain.Nodup
            ∧ ∀ entry, entry ∈ chain ↔ entry ∈ all ∧ oldIndex entry = i)
        → (∀ entry ∈ members, oldIndex entry ∉ indexes)
        → moved.Linked members
        → table.rehashBuckets old indexes moved = .ok after
        → ∃ final, after.Linked final ∧ moved.SameEntries after
            ∧ ∀ entry, entry ∈ final ↔ entry ∈ members ∨ (entry ∈ all ∧ oldIndex entry ∈ indexes) := by
  intro indexes
  induction indexes with
  | nil =>
      intro members moved after distinct chains apart holds result
      cases result
      exact ⟨members, holds, by constructor <;> rfl, by simp⟩
  | cons index rest ih =>
      intro members moved after distinct chains apart holds result
      obtain ⟨notAgain, distinctRest⟩ := List.nodup_cons.mp distinct
      obtain ⟨chain, linked, nodup, inside⟩ := chains index (by simp)
      rw [CTable.rehashBuckets] at result
      split at result
      · cases result
      · next middle moving =>
          have fresh : ∀ entry ∈ chain, entry ∉ members := by
            intro entry member old
            exact apart entry old (by simp [((inside entry).mp member).2])
          obtain ⟨holdsMore, same, unmoved⟩ :=
            CTable.rehashChain_spec linked nodup fresh holds moving
          have chainsRest : ∀ i ∈ rest, ∃ chain, IsChain middle.next (old i) chain ∧ chain.Nodup
              ∧ ∀ entry, entry ∈ chain ↔ entry ∈ all ∧ oldIndex entry = i := by
            intro i later
            obtain ⟨other, linkedOther, nodupOther, insideOther⟩ := chains i (by simp [later])
            refine ⟨other, linkedOther.congr ?_, nodupOther, insideOther⟩
            intro entry member
            refine unmoved entry ?_
            intro first
            have equal := ((inside entry).mp first).2.symm.trans ((insideOther entry).mp member).2
            exact notAgain (equal ▸ later)
          have apartRest : ∀ entry ∈ chain.reverse ++ members, oldIndex entry ∉ rest := by
            intro entry member later
            rcases List.mem_append.mp member with first | former
            · rw [((inside entry).mp (List.mem_reverse.mp first)).2] at later
              exact notAgain later
            · exact apart entry former (by simp [later])
          obtain ⟨final, holdsFinal, sameFinal, insideFinal⟩ :=
            ih distinctRest chainsRest apartRest holdsMore result
          refine ⟨final, holdsFinal, same.trans sameFinal, ?_⟩
          intro entry
          rw [insideFinal, List.mem_append, List.mem_reverse, inside]
          simp only [List.mem_cons]
          tauto

/-- Rebuilding the buckets keeps what they hold. -/
theorem CTable.rebuildTable_spec {table : CTable creator} {members : List RowId}
    {full after : HashTable} (holds : full.Linked members)
    (mask : full.mask + 1 = full.numBuckets) (result : table.rebuildTable full = .ok after)
    : after.Linked members ∧ after.hash = full.hash ∧ after.mask + 1 = after.numBuckets
      ∧ after.numEntries = full.numEntries := by
  unfold CTable.rebuildTable at result
  split at result
  · cases result
  · generalize hEmpty : HashTable.mk _ _ _ _ _ _ _ _ = empty at result
    have start : empty.Linked [] := by
      rw [← hEmpty]
      exact BucketsHold.empty _ _
    have chains : ∀ i ∈ List.range full.numBuckets, ∃ chain,
        IsChain empty.next (full.buckets i) chain ∧ chain.Nodup
          ∧ ∀ other, other ∈ chain ↔ other ∈ members ∧ full.entryIndex other = i := by
      rw [← hEmpty]
      exact fun i _ => holds i
    obtain ⟨final, holdsFinal, same, inside⟩ :=
      CTable.rehashBuckets_spec List.nodup_range chains (by simp) start result
    have inRange : ∀ other, full.entryIndex other ∈ List.range full.numBuckets := by
      intro other
      have bound : full.entryIndex other ≤ full.mask := Nat.and_le_right
      exact List.mem_range.mpr (by omega)
    refine ⟨holdsFinal.members_congr ?_, ?_, ?_, ?_⟩
    · intro other
      simp [inside, inRange]
    · rw [same.hash, ← hEmpty]
    · rw [same.mask, same.numBuckets, ← hEmpty]
      simp only [Nat.shiftLeft_eq]
      omega
    · rw [same.numEntries, ← hEmpty]

/-- Linking a new entry under a key adds it, also when the buckets are rebuilt. -/
theorem CTable.linkHashEntry_spec {table : CTable creator} {members : List RowId} {entry : RowId}
    {key : CString} {after : HashTable}
    (holds : table.keyTable.Linked members) (fresh : entry ∉ members)
    (mask : table.keyTable.mask + 1 = table.keyTable.numBuckets)
    (result : table.linkHashEntry key entry = .ok after)
    : after.Linked (entry :: members)
      ∧ after.hash = Function.update table.keyTable.hash entry (hashStringKey key)
      ∧ after.mask + 1 = after.numBuckets
      ∧ after.numEntries = table.keyTable.numEntries + 1 := by
  unfold CTable.linkHashEntry at result
  dsimp only at result
  generalize hHashed : HashTable.mk table.keyTable.buckets _ _ _ _ _ _ _ = hashed at result
  have hashedHolds : hashed.Linked members := by
    rw [← hHashed]
    refine BucketsHold.index_congr holds ?_
    intro other member
    have different : other ≠ entry := by
      rintro rfl
      exact fresh member
    simp [HashTable.entryIndex, HashTable.randomIndex, different]
  have hash : hashed.hash = Function.update table.keyTable.hash entry (hashStringKey key) := by
    rw [← hHashed]
  have sizes : hashed.mask + 1 = hashed.numBuckets := by
    rw [← hHashed]
    exact mask
  have pushed : HashTable.Linked { hashed.push entry with
      numEntries := table.keyTable.numEntries + 1 } (entry :: members) :=
    hashedHolds.push fresh
  split at result
  · obtain ⟨holdsFinal, sameHash, sizesFinal, counted⟩ :=
      CTable.rebuildTable_spec pushed sizes result
    exact ⟨holdsFinal, sameHash.trans hash, sizesFinal, counted⟩
  · cases result
    exact ⟨pushed, hash, sizes, rfl⟩

/-- Unlinking an entry removes it from the chains only. -/
theorem CTable.deleteHashEntry_spec {table : CTable creator} {members : List RowId}
    {entry : RowId} {after : HashTable} (linked : table.keyTable.Linked members)
    (mask : table.keyTable.mask + 1 = table.keyTable.numBuckets)
    (result : table.deleteHashEntry entry = .ok after)
    : after.Linked (members.filter (· ≠ entry))
      ∧ after.hash = table.keyTable.hash
      ∧ after.mask + 1 = after.numBuckets
      ∧ after.numEntries = table.keyTable.numEntries - 1 := by
  unfold CTable.deleteHashEntry at result
  dsimp only at result
  split at result
  · next first =>
      cases result
      exact ⟨BucketsHold.unlink_first linked first, rfl, mask, rfl⟩
  · split at result
    · cases result
    · next previous found =>
        cases result
        obtain ⟨chain, isChain, -, inside⟩ := linked (table.keyTable.entryIndex entry)
        obtain ⟨member, points⟩ := CTable.searchPrevious_eq isChain found
        obtain ⟨listed, same⟩ := (inside previous).mp member
        exact ⟨BucketsHold.unlink_behind linked listed same points, rfl, mask, rfl⟩

-----------------------------------------------------------------------------------------
-- Operations that keep the invariant
-----------------------------------------------------------------------------------------

/-- A setter of another field than the key keeps the agreement. -/
theorem CTable.Keyed.cellFrame {before after : CTable creator} {field : creator.Field} {id : RowId}
    (keyed : before.Keyed) (frame : before.CellFrame field id after)
    : after.Keyed := by
  have keys : ∀ other, (after.rowAt other).key = (before.rowAt other).key := by
    intro other
    by_cases same : other = id
    · rw [same]
      exact frame.key
    · simp [CTable.rowAt, frame.rows other same]
  have alive : ∀ other, (after.rows other).isSome = (before.rows other).isSome := by
    intro other
    by_cases same : other = id
    · rw [same]
      exact frame.alive
    · rw [frame.rows other same]
  refine {
    nodup := frame.llHead ▸ keyed.nodup
    keyed := ?_, distinct := ?_, unused := ?_, hash := ?_
    bounded := by rw [frame.llHead, frame.nextRow]; exact keyed.bounded
    linked := by rw [frame.keyTable, frame.llHead]; exact keyed.linked
    mask := by rw [frame.keyTable]; exact keyed.mask
    numEntries := by rw [frame.keyTable, frame.llHead]; exact keyed.numEntries
    count := by rw [frame.count, frame.llHead]; exact keyed.count }
  · intro other listed
    obtain ⟨found, hasKey⟩ := keyed.read (frame.llHead ▸ listed)
    have there : (after.rows other).isSome = true := by rw [alive, found]; rfl
    obtain ⟨row, shape⟩ := Option.isSome_iff_exists.mp there
    refine ⟨row, (before.rowAt other).keyString, shape, ?_⟩
    have same := keys other
    rw [hasKey] at same
    simpa [CTable.rowAt, shape] using same
  · rw [frame.llHead]
    intro left inLeft right inRight same
    exact keyed.distinct left inLeft right inRight (by rw [← keys, ← keys, same])
  · intro other late
    have absent := alive other
    rw [keyed.unused other (frame.nextRow ▸ late)] at absent
    simpa using absent
  · rw [frame.llHead, frame.keyTable]
    intro other listed
    rw [keyed.hash other listed]
    simp [Row.keyString, keys]

/-- Counting allocations keeps the agreement. -/
theorem CTable.Keyed.allocated {table : CTable creator} (keyed : table.Keyed) (allocations : Nat)
    : CTable.Keyed { table with allocations := allocations } :=
  { keyed with }

/-- A row linked under a new key of its own rejoins the rows that stayed linked. -/
theorem CTable.Keyed.relink {table : CTable creator} (keyed : table.Keyed) {id : RowId}
    (listed : id ∈ table.llHead) {key : CString}
    (free : ∀ other ∈ table.llHead, (table.rowAt other).key ≠ some key)
    {after : CTable creator} {row : Row creator}
    (rows : after.rows = Function.update table.rows id (some row)) (hasKey : row.key = some key)
    (llHead : after.llHead = table.llHead) (nextRow : after.nextRow = table.nextRow)
    (count : after.count = table.count)
    (linked : after.keyTable.Linked (id :: table.llHead.filter (· ≠ id)))
    (hash : after.keyTable.hash =
      Function.update table.keyTable.hash id (hashStringKey key))
    (mask : after.keyTable.mask + 1 = after.keyTable.numBuckets)
    (numEntries : after.keyTable.numEntries = table.keyTable.numEntries)
    : after.Keyed := by
  have here : after.rowAt id = row := by simp [CTable.rowAt, rows]
  have others : ∀ other, other ≠ id → after.rowAt other = table.rowAt other := by
    intro other different
    simp [CTable.rowAt, rows, different]
  refine {
    nodup := llHead ▸ keyed.nodup
    keyed := ?_, distinct := ?_, unused := ?_, hash := ?_, linked := ?_
    bounded := by rw [llHead, nextRow]; exact keyed.bounded
    mask := mask
    numEntries := by rw [numEntries, llHead]; exact keyed.numEntries
    count := by rw [count, llHead]; exact keyed.count }
  · intro other inTable
    by_cases same : other = id
    · subst same
      exact ⟨row, key, by simp [rows], hasKey⟩
    · rw [rows, Function.update_of_ne same]
      exact keyed.keyed other (llHead ▸ inTable)
  · rw [llHead]
    intro left inLeft right inRight same
    by_cases atLeft : left = id
    · by_cases atRight : right = id
      · rw [atLeft, atRight]
      · rw [atLeft, here, hasKey, others right atRight] at same
        exact absurd same.symm (free right inRight)
    · by_cases atRight : right = id
      · rw [atRight, here, hasKey, others left atLeft] at same
        exact absurd same (free left inLeft)
      · rw [others left atLeft, others right atRight] at same
        exact keyed.distinct left inLeft right inRight same
  · intro other late
    rw [nextRow] at late
    have different : other ≠ id := by
      rintro rfl
      exact absurd (keyed.bounded other listed) (Nat.not_lt.mpr late)
    rw [rows, Function.update_of_ne different]
    exact keyed.unused other late
  · rw [llHead, hash]
    intro other inTable
    by_cases same : other = id
    · rw [same, here]
      simp [Row.keyString, hasKey]
    · rw [Function.update_of_ne same, others other same]
      exact keyed.hash other inTable
  · refine BucketsHold.members_congr linked ?_
    intro other
    rw [llHead]
    by_cases same : other = id
    · simp [same, listed]
    · simp [same]

/-- Linking a row under a key that no linked row has, after it has been unlinked. -/
theorem storeHashEntry_keyed {table : CTable creator} (keyed : table.Keyed) {id : RowId}
    (listed : id ∈ table.llHead) {key : CString}
    (free : ∀ other ∈ table.llHead, (table.rowAt other).key ≠ some key)
    {unlinked : CTable creator} {row : Row creator} {keyTable : HashTable} {allocations : Nat}
    (state : unlinked =
      { table.putRow id { row with key := none } with
        keyTable := keyTable, allocations := allocations })
    (linked : keyTable.Linked (table.llHead.filter (· ≠ id)))
    (hash : keyTable.hash = table.keyTable.hash)
    (mask : keyTable.mask + 1 = keyTable.numBuckets)
    (numEntries : keyTable.numEntries = table.keyTable.numEntries - 1)
    : wp (storeHashEntry key id { row with key := none })
        (fun result after => result = (id, true) ∧ after.Keyed)
        (stopped (fun _ => False) (fun _ => True)) unlinked := by
  have others : ∀ other, other ≠ id → unlinked.rows other = table.rows other := by
    intro other different
    simp [state, CTable.putRow, different]
  have rowAtOthers : ∀ other, other ≠ id → unlinked.rowAt other = table.rowAt other := by
    intro other different
    simp [CTable.rowAt, others other different]
  have member : ∀ other, other ∈ table.llHead.filter (· ≠ id) →
      other ∈ table.llHead ∧ other ≠ id := by
    intro other inside
    simpa using inside
  have sameTable : unlinked.keyTable = keyTable := by rw [state]
  obtain ⟨found, lookup, isFound⟩ :=
    @CTable.findHashEntry_spec creator unlinked (table.llHead.filter (· ≠ id)) key
      (by rw [sameTable]; exact linked)
      (by
        intro other inside
        obtain ⟨inTable, different⟩ := member other inside
        have hasKey := keyed.hasKey inTable
        rw [CTable.HasKey, others other different, rowAtOthers other different, sameTable, hash]
        exact hasKey)
      (by
        intro left inLeft right inRight same
        rw [rowAtOthers left (member left inLeft).2, rowAtOthers right (member right inRight).2] at same
        exact keyed.distinct left (member left inLeft).1 right (member right inRight).1 same)
      (by
        intro other inside
        rw [state]
        exact keyed.bounded other (member other inside).1)
  have absent : found = none := by
    cases found with
    | none => rfl
    | some other =>
        obtain ⟨inside, hasKey⟩ := (isFound other).mp rfl
        rw [rowAtOthers other (member other inside).2] at hasKey
        exact absurd hasKey (free other (member other inside).1)
  subst absent
  rw [storeHashEntry, wp_bind, wp_inspect]
  refine ⟨?_, fun _ _ => trivial⟩
  intro entry result
  obtain rfl : entry = none := by simpa using result.symm.trans lookup
  rw [wp_bind, wp_modify, wp_bind, wp_inspect]
  refine ⟨?_, fun _ _ => trivial⟩
  intro final linking
  rw [wp_bind, wp_modify, wp_pure]
  refine ⟨rfl, ?_⟩
  have notMember : id ∉ table.llHead.filter (· ≠ id) := by simp
  have linkedThere : (unlinked.putRow id { row with key := some key }).keyTable.Linked
      (table.llHead.filter (· ≠ id)) := by
    simpa [CTable.putRow, sameTable] using linked
  obtain ⟨holds, finalHash, finalMask, finalEntries⟩ :=
    CTable.linkHashEntry_spec linkedThere notMember
      (by simpa [CTable.putRow, sameTable] using mask) linking
  have hasKey : ({ row with key := some key } : Row creator).key = some key := rfl
  refine keyed.relink listed free ?_ hasKey ?_ ?_ ?_ holds ?_ finalMask ?_
  · simp [state, CTable.putRow]
  · simp [state, CTable.putRow]
  · simp [state, CTable.putRow]
  · simp [state, CTable.putRow]
  · rw [finalHash]
    simp [CTable.putRow, sameTable, hash]
  · rw [finalEntries]
    simp [CTable.putRow, sameTable, numEntries]

/-- Re-keying an existing row keeps the agreement. It fails before it has changed anything but the
count of allocations.
-/
theorem reinsertRow_keyed {table : CTable creator} (host : Host) (keyed : table.Keyed)
    {id : RowId} (listed : id ∈ table.llHead) (value : CString)
    : wp (reinsertRow host .normal id value) (fun _ after => after.Keyed)
        (stopped (fun after => ∃ allocations, after = { table with allocations := allocations })
          (fun _ => True)) table := by
  obtain ⟨found, lookup, isFound⟩ := keyed.findHashEntry_eq value
  rw [reinsertRow, wp_bind, wp_inspect]
  refine ⟨?_, fun _ _ => trivial⟩
  intro entry result
  obtain rfl : entry = found := by simpa using result.symm.trans lookup
  cases entry with
  | some other => exact ⟨table.allocations, rfl⟩
  | none =>
      have free : ∀ other ∈ table.llHead, (table.rowAt other).key ≠ some value := by
        intro other inTable hasKey
        exact nomatch (isFound other).mpr ⟨inTable, hasKey⟩
      simp only [unlinkOldKey, if_true]
      rw [wp_bind, wp_bind]
      refine wp_mono (copySharedKey_spec host table) ?_ ?_
      · rintro - copied ⟨allocations, rfl⟩
        rw [unlinkHashEntry, wp_bind, wp_inspect]
        refine ⟨?_, fun _ _ => trivial⟩
        intro keyTable deleting
        obtain ⟨linked, hash, mask, numEntries⟩ :=
          CTable.deleteHashEntry_spec (keyed.allocated allocations).linked keyed.mask deleting
        rw [wp_modify, wp_bind, wp_inspect]
        refine ⟨?_, fun _ _ => trivial⟩
        intro row found
        rw [wp_bind, wp_modify, wp_bind]
        refine wp_mono (storeHashEntry_keyed keyed listed free rfl linked hash mask numEntries) ?_ ?_
        · rintro - after ⟨rfl, rekeyed⟩
          simpa [enterIndexes] using rekeyed
        · intro stop after stops
          cases stop with
          | fault fault => trivial
          | tcl error => exact stops.elim
      · intro stop after stops
        cases stop with
        | fault fault => trivial
        | tcl error => exact stops

end SpeedTables
