import Mathlib
import SpeedTables.Lib.SkipList

/-! The skip lists of indexes as they lie in memory: nodes with arrays of links, the update array,
and the functions that search, insert and erase.
-/

namespace SpeedTables.SkipList

-----------------------------------------------------------------------------------------
-- Memory
-----------------------------------------------------------------------------------------

/-- The compare function of an index: a total preorder of the rows. -/
structure Comparison (ρ : Type) where
  cmp : ρ → ρ → Int
  swap : ∀ left right, cmp left right < 0 ↔ 0 < cmp right left
  trans : ∀ left middle right, cmp left middle ≤ 0 → cmp middle right ≤ 0 → cmp left right ≤ 0

/-- How memory is allocated: at an address that is not in use. -/
structure Allocator where
  pick : List Nat → Nat
  fresh : ∀ live, pick live ∉ live

/-- `jsw_node_t`: the first row of the node and the rows linked behind it, and the links. -/
structure Node (ρ : Type) where
  row : ρ
  others : List ρ
  height : Nat
  next : List (Option Nat)

/-- What a node pointer of a search points to: the header node, or a node with a row. -/
inductive Place where
  | head
  | node (address : Nat)
  deriving DecidableEq

/-- What can go wrong with memory: an index beyond the end of an array, a pointer to memory that
holds no node, or a chain of links without an end.
-/
inductive Fault where
  | outOfBounds
  | dangling
  | endless
  deriving DecidableEq

/-- `jsw_skip_t` with its public data: the links of the header node, the nodes in memory and their
addresses, and the update array, of which an element is `none` until it is first written.
-/
structure Skip (ρ : Type) where
  head : List (Option Nat)
  nodes : Nat → Option (Node ρ)
  live : List Nat
  curh : Nat
  size : Nat
  curl : Option Place
  maxh : Nat
  fix : List (Option Place)

variable {ρ : Type}

/-- `p->next[i]` -/
def Skip.next (skip : Skip ρ) (place : Place) (level : Nat) : Except Fault (Option Nat) :=
  match place with
  | .head => (skip.head[level]?).elim (.error .outOfBounds) .ok
  | .node address =>
      match skip.nodes address with
      | none => .error .dangling
      | some node => (node.next[level]?).elim (.error .outOfBounds) .ok

/-- `p->next[i] = link` -/
def Skip.setNext (skip : Skip ρ) (place : Place) (level : Nat) (link : Option Nat)
    : Except Fault (Skip ρ) :=
  match place with
  | .head =>
      if level < skip.head.length then .ok { skip with head := skip.head.set level link }
      else .error .outOfBounds
  | .node address =>
      match skip.nodes address with
      | none => .error .dangling
      | some node =>
          if level < node.next.length then
            let changed := { node with next := node.next.set level link }
            .ok { skip with nodes := Function.update skip.nodes address (some changed) }
          else .error .outOfBounds

/-- `p->row` -/
def Skip.row (skip : Skip ρ) (address : Nat) : Except Fault ρ :=
  match skip.nodes address with
  | none => .error .dangling
  | some node => .ok node.row

/-- `skip->fix[i]`, which must have been written before it is followed. -/
def Skip.fixAt (skip : Skip ρ) (level : Nat) : Except Fault Place :=
  match skip.fix[level]? with
  | none => .error .outOfBounds
  | some none => .error .dangling
  | some (some place) => .ok place

/-- `skip->fix[i] = p` -/
def Skip.setFix (skip : Skip ρ) (level : Nat) (place : Place) : Except Fault (Skip ρ) :=
  if level < skip.fix.length then .ok { skip with fix := skip.fix.set level (some place) }
  else .error .outOfBounds

/-- `new_node`, at the address that was allocated for it. -/
def Skip.newNode (skip : Skip ρ) (address : Nat) (row : ρ) (height : Nat) : Skip ρ :=
  let node :=
    { row := row, others := [], height := height, next := List.replicate height none : Node ρ }
  { skip with
    nodes := Function.update skip.nodes address (some node)
    live := address :: skip.live }

/-- `free_node` -/
def Skip.freeNode (skip : Skip ρ) (address : Nat) : Skip ρ :=
  { skip with
    nodes := Function.update skip.nodes address none
    live := skip.live.erase address }

/-- `jsw_sinit` with `jsw_private`: the header node and the update array have one element more than
the depth asked for.
-/
def sinit (max : Nat) : Skip ρ where
  head := List.replicate (max + 1) none
  nodes := fun _ => none
  live := []
  curh := 0
  size := 0
  curl := none
  maxh := max + 1
  fix := List.replicate (max + 1) none

-----------------------------------------------------------------------------------------
-- Searches
-----------------------------------------------------------------------------------------

/-- The inner loop of `locate` and of `jsw_findlast`. A chain without an end takes more steps than
there are nodes.
-/
def Skip.advance (skip : Skip ρ) (passes : ρ → Bool) (level : Nat)
    : Nat → Place → Except Fault Place
  | 0, _ => .error .endless
  | steps + 1, place => do
      match ← skip.next place level with
      | none => return place
      | some address =>
          let row ← skip.row address
          if passes row then skip.advance passes level steps (.node address) else return place

/-- Some levels of `locate`, from the highest of them down. -/
def locateLevels (passes : ρ → Bool) : Nat → Place → Skip ρ → Except Fault (Place × Skip ρ)
  | 0, place, skip => .ok (place, skip)
  | level + 1, place, skip => do
      let place ← skip.advance passes level (skip.live.length + 1) place
      let skip ← skip.setFix level place
      locateLevels passes level place skip

/-- `locate` -/
def locate (order : Comparison ρ) (skip : Skip ρ) (row : ρ) : Except Fault (Place × Skip ρ) :=
  locateLevels (fun other => !decide (order.cmp row other ≤ 0)) (skip.curh + 1) .head skip

/-- `jsw_sfind` -/
def sfind (order : Comparison ρ) (skip : Skip ρ) (row : ρ)
    : Except Fault (Option Nat × Skip ρ) := do
  let (place, skip) ← locate order skip row
  let link ← skip.next place 0
  let skip := { skip with curl := link.map .node }
  match link with
  | none => return (none, skip)
  | some address =>
      let other ← skip.row address
      return (if order.cmp row other = 0 then some address else none, skip)

/-- The loop of `jsw_sfind_equal_or_greater`. -/
def Skip.passLess (order : Comparison ρ) (skip : Skip ρ) (row : ρ)
    : Nat → Option Nat → Except Fault (Option Nat)
  | _, none => .ok none
  | 0, some _ => .error .endless
  | steps + 1, some address => do
      let other ← skip.row address
      if order.cmp other row < 0 then
        skip.passLess order row steps (← skip.next (.node address) 0)
      else return some address

/-- `jsw_sfind_equal_or_greater` -/
def sfindEqualOrGreater (order : Comparison ρ) (skip : Skip ρ) (row : ρ)
    : Except Fault (Option Nat × Skip ρ) := do
  let (place, skip) ← locate order skip row
  let link ← skip.passLess order row (skip.live.length + 1) (← skip.next place 0)
  return (link, { skip with curl := link.map .node })

/-- Some levels of `jsw_findlast`, from the highest of them down. -/
def Skip.lastFrom (skip : Skip ρ) : Nat → Place → Except Fault Place
  | 0, place => .ok place
  | level + 1, place => do
      skip.lastFrom level (← skip.advance (fun _ => true) level (skip.live.length + 1) place)

/-- `jsw_findlast`, which returns the header node of an empty list. -/
def findlast (skip : Skip ρ) : Except Fault (Place × Skip ρ) := do
  let place ← skip.lastFrom (skip.curh + 1) .head
  return (place, { skip with curl := some place })

-----------------------------------------------------------------------------------------
-- Insertion
-----------------------------------------------------------------------------------------

/-- The loop that builds the links of a new node, from the highest level down. -/
def buildLinks (address : Nat) : Nat → Skip ρ → Except Fault (Skip ρ)
  | 0, skip => .ok skip
  | level + 1, skip => do
      let place ← skip.fixAt level
      let skip ← skip.setNext (.node address) level (← skip.next place level)
      let skip ← skip.setNext place level (some address)
      buildLinks address level skip

/-- Raise the height of the list by one level if a node of the height drawn is higher. The node is
then linked on the levels of the list only.
-/
def Skip.raiseHeight (skip : Skip ρ) (drawn : Nat) : Except Fault (Nat × Skip ρ) :=
  if skip.curh < drawn then
    (skip.setFix (skip.curh + 1) .head).map fun raised =>
      (skip.curh + 1, { raised with curh := skip.curh + 1 })
  else .ok (drawn, skip)

/-- The end of both insertions: a new node, of a height drawn at random. -/
def insertNew (allocator : Allocator) (skip : Skip ρ) (row : ρ) (zeros : Nat)
    : Except Fault (Skip ρ) := do
  let height := Lib.randomLevel skip.maxh zeros
  let address := allocator.pick skip.live
  let (height, skip) ← (skip.newNode address row height).raiseHeight height
  let skip ← buildLinks address height skip
  return { skip with size := skip.size + 1 }

/-- The node a search has found, if its row compares the same. -/
def Skip.matching (order : Comparison ρ) (skip : Skip ρ) (row : ρ)
    : Option Nat → Except Fault (Option Nat)
  | none => .ok none
  | some address => do
      return if order.cmp row (← skip.row address) = 0 then some address else none

/-- `jsw_sinsert` -/
def sinsert (order : Comparison ρ) (allocator : Allocator) (skip : Skip ρ) (row : ρ) (zeros : Nat)
    : Except Fault (Skip ρ) := do
  let (place, skip) ← locate order skip row
  match ← skip.matching order row (← skip.next place 0) with
  | some _ => return skip
  | none => insertNew allocator skip row zeros

/-- `ctable_ListInsertHead` at the rows of a node. -/
def Skip.listInsertHead (skip : Skip ρ) (address : Nat) (row : ρ) : Except Fault (Skip ρ) :=
  match skip.nodes address with
  | none => .error .dangling
  | some node =>
      let changed := { node with row := row, others := node.row :: node.others }
      .ok { skip with nodes := Function.update skip.nodes address (some changed) }

/-- `jsw_sinsert_linked` -/
def sinsertLinked (order : Comparison ρ) (allocator : Allocator) (skip : Skip ρ) (row : ρ)
    (zeros : Nat) (unique : Bool) : Except Fault (Skip ρ) := do
  let (place, skip) ← locate order skip row
  match ← skip.matching order row (← skip.next place 0) with
  | some address =>
      if unique then return skip
      else (skip.listInsertHead address row).map fun skip => { skip with size := skip.size + 1 }
  | none => insertNew allocator skip row zeros

-----------------------------------------------------------------------------------------
-- Erasure
-----------------------------------------------------------------------------------------

/-- The loop that unlinks a node, from level 0 up: so many levels remain. -/
def unlinkLevels (address : Nat) : Nat → Nat → Skip ρ → Except Fault (Skip ρ)
  | 0, _, skip => .ok skip
  | levels + 1, level, skip => do
      let place ← skip.fixAt level
      if (← skip.next place level) ≠ some address then return skip
      else
        let skip ← skip.setNext place level (← skip.next (.node address) level)
        unlinkLevels address levels (level + 1) skip

/-- The loop that lowers the height of the list. -/
def lowerHeight (skip : Skip ρ) : Nat → Except Fault (Skip ρ)
  | 0 => .ok { skip with curh := 0 }
  | level + 1 => do
      if (← skip.next .head level) ≠ none then return { skip with curh := level + 1 }
      else lowerHeight skip level

/-- `jsw_sreset` -/
def Skip.sreset (skip : Skip ρ) : Except Fault (Skip ρ) := do
  let link ← skip.next .head 0
  return { skip with curl := link.map .node }

/-- `jsw_serase` -/
def serase (order : Comparison ρ) (skip : Skip ρ) (row : ρ) : Except Fault (Skip ρ) := do
  let (place, skip) ← locate order skip row
  match ← skip.matching order row (← skip.next place 0) with
  | none => return skip
  | some address =>
      let skip ← unlinkLevels address skip.curh 0 skip
      let skip := skip.freeNode address
      let skip ← lowerHeight { skip with size := skip.size - 1 } skip.curh
      skip.sreset

-----------------------------------------------------------------------------------------
-- Runs
-----------------------------------------------------------------------------------------

/-- A call on a skip list. An insertion comes with the zero bits drawn before the first one. -/
inductive Call (ρ : Type) where
  | sinsert (row : ρ) (zeros : Nat)
  | sinsertLinked (row : ρ) (zeros : Nat) (unique : Bool)
  | serase (row : ρ)
  | sfind (row : ρ)
  | sfindEqualOrGreater (row : ρ)
  | findlast

def Skip.call (order : Comparison ρ) (allocator : Allocator) (skip : Skip ρ)
    : Call ρ → Except Fault (Skip ρ)
  | .sinsert row zeros => SkipList.sinsert order allocator skip row zeros
  | .sinsertLinked row zeros unique =>
      SkipList.sinsertLinked order allocator skip row zeros unique
  | .serase row => SkipList.serase order skip row
  | .sfind row => (SkipList.sfind order skip row).map Prod.snd
  | .sfindEqualOrGreater row => (SkipList.sfindEqualOrGreater order skip row).map Prod.snd
  | .findlast => (SkipList.findlast skip).map Prod.snd

/-- The calls one after another, on a skip list as `jsw_sinit` leaves it. -/
def run (order : Comparison ρ) (allocator : Allocator) (max : Nat) (calls : List (Call ρ))
    : Except Fault (Skip ρ) :=
  calls.foldlM (Skip.call order allocator) (sinit max)

end SpeedTables.SkipList
