import SpeedTables.Table.State

/-! The Boyer-Moore search for the inner text of a match pattern. -/

namespace SpeedTables

/-- `tolower` in the C locale -/
def tolower (byte : UInt8) : UInt8 :=
  if 65 ≤ byte ∧ byte ≤ 90 then byte + 32 else byte

/-- The byte a comparison sees, folded when the search ignores case. -/
def folded (nocase : Bool) (byte : UInt8) : UInt8 :=
  if nocase then tolower byte else byte

/-- `boyermoore_needlematch` -/
def needleMatch (needle : CString) (portion offset : Nat) : Bool :=
  let length := needle.length
  let begin := length - offset - portion
  let ignore := offset + portion - length
  if 0 < begin ∧ needle.getD (begin - 1) 0 = needle.getD (length - portion - 1) 0 then
    false
  else
    (needle.drop (length - portion + ignore)).take (portion - ignore)
      == (needle.drop begin).take (portion - ignore)

/-- The `skip` entry of a needle position: the first shift that fits the matched tail. -/
def skipEntry (needle : CString) (position : Nat) : Nat :=
  ((List.range needle.length).find? (needleMatch needle (needle.length - position - 1))).getD
    needle.length

/-- The `occ` entry of a character: its last position before the last character. -/
def occEntry (needle : CString) (byte : UInt8) : Int :=
  (needle.dropLast.zipIdx.foldl
    (fun found entry => if entry.1 = byte then (entry.2 : Int) else found) (-1))

/-- The inner loop of `boyer_moore_search`: compare backwards from a needle position, and
give the position that differs. `none` is a match.
-/
def compareBackwards (nocase : Bool) (needle haystack : CString) (shift : Nat) : Nat → Option Nat
  | 0 =>
      if needle.getD 0 0 = folded nocase (haystack.getD shift 0) then none else some 0
  | position + 1 =>
      if needle.getD (position + 1) 0 = folded nocase (haystack.getD (position + 1 + shift) 0) then
        compareBackwards nocase needle haystack shift position
      else
        some (position + 1)

/-- The outer loop of `boyer_moore_search`. The first argument bounds the iterations. -/
def boyerMooreLoop (nocase : Bool) (needle haystack : CString) : Nat → Nat → Except Fault Bool
  | 0, _ => .error .endlessLoop
  | fuel + 1, shift =>
      if haystack.length < shift + needle.length then
        .ok false
      else
        match compareBackwards nocase needle haystack shift (needle.length - 1) with
        | none => .ok true
        | some position =>
            let byte := folded nocase (haystack.getD (position + shift) 0)
            let move := max (skipEntry needle position : Int) (position - occEntry needle byte)
            boyerMooreLoop nocase needle haystack fuel (shift + move.toNat)

/-- `boyer_moore_search` after `boyer_moore_setup`: whether the needle occurs. An empty
needle is read before its start.
-/
def boyerMooreSearch (nocase : Bool) (needle haystack : CString) : Except Fault Bool :=
  let needle := needle.map (folded nocase)
  if haystack.length < needle.length then .ok false
  else if needle = [] then .error .outOfBounds
  else boyerMooreLoop nocase needle haystack (haystack.length + 1) 0

end SpeedTables
