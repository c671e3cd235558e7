import Mathlib
import SpeedTables.Table.Quote

/-! Quoting of tab-separated text, dequoting in place, and when the one undoes the other. -/

namespace SpeedTables

-----------------------------------------------------------------------------------------
-- Quoting
-----------------------------------------------------------------------------------------

namespace QuoteType

/-- `quoteChar` of `ctable_quoteString` -/
def quoteChar : QuoteType → Option UInt8
  | .none => Option.none
  | .uri | .strictUri => some 37
  | .escape | .strictEscape => some 92

/-- `maxExpansion` of `ctable_quoteString` -/
def maxExpansion : QuoteType → Nat
  | .uri | .strictUri => 3
  | .none | .escape | .strictEscape => 4

def strict : QuoteType → Bool
  | .strictUri | .strictEscape => true
  | .none | .uri | .escape => false

end QuoteType

/-- The tables `special` and `replace`, with the NULs that end them. -/
def specials : List (UInt8 × UInt8) :=
  [(8, 98), (12, 102), (10, 110), (13, 114), (9, 116), (11, 118), (92, 92), (0, 0)]

/-- The digit that `%x` or `%o` prints. -/
def printDigit (digit : UInt8) : UInt8 :=
  if digit < 10 then 48 + digit else 87 + digit

/-- Whether a byte is quoted. `strchr` also finds the NUL that ends the separators. -/
def mustQuote (type : QuoteType) (quotedChars : CString) (byte : UInt8) : Bool :=
  type.quoteChar == some byte || (quotedChars.contains byte || byte == 0) || byte < 0x20
    || (type.strict && byte &&& 0x80 != 0)

/-- What a quoted byte is replaced by. -/
def quoteByte (type : QuoteType) (byte : UInt8) : CString :=
  match type with
  | .uri | .strictUri => [37, printDigit (byte / 16), printDigit (byte % 16)]
  | .escape | .strictEscape =>
      92 :: (specials.lookup byte).elim
        [printDigit (byte / 64), printDigit (byte / 8 % 8), printDigit (byte % 8)]
        (fun letter => [letter])
  | .none => [byte]

/-- The new string of `ctable_quoteString`. -/
def quoteBytes (type : QuoteType) (quotedChars string : CString) : CString :=
  string.flatMap fun byte =>
    if mustQuote type quotedChars byte then quoteByte type byte else [byte]

/-- `ctable_quoteString`. The string is left alone when there is nothing to quote in it. `none`
is an overflow of the size that is allocated for the new one.
-/
def quoteString (type : QuoteType) (quotedChars : Option CString) (string : CString)
    : Option CString :=
  let quotedChars := quotedChars.getD [9]
  if type = .none ∨ string.any (mustQuote type quotedChars) = false then some string
  else if type.maxExpansion * string.length + 1 < 2 ^ 31 then
    some (quoteBytes type quotedChars string)
  else none

-----------------------------------------------------------------------------------------
-- Dequoting in place
-----------------------------------------------------------------------------------------

/-- The loop of `ctable_copyDequoted` where source and destination are one buffer: it reads at
`i` and writes at `j`. The first argument bounds the iterations.
-/
def dequoteLoop (type : QuoteType) (length : Nat)
    : Nat → Nat → Nat → CString → Option (CString × Nat × Nat)
  | 0, i, j, string => some (string, i, j)
  | fuel + 1, i, j, string =>
      if i < length then
        let byte := string.getD i 0
        if (type = .uri ∨ type = .strictUri) ∧ byte = 37 then
          match hexDigit (string.getD (i + 1) 0), hexDigit (string.getD (i + 2) 0) with
          | some high, some low =>
              dequoteLoop type length fuel (i + 3) (j + 1) (string.set j (high * 16 + low))
          | _, _ =>
              if type = .strictUri then none
              else dequoteLoop type length fuel (i + 1) (j + 1) (string.set j byte)
        else if type = .escape ∧ byte = 92 then
          let escaped := string.getD (i + 1) 0
          if isOctal escaped then
            let (value, moved, _) := dequoteOctal 3 0 escaped 0 (string.drop (i + 1))
            dequoteLoop type length fuel (i + 1 + moved) (j + 1) (string.set j value)
          else dequoteLoop type length fuel (i + 2) (j + 1) (string.set j (unescape escaped))
        else dequoteLoop type length fuel (i + 1) (j + 1) (string.set j byte)
      else some (string, i, j)

/-- `ctable_dequoteString`: the buffer it leaves, and the new length. -/
def dequoteString (type : QuoteType) (length : Nat) (string : CString) : Option (CString × Nat) :=
  if type = .none then some (string, length)
  else
    (dequoteLoop type length length 0 0 string).map fun (buffer, i, j) =>
      (if j < i then buffer.set j 0 else buffer, j)

-----------------------------------------------------------------------------------------
-- The buffer
-----------------------------------------------------------------------------------------

/-- One write in place, by the write being behind the reads. -/
theorem set_behind {i j moved : Nat} {buffer : CString} (value : UInt8) (behind : j ≤ i)
    (inside : i < buffer.length) (moves : 0 < moved)
    : (buffer.set j value).drop (i + moved) = buffer.drop (i + moved)
        ∧ (buffer.set j value).take (j + 1) = buffer.take j ++ [value] := by
  refine ⟨List.drop_set_of_lt (by omega), ?_⟩
  have room : j < (buffer.set j value).length := by
    rw [List.length_set]
    omega
  rw [List.take_add_one, List.getElem?_eq_getElem room, List.getElem_set_self,
    List.take_set_of_le (Nat.le_refl j)]
  rfl

/-- The octal loop has read as many characters as it has moved on by, by induction on the digits
left.
-/
theorem dequoteOctal_reads (digits : Nat) (value current : UInt8) (moved : Nat) (source : CString)
    : moved ≤ (dequoteOctal digits value current moved source).2.1
        ∧ (dequoteOctal digits value current moved source).2.2
          = source.drop ((dequoteOctal digits value current moved source).2.1 - moved) := by
  induction digits generalizing value current moved source with
  | zero => simp [dequoteOctal]
  | succ digits ih =>
      simp only [dequoteOctal]
      split
      · obtain ⟨more, rest⟩ :=
          ih (value * 8 + current - 48) (source.headD 0) (moved + 1) source.tail
        refine ⟨by omega, ?_⟩
        rw [rest, List.drop_tail]
        congr 1
        omega
      · simp

/-- Dequoting in place writes what dequoting to a copy would, by induction on the iterations. -/
theorem dequoteLoop_copies (type : QuoteType) {length i j : Nat} {buffer : CString} (fuel : Nat)
    (behind : j ≤ i) (fits : length ≤ buffer.length)
    : (dequoteLoop type length fuel i j buffer).map
          (fun state => (state.1.take state.2.2, state.2.2))
        = (copyDequotedLoop type fuel (length - i) (buffer.drop i)).map
            (fun value => (buffer.take j ++ value, j + value.length)) := by
  induction fuel generalizing i j buffer with
  | zero => simp [dequoteLoop, copyDequotedLoop]
  | succ fuel ih =>
      by_cases inside : i < length
      · have step (moved : Nat) (value : UInt8) (moves : 0 < moved)
            : (dequoteLoop type length fuel (i + moved) (j + 1) (buffer.set j value)).map
                  (fun state => (state.1.take state.2.2, state.2.2))
                = ((copyDequotedLoop type fuel (length - (i + moved))
                    (buffer.drop (i + moved))).map (value :: ·)).map
                  (fun value => (buffer.take j ++ value, j + value.length)) := by
          obtain ⟨same, taken⟩ :=
            set_behind value behind (Nat.lt_of_lt_of_le inside fits) moves
          rw [ih (by omega) (by rwa [List.length_set]), same, taken, Option.map_map]
          congr 1
          funext rest
          simp only [List.append_assoc, List.singleton_append, Function.comp_apply,
            List.length_cons, Prod.mk.injEq, true_and]
          omega
        have remaining : length - i = length - (i + 1) + 1 := by omega
        have first : (buffer.drop i).headD 0 = buffer.getD i 0 := by
          rw [List.headD_eq_head?_getD, List.head?_drop, List.getD_eq_getElem?_getD]
        have later (ahead : Nat) : (buffer.drop i).getD ahead 0 = buffer.getD (i + ahead) 0 := by
          rw [List.getD_eq_getElem?_getD, List.getElem?_drop, List.getD_eq_getElem?_getD]
        have rest : (buffer.drop i).tail = buffer.drop (i + 1) := List.tail_drop
        have three : length - (i + 1) - 2 = length - (i + 3) := by omega
        have two : length - (i + 1) - 1 = length - (i + 2) := by omega
        rw [remaining]
        simp only [dequoteLoop, copyDequotedLoop, if_pos inside, first, later, rest,
          List.drop_drop, three, two]
        split
        · rcases hexDigit (buffer.getD (i + 1) 0) with _ | high
          · simp only
            split
            · rfl
            · exact step 1 _ (by decide)
          · rcases hexDigit (buffer.getD (i + 2) 0) with _ | low
            · simp only
              split
              · rfl
              · exact step 1 _ (by decide)
            · exact step 3 _ (by decide)
        · split
          · split
            · have read := dequoteOctal_reads 3 0 (buffer.getD (i + 1) 0) 0 (buffer.drop (i + 1))
              revert read
              rcases dequoteOctal 3 0 (buffer.getD (i + 1) 0) 0 (buffer.drop (i + 1))
                with ⟨value, moved, rest⟩
              intro read
              obtain rfl : rest = (buffer.drop (i + 1)).drop moved := read.2
              have left : length - (i + 1) - moved = length - (i + (1 + moved)) := by omega
              simp only [left, List.drop_drop, Nat.add_assoc]
              exact step (1 + moved) value (by omega)
            · exact step 2 _ (by decide)
          · exact step 1 _ (by decide)
      · have finished : length - i = 0 := by omega
        rw [finished]
        simp [dequoteLoop, copyDequotedLoop, inside]

/-- What `ctable_dequoteString` leaves in the buffer is what `ctable_copyDequoted` writes. -/
theorem dequoteString_copies {type : QuoteType} {length : Nat} {string : CString}
    (quotes : type ≠ .none) (fits : length ≤ string.length)
    : (dequoteString type length string).map (fun result => (result.1.take result.2, result.2))
        = (copyDequoted type length string).map (fun value => (value, value.length)) := by
  have copies := dequoteLoop_copies type length (Nat.le_refl 0) fits
  simp only [List.take_zero, List.nil_append, Nat.zero_add, Nat.sub_zero, List.drop_zero]
    at copies
  rw [dequoteString, if_neg quotes, copyDequoted, if_neg quotes, ← copies, Option.map_map]
  congr 1
  funext state
  simp only [Function.comp_apply]
  split
  · rw [List.take_set_of_le (Nat.le_refl _)]
  · rfl

-----------------------------------------------------------------------------------------
-- Reading a quoted byte
-----------------------------------------------------------------------------------------

/-- The byte that dequoting makes of a quoted byte. The octal loop adds the first digit twice and
leaves the last one out.
-/
def readAs (type : QuoteType) (quotedChars : CString) (byte : UInt8) : UInt8 :=
  if type = .escape ∧ mustQuote type quotedChars byte ∧ specials.lookup byte = none then
    byte / 64 * 72 + byte / 8 % 8
  else byte

/-- A fact about the digits of a base, by running over them. -/
theorem forall_digit {p : UInt8 → Prop} {base : Nat} (all : ∀ digit < base, p (UInt8.ofNat digit))
    {digit : UInt8} (small : digit.toNat < base)
    : p digit := by
  simpa only [UInt8.ofNat_toNat] using all digit.toNat small

theorem hexDigit_printDigit {digit : UInt8} (small : digit.toNat < 16)
    : hexDigit (printDigit digit) = some digit :=
  @forall_digit (fun digit => hexDigit (printDigit digit) = some digit) 16 (by decide) digit small

theorem isOctal_printDigit {digit : UInt8} (small : digit.toNat < 8)
    : isOctal (printDigit digit) = true ∧ printDigit digit - 48 = digit :=
  @forall_digit (fun digit => isOctal (printDigit digit) = true ∧ printDigit digit - 48 = digit) 8
    (by decide) digit small

/-- The digits of a byte, in hexadecimal and in octal. -/
theorem byte_digits (byte : UInt8)
    : ((byte / 16).toNat < 16 ∧ (byte % 16).toNat < 16)
        ∧ (byte / 64).toNat < 8 ∧ (byte / 8 % 8).toNat < 8 ∧ (byte % 8).toNat < 8 := by
  have bound := byte.toNat_lt
  simp only [UInt8.toNat_div, UInt8.toNat_mod, UInt8.reduceToNat]
  omega

/-- The octal loop on the digits of a byte. -/
theorem dequoteOctal_printed (byte : UInt8) (rest : CString)
    : isOctal (printDigit (byte / 64)) = true
        ∧ dequoteOctal 3 0 (printDigit (byte / 64)) 0
            (printDigit (byte / 64) :: printDigit (byte / 8 % 8) :: printDigit (byte % 8) :: rest)
          = (byte / 64 * 72 + byte / 8 % 8, 3, rest) := by
  obtain ⟨-, first, second, third⟩ := byte_digits byte
  obtain ⟨firstOctal, firstValue⟩ := isOctal_printDigit first
  obtain ⟨secondOctal, secondValue⟩ := isOctal_printDigit second
  obtain ⟨thirdOctal, -⟩ := isOctal_printDigit third
  refine ⟨firstOctal, ?_⟩
  simp only [dequoteOctal, List.headD_cons, List.tail_cons, firstOctal, secondOctal, thirdOctal,
    if_true]
  grind

/-- The letters of special bytes are not octal digits, and stand for their bytes. -/
theorem unescape_special {byte letter : UInt8} (found : specials.lookup byte = some letter)
    : (byte, letter) ∈ specials ∧ isOctal letter = false ∧ unescape letter = byte := by
  have listed : (byte, letter) ∈ specials := by
    obtain ⟨before, after, split, -⟩ := List.lookup_eq_some_iff.mp found
    rw [split]
    simp
  have all : ∀ pair ∈ specials, isOctal pair.2 = false ∧ unescape pair.2 = pair.1 := by
    simp [specials, isOctal, unescape]
  exact ⟨listed, all _ listed⟩

/-- What stands for a byte in quoted text is read in one iteration. -/
theorem copyDequotedLoop_piece {type : QuoteType} (reads : type ≠ .none ∧ type ≠ .strictEscape)
    (quotedChars : CString) (byte : UInt8) (fuel length : Nat) (rest : CString)
    : let piece := if mustQuote type quotedChars byte then quoteByte type byte else [byte]
      copyDequotedLoop type (fuel + 1) (piece.length + length) (piece ++ rest)
        = (copyDequotedLoop type fuel length rest).map (readAs type quotedChars byte :: ·) := by
  obtain ⟨⟨highSmall, lowSmall⟩, -⟩ := byte_digits byte
  have high := hexDigit_printDigit highSmall
  have low := hexDigit_printDigit lowSmall
  have whole : byte / 16 * 16 + byte % 16 = byte := by
    apply UInt8.toNat_inj.mp
    have bound := byte.toNat_lt
    simp only [UInt8.toNat_add, UInt8.toNat_mul, UInt8.toNat_div, UInt8.toNat_mod,
      UInt8.reduceToNat]
    omega
  obtain ⟨octal, value⟩ := dequoteOctal_printed byte rest
  by_cases needed : mustQuote type quotedChars byte = true
  · cases type with
    | none => exact absurd rfl reads.1
    | strictEscape => exact absurd rfl reads.2
    | uri =>
        simp [needed, quoteByte, readAs, copyDequotedLoop, Nat.add_comm 3 length, high, low, whole]
    | strictUri =>
        simp [needed, quoteByte, readAs, copyDequotedLoop, Nat.add_comm 3 length, high, low, whole]
    | escape =>
        rcases found : specials.lookup byte with _ | letter
        · simp [needed, found, quoteByte, readAs, copyDequotedLoop, Nat.add_comm 4 length, octal,
            value]
        · obtain ⟨-, plain, stands⟩ := unescape_special found
          simp [needed, found, quoteByte, readAs, copyDequotedLoop, Nat.add_comm 2 length, plain,
            stands]
  · have other : ∀ mark, type.quoteChar = some mark → byte ≠ mark := by
      intro mark quoted same
      simp [mustQuote, quoted, same] at needed
    rw [Bool.not_eq_true] at needed
    cases type with
    | none => exact absurd rfl reads.1
    | strictEscape => exact absurd rfl reads.2
    | uri =>
        have plain := other 37 rfl
        simp [needed, readAs, copyDequotedLoop, Nat.add_comm 1 length, plain]
    | strictUri =>
        have plain := other 37 rfl
        simp [needed, readAs, copyDequotedLoop, Nat.add_comm 1 length, plain]
    | escape =>
        have plain := other 92 rfl
        simp [needed, readAs, copyDequotedLoop, Nat.add_comm 1 length, plain]

-----------------------------------------------------------------------------------------
-- Reading quoted text
-----------------------------------------------------------------------------------------

/-- Quoted text is read byte by byte, by induction on the string. -/
theorem copyDequotedLoop_quoted {type : QuoteType} (reads : type ≠ .none ∧ type ≠ .strictEscape)
    (quotedChars string rest : CString) {fuel : Nat} (enough : string.length ≤ fuel)
    : copyDequotedLoop type fuel (quoteBytes type quotedChars string).length
          (quoteBytes type quotedChars string ++ rest)
        = some (string.map (readAs type quotedChars)) := by
  induction string generalizing fuel with
  | nil => cases fuel <;> rfl
  | cons byte string ih =>
      obtain ⟨fuel, rfl⟩ : ∃ less, fuel = less + 1 :=
        Nat.exists_eq_add_one.mpr (Nat.lt_of_lt_of_le (Nat.succ_pos _) enough)
      have behind := ih (Nat.le_of_succ_le_succ enough)
      have piece := copyDequotedLoop_piece reads quotedChars byte fuel
        (quoteBytes type quotedChars string).length (quoteBytes type quotedChars string ++ rest)
      rw [behind] at piece
      rw [quoteBytes, List.flatMap_cons, List.length_append, List.append_assoc]
      exact piece

theorem quoteByte_length (type : QuoteType) (byte : UInt8)
    : 1 ≤ (quoteByte type byte).length
        ∧ (type ≠ .none → 2 ≤ (quoteByte type byte).length) := by
  cases type with
  | escape => rcases found : specials.lookup byte <;> simp [quoteByte, found]
  | strictEscape => rcases found : specials.lookup byte <;> simp [quoteByte, found]
  | _ => simp [quoteByte]

/-- Quoting makes text longer exactly when something is quoted. -/
theorem quoteBytes_length {type : QuoteType} (quotes : type ≠ .none) (quotedChars string : CString)
    : string.length ≤ (quoteBytes type quotedChars string).length
        ∧ (string.any (mustQuote type quotedChars) = true →
          string.length < (quoteBytes type quotedChars string).length) := by
  induction string with
  | nil => simp [quoteBytes]
  | cons byte string ih =>
      have two := (quoteByte_length type byte).2 quotes
      rw [quoteBytes, List.flatMap_cons, List.length_append, List.length_cons, List.any_cons]
      by_cases needed : mustQuote type quotedChars byte = true
      · rw [if_pos needed]
        have rest := ih.1
        rw [quoteBytes] at rest
        exact ⟨by omega, fun _ => by omega⟩
      · rw [if_neg needed, List.length_singleton]
        rw [quoteBytes] at ih
        refine ⟨by omega, fun some => ?_⟩
        have more := ih.2 (by simpa only [needed, Bool.false_or] using some)
        omega

/-- Without anything to quote, text is left as it is. -/
theorem quoteBytes_plain {type : QuoteType} {quotedChars string : CString}
    (plain : string.any (mustQuote type quotedChars) = false)
    : quoteBytes type quotedChars string = string := by
  rw [List.any_eq_false] at plain
  rw [quoteBytes]
  calc string.flatMap _
    _ = string.flatMap (fun byte => [byte]) := by
        refine List.flatMap_congr fun byte member => ?_
        rw [if_neg (plain byte member)]
    _ = string := List.flatMap_singleton' string

theorem quoteString_eq {type : QuoteType} (quotes : type ≠ .none) {quotedChars : Option CString}
    {string quoted : CString} (made : quoteString type quotedChars string = some quoted)
    : quoted = quoteBytes type (quotedChars.getD [9]) string := by
  simp only [quoteString, quotes, false_or] at made
  split at made
  next plain =>
    rw [quoteBytes_plain plain]
    exact (Option.some.inj made).symm
  · split at made
    · exact (Option.some.inj made).symm
    · cases made

/-- The decoder does not know strict escapes, and copies. -/
theorem copyDequoted_strictEscape {source : CString} {length : Nat} (fits : length ≤ source.length)
    : copyDequoted .strictEscape length source = some (source.take length) := by
  have copies (fuel : Nat) : length ≤ fuel →
      copyDequotedLoop .strictEscape fuel length source = some (source.take length) := by
    induction length generalizing fuel source with
    | zero => cases fuel <;> simp [copyDequotedLoop]
    | succ length ih =>
        intro enough
        obtain ⟨fuel, rfl⟩ : ∃ less, fuel = less + 1 := Nat.exists_eq_add_one.mpr (by omega)
        obtain ⟨byte, source, rfl⟩ : ∃ byte rest, source = byte :: rest :=
          List.exists_cons_of_length_pos (Nat.lt_of_lt_of_le (Nat.succ_pos _) fits)
        have behind := ih (Nat.le_of_succ_le_succ fits) fuel (by omega)
        simp [copyDequotedLoop, behind]
  rw [copyDequoted, if_neg (by decide)]
  exact copies length (Nat.le_refl _)

-----------------------------------------------------------------------------------------
-- Round trips
-----------------------------------------------------------------------------------------

/-- `iscntrl` -/
def isControl (byte : UInt8) : Bool :=
  byte < 0x20 || byte == 0x7f

/-- The characters that quoting emits. -/
def emits (type : QuoteType) (byte : UInt8) : Bool :=
  match type with
  | .none => false
  | .uri | .strictUri => byte == 37 || (hexDigit byte).isSome && !(65 ≤ byte && byte ≤ 70)
  | .escape | .strictEscape => byte == 92 || isOctal byte || (specials.map Prod.snd).contains byte

/-- Dequoted in place, in a buffer that a NUL ends, the text is the string again. -/
def ReadsBack (type : QuoteType) (quoted string : CString) : Prop :=
  ∃ buffer, dequoteString type quoted.length (quoted ++ [0]) = some (buffer, string.length)
    ∧ buffer.take string.length = string

/-- The text can stand in a line: it has no control characters, and no separators unless quoting
emits one.
-/
def StandsInLine (type : QuoteType) (separators quoted : CString) : Prop :=
  (∀ byte ∈ separators, emits type byte = false) →
    ∀ byte ∈ quoted, isControl byte = false ∧ byte ∉ separators

/-- The size that is allocated for a quoted string is an `int`. -/
def Allocatable (type : QuoteType) (separators string : CString) : Prop :=
  (∃ byte ∈ string, mustQuote type separators byte = true) →
    type.maxExpansion * string.length + 1 < 2 ^ 31

/-- What quoting makes of the string can be undone: strict escapes are not read at all, and an
octal escape is read right when its three digits are one.
-/
def Undone (type : QuoteType) (separators string : CString) : Prop :=
  match type with
  | .strictEscape => ∀ byte ∈ string, mustQuote type separators byte = false
  | .escape => ∀ byte ∈ string, mustQuote type separators byte = true →
      specials.lookup byte = none → byte / 64 = byte / 8 % 8 ∧ byte / 8 % 8 = byte % 8
  | _ => True

/-- The string has no control character that quoting lets through: a delete that is no separator,
or a NUL, of which escapes emit the byte behind a backslash.
-/
def Printable (type : QuoteType) (separators string : CString) : Prop :=
  (∀ byte ∈ separators, emits type byte = false) →
    (0x7f ∈ string → 0x7f ∈ separators)
      ∧ (type = .escape ∨ type = .strictEscape → 0 ∉ string)

/-- Quoting makes a text, that dequoting undoes and that can stand in a line. -/
def Quotes (type : QuoteType) (quotedChars : Option CString) (string : CString) : Prop :=
  ∃ quoted, quoteString type quotedChars string = some quoted
    ∧ ReadsBack type quoted string
    ∧ StandsInLine type (quotedChars.getD [9]) quoted

/-- A quoted string is made unless its size overflows. -/
theorem quoteString_made {type : QuoteType} (quotes : type ≠ .none) (quotedChars : Option CString)
    (string : CString)
    : quoteString type quotedChars string = some (quoteBytes type (quotedChars.getD [9]) string)
        ↔ Allocatable type (quotedChars.getD [9]) string := by
  simp only [quoteString, quotes, false_or, Allocatable, ← List.any_eq_true]
  by_cases plain : string.any (mustQuote type (quotedChars.getD [9])) = false
  · simp [plain, quoteBytes_plain plain]
  · rw [Bool.not_eq_false] at plain
    simp only [plain, Bool.true_eq_false, if_false, true_imp_iff, ite_eq_left_iff, reduceCtorEq,
      imp_false, not_not]

/-- A byte is read as itself exactly when its escape is not octal, or has one digit three times. -/
theorem readAs_eq_self (type : QuoteType) (separators : CString) (byte : UInt8)
    : readAs type separators byte = byte
        ↔ (type = .escape → mustQuote type separators byte = true →
          specials.lookup byte = none → byte / 64 = byte / 8 % 8 ∧ byte / 8 % 8 = byte % 8) := by
  have digits : byte / 64 * 72 + byte / 8 % 8 = byte
      ↔ byte / 64 = byte / 8 % 8 ∧ byte / 8 % 8 = byte % 8 := by
    have bound := byte.toNat_lt
    have first : byte.toNat / 64 < 4 := by omega
    have second : byte.toNat / 8 = byte.toNat / 64 * 8 + byte.toNat / 8 % 8 := by omega
    have sum : (byte.toNat / 64 * 72 % 256 + byte.toNat / 8 % 8) % 256
        = byte.toNat / 64 * 72 + byte.toNat / 8 % 8 := by
      omega
    simp only [← UInt8.toNat_inj, UInt8.toNat_add, UInt8.toNat_mul, UInt8.toNat_div,
      UInt8.toNat_mod, UInt8.reduceToNat, Nat.reducePow, sum]
    omega
  rw [readAs]
  split
  next octal =>
    obtain ⟨escape, needed, absent⟩ := octal
    exact digits.trans ⟨fun same _ _ _ => same, fun same => same escape needed absent⟩
  next other =>
    simp only [true_iff]
    intro escape needed absent
    exact absurd ⟨escape, needed, absent⟩ other

/-- Dequoting gives the string back exactly when what quoting makes of it can be undone. -/
theorem readsBack_iff {type : QuoteType} (quotes : type ≠ .none) (separators string : CString)
    : ReadsBack type (quoteBytes type separators string) string ↔ Undone type separators string := by
  set quoted := quoteBytes type separators string with made
  have fits : quoted.length ≤ (quoted ++ [0]).length := by simp
  have copies := dequoteString_copies quotes fits
  have copied : ReadsBack type quoted string
      ↔ copyDequoted type quoted.length (quoted ++ [0]) = some string := by
    constructor
    · intro ⟨buffer, result, text⟩
      rw [result, Option.map_some] at copies
      obtain ⟨value, copy, same⟩ := Option.map_eq_some_iff.mp copies.symm
      rw [copy, (Prod.mk.inj same).1]
      exact congrArg some text
    · intro copy
      rw [copy, Option.map_some] at copies
      obtain ⟨⟨buffer, written⟩, result, same⟩ := Option.map_eq_some_iff.mp copies
      obtain ⟨text, rfl⟩ := Prod.mk.inj same
      exact ⟨buffer, result, text⟩
  have enough := (quoteBytes_length quotes separators string).1
  rw [copied]
  by_cases strict : type = .strictEscape
  · subst strict
    rw [copyDequoted_strictEscape fits, List.take_left, Option.some_inj, Undone]
    constructor
    · intro same byte member
      by_contra needed
      have longer := (quoteBytes_length quotes separators string).2
        (List.any_eq_true.mpr ⟨byte, member, by simpa using needed⟩)
      rw [← made, same] at longer
      exact Nat.lt_irrefl _ longer
    · intro plain
      exact quoteBytes_plain (List.any_eq_false.mpr fun byte member => by simp [plain byte member])
  · rw [copyDequoted, if_neg quotes,
      copyDequotedLoop_quoted ⟨quotes, strict⟩ separators string [0] enough, Option.some_inj]
    have bytes : string.map (readAs type separators) = string
        ↔ ∀ byte ∈ string, readAs type separators byte = byte := by
      conv_lhs => rhs; rw [← List.map_id string]
      exact List.map_inj_left
    simp only [bytes, readAs_eq_self]
    cases type with
    | none => exact absurd rfl quotes
    | strictEscape => exact absurd rfl strict
    | uri => simp [Undone]
    | strictUri => simp [Undone]
    | escape => simp [Undone]

/-- The bytes that stand for a quoted byte are emitted, and only the NUL behind a backslash is a
control character.
-/
theorem quoteByte_emits {type : QuoteType} (quotes : type ≠ .none) (byte : UInt8)
    : (∀ c ∈ quoteByte type byte, emits type c = true)
        ∧ ((∃ c ∈ quoteByte type byte, isControl c = true)
          ↔ (type = .escape ∨ type = .strictEscape) ∧ byte = 0) := by
  have hex : ∀ c ∈ [37, printDigit (byte / 16), printDigit (byte % 16)],
      emits .uri c = true ∧ isControl c = false := by
    have digit {d : UInt8} (small : d.toNat < 16)
        : emits .uri (printDigit d) = true ∧ isControl (printDigit d) = false :=
      @forall_digit (fun d => emits .uri (printDigit d) = true ∧ isControl (printDigit d) = false)
        16 (by decide) d small
    obtain ⟨⟨high, low⟩, -⟩ := byte_digits byte
    simpa using ⟨by decide, digit high, digit low⟩
  have octal : ∀ c ∈ [printDigit (byte / 64), printDigit (byte / 8 % 8), printDigit (byte % 8)],
      emits .escape c = true ∧ isControl c = false := by
    have digit {d : UInt8} (small : d.toNat < 8)
        : emits .escape (printDigit d) = true ∧ isControl (printDigit d) = false :=
      @forall_digit
        (fun d => emits .escape (printDigit d) = true ∧ isControl (printDigit d) = false)
        8 (by decide) d small
    obtain ⟨-, first, second, third⟩ := byte_digits byte
    simpa using ⟨digit first, digit second, digit third⟩
  have mark : emits .escape 92 = true ∧ isControl 92 = false := by decide
  have shown {type : QuoteType} {escapes : Prop}
      (digits : ∀ c ∈ quoteByte type byte, emits type c = true ∧ isControl c = false)
      (never : ¬ escapes)
      : (∀ c ∈ quoteByte type byte, emits type c = true)
        ∧ ((∃ c ∈ quoteByte type byte, isControl c = true) ↔ escapes) := by
    refine ⟨fun c member => (digits c member).1, ⟨fun ⟨c, member, control⟩ => ?_, never.elim⟩⟩
    rw [(digits c member).2] at control
    cases control
  have escape : (∀ c ∈ quoteByte .escape byte, emits .escape c = true)
      ∧ ((∃ c ∈ quoteByte .escape byte, isControl c = true) ↔ byte = 0) := by
    rcases found : specials.lookup byte with _ | letter
    · have other : byte ≠ 0 := by
        rintro rfl
        cases found
      have digits : ∀ c ∈ quoteByte .escape byte, emits .escape c = true ∧ isControl c = false := by
        simpa [quoteByte, found, mark] using octal
      exact shown digits other
    · have listed := (unescape_special found).1
      have all : ∀ pair ∈ specials, emits .escape pair.2 = true
          ∧ (isControl pair.2 = true ↔ pair.1 = 0) := by
        simp [specials, emits, isOctal, isControl]
      obtain ⟨emitted, control⟩ := all _ listed
      simp [quoteByte, found, emitted, control, mark]
  cases type with
  | none => exact absurd rfl quotes
  | uri => exact shown hex (by simp)
  | strictUri => exact shown hex (by simp)
  | escape => simpa using escape
  | strictEscape =>
      have strict : (∀ c ∈ quoteByte .strictEscape byte, emits .strictEscape c = true)
          ∧ ((∃ c ∈ quoteByte .strictEscape byte, isControl c = true) ↔ byte = 0) :=
        escape
      simpa using strict

/-- A byte that is not quoted is no separator, and a control character only if it is a delete. -/
theorem mustQuote_plain {type : QuoteType} {separators : CString} {byte : UInt8}
    (plain : mustQuote type separators byte = false)
    : byte ∉ separators ∧ (isControl byte = true → byte = 0x7f) := by
  simp only [mustQuote, Bool.or_eq_false_iff] at plain
  obtain ⟨⟨⟨-, separator, -⟩, visible⟩, -⟩ := plain
  refine ⟨by simpa using separator, fun control => ?_⟩
  simpa only [isControl, visible, Bool.false_or, beq_iff_eq] using control

theorem mustQuote_delete {type : QuoteType} {separators : CString} (listed : 0x7f ∉ separators)
    : mustQuote type separators 0x7f = false := by
  have absent : separators.contains 0x7f = false := by simpa using listed
  have plain : ((0x7f : UInt8) == 0) = false ∧ decide ((0x7f : UInt8) < 0x20) = false
      ∧ ((0x7f : UInt8) &&& 0x80 != 0) = false := by
    decide
  have mark : (type.quoteChar == some 0x7f) = false := by
    cases type <;> decide
  simp only [mustQuote, mark, absent, plain, Bool.and_false, Bool.or_self]

theorem mustQuote_nul (type : QuoteType) (separators : CString)
    : mustQuote type separators 0 = true := by
  simp [mustQuote]

/-- The quoted text can stand in a line exactly when the string is printable. -/
theorem standsInLine_iff {type : QuoteType} (quotes : type ≠ .none) (separators string : CString)
    : StandsInLine type separators (quoteBytes type separators string)
        ↔ Printable type separators string := by
  refine imp_congr_right fun apart => ?_
  constructor
  · intro stands
    refine ⟨fun delete => ?_, fun escapes nul => ?_⟩
    · by_contra listed
      have kept : 0x7f ∈ quoteBytes type separators string :=
        List.mem_flatMap.mpr ⟨0x7f, delete, by simp [mustQuote_delete listed]⟩
      exact absurd (stands 0x7f kept).1 (by decide)
    · obtain ⟨c, member, control⟩ := (quoteByte_emits quotes 0).2.mpr ⟨escapes, rfl⟩
      have kept : c ∈ quoteBytes type separators string :=
        List.mem_flatMap.mpr ⟨0, nul, by simpa [mustQuote_nul] using member⟩
      rw [(stands c kept).1] at control
      cases control
  · intro ⟨delete, nul⟩ c member
    obtain ⟨byte, inside, piece⟩ := List.mem_flatMap.mp member
    by_cases needed : mustQuote type separators byte = true
    · rw [if_pos needed] at piece
      refine ⟨?_, fun separator => ?_⟩
      · by_contra control
        obtain ⟨escapes, rfl⟩ :=
          (quoteByte_emits quotes byte).2.mp ⟨c, piece, by simpa using control⟩
        exact nul escapes inside
      · have emitted := (quoteByte_emits quotes byte).1 c piece
        rw [apart c separator] at emitted
        cases emitted
    · rw [if_neg needed, List.mem_singleton] at piece
      subst piece
      obtain ⟨other, only⟩ := mustQuote_plain (by simpa using needed)
      refine ⟨?_, other⟩
      by_contra control
      obtain rfl := only (by simpa using control)
      exact other (delete inside)

/-- A string is quoted so that dequoting gives it back and the text can stand in a line, exactly
when the text can be allocated, its escapes can be undone, and its characters be printed.
-/
theorem quoteString_quotes {type : QuoteType} (quotes : type ≠ .none) (quotedChars : Option CString)
    (string : CString)
    : Quotes type quotedChars string
        ↔ Allocatable type (quotedChars.getD [9]) string
          ∧ Undone type (quotedChars.getD [9]) string
          ∧ Printable type (quotedChars.getD [9]) string := by
  have undone := readsBack_iff quotes (quotedChars.getD [9]) string
  have printable := standsInLine_iff quotes (quotedChars.getD [9]) string
  constructor
  · intro ⟨quoted, made, back, stands⟩
    obtain rfl := quoteString_eq quotes made
    exact ⟨(quoteString_made quotes quotedChars string).mp made, undone.mp back,
      printable.mp stands⟩
  · intro ⟨allocatable, escapes, prints⟩
    exact ⟨_, (quoteString_made quotes quotedChars string).mpr allocatable, undone.mpr escapes,
      printable.mpr prints⟩

/-- A tab and a line end, quoted for a URI. -/
theorem quoteString_quotes_uri
    : Quotes .uri none [97, 9, 10] :=
  (quoteString_quotes (by decide) none [97, 9, 10]).mpr
    ⟨fun _ => by decide, trivial, fun _ => ⟨by decide, by decide⟩⟩

/-- The octal escape of the byte 1 is read as 0. -/
theorem quoteString_octal
    : quoteString .escape none [1] = some [92, 48, 48, 49]
        ∧ dequoteString .escape 4 [92, 48, 48, 49, 0] = some ([0, 0, 48, 49, 0], 1)
        ∧ ¬ Quotes .escape none [1] := by
  refine ⟨by decide, by decide, ?_⟩
  intro ⟨quoted, made, ⟨buffer, back, text⟩, _⟩
  have same : quoteString .escape none [1] = some [92, 48, 48, 49] := by decide
  obtain rfl := Option.some.inj (same.symm.trans made)
  have read : dequoteString .escape 4 [92, 48, 48, 49, 0] = some ([0, 0, 48, 49, 0], 1) := by
    decide
  obtain rfl := (Prod.mk.inj (Option.some.inj (read.symm.trans back))).1
  exact absurd text (by decide)

end SpeedTables
