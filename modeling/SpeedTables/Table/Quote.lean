import SpeedTables.Table.Values

/-! Column splitting and dequoting of tab-separated text. -/

namespace SpeedTables

/-- The `CTABLE_QUOTE_*` types -/
inductive QuoteType where
  | none
  | uri
  | strictUri
  | escape
  | strictEscape
  deriving DecidableEq

/-- `strstr`: the text before the first occurrence of the separator, and from it on. -/
def strstr (separator : CString) : CString → Option (CString × CString)
  | [] => if separator.isEmpty then some ([], []) else none
  | byte :: rest =>
      if separator.isPrefixOf (byte :: rest) then
        some ([], byte :: rest)
      else
        (strstr separator rest).map (fun found => (byte :: found.1, found.2))

/-- The value of a hexadecimal digit. -/
def hexDigit (byte : UInt8) : Option UInt8 :=
  if 48 ≤ byte ∧ byte ≤ 57 then some (byte - 48)
  else if 65 ≤ byte ∧ byte ≤ 70 then some (byte - 55)
  else if 97 ≤ byte ∧ byte ≤ 102 then some (byte - 87)
  else none

/-- Whether a byte is an octal digit. -/
def isOctal (byte : UInt8) : Bool :=
  48 ≤ byte && byte ≤ 55

/-- The octal loop of `ctable_copyDequoted`. It adds the current character, then reads the
character at the current position and moves on when that is a digit. `moved` counts the
moves.
-/
def dequoteOctal : Nat → UInt8 → UInt8 → Nat → CString → UInt8 × Nat × CString
  | 0, value, _, moved, source => (value, moved, source)
  | digits + 1, value, current, moved, source =>
      let value := value * 8 + current - 48
      let next := source.headD 0
      if isOctal next then dequoteOctal digits value next (moved + 1) source.tail
      else (value, moved, source)

/-- The character an escape letter stands for. -/
def unescape (byte : UInt8) : UInt8 :=
  match byte.toNat with
  | 110 => 10
  | 116 => 9
  | 114 => 13
  | 98 => 8
  | 102 => 12
  | 118 => 11
  | _ => byte

/-- The loop of `ctable_copyDequoted` over `length` characters of a longer string. `none` is
the format error of the strict types. The first argument bounds the iterations.
-/
def copyDequotedLoop (type : QuoteType) : Nat → Nat → CString → Option CString
  | 0, _, _ => some []
  | _ + 1, 0, _ => some []
  | fuel + 1, length + 1, source =>
      let byte := source.headD 0
      if (type = .uri ∨ type = .strictUri) ∧ byte = 37 then
        match hexDigit (source.getD 1 0), hexDigit (source.getD 2 0) with
        | some high, some low =>
            (copyDequotedLoop type fuel (length - 2) (source.drop 3)).map ((high * 16 + low) :: ·)
        | _, _ =>
            if type = .strictUri then none
            else (copyDequotedLoop type fuel length source.tail).map (byte :: ·)
      else if type = .escape ∧ byte = 92 then
        let escaped := source.getD 1 0
        if isOctal escaped then
          let (value, moved, rest) := dequoteOctal 3 0 escaped 0 source.tail
          (copyDequotedLoop type fuel (length - moved) rest).map (value :: ·)
        else
          (copyDequotedLoop type fuel (length - 1) (source.drop 2)).map (unescape escaped :: ·)
      else
        (copyDequotedLoop type fuel length source.tail).map (byte :: ·)

/-- `ctable_copyDequoted`. The type it tests is changed for strict URIs only, so strict
escapes are copied as they are.
-/
def copyDequoted (type : QuoteType) (length : Nat) (source : CString) : Option CString :=
  if type = .none then some (source.take length)
  else copyDequotedLoop type length length source

end SpeedTables
