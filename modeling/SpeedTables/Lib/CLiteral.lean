import Mathlib

/-! C string literals: simple and octal escapes between characters that stand for themselves. -/

namespace SpeedTables.Lib

/-- The digits of an octal escape. -/
def isOctalDigit (byte : UInt8) : Bool := 48 ≤ byte && byte ≤ 55

/-- The escapes of one character. -/
def simpleEscape (byte : UInt8) : Option UInt8 :=
  [(97, 7), (98, 8), (116, 9), (110, 10), (118, 11), (102, 12), (114, 13), (34, 34), (39, 39),
    (63, 63), (92, 92)].lookup byte

/-- The byte of octal digits. -/
def octalByte (digits : List UInt8) : UInt8 :=
  UInt8.ofNat (digits.foldl (fun value digit => 8 * value + (digit.toNat - 48)) 0)

/-- The bytes of a literal in the given quotes, unless it has other escapes or ends early. An
escape takes up to three octal digits.
-/
def readLiteral (quote : UInt8) : List UInt8 → Option (List UInt8)
  | [] => some []
  | byte :: rest =>
      if byte = 92 then
        match rest with
        | [] => none
        | first :: rest =>
            if isOctalDigit first then
              match rest with
              | [] => some [octalByte [first]]
              | second :: more =>
                  if isOctalDigit second then
                    match more with
                    | [] => some [octalByte [first, second]]
                    | third :: others =>
                        if isOctalDigit third then
                          (readLiteral quote others).map (octalByte [first, second, third] :: ·)
                        else (readLiteral quote (third :: others)).map
                          (octalByte [first, second] :: ·)
                  else (readLiteral quote (second :: more)).map (octalByte [first] :: ·)
            else
              match simpleEscape first with
              | some value => (readLiteral quote rest).map (value :: ·)
              | none => none
      else if byte = quote ∨ byte = 10 then none
      else (readLiteral quote rest).map (byte :: ·)

variable {quote : UInt8} {rest : List UInt8}

/-- A character that stands for itself. -/
theorem readLiteral_plain {byte : UInt8} (noEscape : byte ≠ 92) (inside : byte ≠ quote)
    (sameLine : byte ≠ 10)
    : readLiteral quote (byte :: rest) = (readLiteral quote rest).map (byte :: ·) := by
  conv_lhs => rw [readLiteral.eq_def]
  simp [noEscape, inside, sameLine]

/-- Characters that stand for themselves, by induction on them. -/
theorem readLiteral_plainAll {bytes : List UInt8}
    (plain : ∀ byte ∈ bytes, byte ≠ 92 ∧ byte ≠ quote ∧ byte ≠ 10)
    : readLiteral quote (bytes ++ rest) = (readLiteral quote rest).map (bytes ++ ·) := by
  induction bytes with
  | nil => simp
  | cons byte bytes ih =>
      obtain ⟨noEscape, inside, sameLine⟩ := plain byte List.mem_cons_self
      rw [List.cons_append, readLiteral_plain noEscape inside sameLine,
        ih fun other member => plain other (List.mem_cons_of_mem _ member), Option.map_map]
      rfl

/-- A whole octal escape. -/
theorem readLiteral_octal {first second third : UInt8} (one : isOctalDigit first = true)
    (two : isOctalDigit second = true) (three : isOctalDigit third = true)
    : readLiteral quote (92 :: first :: second :: third :: rest)
      = (readLiteral quote rest).map (octalByte [first, second, third] :: ·) := by
  simp [readLiteral, one, two, three]

/-- The escape of one octal digit ends where no other digit follows. -/
theorem readLiteral_octal_short {digit : UInt8} (octal : isOctalDigit digit = true)
    (ends : ∀ next, rest.head? = some next → isOctalDigit next = false)
    : readLiteral quote (92 :: digit :: rest)
      = (readLiteral quote rest).map (octalByte [digit] :: ·) := by
  cases rest with
  | nil => simp [readLiteral, octal]
  | cons next rest =>
      have other := ends next rfl
      conv_lhs => rw [readLiteral.eq_def]
      simp [octal, other]

/-- The escape of one character. -/
theorem readLiteral_simple {byte value : UInt8} (escape : simpleEscape byte = some value)
    : readLiteral quote (92 :: byte :: rest) = (readLiteral quote rest).map (value :: ·) := by
  have noDigit : isOctalDigit byte = false := by
    by_contra digit
    rw [Bool.not_eq_false, isOctalDigit, Bool.and_eq_true, decide_eq_true_iff,
      decide_eq_true_iff] at digit
    have checked : ∀ n : Fin 256, 48 ≤ n.val → n.val ≤ 55 →
        simpleEscape (UInt8.ofNat n.val) = none := by decide +kernel
    have none' := checked ⟨byte.toNat, byte.toNat_lt⟩ digit.1 digit.2
    simp [escape] at none'
  conv_lhs => rw [readLiteral.eq_def]
  simp [noDigit, escape]

end SpeedTables.Lib
