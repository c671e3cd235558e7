import SpeedTables.Lib.TclString

/-! Percent codes: characters written as `%XX`, and texts that are read back from them. -/

namespace SpeedTables.Lib.PercentCode

open TclList (digit)

-----------------------------------------------------------------------------------------
-- Writing and reading
-----------------------------------------------------------------------------------------

/-- A digit of `%02X`. -/
def hexDigit (value : Nat) : Char :=
  if value < 10 then Char.ofNat (48 + value) else Char.ofNat (55 + value)

/-- The code of a character below 256. -/
def code (c : Char) : Text :=
  ['%', hexDigit (c.toNat / 16), hexDigit (c.toNat % 16)]

/-- The text with its special characters written as codes. -/
def escape (special : Char → Bool) (text : Text) : Text :=
  text.flatMap (fun c => if special c then code c else [c])

/-- The text with every code read, from left to right. A percent sign that begins no code stays. -/
def decode : Text → Text
  | [] => []
  | c :: rest =>
      if c = '%' then
        match rest with
        | a :: b :: tail =>
            match digit 16 a, digit 16 b with
            | some high, some low => Char.ofNat (high * 16 + low) :: decode tail
            | _, _ => c :: decode (a :: b :: tail)
        | short => c :: decode short
      else c :: decode rest

/-- Whether a text begins with the two digits of a code. -/
def startsHex : Text → Bool
  | a :: b :: _ => (digit 16 a).isSome && (digit 16 b).isSome
  | _ => false

-----------------------------------------------------------------------------------------
-- Reading one character
-----------------------------------------------------------------------------------------

variable {special : Char → Bool} {c : Char} {text rest : Text}

@[simp] theorem decode_nil : decode [] = [] := rfl

theorem decode_keep (plain : c ≠ '%') : decode (c :: rest) = c :: decode rest := by
  rw [decode.eq_def]
  simp only [if_neg plain]

theorem decode_percent (noCode : startsHex rest = false)
    : decode ('%' :: rest) = '%' :: decode rest := by
  rw [decode.eq_def]
  simp only [if_true]
  cases rest with
  | nil => rfl
  | cons a rest =>
      cases rest with
      | nil => rfl
      | cons b tail =>
          simp only [startsHex, Bool.and_eq_false_iff, Option.isSome_eq_false_iff,
            Option.isNone_iff_eq_none] at noCode
          cases noCode with
          | inl first => simp [first]
          | inr second => cases digit 16 a <;> simp [second]

theorem decode_digits {a b : Char} {high low : Nat} (first : digit 16 a = some high)
    (second : digit 16 b = some low)
    : decode ('%' :: a :: b :: rest) = Char.ofNat (high * 16 + low) :: decode rest := by
  rw [decode]
  simp [first, second]

theorem digit_hexDigit {value : Nat} (small : value < 16)
    : digit 16 (hexDigit value) = some value := by
  revert value
  decide

/-- A code reads back as its character. -/
theorem decode_code (small : c.toNat < 256) : decode (code c ++ rest) = c :: decode rest := by
  have high : c.toNat / 16 < 16 := by omega
  have low : c.toNat % 16 < 16 := Nat.mod_lt _ (by decide)
  have value : c.toNat / 16 * 16 + c.toNat % 16 = c.toNat := by omega
  rw [code, List.cons_append, List.cons_append, List.cons_append, List.nil_append,
    decode_digits (digit_hexDigit high) (digit_hexDigit low), value, Char.ofNat_toNat]

-----------------------------------------------------------------------------------------
-- Reading a whole text
-----------------------------------------------------------------------------------------

@[simp] theorem escape_nil : escape special [] = [] := rfl

theorem escape_cons
    : escape special (c :: text) = (if special c then code c else [c]) ++ escape special text :=
  List.flatMap_cons

theorem escape_special (isSpecial : special c = true)
    : escape special (c :: text) = code c ++ escape special text := by
  rw [escape_cons, if_pos isSpecial]

theorem escape_plain (plain : special c = false)
    : escape special (c :: text) = c :: escape special text := by
  rw [escape_cons, plain]
  rfl

theorem escape_ne_nil (nonempty : text ≠ []) : escape special text ≠ [] := by
  cases text with
  | nil => exact absurd rfl nonempty
  | cons c rest =>
      rw [escape_cons]
      split <;> simp [code]

/-- A text whose percent signs are escaped reads back, by induction on its characters. -/
theorem decode_escape (percent : special '%' = true)
    (small : ∀ c, special c = true → c.toNat < 256)
    : decode (escape special text) = text := by
  induction text with
  | nil => rfl
  | cons c rest ih =>
      cases isSpecial : special c with
      | true => rw [escape_special isSpecial, decode_code (small c isSpecial), ih]
      | false =>
          have plain : c ≠ '%' := by
            intro same
            rw [same, percent] at isSpecial
            cases isSpecial
          rw [escape_plain isSpecial, decode_keep plain, ih]

/-- Escaping characters that are no part of a code makes no code and breaks none. -/
theorem startsHex_escape (noCode : startsHex text = false)
    : startsHex (escape special text) = false := by
  have percentDigit : digit 16 '%' = none := by decide
  cases text with
  | nil => rfl
  | cons a text =>
      cases specialFirst : special a with
      | true =>
          rw [escape_special specialFirst]
          simp [code, startsHex, percentDigit]
      | false =>
          rw [escape_plain specialFirst]
          cases text with
          | nil => rfl
          | cons b tail =>
              cases specialSecond : special b with
              | true =>
                  rw [escape_special specialSecond]
                  simp [code, startsHex, percentDigit]
              | false =>
                  rw [escape_plain specialSecond]
                  exact noCode

theorem startsHex_pair {a b : Char} {tail : Text}
    (noCode : ∀ high low, digit 16 a = some high → digit 16 b = some low → False)
    : startsHex (a :: b :: tail) = false := by
  cases first : digit 16 a with
  | none => simp [startsHex, first]
  | some high =>
      cases second : digit 16 b with
      | none => simp [startsHex, second]
      | some low => exact (noCode high low first second).elim

/-- Characters that can be escaped when others are escaped already. -/
def Separable (c : Char) : Prop :=
  c ≠ '%' ∧ digit 16 c = none ∧ c.toNat < 256

instance (c : Char) : Decidable (Separable c) :=
  inferInstanceAs (Decidable (_ ∧ _))

/-- Separable characters, tested one by one. -/
theorem separable_of_all (all : text.all (fun c => decide (Separable c)) = true)
    : ∀ c ∈ text, Separable c := by
  intro c member
  exact of_decide_eq_true (List.all_eq_true.mp all c member)

/-- Characters that are no part of a code may be escaped before the codes are read. -/
theorem decode_escaped (separable : ∀ c, special c = true → Separable c)
    : decode (escape special text) = decode text := by
  have percent : special '%' = false := by
    cases isSpecial : special '%' with
    | false => rfl
    | true => exact absurd rfl (separable _ isSpecial).1
  have plainDigit {c : Char} {value : Nat} (isDigit : digit 16 c = some value)
      : special c = false := by
    cases isSpecial : special c with
    | false => rfl
    | true => simp [(separable c isSpecial).2.1] at isDigit
  have stays {rest : Text} (noCode : startsHex rest = false)
      (ih : decode (escape special rest) = decode rest)
      : decode (escape special ('%' :: rest)) = decode ('%' :: rest) := by
    rw [escape_plain percent, decode_percent (startsHex_escape noCode), decode_percent noCode, ih]
  induction text using decode.induct with
  | case1 => rfl
  | case2 a b tail high low second first ih =>
      rw [escape_plain percent, escape_plain (plainDigit first), escape_plain (plainDigit second),
        decode_digits first second, decode_digits first second, ih]
  | case3 a b tail noCode ih => exact stays (startsHex_pair noCode) ih
  | case4 short tooShort ih =>
      refine stays ?_ ih
      unfold startsHex
      split
      · rename_i a b tail
        exact (tooShort a b tail rfl).elim
      · rfl
  | case5 c rest plain ih =>
      rw [decode_keep plain]
      cases isSpecial : special c with
      | true => rw [escape_special isSpecial, decode_code (separable c isSpecial).2.2, ih]
      | false => rw [escape_plain isSpecial, decode_keep plain, ih]

-----------------------------------------------------------------------------------------
-- Escaping one character after the other
-----------------------------------------------------------------------------------------

theorem not_mem_code {d : Char} (separable : Separable c) (small : d.toNat < 256)
    : c ∉ code d := by
  obtain ⟨percent, noDigit, -⟩ := separable
  intro member
  simp only [code, List.mem_cons, List.not_mem_nil, or_false] at member
  rcases member with same | same | same
  · exact percent same
  · rw [same, digit_hexDigit (by omega)] at noDigit
    cases noDigit
  · rw [same, digit_hexDigit (by omega)] at noDigit
    cases noDigit

/-- No escaped character is left, unless codes are written with it. -/
theorem not_mem_escape (separable : Separable c) (isSpecial : special c = true)
    (small : ∀ c, special c = true → c.toNat < 256)
    : c ∉ escape special text := by
  intro member
  obtain ⟨d, -, inside⟩ := List.mem_flatMap.mp member
  split at inside
  · rename_i escaped
    exact not_mem_code separable (small d escaped) inside
  · rename_i kept
    exact kept (List.mem_singleton.mp inside ▸ isSpecial)

theorem replaceAll_absent {new : Text} (absent : c ∉ text) : replaceAll [c] new text = text := by
  rw [replaceAll_char]
  induction text with
  | nil => rfl
  | cons d rest ih =>
      simp only [List.mem_cons, not_or] at absent
      rw [List.flatMap_cons, if_neg (Ne.symm absent.1), ih absent.2]
      rfl

theorem replaceAll_append {left new : Text}
    : replaceAll [c] new (left ++ text) = replaceAll [c] new left ++ replaceAll [c] new text := by
  simp only [replaceAll_char, List.flatMap_append]

/-- Escaping one more character, by induction on the text. -/
theorem replaceAll_escape (separable : Separable c)
    (small : ∀ c, special c = true → c.toNat < 256)
    : replaceAll [c] (code c) (escape special text)
        = escape (fun d => special d || d == c) text := by
  induction text with
  | nil => rfl
  | cons d rest ih =>
      cases isSpecial : special d with
      | true =>
          rw [escape_special isSpecial, replaceAll_append, ih,
            replaceAll_absent (not_mem_code separable (small d isSpecial)),
            escape_special (by simp [isSpecial])]
      | false =>
          have apart : d :: escape special rest = [d] ++ escape special rest := rfl
          rw [escape_plain isSpecial, apart, replaceAll_append, ih]
          by_cases same : d = c
          · rw [escape_special (by simp [same]), same]
            simp [replaceAll_char]
          · rw [escape_plain (by simp [isSpecial, same])]
            simp [replaceAll_char, same]

/-- Escaping characters one after the other escapes them all. -/
theorem foldl_escape {chars : Text} (separable : ∀ c ∈ chars, Separable c)
    (small : ∀ c, special c = true → c.toNat < 256)
    : chars.foldl (fun text c => replaceAll [c] (code c) text) (escape special text)
        = escape (fun d => special d || chars.contains d) text := by
  induction chars generalizing special with
  | nil => simp
  | cons c chars ih =>
      have first := separable c List.mem_cons_self
      have more : ∀ d, (special d || d == c) = true → d.toNat < 256 := by
        intro d escaped
        cases Bool.or_eq_true_iff.mp escaped with
        | inl before => exact small d before
        | inr now => exact beq_iff_eq.mp now ▸ first.2.2
      rw [List.foldl_cons, replaceAll_escape first small,
        ih (fun d member => separable d (List.mem_cons_of_mem _ member)) more]
      simp only [List.contains_cons, Bool.or_assoc]

theorem escape_nothing : escape (fun _ => false) text = text := by
  simp [escape]

end SpeedTables.Lib.PercentCode
