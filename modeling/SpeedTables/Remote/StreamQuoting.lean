import SpeedTables.Remote.Streaming

/-! What quoting leaves in a text, and what the two decoders make of it. -/

namespace SpeedTables.Remote

open Lib (Text)

-----------------------------------------------------------------------------------------
-- Bytes of characters
-----------------------------------------------------------------------------------------

/-- A character has one byte below 128, or several from 128 on. -/
theorem tclBytes_cases (c : Char)
    : (c.toNat < 128 ∧ tclBytes c = [UInt8.ofNat c.toNat])
        ∨ tclBytes c ≠ [] ∧ ∀ byte ∈ tclBytes c, 128 ≤ byte.toNat := by
  by_cases nul : c = Char.ofNat 0
  · refine .inr ⟨by simp [tclBytes, nul], ?_⟩
    rw [tclBytes, if_pos nul]
    simp
  · rw [tclBytes, if_neg nul]
    by_cases ascii : c.val.toNat ≤ 0x7f
    · refine .inl ⟨Nat.lt_succ_of_le ascii, ?_⟩
      rw [String.utf8EncodeChar, if_pos ascii]
      rfl
    · refine .inr ?_
      rw [String.utf8EncodeChar, if_neg ascii]
      split
      · refine ⟨nofun, ?_⟩
        simp only [List.mem_cons, List.not_mem_nil, or_false]
        rintro byte (rfl | rfl) <;>
        · rw [UInt8.toNat_ofNat']
          omega
      · split
        · refine ⟨nofun, ?_⟩
          simp only [List.mem_cons, List.not_mem_nil, or_false]
          rintro byte (rfl | rfl | rfl) <;>
          · rw [UInt8.toNat_ofNat']
            omega
        · refine ⟨nofun, ?_⟩
          simp only [List.mem_cons, List.not_mem_nil, or_false]
          rintro byte (rfl | rfl | rfl | rfl) <;>
          · rw [UInt8.toNat_ofNat']
            omega

theorem tclBytes_ne_nil (c : Char) : tclBytes c ≠ [] := by
  rcases tclBytes_cases c with ⟨-, one⟩ | ⟨some, -⟩
  · rw [one]
    exact nofun
  · exact some

theorem textBytes_cons (c : Char) (text : Text)
    : textBytes (c :: text) = tclBytes c ++ textBytes text :=
  List.flatMap_cons

theorem textBytes_append (before after : Text)
    : textBytes (before ++ after) = textBytes before ++ textBytes after :=
  List.flatMap_append

/-- A text that goes on has more bytes. -/
theorem textBytes_length_lt (before : Text) (c : Char) (after : Text)
    : (textBytes before).length < (textBytes (before ++ c :: after)).length := by
  have one := List.length_pos_of_ne_nil (tclBytes_ne_nil c)
  rw [textBytes_append, textBytes_cons, List.length_append, List.length_append]
  omega

-----------------------------------------------------------------------------------------
-- Quoted text
-----------------------------------------------------------------------------------------

theorem digitChar_plain (digit : Nat)
    : Nat.digitChar digit ≠ '\t' ∧ isBreak (Nat.digitChar digit) = false := by
  have digits : ∀ digit < 16, Nat.digitChar digit ≠ '\t' ∧ isBreak (Nat.digitChar digit) = false := by
    decide
  by_cases small : digit < 16
  · exact digits digit small
  · have star : Nat.digitChar digit = '*' := by
      unfold Nat.digitChar
      iterate 16 rw [if_neg (by omega)]
    rw [star]
    decide

theorem quoteByte_plain (type : QuoteType) (byte : UInt8)
    : ∀ c ∈ quoteByte type byte, c ≠ '\t' ∧ isBreak c = false := by
  have letters : ∀ letter ∈ escapeLetter byte, letter ≠ '\t' ∧ isBreak letter = false := by
    intro letter found
    unfold escapeLetter at found
    split_ifs at found <;> cases found <;> decide
  have hex : ∀ c ∈ '%' :: hexText byte, c ≠ '\t' ∧ isBreak c = false := by
    simp only [hexText, List.mem_cons, List.not_mem_nil, or_false]
    rintro c (rfl | rfl | rfl)
    · decide
    · exact digitChar_plain _
    · exact digitChar_plain _
  have escape : ∀ c ∈ '\\' :: (escapeLetter byte).elim (octalText byte) fun letter => [letter],
      c ≠ '\t' ∧ isBreak c = false := by
    intro c member
    rcases List.mem_cons.mp member with rfl | member
    · decide
    · rcases found : escapeLetter byte with _ | letter
      · simp only [found, Option.elim_none, octalText, List.mem_cons, List.not_mem_nil, or_false]
          at member
        rcases member with rfl | rfl | rfl <;> exact digitChar_plain _
      · simp only [found, Option.elim_some, List.mem_singleton] at member
        rw [member]
        exact letters letter found
  cases type with
  | uri => exact hex
  | strictUri => exact hex
  | none => exact escape
  | escape => exact escape
  | strictEscape => exact escape

/-- Quoted text has neither separators nor line ends. -/
theorem quoteString_plain {type : QuoteType} (quotes : type ≠ .none) (text : Text)
    : ∀ c ∈ quoteString type text, c ≠ '\t' ∧ isBreak c = false := by
  rw [quoteString, if_neg quotes]
  intro c member
  obtain ⟨d, -, member⟩ := List.mem_flatMap.mp member
  unfold quoteChar at member
  split at member
  · obtain ⟨byte, -, member⟩ := List.mem_flatMap.mp member
    exact quoteByte_plain type byte c member
  next bare =>
    obtain rfl := List.mem_singleton.mp member
    have special (same : tclBytes c = [9] ∨ tclBytes c = [10] ∨ tclBytes c = [13]) : False := by
      apply bare
      rcases same with same | same | same <;>
      · rw [same]
        simp [quotesByte]
    refine ⟨?_, ?_⟩
    · rintro rfl
      exact special (.inl (by decide))
    · by_contra breaks
      simp only [Bool.not_eq_false, isBreak, Bool.or_eq_true, beq_iff_eq] at breaks
      rcases breaks with rfl | rfl
      · exact special (.inr (.inl (by decide)))
      · exact special (.inr (.inr (by decide)))

/-- A character is quoted for a URI as its one byte, or stands for itself. -/
theorem quoteChar_uri (c : Char)
    : (quoteChar .uri c = [c] ∧ c ≠ '%')
        ∨ ∃ byte : UInt8, byte < 0x80 ∧ c = Char.ofNat byte.toNat ∧ c ≠ '+'
          ∧ tclBytes c = [byte] ∧ quoteChar .uri c = '%' :: hexText byte := by
  rcases tclBytes_cases c with ⟨ascii, one⟩ | ⟨-, high⟩
  · by_cases quotes : quotesByte .uri (UInt8.ofNat c.toNat) = true
    · refine .inr ⟨UInt8.ofNat c.toNat, ?_, ?_, ?_, one, ?_⟩
      · rw [UInt8.lt_iff_toNat_lt, UInt8.toNat_ofNat']
        exact Nat.lt_of_le_of_lt (Nat.mod_le _ _) ascii
      · rw [UInt8.toNat_ofNat', Nat.mod_eq_of_lt (by omega), Char.ofNat_toNat]
      · rintro rfl
        exact absurd quotes (by decide)
      · rw [quoteChar, one]
        simp [quotes, quoteByte]
    · refine .inl ⟨?_, ?_⟩
      · rw [quoteChar, one]
        simp [quotes]
      · rintro rfl
        exact quotes (by decide)
  · refine .inl ⟨?_, ?_⟩
    · rw [quoteChar, if_neg]
      rw [List.any_eq_true]
      rintro ⟨byte, member, quotes⟩
      have large := high byte member
      simp only [quotesByte, quoteMark, isStrict, Bool.or_eq_true, beq_iff_eq, Option.some.injEq,
        decide_eq_true_eq, Bool.false_and, Bool.false_eq_true, or_false] at quotes
      rcases quotes with (rfl | rfl) | small
      · exact absurd large (by decide)
      · exact absurd large (by decide)
      · rw [UInt8.lt_iff_toNat_lt] at small
        have : (0x20 : UInt8).toNat = 32 := rfl
        omega
    · rintro rfl
      exact absurd (high 37 (by decide)) (by decide)

-----------------------------------------------------------------------------------------
-- The client's decoder
-----------------------------------------------------------------------------------------

/-- Text quoted for a URI is decoded to itself, with spaces for its pluses. -/
theorem Ncgi.decode_quoted (ncgi : Ncgi) (text : Text)
    : ncgi.decode (quoteString .uri text) = text.map fun c => if c = '+' then ' ' else c := by
  have quotes : quoteString .uri text = text.flatMap (quoteChar .uri) := rfl
  rw [quotes]
  induction text with
  | nil => exact ncgi.nil
  | cons c text ih =>
      rw [List.flatMap_cons, List.map_cons]
      rcases quoteChar_uri c with ⟨itself, noPercent⟩ | ⟨byte, small, same, noPlus, -, quoted⟩
      · rw [itself, List.singleton_append]
        by_cases plus : c = '+'
        · rw [plus, ncgi.plus, ih rfl, if_pos rfl]
        · rw [ncgi.other c _ plus noPercent, ih rfl, if_neg plus]
      · rw [quoted, ncgi.escape byte _ small, ih rfl, if_neg noPlus, same]

theorem Ncgi.decode_quoted_iff (ncgi : Ncgi) (text : Text)
    : ncgi.decode (quoteString .uri text) = text ↔ '+' ∉ text := by
  rw [ncgi.decode_quoted]
  constructor
  · intro same plus
    rw [← same] at plus
    obtain ⟨c, -, turned⟩ := List.mem_map.mp plus
    split at turned
    · exact absurd turned (by decide)
    next other => exact other turned
  · intro noPlus
    have same : ∀ c ∈ text, (if c = '+' then ' ' else c) = id c := by
      intro c member
      exact if_neg fun plus : c = '+' => noPlus (plus ▸ member)
    rw [List.map_congr_left same, List.map_id]

-----------------------------------------------------------------------------------------
-- The decoder of tables
-----------------------------------------------------------------------------------------

theorem hexDigit_digitChar {digit : Nat} (small : digit < 16)
    : tclBytes (Nat.digitChar digit) = [UInt8.ofNat (Nat.digitChar digit).toNat]
        ∧ hexDigit (UInt8.ofNat (Nat.digitChar digit).toNat) = some (UInt8.ofNat digit) := by
  have all : ∀ digit < 16, tclBytes (Nat.digitChar digit) = [UInt8.ofNat (Nat.digitChar digit).toNat]
      ∧ hexDigit (UInt8.ofNat (Nat.digitChar digit).toNat) = some (UInt8.ofNat digit) := by
    decide
  exact all digit small

/-- Bytes other than a percent sign are copied. -/
theorem copyDequotedLoop_copy {plain rest : CString} (noPercent : 37 ∉ plain) (fuel length : Nat)
    : copyDequotedLoop .uri (plain.length + fuel) (plain.length + length) (plain ++ rest)
        = (copyDequotedLoop .uri fuel length rest).map (plain ++ ·) := by
  induction plain with
  | nil => simp
  | cons byte plain ih =>
      have other : byte ≠ 37 := fun same => noPercent (by simp [same])
      have behind := ih fun member => noPercent (List.mem_cons_of_mem _ member)
      have fuels : (byte :: plain).length + fuel = (plain.length + fuel) + 1 := by simp; omega
      have lengths : (byte :: plain).length + length = (plain.length + length) + 1 := by simp; omega
      rw [fuels, lengths]
      simp only [copyDequotedLoop, List.cons_append, List.headD_cons, other, and_false, if_false,
        List.tail_cons, reduceCtorEq, false_and, behind, Option.map_map]
      rfl

/-- An escape sequence has three bytes, of which the last two are read as the byte it is for. -/
theorem textBytes_escape (byte : UInt8)
    : ∃ first second high low, textBytes ('%' :: hexText byte) = [37, first, second]
        ∧ hexDigit first = some high ∧ hexDigit second = some low ∧ high * 16 + low = byte := by
  have bound := byte.toNat_lt
  have highSmall : byte.toNat / 16 < 16 := by omega
  have lowSmall : byte.toNat % 16 < 16 := by omega
  obtain ⟨highBytes, high⟩ := hexDigit_digitChar highSmall
  obtain ⟨lowBytes, low⟩ := hexDigit_digitChar lowSmall
  have percent : tclBytes '%' = [37] := by decide
  have whole : UInt8.ofNat (byte.toNat / 16) * 16 + UInt8.ofNat (byte.toNat % 16) = byte := by
    apply UInt8.toNat_inj.mp
    have sixteen : (16 : UInt8).toNat = 16 := rfl
    simp only [UInt8.toNat_add, UInt8.toNat_mul, UInt8.toNat_ofNat', sixteen]
    omega
  refine ⟨_, _, _, _, ?_, high, low, whole⟩
  simp [textBytes, hexText, percent, highBytes, lowBytes]

/-- An escape sequence is read as its byte. -/
theorem copyDequotedLoop_escape {byte : UInt8} {rest : CString} (fuel length : Nat)
    : copyDequotedLoop .uri (fuel + 3) (length + 3) (textBytes ('%' :: hexText byte) ++ rest)
        = (copyDequotedLoop .uri (fuel + 2) length rest).map (byte :: ·) := by
  obtain ⟨first, second, high, low, bytes, highRead, lowRead, whole⟩ := textBytes_escape byte
  rw [bytes]
  simp [copyDequotedLoop, highRead, lowRead, whole]

/-- Text quoted for a URI is read back. -/
theorem copyDequoted_quoted (text : Text)
    : copyDequoted .uri (textBytes (quoteString .uri text)).length (textBytes (quoteString .uri text))
        = some (textBytes text) := by
  have quotes : quoteString .uri text = text.flatMap (quoteChar .uri) := rfl
  have enough (fuel : Nat) : copyDequotedLoop .uri
      ((textBytes (text.flatMap (quoteChar .uri))).length + fuel)
      (textBytes (text.flatMap (quoteChar .uri))).length (textBytes (text.flatMap (quoteChar .uri)))
        = some (textBytes text) := by
    induction text generalizing fuel with
    | nil => cases fuel <;> rfl
    | cons c text ih =>
        have behind := ih rfl
        rw [List.flatMap_cons, textBytes_append, textBytes_cons, List.length_append]
        rcases quoteChar_uri c with ⟨itself, noPercent⟩ | ⟨byte, -, -, -, one, quoted⟩
        · have whole : textBytes [c] = tclBytes c := by simp [textBytes]
          have plain : 37 ∉ tclBytes c := by
            intro member
            rcases tclBytes_cases c with ⟨ascii, one⟩ | ⟨-, high⟩
            · rw [one, List.mem_singleton] at member
              have code := congrArg UInt8.toNat member
              rw [UInt8.toNat_ofNat', Nat.mod_eq_of_lt (by omega)] at code
              exact noPercent (Char.toNat_inj.mp code.symm)
            · exact absurd (high 37 member) (by decide)
          rw [itself, whole, Nat.add_assoc, copyDequotedLoop_copy plain, behind]
          rfl
        · have three : (textBytes ('%' :: hexText byte)).length = 3 := by
            obtain ⟨first, second, high, low, bytes, -⟩ := textBytes_escape byte
            rw [bytes]
            rfl
          rw [quoted, three]
          have fuels : 3 + (textBytes (text.flatMap (quoteChar .uri))).length + fuel
              = ((textBytes (text.flatMap (quoteChar .uri))).length + fuel) + 3 := by omega
          have lengths : 3 + (textBytes (text.flatMap (quoteChar .uri))).length
              = (textBytes (text.flatMap (quoteChar .uri))).length + 3 := by omega
          rw [fuels, lengths, copyDequotedLoop_escape, Nat.add_assoc, behind, one]
          rfl
  rw [quotes, copyDequoted, if_neg (by decide)]
  exact enough 0

/-- Reading never makes a text longer. -/
theorem copyDequoted_length {length : Nat} {source value : CString}
    (read : copyDequoted .uri length source = some value)
    : value.length ≤ length := by
  have loop {fuel length : Nat} {source value : CString}
      (read : copyDequotedLoop .uri fuel length source = some value) : value.length ≤ length := by
    induction fuel generalizing length source value with
    | zero =>
        cases read
        exact Nat.zero_le _
    | succ fuel ih =>
        cases length with
        | zero =>
            cases read
            exact Nat.le_refl 0
        | succ length =>
            simp only [copyDequotedLoop, true_or, true_and, reduceCtorEq, false_and, if_false] at read
            split at read
            · split at read
              · obtain ⟨behind, found, rfl⟩ := Option.map_eq_some_iff.mp read
                have fits := ih found
                rw [List.length_cons]
                omega
              · obtain ⟨behind, found, rfl⟩ := Option.map_eq_some_iff.mp read
                exact Nat.succ_le_succ (ih found)
            · obtain ⟨behind, found, rfl⟩ := Option.map_eq_some_iff.mp read
              exact Nat.succ_le_succ (ih found)
  rw [copyDequoted, if_neg (by decide)] at read
  exact loop read

end SpeedTables.Remote
