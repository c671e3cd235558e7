import SpeedTables.Table.Setters
import SpeedTables.Lib.CLiteral
import SpeedTables.Lib.TclString

/-! Defaults of fields: written into the generated source, and set as values. -/

namespace SpeedTables.Defaults

open Lib

-----------------------------------------------------------------------------------------
-- Quoting
-----------------------------------------------------------------------------------------

/-- The octal digits of a character's number, at least three of them. -/
def octalDigits (number : Nat) : List Nat :=
  [number / 8 ^ 6 % 8, number / 8 ^ 5 % 8, number / 8 ^ 4 % 8, number / 8 ^ 3 % 8].dropWhile (· = 0)
    ++ [number / 8 ^ 2 % 8, number / 8 % 8, number % 8]

/-- The character of a digit. -/
def digitChar (digit : Nat) : Char := Char.ofNat (48 + digit)

section

variable (graph : Char → Bool)

/-- The body of the loop of `cquote`: a character that is not graphic is written as an escape. -/
def quoteChar (char : Char) : Text :=
  if graph char then [char]
  else if char = '\r' then ['\\', 'r']
  else if char = '\n' then ['\\', 'n']
  else if char = '\t' then ['\\', 't']
  else if char = '\x08' then ['\\', 'b']
  else if char = '\x0c' then ['\\', 'f']
  else if char = ' ' then [' ']
  else '\\' :: (octalDigits char.toNat).map digitChar

/-- `cquote`: the metacharacter and backslashes first, then what is not graphic. -/
def cquote (metaChar : Char) (string : Text) : Text :=
  let escaped := string.flatMap fun char =>
    if char = metaChar ∨ char = '\\' then ['\\', char] else [char]
  escaped.flatMap (quoteChar graph)

end

/-- The bytes of a character in a Tcl string: a NUL takes two. -/
def tclBytes (char : Char) : CString :=
  if char = '\x00' then [192, 128] else String.utf8EncodeChar char

/-- `Tcl_GetString` -/
def getString (string : Text) : CString := string.flatMap tclBytes

/-- The bytes of a text in the generated source. -/
def sourceBytes (text : Text) : CString := text.flatMap String.utf8EncodeChar

/-- What a C function reads at a pointer to bytes. -/
def cString (bytes : List UInt8) : CString := bytes.takeWhile (· ≠ 0)

-----------------------------------------------------------------------------------------
-- The template of a row
-----------------------------------------------------------------------------------------

/-- The C compiler: a text between double quotes or quotes, and a text that is assigned. Nothing is
made of a text that does not compile.
-/
structure Compiler where
  string : CString → Option CString
  char : CString → Option UInt8
  integer : CString → Option Int
  double : CString → Option CDouble

/-- Literals with simple and octal escapes are compiled as the language defines them. -/
def Compiler.ReadsLiterals (compiler : Compiler) : Prop :=
  ∀ text bytes, readLiteral 34 text = some bytes → compiler.string text = some bytes

/-- Where the default of a varstring field is kept: in a constant of its own, or for a shared
master table in a bundle with the defaults before and after it. Behind the bundle's literal there
are other bytes.
-/
inductive DefaultStrings where
  | constants
  | bundle (before after : List Text) (beyond : CString)

variable (compiler : Compiler) (graph : Char → Bool) (host : Host)

/-- The literal of the bundle: an empty string, and the defaults with their NULs. -/
def bundleText (defaults : List Text) : Text :=
  ['\\', '0'] ++ defaults.flatMap fun default => cquote graph '"' default ++ ['\\', '0']

/-- `bundleLen` -/
def bundleLen (defaults : List Text) : Nat :=
  1 + (defaults.map fun default => default.length + 1).sum

/-- The default string of a varstring field. -/
def defaultString (text : Text) : DefaultStrings → Option CString
  | .constants => (compiler.string (sourceBytes (cquote graph '"' text))).map cString
  | .bundle before after beyond =>
      let defaults := before ++ text :: after
      (compiler.string (sourceBytes (bundleText graph defaults))).map fun bytes =>
        cString (((bytes ++ 0 :: beyond).take (bundleLen defaults)).drop (bundleLen before))

/-- `strncpy` into an array of zeros. -/
def strncpyZero (width : Nat) (string : CString) : List UInt8 :=
  (string ++ List.replicate width 0).take width

/-- `gen_defaults_subr`: the value of a field in the template, by type. A tclobj field ignores its
default, and `ether_aton` is not checked.
-/
def defaultValue (strings : DefaultStrings) (length : Nat) (text : Text)
    : (type : CtableType) → Option (Storage type)
  | .key => some ()
  | .varstring => (defaultString compiler graph text strings).map fun string =>
      { text := some string, length := text.length, allocatedLength := 0 }
  | .fixedstring => (compiler.string (sourceBytes (cquote graph '"' text))).map fun bytes =>
      strncpyZero length (cString bytes)
  | .mac => (compiler.string (sourceBytes text)).bind fun bytes => host.etherAton (cString bytes)
  | .inet => (compiler.string (sourceBytes text)).map fun bytes =>
      (host.inetAton (cString bytes)).getD [0, 0, 0, 0]
  | .char => compiler.char (sourceBytes (cquote graph '\'' (text.take 1)))
  | .tclobj => some none
  | .boolean => (compiler.integer (sourceBytes text)).map (· % 2 != 0)
  | .short => (compiler.integer (sourceBytes text)).map (narrow 16)
  | .int => (compiler.integer (sourceBytes text)).map (narrow 32)
  | .long => (compiler.integer (sourceBytes text)).map (narrow 64)
  | .wide => (compiler.integer (sourceBytes text)).map (narrow 64)
  | .float => (compiler.double (sourceBytes text)).map host.toFloat
  | .double => compiler.double (sourceBytes text)

/-- A field that `deffield` and `fixedstring` accept with its default, compiled. -/
structure HasDefault (strings : DefaultStrings) (text : Text) (info : FieldInfo) : Prop where
  notnull : info.notnull = true
  width : info.type = .fixedstring → text.length = info.length
  compiled : ∃ value, info.default = some value
    ∧ defaultValue compiler graph host strings info.length text info.type = some value

-----------------------------------------------------------------------------------------
-- Reading a quoted text
-----------------------------------------------------------------------------------------

/-- The class `[:graph:]` in ASCII: what is printed, and no space. -/
def printed (char : Char) : Bool := 33 ≤ char.toNat && char.toNat ≤ 126

/-- The class `[:graph:]` of Tcl, which has letters, too. -/
structure GraphClass : Prop where
  ascii : ∀ char : Char, char.toNat < 128 → graph char = printed char
  letters : ∀ char : Char, char.toNat = 195 ∨ char.toNat = 455 → graph char = true

/-- The byte of an escape of the first three digits, and the other digits as characters. -/
def escapeBytes (number : Nat) : CString :=
  match octalDigits number with
  | first :: second :: third :: more =>
      UInt8.ofNat (64 * first + 8 * second + third)
        :: more.map fun digit => UInt8.ofNat (48 + digit)
  | _ => []

/-- What C makes of a character that `cquote` has written. -/
def literalBytes (char : Char) : CString :=
  if char.toNat < 128 then [UInt8.ofNat char.toNat]
  else if graph char then String.utf8EncodeChar char
  else escapeBytes char.toNat

variable {graph}

theorem octalDigits_lt {number digit : Nat} (member : digit ∈ octalDigits number) : digit < 8 := by
  rw [octalDigits, List.mem_append] at member
  have below : ∀ n, n % 8 < 8 := fun n => Nat.mod_lt n (by decide)
  cases member with
  | inl top =>
      have top := (List.dropWhile_sublist _).subset top
      simp only [List.mem_cons, List.not_mem_nil, or_false] at top
      obtain rfl | rfl | rfl | rfl := top <;> exact below _
  | inr low =>
      simp only [List.mem_cons, List.not_mem_nil, or_false] at low
      obtain rfl | rfl | rfl := low <;> exact below _

/-- The digits behind the first three are those of numbers from 512 on. -/
theorem octalDigits_split (number : Nat)
    : ∃ first second third more, octalDigits number = first :: second :: third :: more := by
  have long : 3 ≤ (octalDigits number).length := by
    rw [octalDigits, List.length_append]
    exact Nat.le_add_left _ _
  match digits : octalDigits number with
  | first :: second :: third :: more => exact ⟨first, second, third, more, rfl⟩
  | [] | [_] | [_, _] =>
      rw [digits] at long
      simp at long

theorem octalDigits_small {number : Nat} (small : number < 512)
    : octalDigits number = [number / 64, number / 8 % 8, number % 8] := by
  have high : number / 64 % 8 = number / 64 := Nat.mod_eq_of_lt (by omega)
  have zero (k : Nat) (more : 512 ≤ k) : number / k % 8 = 0 := by
    rw [Nat.div_eq_of_lt (by omega)]
  simp [octalDigits, zero, high]

theorem escapeBytes_small {number : Nat} (small : number < 512)
    : escapeBytes number = [UInt8.ofNat number] := by
  rw [escapeBytes, octalDigits_small small]
  have whole : 64 * (number / 64) + 8 * (number / 8 % 8) + number % 8 = number := by omega
  simp [whole]

theorem escapeBytes_large {number : Nat} (large : 512 ≤ number) (inside : number < 8 ^ 7)
    : ∃ byte digit more, escapeBytes number = byte :: digit :: more ∧ 48 ≤ digit ∧ digit < 56 := by
  obtain ⟨first, second, third, more, digits⟩ := octalDigits_split number
  cases more with
  | nil =>
      have short : (octalDigits number).length = 3 := by rw [digits]; rfl
      rw [octalDigits, List.length_append] at short
      have dropped := List.length_eq_zero_iff.mp (Nat.add_eq_right.mp (short : _ + 3 = 3))
      rw [List.dropWhile_eq_nil_iff] at dropped
      simp only [List.mem_cons, List.not_mem_nil, or_false, decide_eq_true_eq] at dropped
      have one := dropped _ (.inl rfl)
      have two := dropped _ (.inr (.inl rfl))
      have three := dropped _ (.inr (.inr (.inl rfl)))
      have four := dropped _ (.inr (.inr (.inr rfl)))
      omega
  | cons fourth more =>
      have below : fourth < 8 := @octalDigits_lt number _ (by simp [digits])
      refine ⟨_, _, _, by rw [escapeBytes, digits]; rfl, ?_⟩
      rw [UInt8.le_iff_toNat_le, UInt8.lt_iff_toNat_lt, UInt8.toNat_ofNat']
      constructor
      · exact Nat.le_trans (by decide) (by omega : 48 ≤ (48 + fourth) % 2 ^ 8)
      · exact Nat.lt_of_lt_of_le (by omega : (48 + fourth) % 2 ^ 8 < 56) (by decide)

/-- An octal escape is read as its byte, and the digits behind it as they are. -/
theorem readLiteral_escape {quote : UInt8} {rest : CString} (number : Nat)
    (inside : quote < 48)
    : readLiteral quote (sourceBytes ('\\' :: (octalDigits number).map digitChar) ++ rest)
      = (readLiteral quote rest).map (escapeBytes number ++ ·) := by
  have digit : ∀ d : Fin 8, String.utf8EncodeChar (digitChar d.val) = [UInt8.ofNat (48 + d.val)]
      ∧ isOctalDigit (UInt8.ofNat (48 + d.val)) = true
      ∧ (UInt8.ofNat (48 + d.val)).toNat - 48 = d.val := by decide
  have written (digits : List Nat) (below : ∀ d ∈ digits, d < 8)
      : sourceBytes (digits.map digitChar) = digits.map fun d => UInt8.ofNat (48 + d) := by
    induction digits with
    | nil => rfl
    | cons d digits ih =>
        have first := (digit ⟨d, below d List.mem_cons_self⟩).1
        have others := ih fun other member => below other (List.mem_cons_of_mem _ member)
        simp only [sourceBytes, List.map_cons, List.flatMap_cons] at others ⊢
        rw [first, others]
        rfl
  obtain ⟨first, second, third, more, digits⟩ := octalDigits_split number
  have below : ∀ d ∈ first :: second :: third :: more, d < 8 :=
    fun d member => @octalDigits_lt number _ (digits ▸ member)
  have one := digit ⟨first, below first (by simp)⟩
  have two := digit ⟨second, below second (by simp)⟩
  have three := digit ⟨third, below third (by simp)⟩
  have text : sourceBytes ('\\' :: (octalDigits number).map digitChar) ++ rest
      = 92 :: UInt8.ofNat (48 + first) :: UInt8.ofNat (48 + second) :: UInt8.ofNat (48 + third)
        :: ((more.map fun d => UInt8.ofNat (48 + d)) ++ rest) := by
    have bytes := written _ below
    rw [digits, sourceBytes, List.flatMap_cons]
    rw [sourceBytes] at bytes
    rw [bytes]
    rfl
  have plain : ∀ byte ∈ more.map fun d => UInt8.ofNat (48 + d),
      byte ≠ 92 ∧ byte ≠ quote ∧ byte ≠ 10 := by
    intro byte member
    obtain ⟨d, inMore, rfl⟩ := List.mem_map.mp member
    have value := (digit ⟨d, below d (by simp [inMore])⟩).2.1
    rw [isOctalDigit, Bool.and_eq_true, decide_eq_true_iff, decide_eq_true_iff] at value
    obtain ⟨least, most⟩ := value
    refine ⟨?_, ?_, ?_⟩ <;> intro same <;> rw [same] at least most
    · exact absurd most (by decide)
    · exact absurd inside (by simpa using least)
    · exact absurd least (by decide)
  rw [text, readLiteral_octal one.2.1 two.2.1 three.2.1, readLiteral_plainAll plain, Option.map_map,
    escapeBytes, digits]
  have value : octalByte [UInt8.ofNat (48 + first), UInt8.ofNat (48 + second),
      UInt8.ofNat (48 + third)] = UInt8.ofNat (64 * first + 8 * second + third) := by
    simp only [octalByte, List.foldl_cons, List.foldl_nil, one.2.2, two.2.2, three.2.2]
    congr 1
    omega
  rw [value]
  rfl

theorem encode_low {char : Char} (low : char.toNat < 128)
    : String.utf8EncodeChar char = [UInt8.ofNat char.toNat] := by
  have low : char.val.toNat ≤ 127 := Nat.le_of_lt_succ low
  simp only [String.utf8EncodeChar, if_pos low]
  rfl

/-- The form of a character beyond ASCII: a first byte and others, none of them ASCII. -/
theorem encode_high {char : Char} (high : 128 ≤ char.toNat)
    : ∃ lead next more, String.utf8EncodeChar char = lead :: next :: more
      ∧ (∀ byte ∈ lead :: next :: more, 128 ≤ byte)
      ∧ (char.toNat < 512 → lead = UInt8.ofNat (char.toNat / 64 + 192)) := by
  have byte (n : Nat) (least : 128 ≤ n) (most : n < 256) : 128 ≤ UInt8.ofNat n := by
    rw [UInt8.le_iff_toNat_le, UInt8.toNat_ofNat', Nat.mod_eq_of_lt (by omega)]
    exact least
  have number : char.val.toNat = char.toNat := rfl
  simp only [String.utf8EncodeChar, number]
  rw [if_neg (by omega)]
  split
  · refine ⟨_, _, _, rfl, ?_, fun small => by rw [Nat.mod_eq_of_lt (by omega)]⟩
    intro value member
    simp only [List.mem_cons, List.not_mem_nil, or_false] at member
    obtain rfl | rfl := member <;> exact byte _ (by omega) (by omega)
  split
  · refine ⟨_, _, _, rfl, ?_, fun small => by omega⟩
    intro value member
    simp only [List.mem_cons, List.not_mem_nil, or_false] at member
    obtain rfl | rfl | rfl := member <;> exact byte _ (by omega) (by omega)
  · refine ⟨_, _, _, rfl, ?_, fun small => by omega⟩
    intro value member
    simp only [List.mem_cons, List.not_mem_nil, or_false] at member
    obtain rfl | rfl | rfl | rfl := member <;> exact byte _ (by omega) (by omega)

/-- Different characters of ASCII have different bytes. -/
theorem ascii_ne {char : Char} {number : Nat} (low : char.toNat < 128) (small : number < 128)
    (differs : char ≠ Char.ofNat number)
    : UInt8.ofNat char.toNat ≠ UInt8.ofNat number := by
  intro same
  have same := congrArg UInt8.toNat same
  rw [UInt8.toNat_ofNat', UInt8.toNat_ofNat', Nat.mod_eq_of_lt (by omega),
    Nat.mod_eq_of_lt (by omega)] at same
  exact differs (by rw [← same, Char.ofNat_toNat])

/-- A character is read as its bytes in the literal, by the branch of `cquote` that writes it. -/
theorem readLiteral_char (classes : GraphClass graph) (char : Char) {rest : CString}
    : readLiteral 34 (sourceBytes (cquote graph '"' [char]) ++ rest)
      = (readLiteral 34 rest).map (literalBytes graph char ++ ·) := by
  have backslash : quoteChar graph '\\' = ['\\'] := by
    have graphic : graph '\\' = true := classes.ascii '\\' (by decide)
    rw [quoteChar, if_pos graphic]
  have quote : quoteChar graph '"' = ['"'] := by
    have graphic : graph '"' = true := classes.ascii '"' (by decide)
    rw [quoteChar, if_pos graphic]
  by_cases isQuote : char = '"'
  · subst isQuote
    have bytes : sourceBytes (cquote graph '"' ['"']) = [92, 34] := by
      simp only [cquote, List.flatMap_cons, List.flatMap_nil, if_pos, true_or, List.append_nil,
        backslash, quote]
      decide
    rw [bytes]
    exact readLiteral_simple rfl
  by_cases isBackslash : char = '\\'
  · subst isBackslash
    have bytes : sourceBytes (cquote graph '"' ['\\']) = [92, 92] := by
      simp only [cquote, List.flatMap_cons, List.flatMap_nil, if_pos, or_true, List.append_nil,
        backslash]
      decide
    rw [bytes]
    exact readLiteral_simple rfl
  have bytes : sourceBytes (cquote graph '"' [char]) = sourceBytes (quoteChar graph char) := by
    simp [cquote, isQuote, isBackslash]
  rw [bytes, literalBytes]
  by_cases graphic : graph char = true
  · rw [quoteChar, if_pos graphic, if_pos graphic, sourceBytes, List.flatMap_singleton]
    split
    next low =>
      rw [classes.ascii char low] at graphic
      rw [encode_low low]
      refine readLiteral_plainAll fun byte member => ?_
      obtain rfl := List.mem_singleton.mp member
      refine ⟨ascii_ne low (by decide) isBackslash, ascii_ne low (by decide) isQuote,
        ascii_ne low (by decide) ?_⟩
      intro newline
      rw [newline] at graphic
      cases graphic
    next high =>
      obtain ⟨lead, next, more, bytes, all, -⟩ := encode_high (Nat.le_of_not_lt high)
      rw [bytes]
      refine readLiteral_plainAll fun byte member => ?_
      have least := all byte member
      refine ⟨?_, ?_, ?_⟩ <;> intro same <;> rw [same] at least <;> exact absurd least (by decide)
  · rw [quoteChar, if_neg graphic, if_neg graphic]
    split
    next same => subst same; exact readLiteral_simple rfl
    split
    next same => subst same; exact readLiteral_simple rfl
    split
    next same => subst same; exact readLiteral_simple rfl
    split
    next same => subst same; exact readLiteral_simple rfl
    split
    next same => subst same; exact readLiteral_simple rfl
    split
    next same =>
      subst same
      exact readLiteral_plain (by decide) (by decide) (by decide)
    rw [readLiteral_escape char.toNat (by decide)]
    split
    next low => rw [escapeBytes_small (by omega)]
    · rfl

/-- A text that `cquote` has written is read as the bytes of its characters. -/
theorem readLiteral_cquote (classes : GraphClass graph) (text : Text) {rest : CString}
    : readLiteral 34 (sourceBytes (cquote graph '"' text) ++ rest)
      = (readLiteral 34 rest).map (text.flatMap (literalBytes graph) ++ ·) := by
  induction text with
  | nil => simp [cquote, sourceBytes]
  | cons char text ih =>
      have apart : sourceBytes (cquote graph '"' (char :: text)) ++ rest
          = sourceBytes (cquote graph '"' [char])
            ++ (sourceBytes (cquote graph '"' text) ++ rest) := by
        simp [cquote, sourceBytes]
      rw [apart, readLiteral_char classes, ih, Option.map_map, List.flatMap_cons]
      congr 1
      funext bytes
      exact (List.append_assoc _ _ _).symm

-----------------------------------------------------------------------------------------
-- Strings of a fixed width
-----------------------------------------------------------------------------------------

/-- `cquote` keeps what is ASCII, other than a NUL, and what is graphic. -/
def Kept (graph : Char → Bool) (char : Char) : Prop :=
  char ≠ '\x00' ∧ (char.toNat < 128 ∨ graph char = true)

instance (char : Char) : Decidable (Kept graph char) := by
  unfold Kept
  infer_instance

/-- The characters that begin within the width are kept. Of one that is not, the first byte may be
the same, where the width ends behind it.
-/
def CharsFit (graph : Char → Bool) : Nat → Text → Prop
  | 0, _ => True
  | _, [] => True
  | room + 1, char :: rest =>
      if Kept graph char then CharsFit graph (room + 1 - (tclBytes char).length) rest
      else room = 0 ∧ (literalBytes graph char).head? = (tclBytes char).head?

theorem literalBytes_kept {char : Char} (kept : Kept graph char)
    : literalBytes graph char = tclBytes char := by
  rw [literalBytes, tclBytes, if_neg kept.1]
  split
  next low => rw [encode_low low]
  next high => rw [if_pos (kept.2.resolve_left high)]

/-- Tcl strings have no NUL bytes. -/
theorem tclBytes_ne_zero {char : Char} {byte : UInt8} (member : byte ∈ tclBytes char)
    : byte ≠ 0 := by
  rw [tclBytes] at member
  split at member
  · simp only [List.mem_cons, List.not_mem_nil, or_false] at member
    obtain rfl | rfl := member <;> decide
  next notNul =>
    by_cases low : char.toNat < 128
    · rw [encode_low low, List.mem_singleton] at member
      intro zero
      rw [member] at zero
      have zero := congrArg UInt8.toNat zero
      rw [UInt8.toNat_ofNat', Nat.mod_eq_of_lt (by omega)] at zero
      exact notNul (by rw [← Char.ofNat_toNat char, zero]; rfl)
    · obtain ⟨lead, next, more, bytes, all, -⟩ := encode_high (Nat.le_of_not_lt low)
      have least := all byte (bytes ▸ member)
      intro zero
      rw [zero] at least
      exact absurd least (by decide)

theorem getString_ne_zero {text : Text} : 0 ∉ getString text := by
  intro member
  obtain ⟨char, -, inChar⟩ := List.mem_flatMap.mp member
  exact tclBytes_ne_zero inChar rfl

theorem length_tclBytes (char : Char) : 1 ≤ (tclBytes char).length := by
  rw [tclBytes]
  split
  · decide
  · rw [String.length_utf8EncodeChar]
    exact Char.utf8Size_pos char

/-- Of a character that is not kept at most the first byte is right. -/
theorem literalBytes_lost (classes : GraphClass graph) {char : Char} (lost : ¬ Kept graph char)
    : ∃ byte others lead next more, literalBytes graph char = byte :: others
      ∧ tclBytes char = lead :: next :: more
      ∧ 128 ≤ lead ∧ 128 ≤ next
      ∧ (byte = lead → ∃ digit digits, others = digit :: digits ∧ digit < 128) := by
  by_cases nul : char = '\x00'
  · subst nul
    exact ⟨0, [], 192, 128, [], rfl, rfl, by decide, by decide, fun same => by cases same⟩
  have notKept := not_or.mp (not_and.mp lost nul)
  have high : 128 ≤ char.toNat := Nat.le_of_not_lt notKept.1
  obtain ⟨lead, next, more, bytes, all, small⟩ := encode_high high
  have own : tclBytes char = lead :: next :: more := by rw [tclBytes, if_neg nul, bytes]
  have literal : literalBytes graph char = escapeBytes char.toNat := by
    rw [literalBytes, if_neg notKept.1, if_neg notKept.2]
  have leads := all lead (by simp)
  have nexts := all next (by simp)
  by_cases large : 512 ≤ char.toNat
  · have inside : char.toNat < 8 ^ 7 := by
      have valid : char.toNat < 0xd800 ∨ 0xdfff < char.toNat ∧ char.toNat < 0x110000 := char.valid
      omega
    obtain ⟨byte, digit, digits, written, -, below⟩ := escapeBytes_large large inside
    refine ⟨byte, digit :: digits, lead, next, more, literal.trans written, own, leads, nexts, ?_⟩
    exact fun _ => ⟨digit, digits, rfl, UInt8.lt_of_lt_of_le below (by decide)⟩
  · have written := escapeBytes_small (Nat.lt_of_not_le large)
    refine ⟨_, [], lead, next, more, literal.trans written, own, leads, nexts, fun same => ?_⟩
    rw [small (Nat.lt_of_not_le large)] at same
    have same := congrArg UInt8.toNat same
    rw [UInt8.toNat_ofNat', UInt8.toNat_ofNat'] at same
    have range : char.toNat / 64 = 2 ∨ char.toNat / 64 = 3 ∨ char.toNat / 64 = 4
        ∨ char.toNat / 64 = 5 ∨ char.toNat / 64 = 6 ∨ char.toNat / 64 = 7 := by omega
    have letter : char.toNat = 195 ∨ char.toNat = 455 := by
      obtain is | is | is | is | is | is := range <;> rw [is] at same <;> omega
    exact absurd (classes.letters char letter) notKept.2

/-- The bytes of a character in front of others, cut to a width. -/
theorem take_front_iff {own others rest : CString} {room : Nat}
    : (own ++ rest).take room = (own ++ others).take room
      ↔ rest.take (room - own.length) = others.take (room - own.length) := by
  rw [List.take_append, List.take_append, List.append_cancel_left_eq]

/-- The template of a fixed string has the bytes of its default exactly where its characters fit,
by induction on them.
-/
theorem strncpyZero_iff (classes : GraphClass graph) {text : Text} {room zeros : Nat}
    (enough : room ≤ zeros) (long : room ≤ (getString text).length)
    : (cString (text.flatMap (literalBytes graph)) ++ List.replicate zeros 0).take room
        = (getString text).take room
      ↔ CharsFit graph room text := by
  induction text generalizing room with
  | nil =>
      obtain rfl := Nat.le_zero.mp long
      simp [CharsFit]
  | cons char text ih =>
      cases room with
      | zero => simp [CharsFit]
      | succ room =>
          rw [CharsFit, getString, List.flatMap_cons, List.flatMap_cons]
          rw [getString, List.flatMap_cons, List.length_append] at long
          split
          next kept =>
            have whole : cString (tclBytes char ++ text.flatMap (literalBytes graph))
                = tclBytes char ++ cString (text.flatMap (literalBytes graph)) := by
              refine List.takeWhile_append_of_pos fun byte member => ?_
              exact decide_eq_true (tclBytes_ne_zero member)
            rw [literalBytes_kept kept, whole, List.append_assoc, take_front_iff]
            refine ih ?_ ?_
            · exact Nat.le_trans (Nat.sub_le _ _) enough
            · exact Nat.sub_le_iff_le_add'.mpr long
          next lost =>
            obtain ⟨byte, others, lead, next, more, literal, own, leads, nexts, apart⟩ :=
              literalBytes_lost classes lost
            rw [literal, own, List.head?_cons, List.head?_cons, Option.some_inj]
            by_cases zero : byte = 0
            · have empty : cString (byte :: others ++ text.flatMap (literalBytes graph)) = [] := by
                simp [cString, zero]
              have other : byte ≠ lead := by
                intro same
                rw [← same, zero] at leads
                exact absurd leads (by decide)
              obtain ⟨count, rfl⟩ : ∃ count, zeros = count + 1 := ⟨zeros - 1, by omega⟩
              rw [empty, List.nil_append, List.replicate_succ, List.cons_append,
                List.take_succ_cons, List.take_succ_cons, List.cons.injEq]
              constructor
              · exact fun same => absurd (zero.trans same.1) other
              · exact fun same => absurd same.2 other
            · have first : cString (byte :: others ++ text.flatMap (literalBytes graph))
                  = byte :: cString (others ++ text.flatMap (literalBytes graph)) := by
                simp [cString, zero]
              rw [first, List.cons_append, List.cons_append, List.take_succ_cons,
                List.take_succ_cons, List.cons.injEq]
              constructor
              · intro ⟨same, behind⟩
                refine ⟨?_, same⟩
                obtain ⟨digit, digits, rfl, below⟩ := apart same
                cases room with
                | zero => rfl
                | succ room =>
                    have front : ∃ front tail, cString (digit :: digits
                        ++ text.flatMap (literalBytes graph)) ++ List.replicate zeros 0
                        = front :: tail ∧ front < 128 := by
                      by_cases digitZero : digit = 0
                      · obtain ⟨count, rfl⟩ : ∃ count, zeros = count + 1 := ⟨zeros - 1, by omega⟩
                        exact ⟨0, _, by simp [cString, digitZero, List.replicate_succ]; rfl,
                          by decide⟩
                      · exact ⟨digit, _, by simp [cString, digitZero]; rfl, below⟩
                    obtain ⟨front, tail, shape, small⟩ := front
                    rw [shape, List.cons_append, List.take_succ_cons, List.take_succ_cons,
                      List.cons.injEq] at behind
                    exact absurd nexts (behind.1 ▸ UInt8.not_le.mpr small)
              · intro ⟨last, same⟩
                subst last
                exact ⟨same, rfl⟩

end SpeedTables.Defaults
