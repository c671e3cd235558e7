import Mathlib
import SpeedTables.Table.Values

/-! The program's own `ether_aton` and `ether_ntoa`. -/

namespace SpeedTables.EtherAddress

open SpeedTables

-----------------------------------------------------------------------------------------
-- The functions
-----------------------------------------------------------------------------------------

/-- `ETHER_ADDR_LEN` -/
def etherAddrLen : Nat := 6

/-- How `ether_aton` ends: with the octets of an address, with NULL, or by reading behind the
terminator or writing behind the octets.
-/
inductive AtonResult where
  | address (octets : List UInt8)
  | null
  | readsBehind
  | writesBehind
  deriving DecidableEq

/-- The value of a digit, by the cases of the switch. -/
def digitValue (c : UInt8) : Option Nat :=
  if 97 ≤ c ∧ c ≤ 102 then some (c.toNat - 97 + 10)
  else if 65 ≤ c ∧ c ≤ 70 then some (c.toNat - 65 + 10)
  else if 48 ≤ c ∧ c ≤ 57 then some (c.toNat - 48)
  else none

/-- `.`, `:` and `-` -/
def isSeparator (c : UInt8) : Bool :=
  c == 46 || c == 58 || c == 45

/-- The octets of a group, unless it has too large a value. -/
def groupOctets (twobyte : Bool) (group : Nat) : Option (List UInt8) :=
  if twobyte then
    if 2 ^ 16 ≤ group then none else some [(group / 256).toUInt8, (group % 256).toUInt8]
  else
    if 2 ^ 8 ≤ group then none else some [group.toUInt8]

/-- The loop of `ether_aton`, with the octets that it has written. The `int` of the group wraps
around.
-/
def etherLoop : CString → List UInt8 → Nat → Bool → AtonResult
  | [], octets, group, twobyte =>
      match groupOctets twobyte group with
      | none => .null
      | some more =>
          if (octets ++ more).length < etherAddrLen then .readsBehind
          else if (octets ++ more).length = etherAddrLen then .address (octets ++ more)
          else .writesBehind
  | c :: rest, octets, group, twobyte =>
      match digitValue c with
      | some digit => etherLoop rest octets ((group * 16 + digit) % 2 ^ 32) twobyte
      | none =>
          if isSeparator c then
            match groupOctets (twobyte || c == 46) group with
            | none => .null
            | some more =>
                if (octets ++ more).length < etherAddrLen then
                  etherLoop rest (octets ++ more) 0 (twobyte || c == 46)
                else if (octets ++ more).length = etherAddrLen then .null
                else .writesBehind
          else .null

/-- `ether_aton` -/
def etherAton (s : CString) : AtonResult :=
  etherLoop s [] 0 false

/-- `hex[value]` -/
def hexDigit (value : Nat) : UInt8 :=
  if value < 10 then (48 + value).toUInt8 else (55 + value).toUInt8

/-- `ether_ntoa` -/
def etherNtoa (octet : Fin etherAddrLen → UInt8) : CString :=
  List.intercalate [58] ((List.ofFn octet).map (fun octet =>
    [hexDigit (octet.toNat / 16), hexDigit (octet.toNat % 16)]))

-----------------------------------------------------------------------------------------
-- Notations
-----------------------------------------------------------------------------------------

/-- One digit or more, up to a number of them. -/
def IsGroup (digits : Nat) (group : CString) : Prop :=
  group ≠ [] ∧ group.length ≤ digits ∧ ∀ c ∈ group, (digitValue c).isSome = true

/-- The number that digits denote. -/
def denoted (group : CString) : Nat :=
  group.foldl (fun value c => value * 16 + (digitValue c).getD 0) 0

/-- A text of groups with separators between them. -/
inductive Separated (separates : UInt8 → Prop) (digits : Nat) : List CString → CString → Prop
  | last {group} (valid : IsGroup digits group) : Separated separates digits [group] group
  | more {group groups c text} (valid : IsGroup digits group) (separator : separates c)
    (rest : Separated separates digits groups text)
    : Separated separates digits (group :: groups) (group ++ c :: text)

/-- Six groups of one or two digits with colons or dashes between them, or three of one to four with
dots, and the octets that they denote.
-/
inductive Denotes : CString → List UInt8 → Prop
  | six {s groups} (separated : Separated (fun c => c = 58 ∨ c = 45) 2 groups s)
    (six : groups.length = 6)
    : Denotes s (groups.map (fun group => (denoted group).toUInt8))
  | three {s groups} (separated : Separated (fun c => c = 46) 4 groups s)
    (three : groups.length = 3)
    : Denotes s (groups.flatMap (fun group =>
        [(denoted group / 256).toUInt8, (denoted group % 256).toUInt8]))

/-- `ether_aton` reads and writes nothing else, and has an address just for the strings that denote
it.
-/
def ReadsNotation (s : CString) : Prop :=
  etherAton s ≠ .readsBehind ∧ etherAton s ≠ .writesBehind
  ∧ ∀ octets, etherAton s = .address octets ↔ Denotes s octets

-----------------------------------------------------------------------------------------
-- Refused strings
-----------------------------------------------------------------------------------------

/-- The number of octets of a group, before the first dot and from it on. -/
def width (dotted : Bool) : Nat :=
  if dotted then 2 else 1

/-- The digits have a value for the octets, after it has wrapped around. -/
def Fits (dotted : Bool) (digits : CString) : Prop :=
  denoted digits % 2 ^ 32 < 256 ^ width dotted

/-- Strings that end the loop before the octets are full, or at a separator behind the last one:
they have another character, a group with too large a value, or more groups.
-/
inductive Refused : Nat → Bool → CString → Prop
  | character {octets dotted digits c rest} (hex : ∀ d ∈ digits, (digitValue d).isSome = true)
    (noDigit : digitValue c = none) (noSeparator : isSeparator c = false)
    : Refused octets dotted (digits ++ c :: rest)
  | lastLarge {octets dotted digits} (hex : ∀ d ∈ digits, (digitValue d).isSome = true)
    (large : ¬ Fits dotted digits)
    : Refused octets dotted digits
  | large {octets dotted digits c rest} (hex : ∀ d ∈ digits, (digitValue d).isSome = true)
    (separator : isSeparator c = true) (large : ¬ Fits (dotted || c == 46) digits)
    : Refused octets dotted (digits ++ c :: rest)
  | full {octets dotted digits c rest} (hex : ∀ d ∈ digits, (digitValue d).isSome = true)
    (separator : isSeparator c = true) (fits : Fits (dotted || c == 46) digits)
    (full : octets + width (dotted || c == 46) = etherAddrLen)
    : Refused octets dotted (digits ++ c :: rest)
  | later {octets dotted digits c rest} (hex : ∀ d ∈ digits, (digitValue d).isSome = true)
    (separator : isSeparator c = true) (fits : Fits (dotted || c == 46) digits)
    (room : octets + width (dotted || c == 46) < etherAddrLen)
    (refused : Refused (octets + width (dotted || c == 46)) (dotted || c == 46) rest)
    : Refused octets dotted (digits ++ c :: rest)

-----------------------------------------------------------------------------------------
-- The loop over one group
-----------------------------------------------------------------------------------------

section Loop

variable {octets : List UInt8} {dotted : Bool} {digits rest : CString} {c : UInt8}

/-- Digits are read into the group, which wraps around. -/
theorem etherLoop_digits (hex : ∀ d ∈ digits, (digitValue d).isSome = true) (group : Nat)
    : etherLoop (digits ++ rest) octets group dotted
      = etherLoop rest octets
          (digits.foldl (fun value d => (value * 16 + (digitValue d).getD 0) % 2 ^ 32) group)
          dotted := by
  induction digits generalizing group with
  | nil => rfl
  | cons d more ih =>
      obtain ⟨digit, value⟩ := Option.isSome_iff_exists.mp (hex d List.mem_cons_self)
      rw [List.cons_append, etherLoop, value, List.foldl_cons, value]
      exact ih (fun other inside => hex other (List.mem_cons_of_mem d inside)) _

/-- The wrapped value is the denoted one up to wrapping, by induction on the digits. -/
theorem foldl_wraps (digits : CString) (group value : Nat) (same : group = value % 2 ^ 32)
    : digits.foldl (fun value d => (value * 16 + (digitValue d).getD 0) % 2 ^ 32) group
      = digits.foldl (fun value d => value * 16 + (digitValue d).getD 0) value % 2 ^ 32 := by
  induction digits generalizing group value with
  | nil => exact same
  | cons d more ih =>
      refine ih _ _ ?_
      subst same
      dsimp only
      omega

theorem groupOctets_fits {group : Nat} (small : group < 256 ^ width dotted)
    : ∃ more, groupOctets dotted group = some more ∧ more.length = width dotted := by
  cases dotted with
  | false =>
      refine ⟨[group.toUInt8], ?_, rfl⟩
      rw [groupOctets, if_neg (by simp), if_neg (by simpa [width] using small)]
  | true =>
      refine ⟨[(group / 256).toUInt8, (group % 256).toUInt8], ?_, rfl⟩
      rw [groupOctets, if_pos rfl, if_neg (by simpa [width] using small)]

theorem groupOctets_large {group : Nat} (large : ¬ group < 256 ^ width dotted)
    : groupOctets dotted group = none := by
  cases dotted with
  | false => rw [groupOctets, if_neg (by simp), if_pos (by simpa [width] using large)]
  | true => rw [groupOctets, if_pos rfl, if_pos (by simpa [width] using large)]

/-- The loop at a group's end by the terminator. -/
theorem etherLoop_last (hex : ∀ d ∈ digits, (digitValue d).isSome = true)
    : etherLoop digits octets 0 dotted = etherLoop [] octets (denoted digits % 2 ^ 32) dotted := by
  have read := @etherLoop_digits octets dotted digits [] hex 0
  rw [List.append_nil, foldl_wraps digits 0 0 rfl] at read
  exact read

theorem etherLoop_group (hex : ∀ d ∈ digits, (digitValue d).isSome = true)
    : etherLoop (digits ++ c :: rest) octets 0 dotted
      = etherLoop (c :: rest) octets (denoted digits % 2 ^ 32) dotted := by
  rw [etherLoop_digits hex, foldl_wraps digits 0 0 rfl]
  rfl

theorem etherLoop_separator {group : Nat} {more : List UInt8} (noDigit : digitValue c = none)
    (separator : isSeparator c = true) (write : groupOctets (dotted || c == 46) group = some more)
    : etherLoop (c :: rest) octets group dotted
      = if (octets ++ more).length < etherAddrLen then
          etherLoop rest (octets ++ more) 0 (dotted || c == 46)
        else if (octets ++ more).length = etherAddrLen then .null
        else .writesBehind := by
  rw [etherLoop, noDigit]
  dsimp only
  rw [if_pos separator, write]

theorem isSeparator_noDigit (separator : isSeparator c = true) : digitValue c = none := by
  have cases : c = 46 ∨ c = 58 ∨ c = 45 := by simpa [isSeparator, or_assoc] using separator
  obtain rfl | rfl | rfl := cases <;> decide

end Loop

/-- A string begins with digits and ends there, or goes on with another character. -/
theorem exists_digits (s : CString)
    : ∃ digits, (∀ d ∈ digits, (digitValue d).isSome = true)
        ∧ (s = digits ∨ ∃ c rest, s = digits ++ c :: rest ∧ digitValue c = none) := by
  induction s with
  | nil => exact ⟨[], by simp, .inl rfl⟩
  | cons c rest ih =>
      cases value : digitValue c with
      | none => exact ⟨[], by simp, .inr ⟨c, rest, rfl, value⟩⟩
      | some digit =>
          obtain ⟨digits, hex, ends⟩ := ih
          refine ⟨c :: digits, ?_, ?_⟩
          · intro d inside
            obtain rfl | later := List.mem_cons.mp inside
            · simp [value]
            · exact hex d later
          · obtain rfl | ⟨other, tail, rfl, noDigit⟩ := ends
            · exact .inl rfl
            · exact .inr ⟨other, tail, rfl, noDigit⟩

-----------------------------------------------------------------------------------------
-- NULL
-----------------------------------------------------------------------------------------

/-- A refused string gives NULL, by induction on its groups. -/
theorem Refused.null {written : Nat} {dotted : Bool} {s : CString}
    (refused : Refused written dotted s) {octets : List UInt8} (count : octets.length = written)
    : etherLoop s octets 0 dotted = .null := by
  induction refused generalizing octets with
  | character hex noDigit noSeparator =>
      rw [etherLoop_group hex, etherLoop, noDigit]
      simp [noSeparator]
  | lastLarge hex large =>
      rw [etherLoop_last hex, etherLoop, groupOctets_large large]
  | large hex separator large =>
      rw [etherLoop_group hex, etherLoop, isSeparator_noDigit separator]
      simp only [if_pos separator, groupOctets_large large]
  | full hex separator fits full =>
      obtain ⟨more, write, length⟩ := groupOctets_fits fits
      rw [etherLoop_group hex, etherLoop_separator (isSeparator_noDigit separator) separator write,
        List.length_append, length, count, full]
      simp
  | later hex separator fits room _ ih =>
      obtain ⟨more, write, length⟩ := groupOctets_fits fits
      rw [etherLoop_group hex, etherLoop_separator (isSeparator_noDigit separator) separator write,
        List.length_append, length, count, if_pos room]
      exact ih (by rw [List.length_append, length, count])

/-- A string that gives NULL is refused, by induction on its length. -/
theorem refused_of_null {s : CString} {octets : List UInt8} {dotted : Bool}
    (null : etherLoop s octets 0 dotted = .null)
    : Refused octets.length dotted s := by
  induction bound : s.length using Nat.strong_induction_on generalizing s octets dotted with
  | h size ih =>
      obtain ⟨digits, hex, ends⟩ := exists_digits s
      obtain rfl | ⟨c, rest, rfl, noDigit⟩ := ends
      · by_cases fits : Fits dotted s
        · obtain ⟨more, write, length⟩ := groupOctets_fits fits
          rw [etherLoop_last hex, etherLoop, write] at null
          dsimp only at null
          split at null
          · cases null
          · split at null <;> cases null
        · exact .lastLarge hex fits
      · cases separator : isSeparator c with
        | false => exact .character hex noDigit separator
        | true =>
            by_cases fits : Fits (dotted || c == 46) digits
            · obtain ⟨more, write, length⟩ := groupOctets_fits fits
              have count : (octets ++ more).length = octets.length + width (dotted || c == 46) := by
                rw [List.length_append, length]
              rw [etherLoop_group hex, etherLoop_separator noDigit separator write] at null
              split at null
              · next room =>
                  refine .later hex separator fits (count ▸ room) ?_
                  have shorter : rest.length < size := by
                    simp only [List.length_append, List.length_cons] at bound
                    omega
                  exact count ▸ ih rest.length shorter null rfl
              · split at null
                · next full => exact .full hex separator fits (count ▸ full)
                · cases null
            · exact .large hex separator fits

-----------------------------------------------------------------------------------------
-- Addresses
-----------------------------------------------------------------------------------------

theorem digitValue_lt {c : UInt8} {digit : Nat} (value : digitValue c = some digit)
    : digit < 16 := by
  unfold digitValue at value
  simp only [UInt8.le_iff_toNat_le] at value
  split at value
  · next range =>
      cases value
      have : c.toNat ≤ 102 := range.2
      omega
  · split at value
    · next range =>
        cases value
        have : c.toNat ≤ 70 := range.2
        omega
    · split at value
      · next range =>
          cases value
          have : c.toNat ≤ 57 := range.2
          omega
      · cases value

/-- Digits denote a number below the power of their count, by induction on them. -/
theorem denoted_lt (digits : CString) : denoted digits < 16 ^ digits.length := by
  have general : ∀ value, digits.foldl (fun value d => value * 16 + (digitValue d).getD 0) value
      < (value + 1) * 16 ^ digits.length := by
    induction digits with
    | nil => intro value; simp
    | cons d more ih =>
        intro value
        have digit : (digitValue d).getD 0 < 16 := by
          cases isDigit : digitValue d with
          | none => decide
          | some digit => exact digitValue_lt isDigit
        calc
          _ < (value * 16 + (digitValue d).getD 0 + 1) * 16 ^ more.length := ih _
          _ ≤ ((value + 1) * 16) * 16 ^ more.length := Nat.mul_le_mul_right _ (by omega)
          _ = (value + 1) * 16 ^ (d :: more).length := by
              rw [List.length_cons, Nat.pow_succ, Nat.mul_assoc, Nat.mul_comm 16]
  simpa [denoted] using general 0

theorem IsGroup.denoted_lt {digits : Nat} {group : CString} (valid : IsGroup digits group)
    : denoted group < 16 ^ digits :=
  Nat.lt_of_lt_of_le (EtherAddress.denoted_lt group) (Nat.pow_le_pow_right (by omega) valid.2.1)

theorem groupOctets_one {group : Nat} (small : group < 2 ^ 8)
    : groupOctets false (group % 2 ^ 32) = some [group.toUInt8] := by
  have same : group % 2 ^ 32 = group := Nat.mod_eq_of_lt (by omega)
  rw [same, groupOctets, if_neg (by simp), if_neg (by omega)]

theorem groupOctets_two {group : Nat} (small : group < 2 ^ 16)
    : groupOctets true (group % 2 ^ 32)
      = some [(group / 256).toUInt8, (group % 256).toUInt8] := by
  have same : group % 2 ^ 32 = group := Nat.mod_eq_of_lt (by omega)
  rw [same, groupOctets, if_pos rfl, if_neg (by omega)]

theorem Separated.length_pos {separates : UInt8 → Prop} {digits : Nat} {groups : List CString}
    {s : CString} (separated : Separated separates digits groups s)
    : 0 < groups.length := by
  cases separated <;> simp

/-- Groups with colons and dashes between them are read in order, by induction on them. -/
theorem etherLoop_six {groups : List CString} {s : CString}
    (separated : Separated (fun c => c = 58 ∨ c = 45) 2 groups s) {octets : List UInt8}
    (six : octets.length + groups.length = etherAddrLen)
    : etherLoop s octets 0 false
      = .address (octets ++ groups.map (fun group => (denoted group).toUInt8)) := by
  induction separated generalizing octets with
  | @last group valid =>
      have full : (octets ++ [(denoted group).toUInt8]).length = etherAddrLen := by
        simpa using six
      rw [etherLoop_last valid.2.2, etherLoop, groupOctets_one valid.denoted_lt]
      dsimp only
      rw [if_neg (by omega), if_pos full]
      rfl
  | @more group groups c text valid separator rest ih =>
      have isSep : isSeparator c = true := by
        obtain rfl | rfl := separator <;> decide
      have noDot : (c == 46) = false := by
        obtain rfl | rfl := separator <;> decide
      have length : (octets ++ [(denoted group).toUInt8]).length = octets.length + 1 := by simp
      have total : octets.length + (groups.length + 1) = etherAddrLen := six
      have more := rest.length_pos
      have write : groupOctets (false || c == 46) (denoted group % 2 ^ 32)
          = some [(denoted group).toUInt8] := by
        rw [noDot]
        exact groupOctets_one valid.denoted_lt
      rw [etherLoop_group valid.2.2,
        etherLoop_separator (isSeparator_noDigit isSep) isSep write, if_pos (by omega), noDot]
      have read := @ih (octets ++ [(denoted group).toUInt8]) (by omega)
      simpa using read

/-- Groups with dots between them are read in order, by induction on them. -/
theorem etherLoop_three {groups : List CString} {s : CString}
    (separated : Separated (fun c => c = 46) 4 groups s) {octets : List UInt8} {dotted : Bool}
    (dots : dotted = true ∨ 1 < groups.length)
    (three : octets.length + 2 * groups.length = etherAddrLen)
    : etherLoop s octets 0 dotted
      = .address (octets ++ groups.flatMap (fun group =>
          [(denoted group / 256).toUInt8, (denoted group % 256).toUInt8])) := by
  induction separated generalizing octets dotted with
  | @last group valid =>
      have isDotted : dotted = true := dots.resolve_right (by simp)
      have full : (octets ++ [(denoted group / 256).toUInt8, (denoted group % 256).toUInt8]).length
          = etherAddrLen := by
        simpa using three
      rw [etherLoop_last valid.2.2, etherLoop, isDotted, groupOctets_two valid.denoted_lt]
      dsimp only
      rw [if_neg (by omega), if_pos full]
      simp
  | @more group groups c text valid separator rest ih =>
      obtain rfl : c = 46 := separator
      have length : (octets ++ [(denoted group / 256).toUInt8,
          (denoted group % 256).toUInt8]).length = octets.length + 2 := by simp
      have total : octets.length + 2 * (groups.length + 1) = etherAddrLen := three
      have more := rest.length_pos
      have write : groupOctets (dotted || (46 : UInt8) == 46) (denoted group % 2 ^ 32)
          = some [(denoted group / 256).toUInt8, (denoted group % 256).toUInt8] := by
        rw [beq_self_eq_true, Bool.or_true]
        exact groupOctets_two valid.denoted_lt
      rw [etherLoop_group valid.2.2,
        etherLoop_separator (by decide) (by decide) write, if_pos (by omega)]
      have read := @ih (octets ++ [(denoted group / 256).toUInt8, (denoted group % 256).toUInt8])
        (dotted || (46 : UInt8) == 46) (.inl (by simp)) (by omega)
      simpa using read

/-- A string that denotes an address gives it. -/
theorem Denotes.read {s : CString} {octets : List UInt8} (denotes : Denotes s octets)
    : etherAton s = .address octets := by
  cases denotes with
  | six separated six => exact etherLoop_six separated (by simpa [etherAddrLen] using six)
  | three separated three =>
      exact etherLoop_three separated (.inr (by omega)) (by simp [three, etherAddrLen])

-----------------------------------------------------------------------------------------
-- The notation
-----------------------------------------------------------------------------------------

theorem digitValue_hexDigit : ∀ value < 16, digitValue (hexDigit value) = some value := by
  decide

/-- Two digits denote the octet that they are printed for. -/
theorem hexDigits_group (octet : UInt8)
    : IsGroup 2 [hexDigit (octet.toNat / 16), hexDigit (octet.toNat % 16)]
      ∧ (denoted [hexDigit (octet.toNat / 16), hexDigit (octet.toNat % 16)]).toUInt8 = octet := by
  have bound := octet.toNat_lt
  have high := digitValue_hexDigit (octet.toNat / 16) (by omega)
  have low := digitValue_hexDigit (octet.toNat % 16) (by omega)
  refine ⟨⟨by simp, by simp, by simp [high, low]⟩, ?_⟩
  have value : denoted [hexDigit (octet.toNat / 16), hexDigit (octet.toNat % 16)]
      = octet.toNat := by
    simp only [denoted, List.foldl_cons, List.foldl_nil, high, low, Option.getD_some]
    omega
  rw [value]
  exact UInt8.ofNat_toNat

/-- Groups with colons between them are separated, by induction on them. -/
theorem separated_intercalate {digits : Nat} {groups : List CString} (nonempty : groups ≠ [])
    (valid : ∀ group ∈ groups, IsGroup digits group)
    : Separated (fun c => c = 58 ∨ c = 45) digits groups (List.intercalate [58] groups) := by
  induction groups with
  | nil => exact absurd rfl nonempty
  | cons group rest ih =>
      have first := valid group List.mem_cons_self
      cases rest with
      | nil =>
          rw [List.intercalate_singleton]
          exact .last first
      | cons next more =>
          have joined : List.intercalate [58] (group :: next :: more)
              = group ++ 58 :: List.intercalate [58] (next :: more) := by
            rw [List.intercalate_cons_cons]
            simp
          rw [joined]
          exact .more first (.inl rfl)
            (ih (by simp) (fun other inside => valid other (List.mem_cons_of_mem group inside)))

/-- The text of an address denotes it. -/
theorem etherNtoa_denotes (octet : Fin etherAddrLen → UInt8)
    : Denotes (etherNtoa octet) (List.ofFn octet) := by
  have length : (List.ofFn octet).length = 6 := List.length_ofFn
  have separated := @separated_intercalate 2 ((List.ofFn octet).map (fun octet =>
    [hexDigit (octet.toNat / 16), hexDigit (octet.toNat % 16)])) ?_ ?_
  · have denotes := Denotes.six separated (by rw [List.length_map, length])
    have same : ((List.ofFn octet).map (fun octet =>
        [hexDigit (octet.toNat / 16), hexDigit (octet.toNat % 16)])).map
          (fun group => (denoted group).toUInt8) = List.ofFn octet := by
      rw [List.map_map]
      exact (List.map_congr_left fun octet _ => (hexDigits_group octet).2).trans (List.map_id _)
    rwa [same] at denotes
  · intro empty
    rw [List.map_eq_nil_iff.mp empty] at length
    cases length
  · intro group inside
    obtain ⟨octet, _, rfl⟩ := List.mem_map.mp inside
    exact (hexDigits_group octet).1

/-- `ether_aton` reads just its notations if and only if the string is of one of them or is refused
before its octets are full, and it reads every address that `ether_ntoa` prints.
-/
theorem readsNotation_iff (s : CString) (octet : Fin etherAddrLen → UInt8)
    : (ReadsNotation s ↔ (∃ octets, Denotes s octets) ∨ Refused 0 false s)
      ∧ etherAton (etherNtoa octet) = .address (List.ofFn octet) := by
  refine ⟨⟨fun reads => ?_, ?_⟩, (etherNtoa_denotes octet).read⟩
  · obtain ⟨noRead, noWrite, address⟩ := reads
    cases result : etherAton s with
    | address octets => exact .inl ⟨octets, (address octets).mp result⟩
    | null => exact .inr (refused_of_null result)
    | readsBehind => exact absurd result noRead
    | writesBehind => exact absurd result noWrite
  · intro holds
    obtain ⟨octets, denotes⟩ | refused := holds
    · have read := denotes.read
      refine ⟨by rw [read]; nofun, by rw [read]; nofun, fun other => ⟨fun result => ?_, ?_⟩⟩
      · cases read.symm.trans result
        exact denotes
      · exact Denotes.read
    · have null : etherAton s = .null := refused.null rfl
      refine ⟨by rw [null]; nofun, by rw [null]; nofun, fun octets => ⟨fun result => ?_, ?_⟩⟩
      · cases null.symm.trans result
      · intro denotes
        exact denotes.read

/-- The loop does not end at the terminator of the empty string. -/
theorem readsNotation_empty : ¬ ∀ s, ReadsNotation s := by
  intro reads
  exact (reads []).1 (by decide)

end SpeedTables.EtherAddress
