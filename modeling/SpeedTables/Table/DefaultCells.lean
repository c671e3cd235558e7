import SpeedTables.Table.Defaults
import SpeedTables.Table.RoundTrip
import SpeedTables.Table.Sample

/-! Cells of new rows, and of rows in which a field is set to its default. -/

namespace SpeedTables.Defaults

open Lib

-----------------------------------------------------------------------------------------
-- Cells of a field with a default
-----------------------------------------------------------------------------------------

variable {compiler : Compiler} {graph : Char → Bool} {host : Host}

/-- The same stored value and recorded length, whatever is allocated. -/
def SameStored : (type : CtableType) → Storage type → Storage type → Prop
  | .varstring, one, other => one.text = other.text ∧ one.length = other.length
  | _, one, other => one = other

/-- The same null state and stored value. -/
def SameCell (info : FieldInfo) (one other : Cell info.type) : Prop :=
  (!info.notnull && one.isNull) = (!info.notnull && other.isNull)
    ∧ SameStored info.type one.value other.value

/-- The cells of a row that has been created, by sets and increments since then. -/
inductive Reached (host : Host) (info : FieldInfo) : Cell info.type → Prop where
  | created : Reached host info info.initialCell
  | set {cell next : Cell info.type} (isNull : Bool) (obj : Obj) (before : Reached host info cell)
      (sets : (cellSetType host info isNull info.type info.default cell obj).leaves cell
        = some next)
      : Reached host info next
  | incr {cell : Cell info.type} {add : Cell info.type → Int → Storage info.type} (amount : Int)
      (before : Reached host info cell) (numeric : incrValue host info.type = some add)
      : Reached host info { value := add cell amount, isNull := false }

/-- What holds of the cells that are reached: a fixed string has its width, a short is one, and a
character is never changed.
-/
def Upheld (length : Nat) : (type : CtableType) → Cell type → Cell type → Prop
  | .fixedstring, _, cell => (show List UInt8 from cell.value).length = length
  | .short, _, cell => narrow 16 cell.value = cell.value
  | .char, created, cell => cell.value = created.value
  | _, _, _ => True

section Setters

variable {type : CtableType} {α : Type} {isNull : Bool} {parsed : Except TclError α}
  {unchanged : Storage type → α → Bool} {stored : α → Storage type} {null : Storage type}
  {cell next : Cell type}

/-- A setter of a field that takes no nulls. -/
theorem standardSet_notnull
    (sets : (standardSet true isNull parsed unchanged stored null cell).leaves cell = some next)
    : ∃ value, parsed = .ok value
      ∧ (unchanged cell.value value = true ∧ next = cell
        ∨ unchanged cell.value value = false ∧ next = { cell with value := stored value }) := by
  unfold standardSet at sets
  cases parsed with
  | error error => cases sets
  | ok value =>
      refine ⟨value, rfl, ?_⟩
      cases same : unchanged cell.value value with
      | true =>
          simp only [Bool.not_true, Bool.false_and, Bool.false_eq_true, if_false, same, if_true]
            at sets
          exact .inl ⟨rfl, (Option.some.inj sets).symm⟩
      | false =>
          simp only [Bool.not_true, Bool.false_and, Bool.false_eq_true, if_false, same] at sets
          exact .inr ⟨rfl, (Option.some.inj sets).symm⟩

/-- Where a value counts as unchanged only if it is stored already, it is stored. -/
theorem standardSet_stores
    (exact' : ∀ value, unchanged cell.value value = true → cell.value = stored value)
    (sets : (standardSet true isNull parsed unchanged stored null cell).leaves cell = some next)
    : ∃ value, parsed = .ok value ∧ next.value = stored value := by
  obtain ⟨value, ok, ⟨same, rfl⟩ | ⟨-, rfl⟩⟩ := standardSet_notnull sets
  · exact ⟨value, ok, exact' value same⟩
  · exact ⟨value, ok, rfl⟩

end Setters

theorem narrow_narrow (width : Nat) (value : Int)
    : narrow width (narrow width value) = narrow width value := by
  rw [narrow, narrow]
  exact Int.bmod_bmod

section

variable {info : FieldInfo} {isNull : Bool} {obj : Obj}

/-- A fixed string keeps its width. -/
theorem fixedstringSet_width {default : List UInt8} {cell next : Cell .fixedstring}
    (notnull : info.notnull = true)
    (width : (show List UInt8 from cell.value).length = info.length)
    (sets : (fixedstringSet info isNull default cell obj).leaves cell = some next)
    : (show List UInt8 from next.value).length = info.length := by
  rw [fixedstringSet, notnull] at sets
  obtain ⟨value, ok, ⟨-, rfl⟩ | ⟨-, rfl⟩⟩ := standardSet_notnull sets
  · exact width
  · obtain rfl := Except.ok.inj ok
    exact (fixedstringValue_pads info.length default obj).1

/-- A fixed string that is set begins with the value. -/
theorem fixedstringSet_value {default : List UInt8} {cell next : Cell .fixedstring}
    (notnull : info.notnull = true) (noNul : 0 ∉ obj)
    (sets : (fixedstringSet info isNull default cell obj).leaves cell = some next)
    : obj.take info.length <+: (show List UInt8 from next.value) := by
  rw [fixedstringSet, notnull] at sets
  obtain ⟨value, ok, ⟨same, rfl⟩ | ⟨-, rfl⟩⟩ := standardSet_notnull sets
  · obtain rfl := Except.ok.inj ok
    exact fixedstring_unchanged noNul same
  · obtain rfl := Except.ok.inj ok
    exact (fixedstringValue_pads info.length default obj).2

/-- A character that takes no nulls is never changed: another one counts as unchanged. -/
theorem charSet_value {cell next : Cell .char} (notnull : info.notnull = true)
    (sets : (charSet info isNull cell obj).leaves cell = some next)
    : next.value = cell.value := by
  rw [charSet, notnull] at sets
  obtain ⟨value, ok, ⟨-, rfl⟩ | ⟨same, rfl⟩⟩ := standardSet_notnull sets
  · rfl
  · exact (bne_eq_false_iff_eq.mp same).symm

theorem boolSet_value {cell next : Cell .boolean} (notnull : info.notnull = true)
    (sets : (boolSet host info isNull cell obj).leaves cell = some next)
    : host.getBoolean obj = some next.value := by
  rw [boolSet, notnull] at sets
  obtain ⟨truth, ok, is⟩ := standardSet_stores (fun _ same => beq_iff_eq.mp same) sets
  rw [converted_ok ok, is]

/-- A number that is set is the one that is read, as it is stored. -/
theorem numberSet_value {type : CtableType} {convert : Obj → Option Int}
    {unchanged : Storage type → Int → Bool} {stored : Int → Storage type} {cell next : Cell type}
    (notnull : info.notnull = true)
    (exact' : ∀ value, unchanged cell.value value = true → cell.value = stored value)
    (sets : (numberSet host info isNull convert unchanged stored cell obj).leaves cell = some next)
    : (convert obj).map stored = some next.value := by
  rw [numberSet, notnull] at sets
  obtain ⟨number, ok, is⟩ := standardSet_stores exact' sets
  rw [converted_ok ok, is]
  rfl

theorem inetSet_value {cell next : Cell .inet} (notnull : info.notnull = true)
    (sets : (inetSet host info isNull cell obj).leaves cell = some next)
    : host.inetAton obj = some next.value := by
  rw [inetSet, notnull] at sets
  obtain ⟨address, ok, is⟩ := standardSet_stores (fun _ same => beq_iff_eq.mp same) sets
  rw [converted_ok ok, is]

theorem macSet_value {cell next : Cell .mac} (notnull : info.notnull = true)
    (sets : (macSet host info isNull cell obj).leaves cell = some next)
    : host.etherAton obj = some next.value := by
  rw [macSet, notnull, Bool.not_true, Bool.false_and, Bool.false_and, if_neg Bool.false_ne_true]
    at sets
  obtain ⟨address, ok, is⟩ := standardSet_stores (fun _ same => beq_iff_eq.mp same) sets
  rw [converted_ok ok, is]

theorem tclobjSet_value {cell next : Cell .tclobj} (notnull : info.notnull = true)
    (sets : (tclobjSet info isNull cell obj).leaves cell = some next)
    : next.value = some obj := by
  rw [tclobjSet, notnull, Bool.not_true, Bool.false_and, if_neg Bool.false_ne_true] at sets
  obtain rfl := Option.some.inj sets
  rfl

/-- A varstring that is set is the value, with its length. -/
theorem varstringSet_value {cell next : Cell .varstring} (notnull : info.notnull = true)
    (sets : (varstringSet info isNull cell obj).leaves cell = some next)
    : next.value.text = some obj ∧ next.value.length = obj.length := by
  rw [varstringSet_leaves, notnull] at sets
  obtain ⟨value, ok, ⟨same, rfl⟩ | ⟨-, rfl⟩⟩ := standardSet_notnull sets
  · obtain rfl := Except.ok.inj ok
    rw [Bool.and_eq_true, beq_iff_eq, beq_iff_eq] at same
    exact ⟨same.2, same.1.symm⟩
  · obtain rfl := Except.ok.inj ok
    exact ⟨rfl, rfl⟩

end

variable {strings : DefaultStrings} {text : Text} {info : FieldInfo}

/-- What is created upholds it. -/
theorem HasDefault.upheld_created (default : HasDefault compiler graph host strings text info)
    : Upheld info.length info.type info.initialCell info.initialCell := by
  obtain ⟨-, -, compiled⟩ := default
  obtain ⟨name, type, notnull, indexed, unique, length, held⟩ := info
  dsimp only at compiled
  obtain ⟨value, rfl, computed⟩ := compiled
  cases type with
  | fixedstring =>
      obtain ⟨bytes, -, rfl⟩ := Option.map_eq_some_iff.mp computed
      change ((cString bytes ++ List.replicate length 0).take length).length = length
      rw [List.length_take, List.length_append, List.length_replicate]
      exact Nat.min_eq_left (Nat.le_add_left _ _)
  | short =>
      obtain ⟨number, -, rfl⟩ := Option.map_eq_some_iff.mp computed
      exact narrow_narrow 16 number
  | char => rfl
  | boolean | varstring | mac | int | long | wide | float | double | inet | tclobj | key => trivial

/-- A setter upholds it, by type. -/
theorem upheld_set (notnull : info.notnull = true) {created cell next : Cell info.type}
    {isNull : Bool} {obj : Obj} (before : Upheld info.length info.type created cell)
    (sets : (cellSetType host info isNull info.type info.default cell obj).leaves cell = some next)
    : Upheld info.length info.type created next := by
  obtain ⟨name, type, notnull', indexed, unique, length, default⟩ := info
  obtain rfl : notnull' = true := notnull
  cases type with
  | fixedstring => exact fixedstringSet_width rfl before sets
  | short =>
      simp only [cellSetType, numberSet] at sets
      obtain ⟨value, -, ⟨-, rfl⟩ | ⟨-, rfl⟩⟩ := standardSet_notnull sets
      · exact before
      · exact narrow_narrow 16 value
  | char => exact (charSet_value rfl sets).trans before
  | boolean | varstring | mac | int | long | wide | float | double | inet | tclobj | key => trivial

theorem upheld_incr {created cell : Cell info.type} {add : Cell info.type → Int → Storage info.type}
    {amount : Int} (numeric : incrValue host info.type = some add)
    : Upheld info.length info.type created { value := add cell amount, isNull := false } := by
  obtain ⟨name, type, notnull', indexed, unique, length, default⟩ := info
  cases type with
  | short =>
      obtain rfl := Option.some.inj numeric
      exact narrow_narrow 16 _
  | fixedstring | char => cases numeric
  | boolean | varstring | mac | int | long | wide | float | double | inet | tclobj | key => trivial

/-- Every cell that is reached upholds it, by induction on how it is. -/
theorem HasDefault.upheld (default : HasDefault compiler graph host strings text info)
    {cell : Cell info.type} (reached : Reached host info cell)
    : Upheld info.length info.type info.initialCell cell := by
  induction reached with
  | created => exact default.upheld_created
  | set isNull obj before sets ih => exact upheld_set default.notnull ih sets
  | incr amount before numeric ih => exact upheld_incr numeric

-----------------------------------------------------------------------------------------
-- Defaults as if they were set
-----------------------------------------------------------------------------------------

/-- Where a default is as if it were set. A string has to come through the generator: a varstring
in ASCII, for its length is counted in characters, and a fixed string in its width. Other texts are
written into the source as they are, and C has to make of them what Tcl does. A tclobj default is
ignored.
-/
def DefaultFits (compiler : Compiler) (graph : Char → Bool) (host : Host) (text : Text)
    : CtableType → Prop
  | .varstring => ∀ char ∈ text, char ≠ '\x00' ∧ char.toNat < 128
  | .fixedstring => CharsFit graph text.length text
  | .mac =>
      (compiler.string (sourceBytes text)).bind (fun bytes => host.etherAton (cString bytes))
        = host.etherAton (getString text)
  | .inet =>
      (compiler.string (sourceBytes text)).map
          (fun bytes => (host.inetAton (cString bytes)).getD [0, 0, 0, 0])
        = host.inetAton (getString text)
  | .boolean =>
      (compiler.integer (sourceBytes text)).map (· % 2 != 0) = host.getBoolean (getString text)
  | .short =>
      (compiler.integer (sourceBytes text)).map (narrow 16)
        = (host.getInt (getString text)).map (narrow 16)
  | .int => (compiler.integer (sourceBytes text)).map (narrow 32) = host.getInt (getString text)
  | .long => (compiler.integer (sourceBytes text)).map (narrow 64) = host.getLong (getString text)
  | .wide => (compiler.integer (sourceBytes text)).map (narrow 64) = host.getWide (getString text)
  | .tclobj => False
  | .char | .float | .double | .key => True

/-- A text has a byte for each character at least. -/
theorem length_getString_ge (text : Text) : text.length ≤ (getString text).length := by
  induction text with
  | nil => exact Nat.le_refl _
  | cons char text ih =>
      rw [getString, List.flatMap_cons, List.length_append, List.length_cons, Nat.add_comm]
      exact Nat.add_le_add (length_tclBytes char) ih

/-- A text in ASCII without NULs has a byte for each character, and no other text has. -/
theorem length_getString_iff
    : text.length = (getString text).length ↔ ∀ char ∈ text, char ≠ '\x00' ∧ char.toNat < 128 := by
  induction text with
  | nil => simp [getString]
  | cons char text ih =>
      have rests := length_getString_ge text
      have own : (tclBytes char).length = 1 ↔ char ≠ '\x00' ∧ char.toNat < 128 := by
        rw [tclBytes]
        split
        next nul => simp [nul]
        next other =>
          by_cases low : char.toNat < 128
          · rw [encode_low low]
            simp [other, low]
          · obtain ⟨lead, next, more, bytes, -, -⟩ := encode_high (Nat.le_of_not_lt low)
            rw [bytes]
            simp [low]
      have some' := length_tclBytes char
      rw [List.forall_mem_cons, ← ih, ← own, getString, List.flatMap_cons, List.length_append,
        List.length_cons]
      rw [getString] at rests ⊢
      omega

/-- What is made of a quoted text is its characters' bytes. -/
theorem Compiler.ReadsLiterals.cquote (reads : compiler.ReadsLiterals) (classes : GraphClass graph)
    (text : Text)
    : compiler.string (sourceBytes (cquote graph '"' text))
      = some (text.flatMap (literalBytes graph)) := by
  refine reads _ _ ?_
  have read := @readLiteral_cquote graph classes text []
  rw [List.append_nil] at read
  rw [read]
  simp [readLiteral]

/-- A text in ASCII without NULs is its own C string. -/
theorem cString_ascii (ascii : ∀ char ∈ text, char ≠ '\x00' ∧ char.toNat < 128) (rest : CString)
    : cString (text.flatMap (literalBytes graph) ++ rest) = getString text ++ cString rest := by
  have same : text.flatMap (literalBytes graph) = getString text := by
    refine List.flatMap_congr fun char member => ?_
    exact literalBytes_kept ⟨(ascii char member).1, .inl (ascii char member).2⟩
  rw [same]
  refine List.takeWhile_append_of_pos fun byte member => ?_
  exact decide_eq_true fun zero => getString_ne_zero (zero ▸ member)

/-- A text without quotes, backslashes, newlines and NULs is compiled as it is. -/
theorem Compiler.ReadsLiterals.plain (reads : compiler.ReadsLiterals)
    (plain : ∀ char ∈ text, char ≠ '"' ∧ char ≠ '\\' ∧ char ≠ '\n' ∧ char ≠ '\x00')
    : compiler.string (sourceBytes text) = some (getString text) := by
  have same : sourceBytes text = getString text := by
    refine List.flatMap_congr fun char member => ?_
    rw [tclBytes, if_neg (plain char member).2.2.2]
  have bytes : ∀ byte ∈ sourceBytes text, byte ≠ 92 ∧ byte ≠ 34 ∧ byte ≠ 10 := by
    intro byte member
    obtain ⟨char, inText, inChar⟩ := List.mem_flatMap.mp member
    obtain ⟨quote, backslash, newline, -⟩ := plain char inText
    by_cases low : char.toNat < 128
    · rw [encode_low low, List.mem_singleton] at inChar
      subst inChar
      exact ⟨ascii_ne low (by decide) backslash, ascii_ne low (by decide) quote,
        ascii_ne low (by decide) newline⟩
    · obtain ⟨lead, next, more, written, all, -⟩ := encode_high (Nat.le_of_not_lt low)
      have least := all byte (written ▸ inChar)
      refine ⟨?_, ?_, ?_⟩ <;> intro is <;> rw [is] at least <;> exact absurd least (by decide)
  refine reads _ _ ?_
  have read := @readLiteral_plainAll 34 [] _ bytes
  rw [List.append_nil] at read
  rw [read, ← same]
  simp [readLiteral]

/-- Addresses need no quoting: they fit where they are texts of that kind, and are accepted. -/
theorem addresses_fit (reads : compiler.ReadsLiterals)
    (plain : ∀ char ∈ text, char ≠ '"' ∧ char ≠ '\\' ∧ char ≠ '\n' ∧ char ≠ '\x00')
    : DefaultFits compiler graph host text .mac
      ∧ ((host.inetAton (getString text)).isSome = true →
        DefaultFits compiler graph host text .inet) := by
  have own : cString (getString text) = getString text := by
    refine List.takeWhile_eq_self_iff.mpr fun byte member => ?_
    exact decide_eq_true fun zero => getString_ne_zero (zero ▸ member)
  rw [DefaultFits, DefaultFits, reads.plain plain, Option.bind_some, Option.map_some, own]
  refine ⟨rfl, fun accepted => ?_⟩
  obtain ⟨address, is⟩ := Option.isSome_iff_exists.mp accepted
  rw [is]
  rfl

theorem fits_iff {α : Type} {made set : Option α} {value next : α} (computed : made = some value)
    (is : set = some next)
    : value = next ↔ made = set := by
  rw [computed, is, Option.some_inj]

/-- A default of its own is as if it were set exactly where it fits, by type. -/
theorem sameCell_iff (reads : compiler.ReadsLiterals) (classes : GraphClass graph)
    (default : HasDefault compiler graph host strings text info)
    (own : info.type = .varstring → strings = .constants)
    (whole : info.type ≠ .float ∧ info.type ≠ .double) (notKey : info.type ≠ .key)
    {cell next : Cell info.type} {isNull : Bool} (reached : Reached host info cell)
    (sets : (cellSetType host info isNull info.type info.default cell (getString text)).leaves cell
      = some next)
    : SameCell info info.initialCell next ↔ DefaultFits compiler graph host text info.type := by
  have upheld := default.upheld reached
  clear reached
  obtain ⟨notnull, width, compiled⟩ := default
  have stored : SameCell info info.initialCell next
      ↔ SameStored info.type info.initialCell.value next.value := by
    simp [SameCell, notnull]
  rw [stored]
  clear stored
  obtain ⟨name, type, notnull', indexed, unique, length, held⟩ := info
  dsimp only at compiled
  obtain ⟨value, rfl, computed⟩ := compiled
  obtain rfl : notnull' = true := notnull
  cases type with
  | boolean => exact fits_iff computed (boolSet_value rfl sets)
  | short =>
      refine fits_iff computed (numberSet_value rfl (fun number same => ?_) sets)
      exact (beq_iff_eq.mp same) ▸ upheld.symm
  | int =>
      have is := numberSet_value rfl (fun _ same => beq_iff_eq.mp same) sets
      exact fits_iff computed ((congrFun Option.map_id_fun _).symm.trans is)
  | long =>
      have is := numberSet_value rfl (fun _ same => beq_iff_eq.mp same) sets
      exact fits_iff computed ((congrFun Option.map_id_fun _).symm.trans is)
  | wide =>
      have is := numberSet_value rfl (fun _ same => beq_iff_eq.mp same) sets
      exact fits_iff computed ((congrFun Option.map_id_fun _).symm.trans is)
  | mac => exact fits_iff computed (macSet_value rfl sets)
  | inet => exact fits_iff computed (inetSet_value rfl sets)
  | tclobj =>
      have is := tclobjSet_value rfl sets
      refine iff_false_intro fun same => ?_
      change none = next.value at same
      rw [is] at same
      cases same
  | char =>
      refine iff_true_intro ?_
      change _ = next.value
      exact ((charSet_value rfl sets).trans upheld).symm
  | varstring =>
      obtain ⟨textIs, lengthIs⟩ := varstringSet_value rfl sets
      obtain rfl := own rfl
      change (Option.map _ (Option.map _ _)) = _ at computed
      rw [reads.cquote classes] at computed
      obtain rfl := Option.some.inj computed
      change some _ = next.value.text ∧ text.length = next.value.length ↔ _
      rw [textIs, lengthIs, length_getString_iff]
      refine ⟨fun same => same.2, fun ascii => ⟨?_, ascii⟩⟩
      have plain := @cString_ascii graph text ascii []
      rw [List.append_nil] at plain
      rw [plain]
      exact congrArg some (List.append_nil _)
  | fixedstring =>
      have begins := fixedstringSet_value rfl getString_ne_zero sets
      have wide := fixedstringSet_width rfl upheld sets
      obtain rfl : text.length = length := width rfl
      change Option.map _ _ = _ at computed
      rw [reads.cquote classes] at computed
      obtain rfl := Option.some.inj computed
      have long := length_getString_ge text
      have is : (getString text).take text.length = next.value :=
        begins.eq_of_length (by rw [wide, List.length_take]; exact Nat.min_eq_left long)
      change strncpyZero _ _ = next.value ↔ CharsFit graph text.length text
      rw [← is]
      exact strncpyZero_iff classes (Nat.le_refl _) long
  | float => exact absurd rfl whole.1
  | double => exact absurd rfl whole.2
  | key => exact absurd rfl notKey

-----------------------------------------------------------------------------------------
-- The bundle of a shared table
-----------------------------------------------------------------------------------------

/-- The defaults of a bundle that keep their places: texts in ASCII without NULs, none of which goes
on with the octal escape in front of it.
-/
def BundleFits (defaults : List Text) : Prop :=
  ∀ default ∈ defaults, (∀ char ∈ default, char ≠ '\x00' ∧ char.toNat < 128)
    ∧ ∀ char, default.head? = some char → char.toNat < 48 ∨ 55 < char.toNat

/-- The bytes that the bundle is to have. -/
def bundleBytes (defaults : List Text) : CString :=
  0 :: defaults.flatMap fun default => getString default ++ [0]

theorem length_bundleBytes {defaults : List Text} (fits : BundleFits defaults)
    : (bundleBytes defaults).length = bundleLen defaults := by
  rw [bundleBytes, bundleLen, List.length_cons, List.length_flatMap, Nat.add_comm]
  congr 2
  refine List.map_congr_left fun default member => ?_
  rw [List.length_append, ← length_getString_iff.mpr (fits default member).1]
  rfl

/-- Whether a literal starts with a byte that is no octal digit. -/
def startsApart : CString → Bool
  | [] => false
  | first :: _ => !isOctalDigit first

/-- A character that is no octal digit is not written as one. -/
theorem cquote_head (classes : GraphClass graph) {char : Char} (low : char.toNat < 128)
    (other : char.toNat < 48 ∨ 55 < char.toNat)
    : ∃ first rest, sourceBytes (cquote graph '"' [char]) = first :: rest
      ∧ isOctalDigit first = false := by
  have same : cquote graph '"' [char] = cquote printed '"' [char] := by
    simp only [cquote, List.flatMap_singleton]
    split
    · simp only [List.flatMap_cons, List.flatMap_nil, quoteChar, classes.ascii char low,
        classes.ascii '\\' (by decide)]
    · simp only [List.flatMap_cons, List.flatMap_nil, quoteChar, classes.ascii char low]
  have checked : ∀ n : Fin 128, n.val < 48 ∨ 55 < n.val →
      startsApart (sourceBytes (cquote printed '"' [Char.ofNat n.val])) = true := by
    decide +kernel
  have here := checked ⟨char.toNat, low⟩ other
  rw [Char.ofNat_toNat, ← same] at here
  cases bytes : sourceBytes (cquote graph '"' [char]) with
  | nil =>
      rw [bytes] at here
      cases here
  | cons first rest =>
      rw [bytes] at here
      exact ⟨first, rest, rfl, (Bool.not_eq_true' _).mp here⟩

/-- The bundle is read as it is meant, by induction on the defaults. -/
theorem readLiteral_bundle (classes : GraphClass graph) {defaults : List Text}
    (fits : BundleFits defaults)
    : readLiteral 34 (sourceBytes (bundleText graph defaults)) = some (bundleBytes defaults) := by
  induction defaults with
  | nil => rfl
  | cons default defaults ih =>
      obtain ⟨ascii, starts⟩ := fits default List.mem_cons_self
      have others := ih fun other member => fits other (List.mem_cons_of_mem _ member)
      have apart : sourceBytes (bundleText graph (default :: defaults))
          = 92 :: 48 :: (sourceBytes (cquote graph '"' default)
            ++ sourceBytes (bundleText graph defaults)) := by
        simp only [bundleText, sourceBytes, List.flatMap_cons, List.flatMap_append,
          List.append_assoc, List.cons_append, List.nil_append]
        rfl
      have ends : ∀ next, (sourceBytes (cquote graph '"' default)
          ++ sourceBytes (bundleText graph defaults)).head? = some next →
          isOctalDigit next = false := by
        intro next head
        cases default with
        | nil =>
            obtain rfl := Option.some.inj head
            decide
        | cons char rest =>
            obtain ⟨first, bytes, written, noDigit⟩ :=
              cquote_head classes (ascii char List.mem_cons_self).2 (starts char rfl)
            have front : sourceBytes (cquote graph '"' (char :: rest))
                = first :: (bytes ++ sourceBytes (cquote graph '"' rest)) := by
              rw [← List.cons_append, ← written]
              simp [cquote, sourceBytes]
            rw [front] at head
            obtain rfl := Option.some.inj head
            exact noDigit
      have own : default.flatMap (literalBytes graph) = getString default :=
        List.flatMap_congr fun char member =>
          literalBytes_kept ⟨(ascii char member).1, .inl (ascii char member).2⟩
      rw [apart, readLiteral_octal_short (by decide) ends, readLiteral_cquote classes, others, own]
      simp [bundleBytes, octalByte]

/-- A varstring default is found at its place in a bundle that fits. -/
theorem defaultString_bundle (reads : compiler.ReadsLiterals) (classes : GraphClass graph)
    {before after : List Text} (beyond : CString) (fits : BundleFits (before ++ text :: after))
    : defaultString compiler graph text (.bundle before after beyond) = some (getString text) := by
  have compiled := reads _ _ (readLiteral_bundle classes fits)
  have fitsBefore : BundleFits before := fun default member =>
    fits default (List.mem_append_left _ member)
  have parts : bundleBytes (before ++ text :: after)
      = bundleBytes before ++ (getString text ++ bundleBytes after) := by
    simp [bundleBytes]
  rw [defaultString]
  rw [compiled, Option.map_some, ← length_bundleBytes fits, ← length_bundleBytes fitsBefore,
    List.take_left, parts, List.drop_left]
  have whole : cString (getString text ++ bundleBytes after) = getString text := by
    refine (List.takeWhile_append_of_pos fun byte member => ?_).trans (List.append_nil _)
    exact decide_eq_true fun zero => getString_ne_zero (zero ▸ member)
  rw [whole]

/-- In a bundle that fits, the default of a varstring is as if it were set. -/
theorem sameCell_bundle (reads : compiler.ReadsLiterals) (classes : GraphClass graph)
    {before after : List Text} {beyond : CString}
    (default : HasDefault compiler graph host (.bundle before after beyond) text info)
    (isString : info.type = .varstring) (fits : BundleFits (before ++ text :: after))
    {cell next : Cell info.type} {isNull : Bool}
    (sets : (cellSetType host info isNull info.type info.default cell (getString text)).leaves cell
      = some next)
    : SameCell info info.initialCell next := by
  obtain ⟨notnull, -, compiled⟩ := default
  obtain ⟨name, type, notnull', indexed, unique, length, held⟩ := info
  dsimp only at compiled
  obtain ⟨value, rfl, computed⟩ := compiled
  obtain rfl : notnull' = true := notnull
  obtain rfl : type = .varstring := isString
  obtain ⟨textIs, lengthIs⟩ := varstringSet_value rfl sets
  change Option.map _ _ = _ at computed
  rw [defaultString_bundle reads classes beyond fits] at computed
  obtain rfl := Option.some.inj computed
  have ascii := (fits text (List.mem_append_right _ List.mem_cons_self)).1
  refine ⟨rfl, ?_⟩
  change some _ = next.value.text ∧ text.length = next.value.length
  rw [textIs, lengthIs]
  exact ⟨rfl, length_getString_iff.mpr ascii⟩

-----------------------------------------------------------------------------------------
-- Rows that are created, and rows in which the default is set
-----------------------------------------------------------------------------------------

variable {creator : CreatorTable} {field : creator.Field} {ctl : IndexCtl} {id : RowId}

/-- A row in which a field is set to its default has the cell of a new row exactly where the default
fits, if its string is no part of a bundle. In a bundle that fits it has that cell, too.
-/
theorem setField_default_iff {table after : CTable creator} {row now : Row creator}
    (reads : compiler.ReadsLiterals) (classes : GraphClass graph)
    (default : HasDefault compiler graph host strings text (creator.fields field))
    (whole : creator.type field ≠ .float ∧ creator.type field ≠ .double)
    (notKey : field ≠ creator.keyField) (found : table.rows id = some row)
    (reached : Reached host (creator.fields field) (row.cells field))
    (sets : setField host ctl id field (getString text) table = .ok () after)
    (there : after.rows id = some now)
    : ((creator.type field = .varstring → strings = .constants) →
        (SameCell (creator.fields field) (creator.init.cells field) (now.cells field)
          ↔ DefaultFits compiler graph host text (creator.type field)))
      ∧ ∀ before behind beyond, strings = .bundle before behind beyond →
        creator.type field = .varstring → BundleFits (before ++ text :: behind) →
        SameCell (creator.fields field) (creator.init.cells field) (now.cells field) := by
  have leaves := wp_returns (setField_leaves notKey found) sets
  obtain ⟨same, stored, leaves⟩ := leaves
  obtain rfl : now = same := Option.some.inj (there.symm.trans stored)
  constructor
  · intro own
    have notKeyType : creator.type field ≠ .key := fun isKey =>
      notKey ((creator.keyField_iff field).mp isKey)
    exact sameCell_iff reads classes default own whole notKeyType reached leaves
  · intro before behind beyond bundled isString fits
    subst bundled
    exact sameCell_bundle reads classes default isString fits leaves

/-- A compiler of literals and of one-digit numbers. -/
def sampleCompiler : Compiler where
  string := readLiteral 34
  char text := (readLiteral 39 text).bind List.getLast?
  integer := digitValue
  double _ := none

/-- What is printed, of ASCII and of the letters behind it. -/
def sampleGraph (char : Char) : Bool := printed char || 161 ≤ char.toNat

theorem sampleGraph_class : GraphClass sampleGraph where
  ascii char low := by
    rw [sampleGraph, decide_eq_false (by omega : ¬ 161 ≤ char.toNat), Bool.or_false]
  letters char letter := by
    rw [sampleGraph, decide_eq_true (by omega : 161 ≤ char.toNat), Bool.or_true]

/-- The fields `k`, `s` and `_dirty`: a key, and a string with a default. -/
def defaultFields (text : Text) : Fin 3 → FieldInfo
  | 0 => { name := [107], type := .key, notnull := true, indexed := true, unique := false,
           length := 0, default := none }
  | 1 => { name := [115], type := .varstring, notnull := true, indexed := true, unique := false,
           length := 0,
           default := defaultValue sampleCompiler sampleGraph sampleHost .constants 0 text
             .varstring }
  | 2 => { name := [95, 100, 105, 114, 116, 121], type := .boolean, notnull := true,
           indexed := false, unique := false, length := 0, default := some false }

def defaultCreator (text : Text) : CreatorTable where
  nFields := 3
  fields := defaultFields text
  keyField := 0
  keyField_iff field := by fin_cases field <;> simp [defaultFields]
  keyField_notnull := rfl
  default_notnull field := by fin_cases field <;> simp [defaultFields]
  names_injective field other := by
    fin_cases field <;> fin_cases other <;> simp [defaultFields]
  dirtyField := 2
  dirtyField_boolean := rfl
  dirtyField_unindexed := rfl
  nullValue := []

/-- A table with one new row. -/
def defaultTable (text : Text) : CTable (defaultCreator text) :=
  (CTable.empty (defaultCreator text) false false).putRow 0 (defaultCreator text).init

/-- The recorded length after the default has been set in the new row. -/
def lengthAfter (text : Text) : Option Nat :=
  match setField sampleHost .normal 0 (1 : Fin 3) (getString text) (defaultTable text) with
  | .ok _ after => (after.rows 0).map fun now => (now.cells (1 : Fin 3)).value.length
  | .error _ _ => none

/-- The default `a` is as if it were set. -/
theorem setField_default_iff_ascii
    : ∃ (after : CTable (defaultCreator ['a'])) (now : Row (defaultCreator ['a'])),
        setField sampleHost .normal 0 (1 : Fin 3) (getString ['a']) (defaultTable ['a'])
          = .ok () after
        ∧ after.rows 0 = some now
        ∧ SameCell ((defaultCreator ['a']).fields (1 : Fin 3))
            ((defaultCreator ['a']).init.cells (1 : Fin 3)) (now.cells (1 : Fin 3)) := by
  have outcome : lengthAfter ['a'] = some 1 := by decide +kernel
  have apart : (1 : Fin 3) ≠ 0 := by decide
  rw [lengthAfter] at outcome
  cases ran : setField sampleHost .normal 0 (1 : Fin 3) (getString ['a']) (defaultTable ['a']) with
  | error stop after =>
      rw [ran] at outcome
      cases outcome
  | ok _ after =>
      rw [ran] at outcome
      obtain ⟨now, there, -⟩ := Option.map_eq_some_iff.mp outcome
      refine ⟨after, now, rfl, there, ?_⟩
      have default : HasDefault sampleCompiler sampleGraph sampleHost .constants ['a']
          ((defaultCreator ['a']).fields (1 : Fin 3)) :=
        { notnull := rfl
          width := by intro fixed; cases fixed
          compiled := ⟨_, rfl, rfl⟩ }
      have fits : DefaultFits sampleCompiler sampleGraph sampleHost ['a'] .varstring := by
        intro char member
        obtain rfl := List.mem_singleton.mp member
        decide
      exact ((setField_default_iff (fun _ _ read => read) sampleGraph_class default
        ⟨nofun, nofun⟩ apart rfl .created ran there).1 fun _ => rfl).mpr fits

/-- A default that is not in ASCII has another length when it is set. -/
theorem setField_default_accented
    : ¬ ∀ (text : Text) (after : CTable (defaultCreator text)) (now : Row (defaultCreator text)),
        setField sampleHost .normal 0 (1 : Fin 3) (getString text) (defaultTable text)
          = .ok () after →
        after.rows 0 = some now →
        SameCell ((defaultCreator text).fields (1 : Fin 3))
          ((defaultCreator text).init.cells (1 : Fin 3)) (now.cells (1 : Fin 3)) := by
  intro claim
  have outcome : lengthAfter ['é'] = some 2 := by decide +kernel
  rw [lengthAfter] at outcome
  cases ran : setField sampleHost .normal 0 (1 : Fin 3) (getString ['é']) (defaultTable ['é']) with
  | error stop after =>
      rw [ran] at outcome
      cases outcome
  | ok _ after =>
      rw [ran] at outcome
      obtain ⟨now, there, length⟩ := Option.map_eq_some_iff.mp outcome
      obtain ⟨-, -, same⟩ := claim ['é'] after now ran there
      rw [length] at same
      cases same

end SpeedTables.Defaults
