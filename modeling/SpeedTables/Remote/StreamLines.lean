import SpeedTables.Remote.Streaming

/-! The lines of a response: what the client reads of them, whatever it does with each. -/

namespace SpeedTables.Remote

open Lib (Text)

-----------------------------------------------------------------------------------------
-- The stream
-----------------------------------------------------------------------------------------

/-- What becomes of a character on its way: every line end is a newline. -/
def lineEnd (c : Char) : Char :=
  if c = '\r' then '\n' else c

theorem lineEnd_ne_return (c : Char) : lineEnd c ≠ '\r' := by
  unfold lineEnd
  split
  · decide
  · assumption

theorem lineEnd_newline (c : Char) : lineEnd c = '\n' ↔ isBreak c = true := by
  unfold lineEnd isBreak
  split <;> simp_all

theorem lineEnd_plain {c : Char} (plain : c ≠ '\r') : lineEnd c = c :=
  if_neg plain

/-- The translations of both sockets change each character for itself. -/
theorem translated_map (text : Text) : translated text = text.map lineEnd := by
  have whatever (saw : Bool) : (autoTranslate saw (crlf text)).1 = text.map lineEnd := by
    induction text generalizing saw with
    | nil => rfl
    | cons c text ih =>
        by_cases newline : c = '\n'
        · subst newline
          have shape : crlf ('\n' :: text) = '\r' :: '\n' :: crlf text := by simp [crlf]
          rw [shape]
          simp [autoTranslate, ih, lineEnd]
        · have shape : crlf (c :: text) = c :: crlf text := by simp [crlf, newline]
          rw [shape]
          by_cases isReturn : c = '\r'
          · subst isReturn
            simp [autoTranslate, ih, lineEnd]
          · simp [autoTranslate, ih, lineEnd, newline, isReturn]
  exact whatever false

theorem translated_append (before after : Text)
    : translated (before ++ after) = translated before ++ translated after := by
  simp only [translated_map, List.map_append]

theorem noReturn_translated (text : Text) : '\r' ∉ translated text := by
  rw [translated_map]
  intro member
  obtain ⟨c, -, same⟩ := List.mem_map.mp member
  exact lineEnd_ne_return c same

theorem translated_plain {text : Text} (plain : '\r' ∉ text) : translated text = text := by
  have same : ∀ c ∈ text, lineEnd c = id c := by
    intro c member
    exact lineEnd_plain fun isReturn => plain (isReturn ▸ member)
  rw [translated_map, List.map_congr_left same, List.map_id]

theorem joined_append (lines more : List Text)
    : joined (lines ++ more) = joined lines ++ joined more :=
  List.flatMap_append

theorem joined_cons (line : Text) (lines : List Text)
    : joined (line :: lines) = line ++ '\n' :: joined lines := by
  simp [joined]

/-- The line ends within lines are counted beside those between them. -/
theorem countP_joined {p : Char → Bool} (newline : p '\n' = true) (lines : List Text)
    : (joined lines).countP p = lines.length + (lines.map (List.countP p)).sum := by
  induction lines with
  | nil => rfl
  | cons line lines ih =>
      rw [joined_cons, List.countP_append, List.countP_cons_of_pos newline, ih, List.length_cons,
        List.map_cons, List.sum_cons]
      omega

/-- Lines without line ends are the only ones of their text. -/
theorem joined_unique {lines others : List Text} (whole : ∀ line ∈ lines, '\n' ∉ line)
    (whole' : ∀ line ∈ others, '\n' ∉ line) (same : joined lines = joined others)
    : lines = others := by
  induction lines generalizing others with
  | nil =>
      cases others with
      | nil => rfl
      | cons other others => simp [joined] at same
  | cons line lines ih =>
      cases others with
      | nil => simp [joined] at same
      | cons other others =>
          rw [joined_cons, joined_cons] at same
          obtain ⟨first, behind⟩ :=
            line_unique (whole line List.mem_cons_self) (whole' other List.mem_cons_self) same
          rw [first, ih (fun line member => whole line (List.mem_cons_of_mem _ member))
            (fun line member => whole' line (List.mem_cons_of_mem _ member)) behind]

/-- As many lines as were sent can only be those, and hold no line ends. -/
theorem joined_translated {lines others : List Text} (whole : ∀ line ∈ others, '\n' ∉ line)
    (many : lines.length = others.length) (same : translated (joined lines) = joined others)
    : lines = others ∧ ∀ line ∈ lines, ∀ c ∈ line, isBreak c = false := by
  have counted := congrArg (List.countP (· == '\n')) same
  have ends : (fun c => c == '\n') ∘ lineEnd = isBreak := by
    funext c
    rw [Function.comp_apply, Bool.eq_iff_iff, beq_iff_eq, lineEnd_newline]
  have none' : (others.map (List.countP (· == '\n'))).sum = 0 := by
    rw [List.sum_eq_zero_iff]
    intro count member
    obtain ⟨line, inside, rfl⟩ := List.mem_map.mp member
    rw [List.countP_eq_zero]
    intro c present
    simp only [beq_iff_eq]
    exact fun newline => whole line inside (newline ▸ present)
  rw [translated_map, List.countP_map, ends, countP_joined rfl, countP_joined rfl, none', many]
    at counted
  have unbroken : ∀ line ∈ lines, ∀ c ∈ line, isBreak c = false := by
    have zero : (lines.map (List.countP isBreak)).sum = 0 := by omega
    rw [List.sum_eq_zero_iff] at zero
    intro line member c present
    have count := zero _ (List.mem_map_of_mem member)
    rw [List.countP_eq_zero] at count
    simpa using count c present
  refine ⟨joined_unique ?_ whole ?_, unbroken⟩
  · intro line member newline
    exact (not_isBreak (unbroken line member _ newline)).1 rfl
  · rw [← same, translated_plain]
    intro member
    obtain ⟨line, inside, present⟩ := List.mem_flatMap.mp member
    rcases List.mem_append.mp present with present | present
    · exact (not_isBreak (unbroken line inside _ present)).2 rfl
    · exact absurd (List.mem_singleton.mp present) (by decide)

-----------------------------------------------------------------------------------------
-- Reading
-----------------------------------------------------------------------------------------

theorem getsLine_some {text line rest : Text}
    : getsLine text = some (line, rest) ↔ text = line ++ '\n' :: rest ∧ '\n' ∉ line := by
  constructor
  · intro read
    have whole := @List.takeWhile_append_dropWhile _ (· ≠ '\n') text
    unfold getsLine at read
    split at read
    · cases read
    next c behind dropped =>
      cases read
      have newline : c = '\n' := by
        have first := List.head?_dropWhile_not (· ≠ '\n') text
        rw [dropped] at first
        simpa using first
      rw [dropped, newline] at whole
      refine ⟨whole.symm, fun member => ?_⟩
      simpa using List.mem_takeWhile_imp member
  · rintro ⟨rfl, whole⟩
    obtain ⟨taken, dropped⟩ := takeWhile_line rest whole
    rw [getsLine, dropped]
    exact congrArg (fun line => some (line, rest)) taken

/-- The lines that a loop accepts come first in the stream, and one that it does not accept next. -/
theorem consume_some {take : List Text → Text → Taken} {fuel : Nat} {accepted all : List Text}
    {text rest : Text} {failed : Bool}
    (consumed : consume take fuel accepted text = some (all, failed, rest))
    : ∃ lines last, all = accepted ++ lines ∧ text = joined (lines ++ [last]) ++ rest
        ∧ (∀ line ∈ lines ++ [last], '\n' ∉ line)
        ∧ (∀ before line after, lines = before ++ line :: after →
            take (accepted ++ before) line = .next)
        ∧ take all last = if failed then .fail else .stop := by
  induction fuel generalizing accepted text with
  | zero => cases consumed
  | succ fuel ih =>
      rw [consume] at consumed
      split at consumed
      · cases consumed
      next line behind read =>
        obtain ⟨rfl, whole⟩ := getsLine_some.mp read
        have single : ∀ other ∈ [line], '\n' ∉ other := by simpa using whole
        split at consumed
        next goes =>
          obtain ⟨lines, last, rfl, rfl, wholes, nexts, ended⟩ := ih consumed
          refine ⟨line :: lines, last, by simp, by simp [joined], ?_, ?_, ended⟩
          · intro other member
            rcases List.mem_cons.mp member with rfl | member
            · exact whole
            · exact wholes other member
          · intro before other after split
            rcases before with _ | ⟨first, before⟩
            · obtain rfl : line = other := (List.cons.inj split).1
              rw [List.append_nil]
              exact goes
            · obtain rfl : line = first := (List.cons.inj split).1
              have next := nexts before other after (List.cons.inj split).2
              rwa [List.append_assoc] at next
        next stops =>
          cases consumed
          exact ⟨[], line, by simp, by simp [joined], single, by simp, stops⟩
        next fails =>
          cases consumed
          exact ⟨[], line, by simp, by simp [joined], single, by simp, fails⟩

/-- A loop that accepts some lines and stops at the next reads just these. -/
theorem consume_stop {take : List Text → Text → Taken} {fuel : Nat} {accepted lines : List Text}
    {last rest : Text} (enough : lines.length < fuel)
    (whole : ∀ line ∈ lines ++ [last], '\n' ∉ line)
    (nexts : ∀ before line after, lines = before ++ line :: after →
      take (accepted ++ before) line = .next)
    (stops : take (accepted ++ lines) last = .stop)
    : consume take fuel accepted (joined (lines ++ [last]) ++ rest)
        = some (accepted ++ lines, false, rest) := by
  induction lines generalizing accepted fuel with
  | nil =>
      obtain ⟨fuel, rfl⟩ := Nat.exists_eq_add_one_of_ne_zero (Nat.ne_zero_of_lt enough)
      have read : getsLine (joined ([] ++ [last]) ++ rest) = some (last, rest) :=
        getsLine_some.mpr ⟨by simp [joined], whole last (by simp)⟩
      rw [List.append_nil] at stops ⊢
      rw [consume, read]
      simp only [stops]
  | cons line lines ih =>
      obtain ⟨fuel, rfl⟩ := Nat.exists_eq_add_one_of_ne_zero (Nat.ne_zero_of_lt enough)
      have read : getsLine (joined (line :: lines ++ [last]) ++ rest)
          = some (line, joined (lines ++ [last]) ++ rest) :=
        getsLine_some.mpr ⟨by simp [joined], whole line (by simp)⟩
      have goes := nexts [] line lines rfl
      rw [List.append_nil] at goes
      rw [consume, read]
      simp only [goes]
      rw [ih (Nat.lt_of_succ_lt_succ enough)
        (fun other member => whole other (List.mem_cons_of_mem _ member)), List.append_assoc]
      · rfl
      · intro before other after split
        rw [List.append_assoc]
        exact nexts (line :: before) other after (by rw [split]; rfl)
      · rw [List.append_assoc]
        exact stops

-----------------------------------------------------------------------------------------
-- The final response
-----------------------------------------------------------------------------------------

/-- A response never begins with a hash. -/
theorem Reply.line_head (reply : Reply)
    : ∃ c rest, reply.line = c :: rest ∧ c ≠ '#' ∧ c ≠ '\n' := by
  have letter (first : Text) (head : Char) (tail : Text) (texts : List Text)
      (shape : Lib.TclList.formatElement true first = head :: tail)
      (other : head ≠ '#' ∧ head ≠ '\n')
      : ∃ c rest, Lib.TclList.format (first :: texts) = c :: rest ∧ c ≠ '#' ∧ c ≠ '\n' := by
    refine ⟨head, tail ++ Lib.TclList.formatRest texts, ?_, other⟩
    rw [Lib.TclList.format, shape, List.cons_append]
  cases reply with
  | ok result => exact letter ['k'] 'k' [] [result] (by decide) (by decide)
  | error message info code =>
      exact letter ['e'] 'e' [] [message, info, code] (by decide) (by decide)

theorem digits_plain (count : Nat)
    : ∀ c ∈ Nat.toDigits 10 count, Lib.TclList.isSpace c = false := by
  intro c member
  have isDigit := Nat.isDigit_of_mem_toDigits (by decide) (by decide) member
  by_contra space
  rw [Bool.not_eq_false, Lib.TclList.isSpace] at space
  simp only [Bool.or_eq_true, beq_iff_eq] at space
  rcases space with ((((rfl | rfl) | rfl) | rfl) | rfl) | rfl <;> exact absurd isDigit (by decide)

theorem trim_digits (count : Nat) : trim (' ' :: Nat.toDigits 10 count) = Nat.toDigits 10 count := by
  have keeps {text : Text} (plain : ∀ c ∈ text, Lib.TclList.isSpace c = false)
      : text.dropWhile Lib.TclList.isSpace = text := by
    cases text with
    | nil => rfl
    | cons c rest => exact List.dropWhile_cons_of_neg (by simp [plain c List.mem_cons_self])
  have plain := digits_plain count
  rw [trim, List.dropWhile_cons_of_pos (by rfl), keeps plain,
    keeps (fun c member => plain c (List.mem_reverse.mp member)), List.reverse_reverse]

/-- What is read as a response stands in the stream. -/
theorem getResponse_mem {text line left : Text} (read : getResponse text = some (line, left))
    : ∀ c ∈ line, c ∈ text := by
  have within {first behind : Text}
      (found : getsLine (text.dropWhile (· = '\n')) = some (first, behind))
      : (∀ c ∈ first, c ∈ text) ∧ ∀ c ∈ behind, c ∈ text := by
    obtain ⟨split, -⟩ := getsLine_some.mp found
    have inside : ∀ c ∈ text.dropWhile (· = '\n'), c ∈ text :=
      fun c member => (List.dropWhile_sublist _).subset member
    rw [split] at inside
    exact ⟨fun c member => inside c (by simp [member]), fun c member => inside c (by simp [member])⟩
  unfold getResponse at read
  split at read
  · cases read
  next header behind found =>
    dsimp only at read
    split at read
    · cases read
    · cases read
      exact fun c member => (within found).2 c (List.mem_of_mem_take member)
  next first behind _ found =>
    cases read
    exact (within found).1

/-- A response that does not begin with a hash is read whole unless a carriage return is in it. -/
theorem getResponse_remoteSend {response : Text}
    (head : ∃ c rest, response = c :: rest ∧ c ≠ '#' ∧ c ≠ '\n')
    : getResponse (translated (remoteSend response)) = some (arrived response, [])
        ↔ '\r' ∉ response := by
  constructor
  · intro read isReturn
    have member : '\r' ∈ arrived response := by
      unfold arrived
      split
      · exact List.mem_append_left _ isReturn
      · exact isReturn
    exact noReturn_translated _ (getResponse_mem read _ member)
  · intro plain
    obtain ⟨first, tail, shape, noHash, noNewline⟩ := head
    have digits (count : Nat) : ∀ c ∈ Nat.toDigits 10 count, c ≠ '\n' ∧ c ≠ '\r' := by
      intro c member
      have word := digits_plain count c member
      refine ⟨?_, ?_⟩ <;>
      · rintro rfl
        cases word
    by_cases announced : 8192 < response.length ∨ '\n' ∈ response
    · let count := response.length + 1
      have sent : remoteSend response
          = ('#' :: ' ' :: Nat.toDigits 10 count) ++ '\n' :: (response ++ ['\n']) := by
        simp [remoteSend, announced, count]
      have noReturn : '\r' ∉ remoteSend response := by
        rw [sent]
        simp only [List.mem_append, List.mem_cons, List.not_mem_nil, or_false, not_or]
        refine ⟨⟨by decide, by decide, fun member => (digits count _ member).2 rfl⟩, by decide, plain,
          by decide⟩
      have read : getsLine ((remoteSend response).dropWhile (· = '\n'))
          = some ('#' :: ' ' :: Nat.toDigits 10 count, response ++ ['\n']) := by
        rw [getsLine_some, sent]
        refine ⟨List.dropWhile_cons_of_neg (by decide), ?_⟩
        simp only [List.mem_cons, not_or]
        exact ⟨by decide, by decide, fun member => (digits count _ member).1 rfl⟩
      have length : (response ++ ['\n']).length = count := by simp [count]
      rw [translated_plain noReturn, getResponse, read]
      simp only [trim_digits, Nat.ofDigitChars_ten_toDigits]
      rw [if_neg (by omega), ← length, List.take_length, List.drop_length, arrived, if_pos announced]
    · have sent : remoteSend response = response ++ ['\n'] := by
        simp [remoteSend, announced]
      have whole : '\n' ∉ response := fun newline => announced (.inr newline)
      have noReturn : '\r' ∉ remoteSend response := by
        rw [sent]
        simp only [List.mem_append, List.mem_cons, List.not_mem_nil, or_false, not_or]
        exact ⟨plain, by decide⟩
      have read : getsLine ((remoteSend response).dropWhile (· = '\n')) = some (response, []) := by
        rw [getsLine_some, sent, shape, List.cons_append]
        exact ⟨List.dropWhile_cons_of_neg (by simpa using noNewline), shape ▸ whole⟩
      rw [translated_plain noReturn, getResponse, read, arrived, if_neg announced]
      split
      · next same => cases same
      next header behind same =>
        have first' : response = '#' :: header := (Prod.mk.inj (Option.some.inj same)).1
        rw [shape] at first'
        exact absurd (List.cons.inj first').1 noHash
      next line behind _ same =>
        cases same
        rfl

/-- The final response is read whole unless a carriage return is in it. -/
theorem getResponse_send (reply : Reply)
    : getResponse (translated (remoteSend reply.line)) = some (arrived reply.line, [])
        ↔ '\r' ∉ reply.line :=
  getResponse_remoteSend reply.line_head

-----------------------------------------------------------------------------------------
-- The response
-----------------------------------------------------------------------------------------

namespace Exchange

variable (exchange : Exchange) (ncgi : Ncgi)

/-- The loop accepts each of some lines behind those before it. -/
def Accepts (lines : List Text) : Prop :=
  ∀ before line after, lines = before ++ line :: after → exchange.take before line = .next

/-- As many lines were accepted as were written. -/
theorem delivered_length {accepted : List Text}
    (same : exchange.delivered ncgi accepted = exchange.expected)
    : accepted.length = exchange.lines.length := by
  rcases mode : exchange.mode with _ | action | table
  · simp only [delivered, expected, mode, Delivered.written.injEq] at same
    rw [same]
    simp [lines]
  · rcases names : exchange.names with _ | names
    · have none' := exchange.headed (by rw [mode]; rfl) names
      rcases accepted with _ | ⟨header, accepted⟩
      · simp [lines, titles, names, none']
      · simp [delivered, expected, mode, names] at same
    · rcases accepted with _ | ⟨header, accepted⟩
      · simp [delivered, expected, mode, names] at same
      · simp only [delivered, expected, mode, names, Option.map_some, Delivered.evaluated.injEq,
          Option.some.injEq] at same
        have many := congrArg List.length same
        simpa [lines, titles, names] using many
  · rcases names : exchange.names with _ | names
    · have none' := exchange.headed (by rw [mode]; rfl) names
      rcases accepted with _ | ⟨header, accepted⟩
      · simp [lines, titles, names, none']
      · simp [delivered, expected, mode, names] at same
    · rcases accepted with _ | ⟨header, accepted⟩
      · simp [delivered, expected, mode, names] at same
      · simp only [delivered, expected, mode, names, Option.map_some, Delivered.stored.injEq,
          Option.some.injEq, Prod.mk.injEq] at same
        have many := congrArg List.length same.2
        simpa [lines, titles, names] using many

/-- A response is decoded faithfully when its lines are, one by one. -/
theorem faithful_iff_lines
    : exchange.Faithful ncgi
        ↔ '\r' ∉ exchange.reply.line
          ∧ (∀ line ∈ exchange.lines, ∀ c ∈ line, isBreak c = false)
          ∧ exchange.Accepts exchange.lines ∧ exchange.take exchange.lines marker = .stop
          ∧ exchange.delivered ncgi exchange.lines = exchange.expected := by
  have markerPlain : ∀ c ∈ marker, isBreak c = false := by simp [marker, isBreak]
  rw [Faithful, receive, sent, translated_append]
  constructor
  · intro received
    split at received
    · cases received
    · simp at received
    next accepted rest consumed =>
      obtain ⟨⟨line, left⟩, read, same⟩ := Option.map_eq_some_iff.mp received
      simp only [Outcome.mk.injEq, Option.some.injEq] at same
      obtain ⟨delivers, rfl, rfl, rfl⟩ := same
      obtain ⟨others, last, rfl, text, whole, nexts, ended⟩ := consume_some consumed
      have many := exchange.delivered_length ncgi delivers
      have stream := List.append_cancel_right text
      have both : (exchange.lines ++ [marker]).length = (accepted ++ [last]).length := by
        simpa using many.symm
      obtain ⟨lists, unbroken⟩ := joined_translated whole both stream
      obtain ⟨rfl, final⟩ := List.append_inj lists (by simpa using many.symm)
      obtain rfl := List.singleton_inj.mp final
      refine ⟨(getResponse_send exchange.reply).mp read, ?_, nexts, ended, delivers⟩
      exact fun line member => unbroken line (List.mem_append_left _ member)
  · rintro ⟨plain, unbroken, nexts, stops, delivers⟩
    have all : ∀ line ∈ exchange.lines ++ [marker], ∀ c ∈ line, isBreak c = false := by
      intro line member
      rcases List.mem_append.mp member with member | member
      · exact unbroken line member
      · rw [List.mem_singleton.mp member]
        exact markerPlain
    have noReturn : '\r' ∉ joined (exchange.lines ++ [marker]) := by
      intro member
      obtain ⟨line, inside, present⟩ := List.mem_flatMap.mp member
      rcases List.mem_append.mp present with present | present
      · exact (not_isBreak (all line inside _ present)).2 rfl
      · exact absurd (List.mem_singleton.mp present) (by decide)
    have whole : ∀ line ∈ exchange.lines ++ [marker], '\n' ∉ line :=
      fun line member newline => (not_isBreak (all line member _ newline)).1 rfl
    have enough : exchange.lines.length
        < (joined (exchange.lines ++ [marker])
            ++ translated (remoteSend exchange.reply.line)).length + 1 := by
      have most := length_le_joined (exchange.lines ++ [marker])
      simp only [List.length_append, List.length_singleton] at most ⊢
      omega
    have consumed := @consume_stop exchange.take _ [] exchange.lines marker
      (translated (remoteSend exchange.reply.line)) enough whole nexts stops
    rw [translated_plain noReturn, consumed]
    simp [(getResponse_send exchange.reply).mpr plain, delivers]

end Exchange

end SpeedTables.Remote
