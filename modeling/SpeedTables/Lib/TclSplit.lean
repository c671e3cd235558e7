import SpeedTables.Lib.TclString

/-! `split` at the characters of a set, and `foreach` over two lists side by side. -/

namespace SpeedTables.Lib

-----------------------------------------------------------------------------------------
-- Splitting
-----------------------------------------------------------------------------------------

/-- `split` at any of the characters. Without characters it takes the text apart. -/
def splitAny (separators text : Text) : List Text :=
  if text = [] then []
  else if separators = [] then text.map ([·])
  else text.splitOnP (fun c => separators.contains c)

variable {α β : Type} {separators text : Text}

/-- A list is split once at each place, by induction on it. -/
theorem length_splitOnP (splits : α → Bool) (list : List α)
    : (list.splitOnP splits).length = list.countP splits + 1 := by
  induction list with
  | nil => rfl
  | cons head tail ih =>
      rw [List.splitOnP_cons_eq_if_modifyHead, List.countP_cons]
      split
      · rw [List.length_cons, ih]
      · rw [List.length_modifyHead, ih]

theorem length_splitAny (nonempty : text ≠ []) (present : separators ≠ [])
    : (splitAny separators text).length
      = text.countP (fun c => separators.contains c) + 1 := by
  rw [splitAny, if_neg nonempty, if_neg present, length_splitOnP]

theorem splitAny_alone (nonempty : text ≠ []) (present : separators ≠ [])
    (absent : ∀ c ∈ text, c ∉ separators)
    : splitAny separators text = [text] := by
  rw [splitAny, if_neg nonempty, if_neg present]
  exact List.splitOnP_eq_singleton fun c inside => by simpa using absent c inside

/-- The rounds of `foreach` over two lists. The shorter list goes on with empty texts. -/
def zipPadded : List Text → List Text → List (Text × Text)
  | [], rights => rights.map (([], ·))
  | left :: lefts, rights => (left, rights.headD []) :: zipPadded lefts rights.tail

variable {lefts rights : List Text}

/-- The rounds of `foreach` over three lists. -/
def zipPadded3 : List Text → List Text → List Text → List (Text × Text × Text)
  | [], seconds, thirds => (zipPadded seconds thirds).map (([], ·))
  | first :: firsts, seconds, thirds =>
      (first, seconds.headD [], thirds.headD []) :: zipPadded3 firsts seconds.tail thirds.tail

/-- The right side of each round is of the list, or padding. -/
theorem zipPadded_right {pair : Text × Text} (inside : pair ∈ zipPadded lefts rights)
    : pair.2 ∈ rights ∨ pair.2 = [] := by
  induction lefts generalizing rights with
  | nil =>
      obtain ⟨right, member, rfl⟩ := List.mem_map.mp inside
      exact .inl member
  | cons left lefts ih =>
      cases rights with
      | nil =>
          obtain rfl | more := List.mem_cons.mp inside
          · exact .inr rfl
          · exact ih more
      | cons right rights =>
          obtain rfl | more := List.mem_cons.mp inside
          · exact .inl List.mem_cons_self
          · exact (ih more).imp (List.mem_cons_of_mem right) id

/-- A right side that is never empty is not padded. -/
theorem length_le_of_zipPadded (named : ∀ pair ∈ zipPadded lefts rights, pair.2 ≠ [])
    : lefts.length ≤ rights.length := by
  induction lefts generalizing rights with
  | nil => exact Nat.zero_le _
  | cons left lefts ih =>
      cases rights with
      | nil => exact absurd rfl (named (left, []) List.mem_cons_self)
      | cons right rights =>
          exact Nat.succ_le_succ (ih fun pair inside => named pair (List.mem_cons_of_mem _ inside))

variable {firsts seconds thirds : List Text}

theorem zipPadded3_third {round : Text × Text × Text}
    (inside : round ∈ zipPadded3 firsts seconds thirds)
    : round.2.2 ∈ thirds ∨ round.2.2 = [] := by
  induction firsts generalizing seconds thirds with
  | nil =>
      obtain ⟨pair, member, rfl⟩ := List.mem_map.mp inside
      exact zipPadded_right member
  | cons first firsts ih =>
      cases thirds with
      | nil =>
          obtain rfl | more := List.mem_cons.mp inside
          · exact .inr rfl
          · exact ih more
      | cons third thirds =>
          obtain rfl | more := List.mem_cons.mp inside
          · exact .inl List.mem_cons_self
          · exact (ih more).imp (List.mem_cons_of_mem third) id

/-- A third list without padding is the longest. -/
theorem length_le_of_zipPadded3
    (named : ∀ round ∈ zipPadded3 firsts seconds thirds, round.2.2 ≠ [])
    : firsts.length ≤ thirds.length ∧ seconds.length ≤ thirds.length := by
  induction firsts generalizing seconds thirds with
  | nil =>
      refine ⟨Nat.zero_le _, length_le_of_zipPadded fun pair inside => ?_⟩
      exact named ([], pair) (List.mem_map_of_mem inside)
  | cons first firsts ih =>
      cases thirds with
      | nil => exact absurd rfl (named (first, seconds.headD [], []) List.mem_cons_self)
      | cons third thirds =>
          have rest : firsts.length ≤ thirds.length ∧ seconds.tail.length ≤ thirds.length :=
            ih fun round inside => named round (List.mem_cons_of_mem _ inside)
          rw [List.length_tail] at rest
          simp only [List.length_cons]
          omega

/-- A single third text has one round. -/
theorem zipPadded3_single (third : Text) (short : firsts.length ≤ 1) (same : seconds.length ≤ 1)
    : zipPadded3 firsts seconds [third] = [(firsts.headD [], seconds.headD [], third)] := by
  match firsts, seconds, short, same with
  | [], [], _, _ => rfl
  | [], [second], _, _ => rfl
  | [first], [], _, _ => rfl
  | [first], [second], _, _ => rfl

/-- A text that is not split into more is its only part, or has none. -/
theorem splitAny_headD (short : (splitAny separators text).length ≤ 1)
    : (splitAny separators text).headD [] = text := by
  by_cases nonempty : text = []
  · rw [splitAny, if_pos nonempty, nonempty]
    rfl
  · by_cases present : separators = []
    · rw [splitAny, if_neg nonempty, if_pos present] at short ⊢
      match text, nonempty, short with
      | [c], _, _ => rfl
      | c :: d :: rest, _, short => simp at short
    · have absent : ∀ c ∈ text, c ∉ separators := by
        rw [length_splitAny nonempty present] at short
        have nothing : text.countP (fun c => separators.contains c) = 0 := by omega
        intro c inside
        simpa using List.countP_eq_zero.mp nothing c inside
      rw [splitAny_alone nonempty present absent]
      rfl

end SpeedTables.Lib
