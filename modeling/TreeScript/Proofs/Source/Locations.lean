import Mathlib.Data.Prod.Lex
import TreeScript.Proofs.Text.Blanks
import TreeScript.Source.Span

/-!
# Locations

The line and the column that are shown for a byte offset. An offset within a character is backed up
to where the character begins, which takes three steps at most and never leads out of the text.
The place that is reached has its line feeds and its last line before it. From one place to a later
one the locations go forward, first by line and then by column, so that a location names one place.
-/
namespace TreeScript

namespace Position

variable {source before after : String} {c : Char} {offset offset' reached : Nat}

/-- The bytes before the offset are those of some first characters of the text. -/
def IsBoundary (source : String) (offset : Nat) : Prop :=
  ∃ before after, source = before ++ after ∧ before.utf8ByteSize = offset

theorem isValid_iff_isBoundary :
    String.Pos.Raw.IsValid source ⟨offset⟩ ↔ IsBoundary source offset := by
  rw [String.Pos.Raw.isValid_iff_exists_append]
  constructor
  · rintro ⟨before, after, text, h⟩
    exact ⟨before, after, text, (congrArg String.Pos.Raw.byteIdx h).symm⟩
  · rintro ⟨before, after, text, rfl⟩
    exact ⟨before, after, text, rfl⟩

theorem isBoundary_zero : IsBoundary source 0 := ⟨"", source, by simp, by simp⟩

theorem IsBoundary.le (here : IsBoundary source offset) : offset ≤ source.utf8ByteSize := by
  obtain ⟨before, after, rfl, rfl⟩ := here
  rw [String.utf8ByteSize_append]
  omega

/-- The search steps back from one offset to another. It stops at a boundary and passes none, and
where it steps back there is a byte to go back by. -/
inductive StepsBack (source : String) : Nat → Nat → Prop
  | stop {offset : Nat} : IsBoundary source offset → StepsBack source offset offset
  | step {offset reached : Nat} : ¬ IsBoundary source (offset + 1) →
      StepsBack source offset reached → StepsBack source (offset + 1) reached

/-- The search ends, at whatever offset it begins. -/
theorem stepsBack_boundary (source : String) (offset : Nat) :
    StepsBack source offset (boundary source offset).offset.byteIdx := by
  fun_induction boundary source offset with
  | case1 offset here => exact .stop (isValid_iff_isBoundary.mp here)
  | case2 offset here ih =>
    rw [isValid_iff_isBoundary] at here
    cases offset with
    | zero => exact absurd isBoundary_zero here
    | succ offset => exact .step here ih

namespace StepsBack

theorem le (steps : StepsBack source offset reached) : reached ≤ offset := by
  induction steps with
  | stop => rfl
  | step _ _ ih => omega

theorem isBoundary (steps : StepsBack source offset reached) : IsBoundary source reached := by
  induction steps with
  | stop here => exact here
  | step _ _ ih => exact ih

theorem passes (steps : StepsBack source offset reached) (low : reached < offset')
    (high : offset' ≤ offset) : ¬ IsBoundary source offset' := by
  induction steps with
  | stop => omega
  | @step offset _ passed _ ih =>
    by_cases first : offset' = offset + 1
    · rwa [first]
    · exact ih low (by omega)

/-- The search reaches the nearest boundary, and no other. -/
theorem reached_eq (steps : StepsBack source offset reached) (nearest : IsBoundary source offset')
    (high : offset' ≤ offset) (none : ∀ o, offset' < o → o ≤ offset → ¬ IsBoundary source o) :
    reached = offset' := by
  have notBelow : ¬ reached < offset' := fun low => steps.passes low high nearest
  have notAbove : ¬ offset' < reached := fun low => none reached low steps.le steps.isBoundary
  omega

end StepsBack

/-- From a boundary there is no step back. -/
theorem IsBoundary.reached_eq (here : IsBoundary source offset)
    (steps : StepsBack source offset reached) : reached = offset :=
  steps.reached_eq here le_rfl fun o low high => by omega

/-- The offset is that of a byte of the character `c`. -/
structure OnCharacter (source : String) (offset : Nat) (before : String) (c : Char)
    (after : String) : Prop where
  text : source = before ++ String.singleton c ++ after
  fromFirst : before.utf8ByteSize ≤ offset
  toLast : offset < before.utf8ByteSize + c.utf8Size

namespace OnCharacter

theorem begins (on : OnCharacter source offset before c after) :
    IsBoundary source before.utf8ByteSize :=
  ⟨before, String.singleton c ++ after, by rw [on.text, String.append_assoc], rfl⟩

theorem ends (on : OnCharacter source offset before c after) :
    IsBoundary source (before.utf8ByteSize + c.utf8Size) :=
  ⟨before ++ String.singleton c, after, on.text, by simp⟩

/-- No boundary lies within a character. -/
theorem not_isBoundary (on : OnCharacter source offset before c after)
    (inner : before.utf8ByteSize < offset) : ¬ IsBoundary source offset := by
  have last := on.toLast
  rw [← isValid_iff_isBoundary, on.text, String.append_assoc, String.Pos.Raw.isValid_append,
    String.Pos.Raw.isValid_append, String.Pos.Raw.isValid_singleton]
  rintro (inBefore | ⟨-, atEnd | ⟨inAfter, -⟩⟩)
  · have := inBefore.le_utf8ByteSize
    simp only at this
    omega
  · simp only [String.Pos.Raw.ext_iff, String.Pos.Raw.byteIdx_sub_string,
      String.Pos.Raw.byteIdx_zero] at atEnd
    omega
  · simp only [String.Pos.Raw.le_iff, String.Pos.Raw.byteIdx_sub_string, String.byteIdx_rawEndPos,
      String.utf8ByteSize_singleton] at inAfter
    omega

theorem lt_size (on : OnCharacter source offset before c after) : offset < source.utf8ByteSize :=
  on.toLast.trans_le on.ends.le

/-- From within a character the search leads to where it begins. -/
theorem reached_eq (on : OnCharacter source offset before c after)
    (steps : StepsBack source offset reached) : reached = before.utf8ByteSize := by
  refine steps.reached_eq on.begins on.fromFirst fun o low high => ?_
  have last := on.toLast
  have there : OnCharacter source o before c after := ⟨on.text, by omega, by omega⟩
  exact there.not_isBoundary low

end OnCharacter

/-- No character has more than four bytes, so the search makes at most three steps. -/
theorem StepsBack.lt_add_four (steps : StepsBack source offset reached)
    (inside : offset ≤ source.utf8ByteSize) : offset < reached + 4 := by
  obtain ⟨before, after, rfl, rfl⟩ := steps.isBoundary
  by_cases last : after = ""
  · have := steps.le
    simp only [last, String.append_empty] at inside
    omega
  · obtain ⟨c, rest, h⟩ := List.exists_cons_of_ne_nil (mt String.toList_eq_nil_iff.mp last)
    have text : before ++ after = before ++ String.singleton c ++ String.ofList rest := by
      rw [← String.toList_inj]
      simp [h]
    have some := c.utf8Size_pos
    have short := c.utf8Size_le_four
    have on : OnCharacter (before ++ after) before.utf8ByteSize before c (String.ofList rest) :=
      ⟨text, le_rfl, by omega⟩
    have next : ¬ before.utf8ByteSize + c.utf8Size ≤ offset := fun high =>
      steps.passes (by omega) high on.ends
    omega

/-- The characters of a text that follow its last line feed. -/
structure LastLine (text last : List Char) : Prop where
  follows : ∃ lines, text = lines ++ last ∧ ∀ c ∈ lines.getLast?, c = '\n'
  free : '\n' ∉ last

/-- The position is that just behind a text: one line more than it has line feeds, one column more
than it has characters on its last line. -/
structure IsBehind (before : List Char) (p : Position) : Prop where
  line : p.line = before.count '\n' + 1
  column : ∃ last, LastLine before last ∧ p.column = last.length + 1

variable {text last last' more : List Char} {p q : Position}

namespace LastLine

theorem eq_rtakeWhile (is : LastLine text last) : last = text.rtakeWhile (· ≠ '\n') := by
  obtain ⟨lines, rfl, ends⟩ := is.follows
  have feeds : (lines ++ last).rdropWhile (· ≠ '\n') = lines :=
    Text.rdropWhile_append_stop (fun c mem => by simpa using ne_of_mem_of_not_mem mem is.free)
      fun c final => by simpa using ends c final
  have whole : lines ++ last = lines ++ (lines ++ last).rtakeWhile (· ≠ '\n') := calc lines ++ last
    _ = (lines ++ last).rdropWhile (· ≠ '\n') ++ (lines ++ last).rtakeWhile (· ≠ '\n') :=
      List.rdropWhile_append_rtakeWhile.symm
    _ = lines ++ (lines ++ last).rtakeWhile (· ≠ '\n') := by rw [feeds]
  exact List.append_cancel_left whole

/-- Characters without a line feed among them go onto the last line. -/
theorem append (is : LastLine text last) (free : '\n' ∉ more) :
    LastLine (text ++ more) (last ++ more) where
  follows := by
    obtain ⟨lines, rfl, ends⟩ := is.follows
    exact ⟨lines, List.append_assoc .., ends⟩
  free := by simp [is.free, free]

end LastLine

theorem isBehind_behind (text : List Char) : IsBehind text (behind text) where
  line := rfl
  column := by
    refine ⟨text.rtakeWhile (· ≠ '\n'), ⟨⟨text.rdropWhile (· ≠ '\n'), ?_, ?_⟩, ?_⟩, ?_⟩
    · exact List.rdropWhile_append_rtakeWhile.symm
    · intro c final
      obtain ⟨some, rfl⟩ := List.mem_getLast?_eq_getLast final
      simpa using List.rdropWhile_last_not _ _ some
    · intro feed
      simpa using List.mem_rtakeWhile_imp feed
    · simp [behind, List.rtakeWhile]

/-- The place of a position in reading order: by line, then by column. -/
def inOrder (p : Position) : Nat ×ₗ Nat := toLex (p.line, p.column)

theorem inOrder_lt : p.inOrder < q.inOrder ↔
    p.line < q.line ∨ p.line = q.line ∧ p.column < q.column := Prod.Lex.toLex_lt_toLex

/-- The position behind a longer text comes later: on a later line if what is added has a line
feed, and further on the same line if it has none. -/
theorem IsBehind.lt (hp : IsBehind text p) (hq : IsBehind (text ++ more) q) (some : more ≠ []) :
    p.inOrder < q.inOrder := by
  rw [inOrder_lt, hp.line, hq.line, List.count_append]
  by_cases feed : '\n' ∈ more
  · have := List.count_pos_iff.mpr feed
    left
    omega
  · obtain ⟨last, is, column⟩ := hp.column
    obtain ⟨last', is', column'⟩ := hq.column
    have longer : last' = last ++ more :=
      is'.eq_rtakeWhile.trans (is.append feed).eq_rtakeWhile.symm
    have := List.length_pos_iff.mpr some
    rw [List.count_eq_zero.mpr feed, column, column', longer, List.length_append]
    right
    omega

theorem toDigits_inj {m n : Nat} (same : Nat.toDigits 10 m = Nat.toDigits 10 n) : m = n := by
  rw [← Nat.ofDigitChars_ten_toDigits (n := m), same, Nat.ofDigitChars_ten_toDigits]

/-- A colon is no digit, so the text of a position tells where its line ends. -/
theorem text_inj (same : p.text = q.text) : p = q := by
  have parts : ∀ r : Position, r.text.toList =
      Nat.toDigits 10 r.line ++ ':' :: Nat.toDigits 10 r.column := fun r => by simp [Position.text]
  have line : ∀ r : Position, r.text.toList.takeWhile Char.isDigit = Nat.toDigits 10 r.line := by
    intro r
    rw [parts, List.takeWhile_append_of_pos, List.takeWhile_cons_of_neg, List.append_nil]
    · decide
    · exact fun c => Nat.isDigit_of_mem_toDigits (by decide) (by decide)
  have lines : Nat.toDigits 10 p.line = Nat.toDigits 10 q.line := by rw [← line, ← line, same]
  have columns : Nat.toDigits 10 p.column = Nat.toDigits 10 q.column := by
    have whole := congrArg String.toList same
    rw [parts, parts, lines, List.append_cancel_left_eq] at whole
    exact List.tail_eq_of_cons_eq whole
  cases p
  cases q
  exact congrArg₂ mk (toDigits_inj lines) (toDigits_inj columns)

/-- The position of an offset lies behind the text before the boundary that the search reaches. -/
theorem isBehind_ofOffset (text : source = before ++ after)
    (reached : (boundary source (min offset source.utf8ByteSize)).offset.byteIdx =
      before.utf8ByteSize) : IsBehind before.toList (ofOffset offset source) := by
  have left : (boundary source (min offset source.utf8ByteSize)).Splits before after :=
    ⟨text, String.Pos.Raw.ext reached⟩
  rw [ofOffset, (String.Pos.splits _).eq_left left]
  exact isBehind_behind _

theorem isBehind_of_le (past : source.utf8ByteSize ≤ offset) :
    IsBehind source.toList (ofOffset offset source) := by
  have last : IsBoundary source source.utf8ByteSize := ⟨source, "", by simp, rfl⟩
  have text : source = source ++ "" := String.append_empty.symm
  refine isBehind_ofOffset text ?_
  rw [Nat.min_eq_right past]
  exact last.reached_eq (stepsBack_boundary source _)

theorem OnCharacter.isBehind (on : OnCharacter source offset before c after) :
    IsBehind before.toList (ofOffset offset source) := by
  refine isBehind_ofOffset (on.text.trans (String.append_assoc ..)) ?_
  rw [Nat.min_eq_left on.lt_size.le]
  exact on.reached_eq (stepsBack_boundary source _)

theorem isBehind_of_isBoundary (text : source = before ++ after) :
    IsBehind before.toList (ofOffset before.utf8ByteSize source) := by
  have here : IsBoundary source before.utf8ByteSize := ⟨before, after, text, rfl⟩
  refine isBehind_ofOffset text ?_
  rw [Nat.min_eq_left here.le]
  exact here.reached_eq (stepsBack_boundary source _)

/-- There are more characters before a later boundary. -/
theorem exists_more {before' after' : String} (text : before ++ after = before' ++ after')
    (later : before.utf8ByteSize < before'.utf8ByteSize) :
    ∃ more, more ≠ [] ∧ before'.toList = before.toList ++ more := by
  have texts := congrArg String.toList text
  rw [String.toList_append, String.toList_append, List.append_eq_append_iff] at texts
  obtain ⟨more, h, -⟩ | ⟨less, h, -⟩ := texts
  · refine ⟨more, ?_, h⟩
    rintro rfl
    rw [List.append_nil, String.toList_inj] at h
    exact absurd later (h ▸ lt_irrefl _)
  · have whole : before = before' ++ String.ofList less := by
      rw [← String.toList_inj, h]
      simp
    rw [whole, String.utf8ByteSize_append] at later
    omega

/-- From one boundary to a later one the positions go forward in reading order. -/
theorem strictMonoOn_inOrder (source : String) :
    StrictMonoOn (fun offset => (ofOffset offset source).inOrder) {o | IsBoundary source o} := by
  rintro _ ⟨before, after, rfl, rfl⟩ _ ⟨before', after', text, rfl⟩ later
  obtain ⟨more, some, h⟩ := exists_more text later
  have behind := isBehind_of_isBoundary (rfl : before ++ after = before ++ after)
  have behind' := isBehind_of_isBoundary text
  rw [h] at behind'
  exact behind.lt behind' some

end Position

namespace Span

open Position

/-- For every text and every span, the search for the boundary at or before the start ends, within
three steps and without a step back from the start of the text, and the position is just behind what
comes before that boundary. That is the end of the text for a start past it, and for a start on a
character it is where the character begins. From boundary to boundary the positions go forward in
reading order, so what is shown for one is shown for no other. -/
theorem locations_in_reading_order (source : String) :
    (∀ s : Span, ∃ before after, source = before ++ after ∧
      (boundary source (min s.start.toNat source.utf8ByteSize)).offset.byteIdx =
        before.utf8ByteSize ∧
      StepsBack source (min s.start.toNat source.utf8ByteSize) before.utf8ByteSize ∧
      min s.start.toNat source.utf8ByteSize < before.utf8ByteSize + 4 ∧
      IsBehind before.toList (s.position source)) ∧
    (∀ s : Span, source.utf8ByteSize ≤ s.start.toNat →
      IsBehind source.toList (s.position source)) ∧
    (∀ (s : Span) before c after, OnCharacter source s.start.toNat before c after →
      IsBehind before.toList (s.position source)) ∧
    (∀ s t : Span, IsBoundary source s.start.toNat → IsBoundary source t.start.toNat →
      s.start < t.start → (s.position source).inOrder < (t.position source).inOrder) ∧
    ∀ s t : Span, IsBoundary source s.start.toNat → IsBoundary source t.start.toNat →
      s.locate (some source) = t.locate (some source) → s.start = t.start := by
  refine ⟨?search, ?past, ?within, ?forward, ?one⟩
  case search =>
    intro s
    have steps := stepsBack_boundary source (min s.start.toNat source.utf8ByteSize)
    obtain ⟨before, after, text, reached⟩ := steps.isBoundary
    rw [← reached] at steps
    exact ⟨before, after, text, reached.symm, steps, steps.lt_add_four (Nat.min_le_right ..),
      isBehind_ofOffset text reached.symm⟩
  case past =>
    intro s past
    exact isBehind_of_le past
  case within =>
    intro s before c after on
    exact on.isBehind
  case forward =>
    intro s t here there later
    exact strictMonoOn_inOrder source here there (UInt32.lt_iff_toNat_lt.mp later)
  case one =>
    intro s t here there same
    have positions : s.position source = t.position source := text_inj same
    have starts : s.start.toNat = t.start.toNat :=
      (strictMonoOn_inOrder source).injOn here there (congrArg inOrder positions)
    exact UInt32.toNat_inj.mp starts

/-- The second byte of the first character is located where the character begins, an offset past
the end at the end, and the line feed before what follows it. -/
theorem locations_around_a_line_feed :
    (OnCharacter "é\nx" 1 "" 'é' "\nx" ∧ IsBehind [] (position ⟨1, 2⟩ "é\nx")) ∧
    (String.utf8ByteSize "é\nx" ≤ 9 ∧ IsBehind ['é', '\n', 'x'] (position ⟨9, 9⟩ "é\nx")) ∧
    IsBoundary "é\nx" 2 ∧ IsBoundary "é\nx" 3 ∧
      (position ⟨2, 3⟩ "é\nx").inOrder < (position ⟨3, 4⟩ "é\nx").inOrder := by
  obtain ⟨-, past, on, order, -⟩ := locations_in_reading_order "é\nx"
  have within : OnCharacter "é\nx" 1 "" 'é' "\nx" := ⟨by decide, by decide, by decide⟩
  have feed : IsBoundary "é\nx" 2 := ⟨"é", "\nx", by decide, by decide⟩
  have next : IsBoundary "é\nx" 3 := ⟨"é\n", "x", by decide, by decide⟩
  exact ⟨⟨within, on ⟨1, 2⟩ _ _ _ within⟩, ⟨by decide, past ⟨9, 9⟩ (by decide)⟩, feed, next,
    order ⟨2, 3⟩ ⟨3, 4⟩ feed next (by decide)⟩

/-- The second byte of `ñ` is shown where `ñ` begins. -/
example : locate ⟨9, 10⟩ (some "é\nx = \"ñé\";") = "2:6" := by cbv

end Span

end TreeScript
