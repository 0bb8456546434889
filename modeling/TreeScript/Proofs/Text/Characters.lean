import TreeScript.Proofs.Places.Atomic

/-!
# Text is edited by characters

A text is held as bytes, and all that changes it or takes a part of it counts characters: an index
or a position cuts the text into what comes before, what is meant, and what comes after. How many
bytes a character takes does not show.
-/
namespace TreeScript

namespace Integer

variable {n : Int64} {length k : Nat}

theorem index?_eq_some : index? n length = some k ↔ n.toInt = k ∧ k < length := by
  unfold index?
  split
  · rw [Option.some.injEq]
    omega
  · simp only [reduceCtorEq, false_iff]
    omega

theorem index?_eq_none : index? n length = none ↔ ¬ (0 ≤ n.toInt ∧ n.toInt < length) := by
  unfold index?
  split <;> simp [*]

theorem natural?_eq_some : natural? n = some k ↔ n.toInt = k := by
  unfold natural?
  split
  · rw [Option.some.injEq]
    omega
  · simp only [reduceCtorEq, false_iff]
    omega

theorem natural?_eq_none : natural? n = none ↔ n.toInt < 0 := by
  unfold natural?
  split
  · simp only [reduceCtorEq, false_iff]
    omega
  · simp only [true_iff]
    omega

end Integer

namespace Text

/-- The characters of a text before a position, so many from there on, and those that are left. -/
structure Cut (s : String) (start count : Int) (before part after : List Char) : Prop where
  whole : s.toList = before ++ part ++ after
  start : before.length = start
  count : part.length = count

variable {s : String} {start count : Int} {before part after before' part' after' : List Char}
  {x : Char}

theorem exists_cut (from_ : 0 ≤ start) (some : 0 ≤ count) (upTo : start + count ≤ s.length) :
    ∃ before part after, Cut s start count before part after := by
  rw [← String.length_toList] at upTo
  refine ⟨s.toList.take start.toNat, (s.toList.drop start.toNat).take count.toNat,
    (s.toList.drop start.toNat).drop count.toNat, ?_, ?_, ?_⟩
  · rw [List.append_assoc, List.take_append_drop, List.take_append_drop]
  · rw [List.length_take]
    omega
  · rw [List.length_take, List.length_drop]
    omega

namespace Cut

theorem unique (cut : Cut s start count before part after)
    (cut' : Cut s start count before' part' after') :
    before = before' ∧ part = part' ∧ after = after' := by
  have same := cut.whole.symm.trans cut'.whole
  rw [List.append_assoc, List.append_assoc] at same
  obtain ⟨front, rest⟩ := List.append_inj same (by have := cut.start; have := cut'.start; omega)
  obtain ⟨middle, last⟩ := List.append_inj rest (by have := cut.count; have := cut'.count; omega)
  exact ⟨front, middle, last⟩

/-- A position is in the text, or at its end. -/
theorem start_le (cut : Cut s start count before part after) :
    0 ≤ start ∧ start + count ≤ s.length := by
  have lengths := congrArg List.length cut.whole
  have := cut.start
  have := cut.count
  rw [String.length_toList] at lengths
  simp only [List.length_append] at lengths
  omega

theorem eq_ofList (cut : Cut s start 1 before [x] after) :
    s = String.ofList (before ++ x :: after) := by
  rw [← String.ofList_toList (s := s), cut.whole, List.append_assoc, List.singleton_append]

theorem take_drop (cut : Cut s start count before part after) :
    (s.toList.drop before.length).take part.length = part := by
  rw [cut.whole, List.append_assoc, List.drop_left, List.take_left]

end Cut

/-- There is a character at each index. -/
theorem exists_cut_char (low : 0 ≤ start) (high : start < s.length) :
    ∃ before x after, Cut s start 1 before [x] after := by
  obtain ⟨before, part, after, cut⟩ := exists_cut low Int.one_nonneg high
  obtain ⟨x, rfl⟩ := List.length_eq_one_iff.mp (Int.ofNat_inj.mp cut.count)
  exact ⟨before, x, after, cut⟩

end Text

namespace Member.Chars

open Text (Cut)

variable {h : Handles} {s : String} {i : Int64} {start : Int} {before part after : List Char}
  {x : Char}

theorem checkIndex_of_cut (cut : Cut s i.toInt 1 before [x] after) :
    Value.checkIndex i s.toList.length = .ok before.length := by
  have := cut.start_le
  have found : Integer.index? i s.toList.length = some before.length := by
    rw [Integer.index?_eq_some, String.length_toList, cut.start]
    have := cut.start
    exact ⟨rfl, by omega⟩
  rw [Value.checkIndex, found]

theorem checkIndex_of_not (outside : ¬ (0 ≤ i.toInt ∧ i.toInt < s.length)) :
    Value.checkIndex i s.toList.length = .error (.indexOutOfBounds i s.length) := by
  rw [String.length_toList, Value.checkIndex, Integer.index?_eq_none.mpr outside]

theorem element_of_cut (cut : Cut s i.toInt 1 before [x] after) :
    Value.element h (.str s) (.int i) = .ok (.char x) := by
  show (Value.checkIndex i s.toList.length).map _ = _
  rw [checkIndex_of_cut cut, cut.whole]
  simp [Except.map]

/-- The bytes of the character start where those before it end. -/
theorem byteOffset_of_cut (cut : Cut s start 1 before [x] after) :
    Text.byteOffset s before.length = (String.ofList before).utf8ByteSize := by
  rw [cut.eq_ofList, Text.byteOffset_append]

theorem removeAt?_of_cut (cut : Cut s start 1 before [x] after) :
    Text.removeAt? s (Text.byteOffset s before.length) = some (String.ofList (before ++ after)) := by
  rw [byteOffset_of_cut cut, cut.eq_ofList, Text.removeAt?_append]

theorem replaceChar?_of_cut (cut : Cut s start 1 before [x] after) (c : Char) :
    Text.replaceChar? s before.length c = some (String.ofList (before ++ c :: after)) := by
  rw [cut.eq_ofList, Text.replaceChar?_append]

theorem pop_of_cut (cut : Cut s i.toInt 1 before [x] after) :
    pop h [.int i] (.str s) = .ok .unit (.ofChars (before ++ after)) := by
  have popped : popAt h (.int i) (.str s) = .ok (.ofChars (before ++ after)) := by
    show (Value.checkIndex i s.toList.length >>= fun n => _) = _
    rw [checkIndex_of_cut cut]
    show Except.ok (Value.str ((Text.removeAt? s (Text.byteOffset s before.length)).getD s)) = _
    rw [removeAt?_of_cut cut]
    rfl
  rw [pop, Edit.replace_then, popped]

theorem assignAt_of_cut (cut : Cut s i.toInt 1 before [x] after) (c : Char) :
    Value.assignAt h .plain [.int i] (.char c) (.str s) =
      .ok () (.ofChars (before ++ c :: after)) := by
  show Value.editChar h s (.int i) (.replace fun _ => .ok (.char c)) (.str s) = _
  rw [Value.editChar, Value.charIndex, checkIndex_of_cut cut]
  show EStateM.Result.ok () (Value.str ((Text.replaceChar? s before.length c).getD s)) = _
  rw [replaceChar?_of_cut cut]
  rfl

theorem element_of_not (outside : ¬ (0 ≤ i.toInt ∧ i.toInt < s.length)) :
    Value.element h (.str s) (.int i) = .error (.indexOutOfBounds i s.length) := by
  show (Value.checkIndex i s.toList.length).map _ = _
  rw [checkIndex_of_not outside]
  rfl

theorem pop_of_not (outside : ¬ (0 ≤ i.toInt ∧ i.toInt < s.length)) :
    pop h [.int i] (.str s) = .error (.indexOutOfBounds i s.length) (.str s) := by
  have refused : popAt h (.int i) (.str s) = .error (.indexOutOfBounds i s.length) := by
    show (Value.checkIndex i s.toList.length >>= fun n => _) = _
    rw [checkIndex_of_not outside]
    rfl
  rw [pop, Edit.replace_then, refused]

theorem assignAt_of_not (outside : ¬ (0 ≤ i.toInt ∧ i.toInt < s.length)) (c : Char) :
    Value.assignAt h .plain [.int i] (.char c) (.str s) =
      .error (.indexOutOfBounds i s.length) (.str s) := by
  show Value.editChar h s (.int i) (.replace fun _ => .ok (.char c)) (.str s) = _
  rw [Value.editChar, Value.charIndex, checkIndex_of_not outside]

variable {a n : Int64}

theorem substr_eq (h : Handles) (s : String) (a n : Int64) :
    substr h (.str s) [.int a, .int n] =
      match Integer.index? a (s.toList.length + 1), Integer.natural? n with
      | none, _ => .error (.indexOutOfBounds a s.toList.length)
      | _, none => .error (.invalidArgument "substr" "a non-negative length")
      | some a, some n => .ok (.ofChars ((s.toList.drop a).take n)) :=
  rfl

theorem index?_of_position (start : 0 ≤ a.toInt ∧ a.toInt ≤ s.length) :
    Integer.index? a (s.toList.length + 1) = some a.toInt.toNat := by
  rw [Integer.index?_eq_some, String.length_toList]
  omega

theorem substr_inside (start : 0 ≤ a.toInt ∧ a.toInt ≤ s.length) (count : 0 ≤ n.toInt) :
    substr h (.str s) [.int a, .int n] =
      .ok (.ofChars ((s.toList.drop a.toInt.toNat).take n.toInt.toNat)) := by
  have counted : Integer.natural? n = some n.toInt.toNat := by
    rw [Integer.natural?_eq_some]
    omega
  rw [substr_eq, index?_of_position start, counted]

/-- Part of a text is as many characters as are wanted, or as many as remain. -/
theorem substr_of_cut (start : 0 ≤ a.toInt ∧ a.toInt ≤ s.length) (count : 0 ≤ n.toInt)
    (cut : Cut s a.toInt (min n.toInt (s.length - a.toInt)) before part after) :
    substr h (.str s) [.int a, .int n] = .ok (.ofChars part) := by
  have front : a.toInt.toNat = before.length := by
    have := cut.start
    omega
  have taken : min n.toInt.toNat (s.toList.drop before.length).length = part.length := by
    have := cut.count
    rw [List.length_drop, String.length_toList]
    omega
  rw [substr_inside start count, front, List.take_eq_take_min, taken, cut.take_drop]

/-- The position is looked at before the count. -/
theorem substr_of_outside (outside : ¬ (0 ≤ a.toInt ∧ a.toInt ≤ s.length)) (n : Int64) :
    substr h (.str s) [.int a, .int n] = .error (.indexOutOfBounds a s.length) := by
  have notFound : Integer.index? a (s.toList.length + 1) = none := by
    rw [Integer.index?_eq_none, String.length_toList]
    omega
  rw [substr_eq, notFound, String.length_toList]

theorem substr_of_negative (start : 0 ≤ a.toInt ∧ a.toInt ≤ s.length) (count : n.toInt < 0) :
    substr h (.str s) [.int a, .int n] =
      .error (.invalidArgument "substr" "a non-negative length") := by
  rw [substr_eq, index?_of_position start, Integer.natural?_eq_none.mpr count]

variable {v w u : Value} {t t' t'' : String} {args : List Value} {texts : List String}

theorem added_of_texts (given : args.map textOf? = texts.map some) :
    refused? args = none ∧ added args = String.join texts := by
  induction args generalizing texts with
  | nil =>
    obtain rfl := List.map_eq_nil_iff.mp given.symm
    exact ⟨rfl, rfl⟩
  | cons v args ih =>
    cases texts with
    | nil => cases given
    | cons t texts =>
      obtain ⟨text, given⟩ := List.cons.inj given
      obtain ⟨none, rest⟩ := ih given
      rw [refused?, List.find?_cons, added, text, String.join_cons, rest]
      exact ⟨none, rfl⟩

theorem append_texts (s : String) (given : args.map textOf? = texts.map some) :
    append h args (.str s) = .ok .unit (.str (s ++ String.join texts)) := by
  obtain ⟨none, rest⟩ := added_of_texts given
  rw [append_str, none, rest]

theorem textOf?_eq_some (text : textOf? v = some t) :
    v = .str t ∨ ∃ c, v = .char c ∧ t = String.singleton c := by
  cases v <;> cases text
  case str => exact .inl rfl
  case char c => exact .inr ⟨c, rfl, rfl⟩

/-- Texts and characters are added alike. -/
theorem add_texts (left : textOf? v = some t) (right : textOf? w = some t') :
    Value.binary h .add v w = .ok (.str (t ++ t')) := by
  rcases textOf?_eq_some left with rfl | ⟨c, rfl, rfl⟩ <;>
    rcases textOf?_eq_some right with rfl | ⟨d, rfl, rfl⟩
  · rfl
  · show Except.ok (Value.str (t.push d)) = _
    rw [String.push_eq_append]
  · rfl
  · show Except.ok (Value.str (String.ofList ([c] ++ [d]))) = _
    rw [String.ofList_append]
    rfl

theorem add_texts_assoc (hv : textOf? v = some t) (hw : textOf? w = some t')
    (hu : textOf? u = some t'') :
    (Value.binary h .add v w >>= fun vw => Value.binary h .add vw u) =
      Value.binary h .add w u >>= fun wu => Value.binary h .add v wu := by
  rw [add_texts hv hw, add_texts hw hu]
  show Value.binary h .add (.str (t ++ t')) u = Value.binary h .add v (.str (t' ++ t''))
  rw [add_texts rfl hu, add_texts hv rfl, String.append_assoc]

/-- What stands before a position and what stands from there on make up the text. -/
theorem add_halves (h : Handles) {k n : Int64} (position : 0 ≤ k.toInt ∧ k.toInt ≤ s.length)
    (length : n.toInt = s.length) :
    ∃ front back, substr h (.str s) [.int 0, .int k] = .ok front ∧
      substr h (.str s) [.int k, .int n] = .ok back ∧
      Value.binary h .add front back = .ok (.str s) := by
  have start : 0 ≤ (0 : Int64).toInt ∧ (0 : Int64).toInt ≤ s.length := ⟨by decide, by simp⟩
  refine ⟨_, _, substr_inside start position.1, substr_inside position (by omega), ?_⟩
  have all : (s.toList.drop k.toInt.toNat).length ≤ n.toInt.toNat := by
    rw [List.length_drop, String.length_toList]
    omega
  rw [Value.ofChars, Value.ofChars, add_texts rfl rfl, ← String.ofList_append,
    List.take_of_length_le all]
  show Except.ok (Value.str (String.ofList (s.toList.take _ ++ s.toList.drop _))) = _
  rw [List.take_append_drop, String.ofList_toList]

/-- **Text is edited by characters.** An index of a text cuts it into what comes before, a character
and what comes after. The bytes of the character start where those before it end, and there they can
always be taken out or replaced, by more or by fewer. So the character is what is read there, `pop`
takes it out, and an assignment puts another in its place. Any other index is refused, and the text
stays as it is. `substr` gives as many characters from a position on as are wanted or remain; it
refuses a position that is none whatever the count, and else a negative count. Texts and characters
are put together by `append` and `+`. -/
theorem edited_by_characters (h : Handles) (s : String) :
    (find? .str "pop" = some (.edit pop) ∧ find? .str "substr" = some (.read substr) ∧
      find? .str "append" = some (.edit append)) ∧
    (∀ i : Int64, 0 ≤ i.toInt ∧ i.toInt < s.length → ∃ before x after,
      Cut s i.toInt 1 before [x] after ∧
      Text.byteOffset s before.length = (String.ofList before).utf8ByteSize ∧
      Text.removeAt? s (Text.byteOffset s before.length) =
        some (String.ofList (before ++ after)) ∧
      (∀ c, Text.replaceChar? s before.length c = some (String.ofList (before ++ c :: after))) ∧
      Value.element h (.str s) (.int i) = .ok (.char x) ∧
      pop h [.int i] (.str s) = .ok .unit (.ofChars (before ++ after)) ∧
      ∀ c, Value.assignAt h .plain [.int i] (.char c) (.str s) =
        .ok () (.ofChars (before ++ c :: after))) ∧
    (∀ i : Int64, ¬ (0 ≤ i.toInt ∧ i.toInt < s.length) → ∃ fault, fault.category = .index ∧
      Value.element h (.str s) (.int i) = .error fault ∧
      pop h [.int i] (.str s) = .error fault (.str s) ∧
      ∀ c, Value.assignAt h .plain [.int i] (.char c) (.str s) = .error fault (.str s)) ∧
    (∀ a n : Int64, 0 ≤ a.toInt ∧ a.toInt ≤ s.length → 0 ≤ n.toInt → ∃ before part after,
      Cut s a.toInt (min n.toInt (s.length - a.toInt)) before part after ∧
      substr h (.str s) [.int a, .int n] = .ok (.ofChars part)) ∧
    (∀ a n : Int64, ¬ (0 ≤ a.toInt ∧ a.toInt ≤ s.length) → ∃ fault, fault.category = .index ∧
      substr h (.str s) [.int a, .int n] = .error fault) ∧
    (∀ a n : Int64, 0 ≤ a.toInt ∧ a.toInt ≤ s.length → n.toInt < 0 →
      ∃ fault, fault.category = .type ∧ substr h (.str s) [.int a, .int n] = .error fault) ∧
    (∀ args texts, args.map textOf? = texts.map some →
      append h args (.str s) = .ok .unit (.str (s ++ String.join texts))) ∧
    (∀ v w t t', textOf? v = some t → textOf? w = some t' →
      Value.binary h .add v w = .ok (.str (t ++ t'))) ∧
    (∀ v w u t t' t'', textOf? v = some t → textOf? w = some t' → textOf? u = some t'' →
      (Value.binary h .add v w >>= fun vw => Value.binary h .add vw u) =
        Value.binary h .add w u >>= fun wu => Value.binary h .add v wu) ∧
    ∀ k n : Int64, 0 ≤ k.toInt ∧ k.toInt ≤ s.length → n.toInt = s.length → ∃ front back,
      substr h (.str s) [.int 0, .int k] = .ok front ∧
      substr h (.str s) [.int k, .int n] = .ok back ∧
      Value.binary h .add front back = .ok (.str s) := by
  refine ⟨⟨rfl, rfl, rfl⟩, fun i inside => ?_, fun i outside => ?_, fun a n start count => ?_,
    fun a n outside => ⟨_, rfl, substr_of_outside outside n⟩,
    fun a n start count => ⟨_, rfl, substr_of_negative start count⟩,
    fun args texts => append_texts s,
    fun v w t t' => add_texts, fun v w u t t' t'' => add_texts_assoc,
    fun k n => add_halves h⟩
  · obtain ⟨before, x, after, cut⟩ := Text.exists_cut_char inside.1 inside.2
    exact ⟨before, x, after, cut, byteOffset_of_cut cut, removeAt?_of_cut cut,
      replaceChar?_of_cut cut, element_of_cut cut, pop_of_cut cut, assignAt_of_cut cut⟩
  · exact ⟨.indexOutOfBounds i s.length, rfl, element_of_not outside, pop_of_not outside,
      assignAt_of_not outside⟩
  · have remains : a.toInt + min n.toInt (s.length - a.toInt) ≤ s.length := by omega
    obtain ⟨before, part, after, cut⟩ := Text.exists_cut start.1 (by omega) remains
    exact ⟨before, part, after, cut, substr_of_cut start count cut⟩

/-- A negative count from a position that is none: what is refused is the position. -/
theorem position_refused_first :
    let h : Handles := ⟨fun _ => "", fun _ => none, fun _ => "", fun _ => false⟩
    (-1 : Int64).toInt < 0 ∧
      substr h (.str "a") [.int 2, .int (-1)] = .error (.indexOutOfBounds 2 1) ∧
      (Fault.indexOutOfBounds 2 1).category ≠ .type :=
  ⟨by decide, rfl, by decide⟩

/-- The characters of `aé→` take one, two and three bytes. -/
theorem edited_where_widths_differ :
    let h : Handles := ⟨fun _ => "", fun _ => none, fun _ => "", fun _ => false⟩
    Text.byteOffset "aé→" 1 = 1 ∧
      Text.removeAt? "aé→" 1 = some "a→" ∧ Text.replaceChar? "aé→" 1 '→' = some "a→→" ∧
      pop h [.int 1] (.str "aé→") = .ok .unit (.str "a→") ∧
      Value.assignAt h .plain [.int 1] (.char 'b') (.str "aé→") = .ok () (.str "ab→") ∧
      substr h (.str "aé→") [.int 1, .int 5] = .ok (.str "é→") ∧
      (∃ fault, fault.category = .index ∧ pop h [.int 3] (.str "aé→") = .error fault (.str "aé→")) ∧
      (∃ fault, fault.category = .index ∧
        substr h (.str "aé→") [.int 4, .int (-1)] = .error fault) ∧
      (∃ fault, fault.category = .type ∧
        substr h (.str "aé→") [.int 3, .int (-1)] = .error fault) ∧
      append h [.str "b", .char 'c'] (.str "aé→") = .ok .unit (.str "aé→bc") ∧
      Value.binary h .add (.char '→') (.str "é") = .ok (.str "→é") ∧
      (Value.binary h .add (.char '→') (.str "é") >>= fun vw => Value.binary h .add vw (.char 'a')) =
        (Value.binary h .add (.str "é") (.char 'a') >>= fun wu =>
          Value.binary h .add (.char '→') wu) ∧
      ∃ front back, substr h (.str "aé→") [.int 0, .int 2] = .ok front ∧
        substr h (.str "aé→") [.int 2, .int 3] = .ok back ∧
        Value.binary h .add front back = .ok (.str "aé→") := by
  intro h
  obtain ⟨-, inside, outside, taken, noPosition, noCount, appended, summed, assoc, halves⟩ :=
    edited_by_characters h "aé→"
  have one : Cut "aé→" (1 : Int64).toInt 1 ['a'] ['é'] ['→'] := ⟨by decide, by decide, by decide⟩
  have tail : Cut "aé→" (1 : Int64).toInt 2 ['a'] ['é', '→'] [] := ⟨by decide, by decide, by decide⟩
  obtain ⟨_, _, _, cut, offset, removed, replaced, -, popped, assigned⟩ := inside 1 (by decide)
  obtain ⟨rfl, -, rfl⟩ := cut.unique one
  obtain ⟨_, _, _, cut, part⟩ := taken 1 5 (by decide) (by decide)
  obtain ⟨-, rfl, -⟩ := cut.unique tail
  obtain ⟨fault, index, -, refused, -⟩ := outside 3 (by decide)
  have offset : Text.byteOffset "aé→" 1 = 1 := offset
  have removed : Text.removeAt? "aé→" (Text.byteOffset "aé→" 1) = some "a→" := removed
  rw [offset] at removed
  exact ⟨offset, removed, replaced '→', popped, assigned 'b', part, ⟨fault, index, refused⟩,
    noPosition 4 (-1) (by decide), noCount 3 (-1) (by decide) (by decide),
    appended [.str "b", .char 'c'] ["b", "c"] rfl, summed (.char '→') (.str "é") _ _ rfl rfl,
    assoc (.char '→') (.str "é") (.char 'a') _ _ _ rfl rfl rfl, halves 2 3 (by decide) (by decide)⟩

end Member.Chars
end TreeScript
