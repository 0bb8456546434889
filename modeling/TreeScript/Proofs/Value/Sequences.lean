import TreeScript.Proofs.Calls.Callbacks
import TreeScript.Proofs.Places.Compound
import TreeScript.Proofs.Text.Characters

/-!
# Sequences

Lists, tuples and texts are sequences of items. There are several ways to read one, each with its
own code for each kind: by an index, by the members `len`, `nth`, `back` and `rev`, and by the
intrinsic `len`. All of them tell the same of the items.
-/
namespace TreeScript

namespace Integer

/-- Lengths that fit the word are told as they are. -/
theorem toInt_ofLength (length : Nat) :
    (ofLength length).toInt = min (length : Int) Int64.maxValue.toInt := by
  have greatest : Int64.maxValue.toInt = 2 ^ 63 - 1 := by decide
  rw [ofLength, Int64.toInt_ofInt_of_le] <;> omega

end Integer

namespace Value

variable {h : Handles} {x y z : Value} {items items' : List Value} {i j : Int64} {k length : Nat}

theorem checkIndex_of_eq (named : i.toInt = k) (inside : k < length) :
    checkIndex i length = .ok k := by
  rw [checkIndex, Integer.index?_eq_some.mpr ⟨named, inside⟩]

theorem checkIndex_of_outside (outside : ¬ (0 ≤ i.toInt ∧ i.toInt < length)) :
    checkIndex i length = .error (.indexOutOfBounds i length) := by
  rw [checkIndex, Integer.index?_eq_none.mpr outside]

/-- The items of a list, a tuple or a text, in order. Those of a text are its characters. -/
inductive Sequence : Value → List Value → Prop
  | list (items : List Value) : Sequence (list items) items
  | tuple (items : List Value) : Sequence (tuple items) items
  | str (s : String) : Sequence (str s) (s.toList.map char)

/-- What a member that only reads gives for a value. -/
def ask (h : Handles) (v : Value) (name : String) (args : List Value) : Except Fault Value :=
  match Member.find? v.kind name with
  | Option.some (.read f) => f h v args
  | _ => .error (.noSuchMember name v.kind.name)

namespace Sequence

theorem ofChars (cs : List Char) : Sequence (Value.ofChars cs) (cs.map char) := by
  have text := str (String.ofList cs)
  rwa [String.toList_ofList] at text

theorem len_free (seq : Sequence x items) : Intrinsic.len h [x] = .ok (.ofLength items.length) := by
  cases seq with
  | list | tuple => rfl
  | str s => simp [Intrinsic.len, String.length_toList]

theorem len_member (seq : Sequence x items) : x.ask h "len" [] = .ok (.ofLength items.length) := by
  cases seq with
  | list | tuple => rfl
  | str s =>
    show Except.ok (Value.ofLength s.toList.length) = _
    rw [List.length_map]

theorem read_inside (seq : Sequence x items) (named : i.toInt = k) (inside : k < items.length) :
    read h [int i] x = .ok items[k] := by
  have found := checkIndex_of_eq named inside
  cases seq with
  | list | tuple => simp [read, element, found, Except.map, inside]
  | str s =>
    rw [List.length_map] at found inside
    simp [read, element, charIndex, found, Except.map, List.getElem?_eq_getElem inside]

theorem read_outside (seq : Sequence x items) (outside : ¬ (0 ≤ i.toInt ∧ i.toInt < items.length)) :
    read h [int i] x = .error (.indexOutOfBounds i items.length) := by
  have refused := checkIndex_of_outside outside
  cases seq with
  | list | tuple => simp [read, element, refused, Except.map]
  | str s =>
    rw [List.length_map] at refused
    simp [read, element, charIndex, refused, Except.map]

/-- The member reads at an index what the place there reads, be it an item or a fault: both make the
same check first. -/
theorem nth_eq (seq : Sequence x items) (i : Int64) : x.ask h "nth" [int i] = read h [int i] x := by
  cases seq with
  | list | tuple =>
    show (checkIndex i items.length >>= fun k => Except.ok (items.getD k unit)) = _
    rw [read, element]
    cases checkIndex i items.length <;> rfl
  | str s =>
    show (checkIndex i s.toList.length >>= fun k => Except.ok (char (s.toList.getD k ' '))) = _
    rw [read, element, charIndex]
    cases checkIndex i s.toList.length <;> rfl

theorem back_eq (seq : Sequence x items) : x.ask h "back" [] = .ok (items.getLastD none) := by
  cases seq with
  | list | tuple => rfl
  | str s =>
    rw [List.getLastD_eq_getLast?, List.getLast?_map]
    show Member.Chars.back h (Value.str s) [] = _
    simp only [Member.Chars.back, Member.Chars.charsOf, Member.Chars.textOf, bind, Except.bind, pure,
      Except.pure]
    cases s.toList.getLast? <;> rfl

/-- The reverse of a sequence is a sequence of its kind. -/
theorem exists_rev (seq : Sequence x items) :
    ∃ y, x.ask h "rev" [] = .ok y ∧ y.kind = x.kind ∧ Sequence y items.reverse := by
  cases seq with
  | list | tuple =>
    exact ⟨_, rfl, rfl, by constructor⟩
  | str s =>
    have reversed := ofChars s.toList.reverse
    rw [List.map_reverse] at reversed
    exact ⟨_, rfl, rfl, reversed⟩

/-- What comes at a place of the reverse is what comes as far from the end of the sequence. -/
theorem read_reverse (seq : Sequence x items) (seqRev : Sequence y items.reverse)
    (low : 0 ≤ i.toInt) (low' : 0 ≤ j.toInt) (place : j.toInt = items.length - 1 - i.toInt) :
    read h [int i] y = read h [int j] x := by
  have named : i.toInt = i.toInt.toNat := by omega
  have named' : j.toInt = ((items.length - 1 - i.toInt.toNat : Nat) : Int) := by omega
  have inside : i.toInt.toNat < items.reverse.length := by rw [List.length_reverse]; omega
  rw [seqRev.read_inside named inside, seq.read_inside named' (by omega), List.getElem_reverse]

theorem back_eq_read (seq : Sequence x items) (some : 0 < items.length)
    (last : i.toInt = items.length - 1) : x.ask h "back" [] = read h [int i] x := by
  have named : i.toInt = ((items.length - 1 : Nat) : Int) := by omega
  rw [seq.back_eq, seq.read_inside named (by omega), List.getLastD_eq_getLast?,
    List.getLast?_eq_getElem?, List.getElem?_eq_getElem (by omega), Option.getD_some]

/-- Two sequences of one kind with the same items are the same. -/
theorem eq_of_items (seq : Sequence x items) (seq' : Sequence y items) (kind : y.kind = x.kind) :
    y = x := by
  cases seq with
  | list | tuple =>
    cases seq' with
    | list | tuple => first | rfl | cases kind
    | str => cases kind
  | str s =>
    generalize same : s.toList.map char = items at seq'
    cases seq' with
    | list | tuple => cases kind
    | str s' =>
      have chars := List.map_inj_right (fun c d => char.inj) |>.mp same
      rw [String.toList_inj.mp chars]

/-- Sequences of one kind are added up by their items. -/
theorem exists_add (seq : Sequence x items) (seq' : Sequence y items') (kind : y.kind = x.kind) :
    ∃ z, binary h .add x y = .ok z ∧ z.kind = x.kind ∧ Sequence z (items ++ items') := by
  cases seq with
  | list items =>
    cases seq' with
    | list items' => exact ⟨_, rfl, rfl, .list _⟩
    | tuple | str => cases kind
  | tuple items =>
    cases seq' with
    | tuple items' => exact ⟨_, rfl, rfl, .tuple _⟩
    | list | str => cases kind
  | str s =>
    cases seq' with
    | str s' =>
      refine ⟨_, rfl, rfl, ?_⟩
      rw [← List.map_append, ← String.toList_append]
      exact .str _
    | list | tuple => cases kind

theorem read_sum_front (seqSum : Sequence z (items ++ items')) (seq : Sequence x items)
    (low : 0 ≤ i.toInt) (high : i.toInt < items.length) :
    read h [int i] z = read h [int i] x := by
  have named : i.toInt = i.toInt.toNat := by omega
  have inside : i.toInt.toNat < items.length := by omega
  have inside' : i.toInt.toNat < (items ++ items').length := by rw [List.length_append]; omega
  rw [seqSum.read_inside named inside', seq.read_inside named inside,
    List.getElem_append_left inside]

theorem read_sum_back (seqSum : Sequence z (items ++ items')) (seq' : Sequence y items')
    (low : 0 ≤ j.toInt) (high : j.toInt < items'.length)
    (place : j.toInt = i.toInt - items.length) : read h [int i] z = read h [int j] y := by
  have named : i.toInt = ((items.length + j.toInt.toNat : Nat) : Int) := by omega
  have named' : j.toInt = j.toInt.toNat := by omega
  have inside : j.toInt.toNat < items'.length := by omega
  have inside' : items.length + j.toInt.toNat < (items ++ items').length := by
    rw [List.length_append]
    omega
  rw [seqSum.read_inside named inside', seq'.read_inside named' inside,
    List.getElem_append_right (Nat.le_add_right _ _)]
  simp only [Nat.add_sub_cancel_left]

end Sequence

end Value

theorem Place.read_item {p : Place} {m : Machine} {v : Value} (read : p.read m = .ok v m)
    (index : Value) :
    (p.item index).read m = Run.ofExcept (Value.read m.handles [index] v) m := by
  have root : (p.item index).rootOn m = p.rootOn m := rfl
  have path : (p.item index).path = p.path ++ [index] := rfl
  rw [read_apply, root, path, Value.read_append, read_eq_ok_iff.mp read]
  rfl

theorem Eval.callMember_nth {x : Value} {items : List Value} (seq : x.Sequence items)
    {ev : Evaluator} {receiver : Place} {m : Machine} (read : receiver.read m = .ok x m) (c : CtxId)
    (span : Span) (i : Int64) :
    callMember ev receiver "nth" [.ofValue (.int i)] c span m =
      (receiver.item (.int i)).read m := by
  have dispatch : callMember ev receiver "nth" [.ofValue (.int i)] c span m =
      Run.ofExcept (x.ask m.handles "nth" [.int i]) m := by
    have found : ∃ f, Member.find? x.kind "nth" = some (.read f) := by
      cases seq <;> exact ⟨_, rfl⟩
    obtain ⟨f, found⟩ := found
    rw [callMember_of_read c read found, Value.ask, found]
    rfl
  rw [dispatch, seq.nth_eq, Place.read_item read]

namespace Value

variable {x : Value} {items : List Value}

/-- **Readers of sequences agree.** A list, a tuple or a text is told by its items, in each of the
ways to read it. Both lengths are the number of items, as far as the word goes. The index and `nth`
read the item at each position, and refuse every other integer alike, in functions as in runs. The
reverse has the items from the end on, and that of the reverse is the sequence. `back` is the last
item. A sum has the items of the one and after them those of the other. -/
theorem readers_agree (h : Handles) (seq : Sequence x items) :
    (∃ n : Int64, Intrinsic.len h [x] = .ok (int n) ∧ x.ask h "len" [] = .ok (int n) ∧
      n.toInt = min (items.length : Int) Int64.maxValue.toInt) ∧
    (∀ (i : Int64) (k : Nat) (inside : k < items.length), i.toInt = k →
      read h [int i] x = .ok items[k] ∧ x.ask h "nth" [int i] = .ok items[k]) ∧
    (∀ i : Int64, ¬ (0 ≤ i.toInt ∧ i.toInt < items.length) →
      read h [int i] x = .error (.indexOutOfBounds i items.length) ∧
        x.ask h "nth" [int i] = .error (.indexOutOfBounds i items.length)) ∧
    (∀ (ev : Evaluator) (receiver : Place) (c : CtxId) (span : Span) (m : Machine) (i : Int64),
      receiver.read m = .ok x m →
      Eval.callMember ev receiver "nth" [.ofValue (int i)] c span m =
        (receiver.item (int i)).read m) ∧
    (∃ y, x.ask h "rev" [] = .ok y ∧ y.ask h "rev" [] = .ok x ∧ y.kind = x.kind ∧
      Sequence y items.reverse ∧ Intrinsic.len h [y] = Intrinsic.len h [x] ∧
      ∀ i j : Int64, 0 ≤ i.toInt → 0 ≤ j.toInt → j.toInt = items.length - 1 - i.toInt →
        read h [int i] y = read h [int j] x) ∧
    (∀ i : Int64, 0 < items.length → i.toInt = items.length - 1 →
      x.ask h "back" [] = read h [int i] x) ∧
    (items.length = 0 → x.ask h "back" [] = .ok none) ∧
    ∀ y items', Sequence y items' → y.kind = x.kind → ∃ z, binary h .add x y = .ok z ∧
      z.kind = x.kind ∧ Sequence z (items ++ items') ∧
      Intrinsic.len h [z] = .ok (.ofLength (items.length + items'.length)) ∧
      (∀ i : Int64, 0 ≤ i.toInt → i.toInt < items.length → read h [int i] z = read h [int i] x) ∧
      ∀ i j : Int64, 0 ≤ j.toInt → j.toInt < items'.length → j.toInt = i.toInt - items.length →
        read h [int i] z = read h [int j] y := by
  refine ⟨?lengths, ?inside, ?outside, ?runs, ?reverse, ?last, ?empty, ?sums⟩
  case lengths => exact ⟨_, seq.len_free, seq.len_member, Integer.toInt_ofLength _⟩
  case inside =>
    intro i k inside named
    have there := seq.read_inside (h := h) named inside
    exact ⟨there, (seq.nth_eq i).trans there⟩
  case outside =>
    intro i outside
    have refused := seq.read_outside (h := h) outside
    exact ⟨refused, (seq.nth_eq i).trans refused⟩
  case runs =>
    intro ev receiver c span m i there
    exact Eval.callMember_nth seq there c span i
  case reverse =>
    obtain ⟨y, reversed, kind, seqRev⟩ := seq.exists_rev (h := h)
    obtain ⟨z, again, kind', seqAgain⟩ := seqRev.exists_rev (h := h)
    rw [List.reverse_reverse] at seqAgain
    obtain rfl := seq.eq_of_items seqAgain (kind'.trans kind)
    have lengths : Intrinsic.len h [y] = Intrinsic.len h [z] := by
      rw [seq.len_free, seqRev.len_free, List.length_reverse]
    exact ⟨y, reversed, again, kind, seqRev, lengths, fun i j => seq.read_reverse seqRev⟩
  case last => exact fun i => seq.back_eq_read
  case empty =>
    intro empty
    rw [seq.back_eq, List.length_eq_zero_iff.mp empty, List.getLastD_nil]
  case sums =>
    intro y items' seq' kind
    obtain ⟨z, sum, kind', seqSum⟩ := seq.exists_add (h := h) seq' kind
    have length : Intrinsic.len h [z] = .ok (.ofLength (items.length + items'.length)) := by
      rw [seqSum.len_free, List.length_append]
    exact ⟨z, sum, kind', seqSum, length, fun i => seqSum.read_sum_front seq,
      fun i j => seqSum.read_sum_back seq'⟩

/-- The characters of `aé→` take one, two and three bytes, and there are three of them. -/
theorem readers_agree_on_text :
    let h : Handles := ⟨fun _ => "", fun _ => Option.none, fun _ => "", fun _ => false⟩
    let x : Value := str "aé→"
    Sequence x [char 'a', char 'é', char '→'] ∧
      (∃ n : Int64, Intrinsic.len h [x] = .ok (int n) ∧ x.ask h "len" [] = .ok (int n) ∧
        n.toInt = 3) ∧
      read h [int 2] x = .ok (char '→') ∧ x.ask h "nth" [int 2] = .ok (char '→') ∧
      read h [int 3] x = .error (.indexOutOfBounds 3 3) ∧
      x.ask h "nth" [int (-1)] = .error (.indexOutOfBounds (-1) 3) ∧
      (∃ y, x.ask h "rev" [] = .ok y ∧ y.ask h "rev" [] = .ok x ∧
        read h [int 0] y = .ok (char '→')) ∧
      x.ask h "back" [] = .ok (char '→') ∧
      ∃ z, binary h .add x (str "é") = .ok z ∧ read h [int 1] z = .ok (char 'é') ∧
        read h [int 3] z = .ok (char 'é') := by
  intro h x
  have seq : Sequence x [char 'a', char 'é', char '→'] := .str "aé→"
  have single : Sequence (str "é") [char 'é'] := .str "é"
  obtain ⟨⟨n, free, member, length⟩, inside, outside, -, ⟨y, reversed, again, -, -, -, mirrored⟩,
    last, -, sums⟩ := readers_agree h seq
  obtain ⟨z, sum, -, -, -, front, behind⟩ := sums (str "é") [char 'é'] single rfl
  have first : read h [int 0] (str "é") = .ok (char 'é') :=
    single.read_inside (k := 0) rfl (by simp)
  have arrow := inside 2 2 (by simp) rfl
  refine ⟨seq, ⟨n, free, member, length⟩, arrow.1, arrow.2, (outside 3 (by decide)).1,
    (outside (-1) (by decide)).2, ⟨y, reversed, again, ?_⟩, ?_, z, sum, ?_, ?_⟩
  · exact (mirrored 0 2 (by decide) (by decide) (by decide)).trans arrow.1
  · exact (last 2 (by decide) (by decide)).trans arrow.1
  · exact (front 1 (by decide) (by decide)).trans (inside 1 1 (by simp) rfl).1
  · exact (behind 3 0 (by decide) (by decide) (by decide)).trans first

end Value

end TreeScript
