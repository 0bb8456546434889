import Mathlib.Data.List.GetD
import TreeScript.Proofs.Text.Bytes
import TreeScript.Value.Place

/-!
# Slots

An index leads to a slot of a value, and a path of indices from slot to slot. A slot is a lens: what
is put there reads as it was put, what was there already is put back without a trace, all else in
the value reads as before, and the value keeps its length and the order of its entries. So the end
of a path is a lens of the whole value. An edit at a path that does not lead through slots is not
made.
-/
namespace TreeScript

variable {h : Handles} {whole whole' part mid new index other v : Value} {path rest q : List Value}
  {put put' : Value → Except Fault Value} {α : Type}

namespace Value

theorem checkIndex_eq_ok {i : Int64} {length n : Nat} (found : checkIndex i length = .ok n) :
    n < length ∧ i.toInt = n := by
  unfold checkIndex Integer.index? at found
  split at found
  · rename_i at_ range
    cases found
    split at range
    · cases range
      omega
    · cases range
  · cases found

/-- Different indices lead to different positions. -/
theorem checkIndex_inj {i j : Int64} {length n : Nat} (hi : checkIndex i length = .ok n)
    (hj : checkIndex j length = .ok n) : i = j :=
  Int64.toInt_inj.mp ((checkIndex_eq_ok hi).2.trans (checkIndex_eq_ok hj).2.symm)

theorem asKey?_eq_some {key : Key} (named : v.asKey? = Option.some key) : v = ofKey key := by
  cases v <;> cases named <;> rfl

theorem asKey?_of_keyOf {d : Dict α} {key : Key} (named : keyOf h d index = .ok key) :
    index.asKey? = Option.some key := by
  unfold keyOf at named
  split at named
  · cases named
  · rename_i key' is
    split at named
    · cases named
      exact is
    · split at named
      · cases named
        exact is
      · cases named

/-- Different indices name different keys. -/
theorem keyOf_inj {d d' : Dict α} {key : Key} (hi : keyOf h d index = .ok key)
    (hj : keyOf h d' other = .ok key) : index = other :=
  (asKey?_eq_some (asKey?_of_keyOf hi)).trans (asKey?_eq_some (asKey?_of_keyOf hj)).symm

/-- Only the kind of the keys decides which keys a dictionary takes. -/
theorem keyOf_congr {d d' : Dict α} (same : d'.keyKind = d.keyKind) (index : Value) :
    keyOf h d' index = keyOf h d index := by
  rw [keyOf, keyOf, same]

theorem checkIndex_of_charIndex {cs : List Char} {n : Nat} (found : charIndex h cs index = .ok n) :
    ∃ i, index = int i ∧ checkIndex i cs.length = .ok n := by
  cases index with
  | int i => exact ⟨i, rfl, found⟩
  | _ => cases found

theorem lt_of_charIndex {cs : List Char} {n : Nat} (found : charIndex h cs index = .ok n) :
    n < cs.length := by
  obtain ⟨i, -, found⟩ := checkIndex_of_charIndex found
  exact (checkIndex_eq_ok found).1

theorem charIndex_inj {cs : List Char} {n : Nat} (hi : charIndex h cs index = .ok n)
    (hj : charIndex h cs other = .ok n) : index = other := by
  obtain ⟨i, rfl, hi⟩ := checkIndex_of_charIndex hi
  obtain ⟨j, rfl, hj⟩ := checkIndex_of_charIndex hj
  rw [checkIndex_inj hi hj]

/-- Only the length of a text decides which positions it has. -/
theorem charIndex_congr {cs cs' : List Char} (same : cs'.length = cs.length) (index : Value) :
    charIndex h cs' index = charIndex h cs index := by
  cases index with
  | int i => rw [charIndex, charIndex, same]
  | _ => rfl

theorem getD_set_of_ne {items : List α} {n k : Nat} {a b : α} (apart : n ≠ k) :
    (items.set n a).getD k b = items.getD k b := by
  rw [List.getD_eq_getElem?_getD, List.getD_eq_getElem?_getD, List.getElem?_set_ne apart]

/-- A dictionary takes the keys that it has. -/
theorem keyOf_insert {d : Dict α} {key : Key} (named : keyOf h d index = .ok key) (a : α) :
    keyOf h (d.insert key a) index = .ok key := by
  cases d with
  | ofKind => exact named
  | undetermined =>
    simp only [keyOf, asKey?_of_keyOf named]
    exact if_pos rfl

/-- An entry that is written under the key of an index is not the entry of another index. -/
theorem get?_insert_of_ne {d d' : Dict Value} {key key' : Key} (named : keyOf h d index = .ok key)
    (named' : keyOf h d' other = .ok key') (ne : other ≠ index) :
    (d.insert key new).get? key' = d.get? key' := by
  have apart : key' ≠ key := by
    rintro rfl
    exact ne (keyOf_inj named' named)
  rw [Dict.get?_insert, if_neg apart]

/-- What other keys lead to stays when an entry is written, if the kind of the keys stays. -/
theorem element_insert_of_ne {d : Dict Value} {key : Key} (named : keyOf h d index = .ok key)
    (kind : (d.insert key new).keyKind = d.keyKind) (ne : other ≠ index) :
    element h (dict (d.insert key new)) other = element h (dict d) other := by
  simp only [element, keyOf_congr kind]
  cases hk : keyOf h d other with
  | error fault => rfl
  | ok key' => simp only [get?_insert_of_ne named hk ne]

/-- What a position of a text holds once the value is put there. Only a character goes there. -/
def putChar (h : Handles) (cs : List Char) (n : Nat) : Value → Except Fault Value
  | char c => .ok (ofChars (cs.set n c))
  | new => .error (.typeMismatch "char" (new.typeName h))

theorem eq_char_of_putChar {cs : List Char} {n : Nat} (stored : putChar h cs n new = .ok whole') :
    ∃ c, new = char c ∧ whole' = ofChars (cs.set n c) := by
  cases new with
  | char c =>
    cases stored
    exact ⟨c, rfl, rfl⟩
  | _ => cases stored

/-- The index leads from the whole to a part of it, and `put` gives the whole with another part in
its stead. The items of a tuple have no such slots. -/
inductive Slot (h : Handles) : Value → Value → Value → (Value → Except Fault Value) → Prop
  | item {items : List Value} {i : Int64} {n : Nat} (found : checkIndex i items.length = .ok n) :
    Slot h (list items) (int i) (items.getD n unit) fun new => .ok (list (items.set n new))
  | entry {d : Dict Value} {index part : Value} {key : Key} (named : keyOf h d index = .ok key)
    (there : d.get? key = Option.some part) :
    Slot h (dict d) index part fun new => .ok (dict (d.insert key new))
  | char {s : String} {index : Value} {n : Nat} (found : charIndex h s.toList index = .ok n) :
    Slot h (str s) index (char (s.toList.getD n ' ')) (putChar h s.toList n)

/-- Two containers with the same length and with their entries in the same order. -/
inductive SameShape : Value → Value → Prop
  | list {items items' : List Value} (length : items'.length = items.length) :
    SameShape (list items) (list items')
  | dict {d d' : Dict Value} (kind : d'.keyKind = d.keyKind) (keys : d'.keys = d.keys) :
    SameShape (dict d) (dict d')
  | str {s s' : String} (length : s'.toList.length = s.toList.length) :
    SameShape (str s) (str s')

namespace Slot

theorem element_eq (slot : Slot h whole index part put) : element h whole index = .ok part := by
  cases slot with
  | item found => rw [element, found]; rfl
  | entry named there => simp only [element, named, there]
  | char found => rw [element, found]; rfl

/-- Putting back what is there changes nothing. -/
theorem put_part (slot : Slot h whole index part put) : put part = .ok whole := by
  cases slot with
  | item found =>
    have inside := (checkIndex_eq_ok found).1
    dsimp only
    rw [List.getD_eq_getElem _ _ inside, List.set_getElem_self]
  | entry _ there => exact congrArg (Except.ok ∘ dict) (Dict.insert_eq_self there)
  | @char s index n found =>
    have inside := lt_of_charIndex found
    rw [putChar, ofChars, List.getD_eq_getElem _ _ inside, List.set_getElem_self,
      String.ofList_toList]

/-- What is put into a slot is found there. -/
theorem element_put (slot : Slot h whole index part put) (stored : put new = .ok whole') :
    element h whole' index = .ok new := by
  cases slot with
  | @item items i n found =>
    cases stored
    have inside := (checkIndex_eq_ok found).1
    rw [element, List.length_set, found, Except.map,
      List.getD_eq_getElem _ _ (by rwa [List.length_set]), List.getElem_set_self]
  | entry named there =>
    cases stored
    simp only [element, keyOf_insert named, Dict.get?_insert, if_pos]
  | @char s index n found =>
    obtain ⟨c, rfl, rfl⟩ := eq_char_of_putChar stored
    have inside := lt_of_charIndex found
    rw [ofChars, element, String.toList_ofList, charIndex_congr (List.length_set ..), found,
      Except.map, List.getD_eq_getElem _ _ (by rwa [List.length_set]), List.getElem_set_self]

/-- What other indices lead to stays. -/
theorem element_put_of_ne (slot : Slot h whole index part put) (stored : put new = .ok whole')
    (ne : other ≠ index) : element h whole' other = element h whole other := by
  cases slot with
  | @item items i n found =>
    cases stored
    cases other with
    | int j =>
      rw [element, element, List.length_set]
      cases hj : checkIndex j items.length with
      | error fault => rfl
      | ok k =>
        have apart : n ≠ k := by
          rintro rfl
          exact ne (congrArg int (checkIndex_inj hj found))
        rw [Except.map, Except.map, getD_set_of_ne apart]
    | _ => rfl
  | @entry d index part key named there =>
    cases stored
    exact element_insert_of_ne named (Dict.keyKind_insert there new) ne
  | @char s index n found =>
    obtain ⟨c, rfl, rfl⟩ := eq_char_of_putChar stored
    rw [ofChars, element, element, String.toList_ofList,
      charIndex_congr (List.length_set ..)]
    cases hj : charIndex h s.toList other with
    | error fault => rfl
    | ok k =>
      have apart : n ≠ k := by
        rintro rfl
        exact ne (charIndex_inj hj found)
      rw [Except.map, Except.map, getD_set_of_ne apart]

theorem sameShape (slot : Slot h whole index part put) (stored : put new = .ok whole') :
    SameShape whole whole' := by
  cases slot with
  | item found =>
    cases stored
    exact .list (List.length_set ..)
  | @entry d index part key named there =>
    cases stored
    refine .dict (Dict.keyKind_insert there new) ?_
    rw [Dict.keys_insert, if_pos]
    refine Decidable.of_not_not fun absent => ?_
    rw [Dict.get?_eq_none_iff.mpr absent] at there
    cases there
  | char found =>
    obtain ⟨c, rfl, rfl⟩ := eq_char_of_putChar stored
    refine .str ?_
    rw [String.toList_ofList, List.length_set]

end Slot

end Value

/-- Replaces the value by a result, or fails and leaves it. -/
def Edit.set (result : Except Fault Value) : Edit Unit := .replace fun _ => result

theorem Edit.set_error {result : Except Fault Value} {v new : Value} {fault : Fault}
    (failed : Edit.set result v = .error fault new) : new = v := by
  cases result with
  | ok new => cases failed
  | error fault => cases failed; rfl

/-- The value that an edit leaves. -/
def Edit.left : EStateM.Result Fault Value α → Value
  | .ok _ v => v
  | .error _ v => v

/-- Replacing the value, with a result that does not hang on it. -/
theorem Edit.replace_then (g : Value → Except Fault Value) (a : α) (v : Value) :
    (do Edit.replace g; return a : Edit α) v =
      match g v with
      | .ok new => .ok a new
      | .error fault => .error fault v := by
  show EStateM.bind (Edit.replace g) (fun _ => pure a) v = _
  rw [EStateM.bind, Edit.replace]
  cases g v <;> rfl

namespace Value

/-- An edit of the part that fails without a trace leaves no trace in the whole. -/
theorem Slot.edit_error (slot : Slot h whole index part put) {f : Edit α} {fault : Fault}
    (fails : f part = .error fault part) : editLast h index f whole = .error fault whole := by
  have kept := slot.put_part
  cases slot with
  | item found =>
    simp only [editLast, editElement, found, Edit.within, fails]
    exact congrArg (EStateM.Result.error fault) (Except.ok.inj kept)
  | entry named there =>
    simp only [editLast, editElement, named, there, Edit.within, fails]
    exact congrArg (EStateM.Result.error fault) (Except.ok.inj kept)
  | char found => simp only [editLast, editChar, found, fails]

/-- A whole whose part is replaced is replaced itself. -/
theorem Slot.edit_set (slot : Slot h whole index part put) {f : Edit Unit}
    {result : Except Fault Value} (does : f part = Edit.set result part) :
    editLast h index f whole = Edit.set (result >>= put) whole := by
  cases result with
  | error fault => exact slot.edit_error does
  | ok new =>
    cases slot with
    | item found =>
      simp only [editLast, editElement, found, Edit.within, does]
      rfl
    | entry named there =>
      simp only [editLast, editElement, named, there, Edit.within, does]
      rfl
    | char found =>
      simp only [editLast, editChar, found, does, Text.replaceChar?_eq, Option.getD_some]
      cases new <;> rfl

/-- Where there is no slot, no edit is made. -/
theorem slot_or_stops (h : Handles) (whole index : Value) :
    (∃ part put, Slot h whole index part put) ∨
      ∃ fault, ∀ {α : Type} (f : Edit α), editLast h index f whole = .error fault whole := by
  cases whole with
  | list items =>
    cases index with
    | int i =>
      cases found : checkIndex i items.length with
      | ok n => exact .inl ⟨_, _, .item found⟩
      | error fault => exact .inr ⟨fault, fun f => by simp only [editLast, editElement, found]⟩
    | _ => exact .inr ⟨_, fun f => rfl⟩
  | dict d =>
    cases named : keyOf h d index with
    | ok key =>
      cases there : d.get? key with
      | some part => exact .inl ⟨_, _, .entry named there⟩
      | none =>
        refine .inr ⟨.keyNotFound (index.quoted h), fun f => ?_⟩
        simp only [editLast, editElement, named, there]
    | error fault => exact .inr ⟨fault, fun f => by simp only [editLast, editElement, named]⟩
  | str s =>
    cases found : charIndex h s.toList index with
    | ok n => exact .inl ⟨_, _, .char found⟩
    | error fault => exact .inr ⟨fault, fun f => by simp only [editLast, editChar, found]⟩
  | _ => exact .inr ⟨_, fun f => rfl⟩

/-- The path leads from the whole to a part of it by a slot at each index, and `put` gives the whole
with another part in its stead. -/
inductive Opens (h : Handles) :
    List Value → Value → Value → (Value → Except Fault Value) → Prop
  | here (whole : Value) : Opens h [] whole whole .ok
  | deeper {index : Value} {path : List Value} {whole mid part : Value}
    {put put' : Value → Except Fault Value} (slot : Slot h whole index mid put)
    (opens : Opens h path mid part put') :
    Opens h (index :: path) whole part fun new => put' new >>= put

theorem bind_eq_ok {β : Type} {x : Except Fault α} {k : α → Except Fault β} {b : β} :
    x >>= k = .ok b ↔ ∃ a, x = .ok a ∧ k a = .ok b := by
  cases x with
  | ok a => exact ⟨fun h => ⟨a, rfl, h⟩, fun ⟨_, rfl, h⟩ => h⟩
  | error fault => simp [Bind.bind, Except.bind]

theorem read_append (h : Handles) (path rest : List Value) (v : Value) :
    read h (path ++ rest) v = read h path v >>= read h rest := by
  induction path generalizing v with
  | nil => rfl
  | cons index path ih =>
    rw [List.cons_append, read, read]
    cases element h v index with
    | ok v => exact ih v
    | error fault => rfl

/-- An edit down a path is made one step down by the edit of the rest. A text has nothing but
characters in it, so there the path has to end. -/
theorem edit_cons {f : Edit α} (passes : path = [] ∨ whole.kind ≠ .str) :
    edit h (index :: path) f whole = editLast h index (edit h path f) whole := by
  cases path with
  | nil => rfl
  | cons next path =>
    cases whole with
    | str s => exact absurd rfl (passes.resolve_left (List.cons_ne_nil _ _))
    | _ => rfl

theorem Slot.passes (slot : Slot h whole index mid put) (opens : Opens h path mid part put') :
    path = [] ∨ whole.kind ≠ .str := by
  cases opens with
  | here => exact .inl rfl
  | deeper next _ =>
    cases slot with
    | item | entry =>
      refine .inr fun text => ?_
      cases text
    | char => cases next

namespace Opens

theorem read_eq (opens : Opens h path whole part put) : read h path whole = .ok part := by
  induction opens with
  | here => rfl
  | deeper slot _ ih => rw [read, slot.element_eq]; exact ih

theorem put_part (opens : Opens h path whole part put) : put part = .ok whole := by
  induction opens with
  | here => rfl
  | deeper slot _ ih =>
    dsimp only
    rw [ih]
    exact slot.put_part

theorem read_put (opens : Opens h path whole part put) (stored : put new = .ok whole') :
    read h path whole' = .ok new := by
  induction opens generalizing whole' with
  | here => rw [read, stored]
  | deeper slot _ ih =>
    obtain ⟨mid', inner, outer⟩ := bind_eq_ok.mp stored
    rw [read, slot.element_put outer]
    exact ih inner

/-- What does not lie on the way is read as before. -/
theorem read_put_of_apart (opens : Opens h path whole part put) (stored : put new = .ok whole')
    (off : ¬ q <+: path) (beyond : ¬ path <+: q) : read h q whole' = read h q whole := by
  induction opens generalizing whole' q with
  | here => exact absurd List.nil_prefix beyond
  | @deeper index path _ _ _ _ _ slot _ ih =>
    obtain ⟨mid', inner, outer⟩ := bind_eq_ok.mp stored
    cases q with
    | nil => exact absurd List.nil_prefix off
    | cons other rest =>
      rw [read, read]
      by_cases same : other = index
      · subst same
        rw [List.prefix_cons_inj] at off beyond
        rw [slot.element_put outer, slot.element_eq]
        exact ih inner off beyond
      · rw [slot.element_put_of_ne outer same]

/-- Whatever the place lies in keeps its shape. -/
theorem sameShape (opens : Opens h path whole part put) (stored : put new = .ok whole')
    (above : q <+: path) (strict : q ≠ path) :
    ∃ v v', read h q whole = .ok v ∧ read h q whole' = .ok v' ∧ SameShape v v' := by
  induction opens generalizing whole' q with
  | here => exact absurd (List.prefix_nil.mp above) strict
  | @deeper index path whole _ _ _ _ slot _ ih =>
    obtain ⟨mid', inner, outer⟩ := bind_eq_ok.mp stored
    cases q with
    | nil => exact ⟨whole, whole', rfl, rfl, slot.sameShape outer⟩
    | cons other rest =>
      obtain ⟨same, below⟩ := List.cons_prefix_cons.mp above
      subst same
      obtain ⟨v, v', before, after, shape⟩ := ih inner below fun same => strict (by rw [same])
      refine ⟨v, v', ?_, ?_, shape⟩
      · rw [read, slot.element_eq]
        exact before
      · rw [read, slot.element_put outer]
        exact after

/-- A whole with a part that is replaced is replaced itself. -/
theorem edit_set (opens : Opens h path whole part put) {f : Edit Unit} {result : Except Fault Value}
    (does : f part = Edit.set result part) :
    edit h path f whole = Edit.set (result >>= put) whole := by
  induction opens with
  | here =>
    rw [edit, does]
    cases result <;> rfl
  | @deeper index path whole mid part put put' slot opens ih =>
    have inner := slot.edit_set (ih does)
    rw [bind_assoc] at inner
    rw [edit_cons (slot.passes opens)]
    exact inner

theorem edit_replace (opens : Opens h path whole part put) (g : Value → Except Fault Value) :
    edit h path (.replace g) whole = Edit.set (g part >>= put) whole := opens.edit_set rfl

/-- What is there can be replaced by itself. -/
theorem not_stops (opens : Opens h path whole part put) :
    ¬ ∀ f : Edit Unit, ∃ fault, edit h path f whole = .error fault whole := by
  intro stops
  obtain ⟨fault, fails⟩ := stops (.replace .ok)
  have kept : (Except.ok part >>= put) = .ok whole := opens.put_part
  rw [opens.edit_replace, kept] at fails
  cases fails

end Opens

/-- Where a path does not lead through slots, no edit is made. -/
theorem opens_or_stops (h : Handles) (path : List Value) (whole : Value) :
    (∃ part put, Opens h path whole part put) ∨
      ∀ {α : Type} (f : Edit α), ∃ fault, edit h path f whole = .error fault whole := by
  induction path generalizing whole with
  | nil => exact .inl ⟨_, _, .here whole⟩
  | cons index path ih =>
    by_cases passes : path = [] ∨ whole.kind ≠ .str
    · rcases slot_or_stops h whole index with ⟨mid, put, slot⟩ | ⟨fault, stops⟩
      · rcases ih mid with ⟨part, put', opens⟩ | stops
        · exact .inl ⟨_, _, .deeper slot opens⟩
        · refine .inr fun f => ?_
          obtain ⟨fault, fails⟩ := stops f
          exact ⟨fault, (edit_cons passes).trans (slot.edit_error fails)⟩
      · exact .inr fun f => ⟨fault, (edit_cons passes).trans (stops _)⟩
    · -- what comes behind the position of a text
      obtain ⟨more, text⟩ := not_or.mp passes
      cases path with
      | nil => exact absurd rfl more
      | cons next path =>
        cases whole with
        | str s => exact .inr fun f => ⟨_, rfl⟩
        | _ => exact absurd (by rintro ⟨⟩) text

end Value

end TreeScript
