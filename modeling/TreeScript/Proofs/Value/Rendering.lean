import Mathlib.Data.List.Forall2
import TreeScript.Proofs.Number.Numerals
import TreeScript.Proofs.Text.Escapes
import TreeScript.Proofs.Value.Proper
import TreeScript.Value.Text

/-!
# The text of collections tells what they hold

Inside a collection every value is written so that it can be seen where it ends: text and characters
stand in quotes, collections in brackets of their own, and a number ends where its digits do. So two
collections of data with the same text are the same tree. Of dictionaries the text tells the entries
and not the kind of the keys.
-/
namespace TreeScript

open Text (quoteString_append_inj quoteChar_append_inj)

namespace Integer

/-- A character that the text of an integer can be made of. -/
def isNumeric (c : Char) : Bool := c.isDigit || c == '-'

theorem isNumeric_write (n : Int64) : ∀ c ∈ write n, isNumeric c = true := by
  have digits (k : Nat) : ∀ c ∈ Number.writeNat k, isNumeric c = true := by
    intro c mem
    rw [isNumeric, (Number.digits_writeNat k).all c mem, Bool.true_or]
  unfold write
  split
  · rw [List.forall_mem_cons]
    exact ⟨by decide, digits _⟩
  · exact digits _

end Integer

/-- An integer would end before this text. -/
def EndsNumber (rest : List Char) : Prop := ∀ c ∈ rest.head?, Integer.isNumeric c = false

theorem endsNumber_cons {c : Char} {rest : List Char} (ends : Integer.isNumeric c = false) :
    EndsNumber (c :: rest) := by
  intro d is
  cases is
  exact ends

theorem Integer.write_append_inj {n m : Int64} {rest rest' : List Char} (ends : EndsNumber rest)
    (ends' : EndsNumber rest') (same : write n ++ rest = write m ++ rest') :
    n = m ∧ rest = rest' := by
  have left : rest = rest' := by
    rw [← Text.dropWhile_append_stop (isNumeric_write n) ends, same,
      Text.dropWhile_append_stop (isNumeric_write m) ends']
  subst left
  have texts := List.append_cancel_right same
  have read := congrArg read? texts
  rw [read?_write, read?_write] at read
  exact ⟨Option.some.inj read, rfl⟩

namespace Value

/-- The kinds of values that are told by their text. -/
def dataKinds : List Kind := [.int, .bool, .char, .str, .list, .tuple, .dict, .option]

/-- The kinds of values that hold others. -/
def collectionKinds : List Kind := [.list, .tuple, .dict, .option]

/-- Integers, booleans, characters, texts, and what is made of them with lists, tuples, dictionaries
and options. -/
def IsData (v : Value) : Prop := v.Throughout fun w => w.kind ∈ dataKinds

/-- The same tree: the same kinds and scalars, and the same items and entries in the same order. Of
dictionaries the kind that is fixed for the keys does not count. -/
inductive SameTree : Value → Value → Prop
  | int (n : Int64) : SameTree (int n) (int n)
  | bool (b : Bool) : SameTree (bool b) (bool b)
  | char (c : Char) : SameTree (char c) (char c)
  | str (s : String) : SameTree (str s) (str s)
  | list {items items' : List Value} (same : List.Forall₂ SameTree items items') :
      SameTree (list items) (list items')
  | tuple {items items' : List Value} (same : List.Forall₂ SameTree items items') :
      SameTree (tuple items) (tuple items')
  | dict {d d' : Dict Value} (keys : d.keys = d'.keys)
      (values : List.Forall₂ SameTree d.values d'.values) : SameTree (dict d) (dict d')
  | none : SameTree none none
  | some {v w : Value} (same : SameTree v w) : SameTree (some v) (some w)

variable {h h' : Handles} {v w : Value} {k k' : Key} {rest rest' : List Char}

theorem IsData.kind (data : v.IsData) : v.kind ∈ dataKinds := (throughout_iff.mp data).1

theorem IsData.children (data : v.IsData) : ∀ u ∈ v.children, u.IsData := (throughout_iff.mp data).2

/-- The kind of the data whose text begins with this character. -/
def kindOfFirst : Char → Option Kind
  | '[' => Option.some .list
  | '(' => Option.some .tuple
  | '\x7b' => Option.some .dict
  | '\'' => Option.some .char
  | '"' => Option.some .str
  | 't' => Option.some .bool
  | 'f' => Option.some .bool
  | 'n' => Option.some .option
  | 's' => Option.some .option
  | c => if Integer.isNumeric c then Option.some .int else Option.none

theorem kindOfFirst_of_isNumeric {c : Char} (numeric : Integer.isNumeric c = true) :
    kindOfFirst c = Option.some .int := by
  unfold kindOfFirst
  split
  case h_10 => rw [if_pos numeric]
  all_goals exact absurd numeric (by decide)

theorem exists_first (h : Handles) (data : v.kind ∈ dataKinds) :
    ∃ c more, nested h v = c :: more ∧ kindOfFirst c = Option.some v.kind := by
  cases v with
  | int n =>
    have numeric := Integer.isNumeric_write n
    cases written : Integer.write n with
    | nil =>
      have read := Integer.read?_write n
      rw [written] at read
      cases read
    | cons c more =>
      rw [written] at numeric
      exact ⟨c, more, written, kindOfFirst_of_isNumeric (numeric c List.mem_cons_self)⟩
  | bool b => cases b <;> exact ⟨_, _, rfl, rfl⟩
  | dict d => cases d <;> exact ⟨_, _, rfl, rfl⟩
  | char | str | list | tuple | none | some => exact ⟨_, _, rfl, rfl⟩
  | float | file | closure | object | module | unit => simp [Value.kind, dataKinds] at data

/-- The first character tells what kind of data is written. -/
theorem kind_eq_of_append (hv : v.kind ∈ dataKinds) (hw : w.kind ∈ dataKinds)
    (same : nested h v ++ rest = nested h' w ++ rest') : v.kind = w.kind := by
  obtain ⟨c, more, written, first⟩ := exists_first h hv
  obtain ⟨c', more', written', first'⟩ := exists_first h' hw
  rw [written, written', List.cons_append, List.cons_append] at same
  rw [(List.cons.inj same).1, first'] at first
  exact (Option.some.inj first).symm

theorem writeKey_eq (h : Handles) (k : Key) : writeKey k = nested h (ofKey k) := by
  cases k <;> rfl

theorem kind_ofKey (k : Key) : (ofKey k).kind ∈ dataKinds := by
  cases k <;> simp [ofKey, Value.kind, dataKinds]

theorem writeKey_append_inj (ends : EndsNumber rest) (ends' : EndsNumber rest')
    (same : writeKey k ++ rest = writeKey k' ++ rest') : k = k' ∧ rest = rest' := by
  let h : Handles := ⟨fun _ => "", fun _ => Option.none, fun _ => "", fun _ => false⟩
  have kind : (ofKey k).kind = (ofKey k').kind := by
    rw [writeKey_eq h, writeKey_eq h] at same
    exact kind_eq_of_append (kind_ofKey k) (kind_ofKey k') same
  cases k with
  | int n =>
    cases k' with
    | int m =>
      obtain ⟨rfl, rests⟩ := Integer.write_append_inj ends ends' same
      exact ⟨rfl, rests⟩
    | _ => cases kind
  | bool b =>
    cases k' with
    | bool b' =>
      cases b <;> cases b' <;> simp [writeKey] at same ⊢ <;> exact same
    | _ => cases kind
  | char c =>
    cases k' with
    | char c' =>
      obtain ⟨rfl, rests⟩ := quoteChar_append_inj same
      exact ⟨rfl, rests⟩
    | _ => cases kind
  | str s =>
    cases k' with
    | str s' =>
      obtain ⟨chars, rests⟩ := quoteString_append_inj same
      exact ⟨congrArg Key.str (String.toList_inj.mp chars), rests⟩
    | _ => cases kind

end Value

section Rows

variable {α : Type} {write write' : α → List Char} {Same : α → α → Prop} {x y : α} {xs ys : List α}
  {close : Char} {rest rest' : List Char}

/-- Where two written things are followed by text that ends a number, they are told apart unless
they are the same, and one ends where the other does. -/
def Told (write write' : α → List Char) (Same : α → α → Prop) (x y : α) : Prop :=
  ∀ rest rest', EndsNumber rest → EndsNumber rest' → write x ++ rest = write' y ++ rest' →
    Same x y ∧ rest = rest'

/-- The brackets that close collections. -/
def IsClosing (c : Char) : Prop := c ∈ [']', ')', '\x7d']

/-- Pieces that come after another one. -/
def behindCommas (write : α → List Char) (xs : List α) : List Char :=
  xs.flatMap fun x => ',' :: ' ' :: write x

theorem commaSeparated_cons (write : α → List Char) (x : α) (xs : List α) :
    Value.commaSeparated ((x :: xs).map write) = write x ++ behindCommas write xs := by
  induction xs generalizing x with
  | nil => simp [Value.commaSeparated, behindCommas]
  | cons y ys ih =>
    rw [List.map_cons, List.map_cons, Value.commaSeparated, ← List.map_cons, ih]
    · rfl
    · simp

theorem endsNumber_behindCommas (closing : IsClosing close) (write : α → List Char) (xs : List α)
    (rest : List Char) : EndsNumber (behindCommas write xs ++ close :: rest) := by
  cases xs with
  | nil =>
    simp only [IsClosing, List.mem_cons, List.not_mem_nil, or_false] at closing
    rcases closing with rfl | rfl | rfl <;> exact endsNumber_cons (by decide)
  | cons x xs => exact endsNumber_cons (by decide)

theorem behindCommas_append_inj (closing : IsClosing close)
    (told : ∀ x ∈ xs, ∀ y ∈ ys, Told write write' Same x y)
    (same : behindCommas write xs ++ close :: rest = behindCommas write' ys ++ close :: rest') :
    List.Forall₂ Same xs ys ∧ rest = rest' := by
  have noComma : close ≠ ',' := by
    rintro rfl
    simp [IsClosing] at closing
  induction xs generalizing ys with
  | nil =>
    cases ys with
    | nil => exact ⟨.nil, (List.cons.inj same).2⟩
    | cons y ys => exact absurd (List.cons.inj same).1 noComma
  | cons x xs ih =>
    cases ys with
    | nil => exact absurd (List.cons.inj same).1.symm noComma
    | cons y ys =>
      simp only [behindCommas, List.flatMap_cons, List.cons_append, List.append_assoc,
        List.cons.injEq, true_and] at same
      obtain ⟨first, left⟩ := told x List.mem_cons_self y List.mem_cons_self _ _
        (endsNumber_behindCommas closing write xs rest)
        (endsNumber_behindCommas closing write' ys rest') same
      obtain ⟨others, rests⟩ := ih (fun x hx y hy => told x (.tail _ hx) y (.tail _ hy)) left
      exact ⟨.cons first others, rests⟩

/-- A row in brackets tells its pieces, if none of them begins like the closing bracket. -/
theorem row_append_inj (closing : IsClosing close)
    (told : ∀ x ∈ xs, ∀ y ∈ ys, Told write write' Same x y)
    (first : ∀ x ∈ xs, ∃ c more, write x = c :: more ∧ c ≠ close)
    (first' : ∀ y ∈ ys, ∃ c more, write' y = c :: more ∧ c ≠ close)
    (same : Value.commaSeparated (xs.map write) ++ close :: rest =
      Value.commaSeparated (ys.map write') ++ close :: rest') :
    List.Forall₂ Same xs ys ∧ rest = rest' := by
  cases xs with
  | nil =>
    cases ys with
    | nil => exact ⟨.nil, (List.cons.inj same).2⟩
    | cons y ys =>
      obtain ⟨c, more, written, other⟩ := first' y List.mem_cons_self
      rw [commaSeparated_cons, written] at same
      exact absurd (List.cons.inj same).1.symm other
  | cons x xs =>
    cases ys with
    | nil =>
      obtain ⟨c, more, written, other⟩ := first x List.mem_cons_self
      rw [commaSeparated_cons, written] at same
      exact absurd (List.cons.inj same).1 other
    | cons y ys =>
      rw [commaSeparated_cons, commaSeparated_cons, List.append_assoc, List.append_assoc] at same
      obtain ⟨front, left⟩ := told x List.mem_cons_self y List.mem_cons_self _ _
        (endsNumber_behindCommas closing write xs rest)
        (endsNumber_behindCommas closing write' ys rest') same
      obtain ⟨others, rests⟩ := behindCommas_append_inj closing
        (fun x hx y hy => told x (.tail _ hx) y (.tail _ hy)) left
      exact ⟨.cons front others, rests⟩

end Rows

namespace Value

variable {h h' : Handles} {v w : Value} {items items' : List Value}
  {entries entries' : List (Key × Value)} {close : Char} {rest rest' : List Char}

/-- The text of an entry of a dictionary. -/
def writeEntry (h : Handles) (e : Key × Value) : List Char :=
  writeKey e.1 ++ ':' :: ' ' :: nested h e.2

theorem nestedItems_eq (h : Handles) (items : List Value) :
    nestedItems h items = items.map (nested h) := by
  induction items with
  | nil => rfl
  | cons v items ih => rw [nestedItems, ih, List.map_cons]

theorem nestedEntries_eq (h : Handles) (entries : List (Key × Value)) :
    nestedEntries h entries = entries.map (writeEntry h) := by
  induction entries with
  | nil => rfl
  | cons e entries ih => rw [nestedEntries, ih, List.map_cons, writeEntry]

theorem nested_list (h : Handles) (items : List Value) :
    nested h (list items) = '[' :: (commaSeparated (nestedItems h items) ++ [']']) := rfl

theorem nested_tuple (h : Handles) (items : List Value) :
    nested h (tuple items) = '(' :: (commaSeparated (nestedItems h items) ++ [')']) := rfl

theorem nested_some (h : Handles) (v : Value) :
    nested h (some v) = "some(".toList ++ (nested h v ++ [')']) :=
  List.append_assoc ..

theorem nested_dict (h : Handles) (d : Dict Value) :
    nested h (dict d) =
      '\x7b' :: (commaSeparated (d.entries.map (writeEntry h)) ++ ['\x7d']) := by
  cases d with
  | undetermined => rfl
  | ofKind kind entries =>
    show '\x7b' :: (commaSeparated (nestedEntries h entries) ++ ['\x7d']) = _
    rw [nestedEntries_eq]
    rfl

theorem first_ne_closing (closing : IsClosing close) (data : v.kind ∈ dataKinds) :
    ∃ c more, nested h v = c :: more ∧ c ≠ close := by
  obtain ⟨c, more, written, first⟩ := exists_first h data
  refine ⟨c, more, written, ?_⟩
  rintro rfl
  simp only [IsClosing, List.mem_cons, List.not_mem_nil, or_false] at closing
  rcases closing with rfl | rfl | rfl <;> cases first

theorem items_append_inj (closing : IsClosing close) (hv : ∀ u ∈ items, u.IsData)
    (hw : ∀ u ∈ items', u.IsData)
    (told : ∀ u ∈ items, ∀ u' ∈ items', Told (nested h) (nested h') SameTree u u')
    (same : commaSeparated (nestedItems h items) ++ close :: rest =
      commaSeparated (nestedItems h' items') ++ close :: rest') :
    List.Forall₂ SameTree items items' ∧ rest = rest' := by
  rw [nestedItems_eq, nestedItems_eq] at same
  exact row_append_inj closing told (fun u mem => first_ne_closing closing (hv u mem).kind)
    (fun u mem => first_ne_closing closing (hw u mem).kind) same

/-- The same key with the same tree. -/
def SameEntry (e e' : Key × Value) : Prop := e.1 = e'.1 ∧ SameTree e.2 e'.2

theorem told_entry {e e' : Key × Value} (told : Told (nested h) (nested h') SameTree e.2 e'.2) :
    Told (writeEntry h) (writeEntry h') SameEntry e e' := by
  intro rest rest' ends ends' same
  rw [writeEntry, writeEntry, List.append_assoc, List.append_assoc] at same
  obtain ⟨key, left⟩ := writeKey_append_inj (endsNumber_cons (by decide))
    (endsNumber_cons (by decide)) same
  have separated := (List.cons.inj (List.cons.inj left).2).2
  obtain ⟨value, rests⟩ := told rest rest' ends ends' separated
  exact ⟨⟨key, value⟩, rests⟩

theorem sameTree_dict {d d' : Dict Value} (same : List.Forall₂ SameEntry d.entries d'.entries) :
    SameTree (dict d) (dict d') := by
  refine .dict ?_ ?_
  · rw [Dict.keys, Dict.keys, ← List.forall₂_eq_eq_eq, List.forall₂_map_left_iff,
      List.forall₂_map_right_iff]
    exact same.imp fun _ _ entry => entry.1
  · rw [Dict.values, Dict.values, List.forall₂_map_left_iff, List.forall₂_map_right_iff]
    exact same.imp fun _ _ entry => entry.2

theorem first_of_entry (closing : IsClosing close) (e : Key × Value) :
    ∃ c more, writeEntry h e = c :: more ∧ c ≠ close := by
  obtain ⟨c, more, written, other⟩ := first_ne_closing (h := h) closing (kind_ofKey e.1)
  exact ⟨c, _, by rw [writeEntry, writeKey_eq h, written, List.cons_append], other⟩

theorem entries_append_inj {d d' : Dict Value}
    (told : ∀ u ∈ d.values, ∀ u' ∈ d'.values, Told (nested h) (nested h') SameTree u u')
    (same : nested h (dict d) ++ rest = nested h' (dict d') ++ rest') :
    SameTree (dict d) (dict d') ∧ rest = rest' := by
  have closing : IsClosing '\x7d' := by simp [IsClosing]
  rw [nested_dict, nested_dict] at same
  simp only [List.cons_append, List.append_assoc, List.nil_append, List.cons.injEq,
    true_and] at same
  have toldEntries : ∀ e ∈ d.entries, ∀ e' ∈ d'.entries,
      Told (writeEntry h) (writeEntry h') SameEntry e e' := fun e mem e' mem' =>
    told_entry (told e.2 (List.mem_map_of_mem mem) e'.2 (List.mem_map_of_mem mem'))
  obtain ⟨entries, rests⟩ := row_append_inj closing toldEntries
    (fun e _ => first_of_entry closing e) (fun e _ => first_of_entry closing e) same
  exact ⟨sameTree_dict entries, rests⟩

/-- Data are told by what is written for them, whatever follows. The induction is on what the first
of the two holds. -/
theorem told_data (h h' : Handles) (v : Value) :
    v.IsData → ∀ w : Value, w.IsData → Told (nested h) (nested h') SameTree v w := by
  induction v using Value.induction with
  | step v ih =>
    intro hv w hw rest rest' ends ends' same
    have kind := kind_eq_of_append hv.kind hw.kind same
    have told : ∀ u ∈ v.children, ∀ u' ∈ w.children, Told (nested h) (nested h') SameTree u u' :=
      fun u mem u' mem' => ih u mem (hv.children u mem) u' (hw.children u' mem')
    cases v with
    | int n =>
      cases w with
      | int m =>
        obtain ⟨rfl, rests⟩ := Integer.write_append_inj ends ends' same
        exact ⟨.int n, rests⟩
      | _ => cases kind
    | bool b =>
      cases w with
      | bool b' =>
        have key : Key.bool b = .bool b' ∧ rest = rest' := writeKey_append_inj ends ends' same
        obtain ⟨⟨⟩, rests⟩ := key
        exact ⟨.bool b, rests⟩
      | _ => cases kind
    | char c =>
      cases w with
      | char c' =>
        obtain ⟨rfl, rests⟩ := quoteChar_append_inj same
        exact ⟨.char c, rests⟩
      | _ => cases kind
    | str s =>
      cases w with
      | str s' =>
        obtain ⟨chars, rests⟩ := quoteString_append_inj same
        obtain rfl := String.toList_inj.mp chars
        exact ⟨.str s, rests⟩
      | _ => cases kind
    | list items =>
      cases w with
      | list items' =>
        rw [nested_list, nested_list] at same
        simp only [List.cons_append, List.append_assoc, List.nil_append, List.cons.injEq,
          true_and] at same
        obtain ⟨trees, rests⟩ := items_append_inj (by simp [IsClosing]) hv.children hw.children
          told same
        exact ⟨.list trees, rests⟩
      | _ => cases kind
    | tuple items =>
      cases w with
      | tuple items' =>
        rw [nested_tuple, nested_tuple] at same
        simp only [List.cons_append, List.append_assoc, List.nil_append, List.cons.injEq,
          true_and] at same
        obtain ⟨trees, rests⟩ := items_append_inj (by simp [IsClosing]) hv.children hw.children
          told same
        exact ⟨.tuple trees, rests⟩
      | _ => cases kind
    | dict d =>
      cases w with
      | dict d' => exact entries_append_inj told same
      | _ => cases kind
    | none =>
      cases w with
      | none => exact ⟨.none, List.append_cancel_left same⟩
      | some w => cases (List.cons.inj same).1
      | _ => cases kind
    | some v =>
      cases w with
      | none => cases (List.cons.inj same).1
      | some w =>
        rw [nested_some, nested_some, List.append_assoc, List.append_assoc, List.append_assoc,
          List.append_assoc] at same
        obtain ⟨tree, left⟩ := told v List.mem_cons_self w List.mem_cons_self _ _
          (endsNumber_cons (by decide)) (endsNumber_cons (by decide)) (List.append_cancel_left same)
        exact ⟨.some tree, (List.cons.inj left).2⟩
      | _ => cases kind
    | float | file | closure | object | module | unit =>
      exact absurd hv.kind (by simp [Value.kind, dataKinds])

theorem map_eq_of_forall₂ {α β γ : Type} {R : α → β → Prop} {f : α → γ} {g : β → γ} {xs : List α}
    {ys : List β} (related : List.Forall₂ R xs ys) (same : ∀ x ∈ xs, ∀ y, R x y → f x = g y) :
    xs.map f = ys.map g := by
  induction related with
  | nil => rfl
  | cons first others ih =>
    rw [List.map_cons, List.map_cons, same _ List.mem_cons_self _ first,
      ih fun x mem => same x (.tail _ mem)]

theorem writeEntries_eq (h : Handles) (d : Dict Value) :
    d.entries.map (writeEntry h) =
      List.zipWith (fun k text => writeKey k ++ ':' :: ' ' :: text) d.keys
        (d.values.map (nested h)) := by
  rw [Dict.keys, Dict.values, List.map_map, List.zipWith_map, List.zipWith_self]
  rfl

theorem nested_eq_of_sameTree (h h' : Handles) (v : Value) :
    ∀ w, SameTree v w → nested h v = nested h' w := by
  induction v using Value.induction with
  | step v ih =>
    intro w same
    cases same with
    | int | bool | char | str | none => rfl
    | list trees =>
      rw [nested_list, nested_list, nestedItems_eq, nestedItems_eq, map_eq_of_forall₂ trees ih]
    | tuple trees =>
      rw [nested_tuple, nested_tuple, nestedItems_eq, nestedItems_eq, map_eq_of_forall₂ trees ih]
    | dict keys values =>
      rw [nested_dict, nested_dict, writeEntries_eq, writeEntries_eq, keys,
        map_eq_of_forall₂ values ih]
    | some tree => rw [nested_some, nested_some, ih _ List.mem_cons_self _ tree]

theorem text_of_collection (h : Handles) (collection : v.kind ∈ collectionKinds) :
    text h v = String.ofList (nested h v) := by
  cases v with
  | char | str => simp [Value.kind, collectionKinds] at collection
  | _ => rfl

/-- **Texts of collections are unambiguous.** Two lists, tuples, dictionaries or options of data
have the same text, be it at different times, just when they are the same tree. -/
theorem text_eq_iff_sameTree (h h' : Handles) (hv : v.IsData) (hw : w.IsData)
    (collection : v.kind ∈ collectionKinds) (collection' : w.kind ∈ collectionKinds) :
    text h v = text h' w ↔ SameTree v w := by
  rw [text_of_collection h collection, text_of_collection h' collection', String.ofList_inj]
  constructor
  · intro same
    have ends : EndsNumber [] := by simp [EndsNumber]
    exact (told_data h h' v hv w hw [] [] ends ends (congrArg (· ++ []) same)).1
  · exact nested_eq_of_sameTree h h' v w

/-- A text with quotes and a comma in it is not taken for two texts, and that one of two empty
dictionaries has a kind of keys is not told. -/
theorem texts_with_separators :
    let h : Handles := ⟨fun _ => "", fun _ => Option.none, fun _ => "", fun _ => false⟩
    let quotes : Value := list [str "a\", \"b", tuple [char ','], some (dict .undetermined)]
    let kindFixed : Value := list [str "a\", \"b", tuple [char ','], some (dict (.ofKind .str []))]
    let apart : Value := list [str "a", str "b", tuple [char ','], some (dict .undetermined)]
    quotes.IsData ∧ kindFixed.IsData ∧ apart.IsData ∧
      text h quotes = text h kindFixed ∧ text h quotes ≠ text h apart := by
  intro h quotes kindFixed apart
  have hq : quotes.IsData := by
    show ∀ w ∈ quotes.parts, w.kind ∈ dataKinds
    decide
  have hk : kindFixed.IsData := by
    show ∀ w ∈ kindFixed.parts, w.kind ∈ dataKinds
    decide
  have ha : apart.IsData := by
    show ∀ w ∈ apart.parts, w.kind ∈ dataKinds
    decide
  refine ⟨hq, hk, ha, ?_, ?_⟩
  · refine (text_eq_iff_sameTree h h hq hk (by decide) (by decide)).mpr ?_
    exact .list (.cons (.str _) (.cons (.tuple (.cons (.char _) .nil))
      (.cons (.some (.dict rfl .nil)) .nil)))
  · rw [Ne, text_eq_iff_sameTree h h hq ha (by decide) (by decide)]
    intro same
    have same : SameTree (list _) (list _) := same
    cases same with
    | list trees => exact absurd trees.length_eq (by decide)

end Value

end TreeScript
