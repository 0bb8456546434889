import TreeScript.Intrinsic
import TreeScript.Member.Table
import TreeScript.Proofs.Dict.Keys

/-!
# What values name

A value names the contexts that a program gets to through it: by its instances, its modules and its
closures. Whatever is computed from values by reading, operators and members names nothing but what
they do, and its dictionaries come about by insertion, removal and the replacement of values. So it
has every property of values that hangs on this alone, and if there is no result, the fault does not
tell of code that has lost its World.
-/
namespace TreeScript

/-- A fault that tells of code that has outlived its World, or that has none. -/
def Fault.stray : Fault → Bool
  | functionOutlived _ | closureOutlived | classOutsideWorld | importOutsideWorld => true
  | _ => false

mutual

/-- The contexts that a value names: instances, modules, and those that its closures were created
in. -/
def Value.contexts : Value → List CtxId
  | .list items => contextsOfItems items
  | .tuple items => contextsOfItems items
  | .dict (.ofKind _ entries) => contextsOfEntries entries
  | .some v => v.contexts
  | .closure c => [c.captured]
  | .object c => [c]
  | .module w => [w]
  | _ => []

def contextsOfItems : List Value → List CtxId
  | [] => []
  | v :: rest => v.contexts ++ contextsOfItems rest

def contextsOfEntries : List (Key × Value) → List CtxId
  | [] => []
  | (_, v) :: rest => v.contexts ++ contextsOfEntries rest

end

theorem contextsOfItems_eq (items : List Value) :
    contextsOfItems items = items.flatMap Value.contexts := by
  induction items with
  | nil => rfl
  | cons v rest ih => rw [contextsOfItems, ih, List.flatMap_cons]

theorem contextsOfEntries_eq (entries : List (Key × Value)) :
    contextsOfEntries entries = entries.flatMap fun e => e.2.contexts := by
  induction entries with
  | nil => rfl
  | cons e rest ih => rw [contextsOfEntries, ih, List.flatMap_cons]

namespace Value

/-- All contexts that the value names satisfy `P`. -/
def Within (P : CtxId → Prop) (v : Value) : Prop := ∀ c ∈ v.contexts, P c

variable {P Q : CtxId → Prop} {h : Handles} {v w : Value}

theorem Within.mono (hv : v.Within P) (hPQ : ∀ c, P c → Q c) : v.Within Q :=
  fun c hc => hPQ c (hv c hc)

/-- A value names no context if there is none in it. -/
theorem within_of_eq_nil (hv : v.contexts = []) : v.Within P := by
  intro c hc
  rw [hv] at hc
  cases hc

@[simp] theorem within_int (n : Int64) : (int n).Within P := within_of_eq_nil rfl
@[simp] theorem within_float (x : Float) : (float x).Within P := within_of_eq_nil rfl
@[simp] theorem within_bool (b : Bool) : (bool b).Within P := within_of_eq_nil rfl
@[simp] theorem within_char (c : Char) : (char c).Within P := within_of_eq_nil rfl
@[simp] theorem within_str (s : String) : (str s).Within P := within_of_eq_nil rfl
@[simp] theorem within_none : none.Within P := within_of_eq_nil rfl
@[simp] theorem within_unit : unit.Within P := within_of_eq_nil rfl
@[simp] theorem within_file (f : FileId) : (file f).Within P := within_of_eq_nil rfl
@[simp] theorem within_ofChars (cs : List Char) : (ofChars cs).Within P := within_of_eq_nil rfl
@[simp] theorem within_ofLength (n : Nat) : (ofLength n).Within P := within_of_eq_nil rfl

@[simp] theorem within_ofKey (k : Key) : (ofKey k).Within P := by
  cases k <;> exact within_of_eq_nil rfl

@[simp] theorem within_object {c : CtxId} : (object c).Within P ↔ P c := by
  simp [Within, contexts]

@[simp] theorem within_module {c : CtxId} : (module c).Within P ↔ P c := by
  simp [Within, contexts]

@[simp] theorem within_closure {c : Closure} : (closure c).Within P ↔ P c.captured := by
  simp [Within, contexts]

@[simp] theorem within_some : (some v).Within P ↔ v.Within P := by
  simp [Within, contexts]

@[simp] theorem within_list {items : List Value} :
    (list items).Within P ↔ ∀ v ∈ items, v.Within P := by
  simp only [Within, contexts, contextsOfItems_eq, List.mem_flatMap]
  exact ⟨fun hv v hi c hc => hv c ⟨v, hi, hc⟩, fun hv c ⟨v, hi, hc⟩ => hv v hi c hc⟩

@[simp] theorem within_tuple {items : List Value} :
    (tuple items).Within P ↔ ∀ v ∈ items, v.Within P := within_list

theorem contexts_dict (d : Dict Value) :
    (dict d).contexts = d.entries.flatMap fun e => e.2.contexts := by
  cases d with
  | undetermined => rfl
  | ofKind kind entries => exact contextsOfEntries_eq entries

@[simp] theorem within_dict {d : Dict Value} :
    (dict d).Within P ↔ ∀ e ∈ d.entries, e.2.Within P := by
  simp only [Within, contexts_dict, List.mem_flatMap]
  exact ⟨fun hv e hi c hc => hv c ⟨e, hi, hc⟩, fun hv c ⟨e, hi, hc⟩ => hv e hi c hc⟩

end Value

namespace Dict

variable {α : Type} {p : α → Prop} {d : Dict α} {key : Key}

theorem forall_of_get? {value : α} (hd : ∀ e ∈ d.entries, p e.2) (hg : d.get? key = some value) :
    p value := by
  obtain ⟨before, after, he, -⟩ := List.lookup_eq_some_iff.mp hg
  exact hd (key, value) (by simp [he])

theorem forall_insertEntry {value : α} (hv : p value) :
    ∀ entries : List (Key × α), (∀ e ∈ entries, p e.2) → ∀ e ∈ insertEntry key value entries, p e.2
  | [], _, e, he => by
    rw [insertEntry, List.mem_singleton] at he
    exact he ▸ hv
  | (k, v) :: rest, hd, e, he => by
    have hrest : ∀ e ∈ rest, p e.2 := fun e he => hd e (List.mem_cons_of_mem _ he)
    rw [insertEntry] at he
    split at he
    · rcases List.mem_cons.mp he with rfl | he
      · exact hv
      · exact hrest e he
    · rcases List.mem_cons.mp he with rfl | he
      · exact hd _ List.mem_cons_self
      · exact forall_insertEntry hv rest hrest e he

theorem forall_removeEntry :
    ∀ entries : List (Key × α), (∀ e ∈ entries, p e.2) → ∀ e ∈ removeEntry key entries, p e.2
  | [], _, e, he => by cases he
  | (k, v) :: rest, hd, e, he => by
    have hrest : ∀ e ∈ rest, p e.2 := fun e he => hd e (List.mem_cons_of_mem _ he)
    rw [removeEntry] at he
    split at he
    · exact hrest e he
    · rcases List.mem_cons.mp he with rfl | he
      · exact hd _ List.mem_cons_self
      · exact forall_removeEntry rest hrest e he

end Dict

namespace Value

variable {v : Value}

/-- A value with no value in it and no way to a context. -/
def isBare : Value → Bool
  | list _ | tuple _ | dict _ | some _ | closure _ | object _ | module _ => false
  | _ => true

theorem contexts_of_isBare (bare : v.isBare = true) : v.contexts = [] := by
  cases v <;> first | rfl | cases bare

/-- A property that a value has if the closures, instances and modules in it have it and its
dictionaries have come about as dictionaries do. -/
class Hereditary (V : Value → Prop) : Prop where
  bare {v : Value} : v.isBare = true → V v
  list {items : List Value} : V (list items) ↔ ∀ v ∈ items, V v
  tuple {items : List Value} : V (tuple items) ↔ ∀ v ∈ items, V v
  some {v : Value} : V (some v) ↔ V v
  entries {d : Dict Value} : V (dict d) → ∀ e ∈ d.entries, V e.2
  emptyDict (kind : Option KeyKind) : V (dict (.empty kind))
  insert {d : Dict Value} {key : Key} {v : Value} : d.Takes key → V (dict d) → V v →
    V (dict (d.insert key v))
  erase {d : Dict Value} (key : Key) : V (dict d) → V (dict (d.erase key))
  /-- Other values at the same keys. -/
  replaced {d d' : Dict Value} : V (dict d) → d'.keyKind = d.keyKind → d'.keys = d.keys →
    (∀ e ∈ d'.entries, V e.2) → V (dict d')

namespace Hereditary

variable {V W : Value → Prop}

/-- A property that all values have that name no context, and that a collection has just when all
that it holds has it. -/
theorem of_contents (bare : ∀ {v : Value}, v.contexts = [] → V v)
    (list : ∀ {items : List Value}, V (.list items) ↔ ∀ v ∈ items, V v)
    (tuple : ∀ {items : List Value}, V (.tuple items) ↔ ∀ v ∈ items, V v)
    (dict : ∀ {d : Dict Value}, V (.dict d) ↔ ∀ e ∈ d.entries, V e.2)
    (some : ∀ {v : Value}, V (.some v) ↔ V v) : Hereditary V where
  bare h := bare (contexts_of_isBare h)
  list := list
  tuple := tuple
  some := some
  entries := dict.mp
  emptyDict kind := dict.mpr (by simp [Dict.entries_empty])
  insert {d _ _} _ hd hv := dict.mpr (Dict.forall_insertEntry (p := V) hv d.entries (dict.mp hd))
  erase {d} key hd := by
    refine dict.mpr ?_
    rw [Dict.entries_erase]
    exact Dict.forall_removeEntry (p := V) d.entries (dict.mp hd)
  replaced _ _ _ := dict.mpr

theorem and (hV : Hereditary V) (hW : Hereditary W) : Hereditary fun v => V v ∧ W v where
  bare h := ⟨hV.bare h, hW.bare h⟩
  list := by simp only [hV.list, hW.list, forall₂_and, implies_true]
  tuple := by simp only [hV.tuple, hW.tuple, forall₂_and, implies_true]
  some := and_congr hV.some hW.some
  entries hd e he := ⟨hV.entries hd.1 e he, hW.entries hd.2 e he⟩
  emptyDict kind := ⟨hV.emptyDict kind, hW.emptyDict kind⟩
  insert takes hd hv := ⟨hV.insert takes hd.1 hv.1, hW.insert takes hd.2 hv.2⟩
  erase key hd := ⟨hV.erase key hd.1, hW.erase key hd.2⟩
  replaced hd kind keys he :=
    ⟨hV.replaced hd.1 kind keys fun e mem => (he e mem).1,
      hW.replaced hd.2 kind keys fun e mem => (he e mem).2⟩

end Hereditary

instance (P : CtxId → Prop) : Hereditary (Within P) :=
  .of_contents within_of_eq_nil within_list within_tuple within_dict within_some

instance hereditary_true : Hereditary fun _ => True := by
  refine .of_contents ?_ ?_ ?_ ?_ ?_ <;> simp

/-- A value that leads nowhere: it has every property that is inherited. -/
def LeadsNowhere (v : Value) : Prop := ∀ (V : Value → Prop) [Hereditary V], V v

theorem leadsNowhere_of_isBare (bare : v.isBare = true) : v.LeadsNowhere :=
  fun _ _ => Hereditary.bare bare

namespace Hereditary

variable {V : Value → Prop} [Hereditary V]

theorem unit : V unit := bare rfl
theorem int (n : Int64) : V (int n) := bare rfl
theorem float (x : Float) : V (float x) := bare rfl
theorem bool (b : Bool) : V (bool b) := bare rfl
theorem char (c : Char) : V (char c) := bare rfl
theorem str (s : String) : V (str s) := bare rfl
theorem ofChars (cs : List Char) : V (ofChars cs) := bare rfl
theorem ofLength (n : Nat) : V (ofLength n) := bare rfl

theorem ofKey (k : Key) : V (ofKey k) := by
  cases k <;> exact bare rfl

theorem ofOption {o : Option Value} (ho : ∀ v ∈ o, V v) : V (Value.ofOption o) := by
  cases o with
  | none => exact bare rfl
  | some v => exact some.mpr (ho v rfl)

theorem getD {items : List Value} (hi : ∀ v ∈ items, V v) (n : Nat) : V (items.getD n .unit) := by
  rw [List.getD_eq_getElem?_getD]
  cases hn : items[n]? with
  | none => exact unit
  | some v => exact hi v (List.mem_of_getElem? hn)

end Hereditary

end Value

/-- All results that a computation may give satisfy `P`, and no fault of it is stray. -/
structure Gives {α : Type} (P : α → Prop) (x : Except Fault α) : Prop where
  result : ∀ a, x = .ok a → P a
  sound : ∀ fault, x = .error fault → fault.stray = false

/-- No fault of the computation is stray. -/
abbrev Plain {α : Type} (x : Except Fault α) : Prop := Gives (fun _ => True) x

namespace Gives

variable {α β : Type} {P P' : α → Prop} {Q : β → Prop} {x : Except Fault α}

theorem ok {a : α} (h : P a) : Gives P (.ok a) where
  result := by
    rintro _ ⟨⟩
    exact h
  sound := nofun

theorem error {fault : Fault} (h : fault.stray = false) : Gives P (.error fault) where
  result := nofun
  sound := by
    rintro _ ⟨⟩
    exact h

theorem mono (hx : Gives P x) (h : ∀ a, P a → P' a) : Gives P' x :=
  ⟨fun a e => h a (hx.result a e), hx.sound⟩

theorem bind {k : α → Except Fault β} (hx : Gives P x) (hk : ∀ a, P a → Gives Q (k a)) :
    Gives Q (x >>= k) := by
  cases x with
  | error fault => exact error (hx.sound fault rfl)
  | ok a => exact hk a (hx.result a rfl)

theorem map {f : α → β} (hx : Gives P x) (hf : ∀ a, P a → Q (f a)) : Gives Q (x.map f) := by
  cases x with
  | error fault => exact error (hx.sound fault rfl)
  | ok a => exact ok (hf a (hx.result a rfl))

end Gives

namespace Value

variable {V : Value → Prop} [Hereditary V] {h : Handles} {v w : Value}

theorem plain_checkIndex (i : Int64) (length : Nat) : Plain (checkIndex i length) := by
  unfold checkIndex
  split
  · exact .ok trivial
  · exact .error rfl

theorem gives_keyOf {α : Type} (d : Dict α) (v : Value) : Gives d.Takes (keyOf h d v) where
  result _ named := (keyOf_eq_ok_iff.mp named).2
  sound fault failed := by
    unfold keyOf at failed
    split at failed
    · cases failed
      rfl
    · split at failed
      · cases failed
      · split at failed <;> cases failed
        rfl

theorem plain_keyOf {α : Type} (d : Dict α) (v : Value) : Plain (keyOf h d v) :=
  (gives_keyOf d v).mono fun _ _ => trivial

theorem plain_charIndex (cs : List Char) (index : Value) : Plain (charIndex h cs index) := by
  unfold charIndex
  split
  · exact plain_checkIndex _ _
  · exact .error rfl

theorem gives_element (hv : V v) (index : Value) : Gives V (element h v index) := by
  unfold element
  split
  · exact (plain_checkIndex _ _).map fun i _ => Hereditary.getD (Hereditary.list.mp hv) i
  · exact (plain_checkIndex _ _).map fun i _ => Hereditary.getD (Hereditary.tuple.mp hv) i
  · exact (plain_charIndex _ _).map fun i _ => Hereditary.char _
  · rename_i d
    split
    · rename_i fault e
      exact .error ((plain_keyOf d index).sound fault e)
    · split
      · rename_i found
        exact .ok (Dict.forall_of_get? (p := V) (Hereditary.entries hv) found)
      · exact .error rfl
  · exact .error rfl

theorem gives_read : ∀ (path : List Value) {v : Value}, V v → Gives V (read h path v)
  | [], _, hv => .ok hv
  | index :: path, v, hv => by
    have element := gives_element (h := h) hv index
    rw [read]
    cases he : Value.element h v index with
    | ok w => exact gives_read path (element.result w he)
    | error fault => exact .error (element.sound fault he)

theorem gives_annotate (hv : V v) (type : Option TypeAnn) : Gives V (v.annotate h type) := by
  unfold annotate
  split
  · exact .ok hv
  · exact .ok (Hereditary.float _)
  · split
    · exact .ok hv
    · exact .error rfl

theorem gives_intBinary (a b : Int64) (op : BinaryOp) : Gives V (intBinary a b op) := by
  unfold intBinary
  split <;> (try split) <;> first | exact .ok (Hereditary.bare rfl) | exact .error rfl

theorem gives_floatBinary (a b : Float) (op : BinaryOp) : Gives V (floatBinary a b op) := by
  unfold floatBinary
  split <;> (try split) <;> first | exact .ok (Hereditary.bare rfl) | exact .error rfl

theorem gives_boolBinary (a b : Bool) (op : BinaryOp) : Gives V (boolBinary a b op) := by
  unfold boolBinary
  split <;> first | exact .ok (Hereditary.bare rfl) | exact .error rfl

theorem gives_charBinary (a b : Char) (op : BinaryOp) : Gives V (charBinary a b op) := by
  unfold charBinary
  split <;> first | exact .ok (Hereditary.bare rfl) | exact .error rfl

theorem gives_strBinary (a b : String) (op : BinaryOp) : Gives V (strBinary a b op) := by
  unfold strBinary
  split <;> first | exact .ok (Hereditary.bare rfl) | exact .error rfl

theorem gives_mixedTextBinary (joined s : String) (c : Char) (op : BinaryOp) :
    Gives V (mixedTextBinary joined s c op) := by
  unfold mixedTextBinary
  split <;> first | exact .ok (Hereditary.bare rfl) | exact .error rfl

theorem gives_itemsBinary {kind : Kind} {wrap : List Value → Value} {as bs : List Value}
    (hw : ∀ items, (∀ v ∈ items, V v) → V (wrap items))
    (ha : ∀ v ∈ as, V v) (hb : ∀ v ∈ bs, V v) (op : BinaryOp) :
    Gives V (itemsBinary kind wrap as bs op) := by
  unfold itemsBinary
  split
  · refine .ok (hw _ fun v hv => ?_)
    exact (List.mem_append.mp hv).elim (ha v) (hb v)
  · exact .ok (Hereditary.bool _)
  · exact .ok (Hereditary.bool _)
  · exact .error rfl

theorem gives_equalityBinary (op : BinaryOp) : Gives V (equalityBinary h v w op) := by
  unfold equalityBinary
  split <;> first | exact .ok (Hereditary.bare rfl) | exact .error rfl

theorem gives_binary (hv : V v) (hw : V w) (op : BinaryOp) : Gives V (binary h op v w) := by
  have compatible (op : BinaryOp) : Gives V (compatibleBinary h op v w) := by
    unfold compatibleBinary
    split
    · exact gives_intBinary _ _ _
    · exact gives_floatBinary _ _ _
    · exact gives_floatBinary _ _ _
    · exact gives_floatBinary _ _ _
    · exact gives_boolBinary _ _ _
    · exact gives_charBinary _ _ _
    · exact gives_strBinary _ _ _
    · exact gives_mixedTextBinary _ _ _ _
    · exact gives_mixedTextBinary _ _ _ _
    · exact gives_itemsBinary (fun _ => Hereditary.list.mpr) (Hereditary.list.mp hv)
        (Hereditary.list.mp hw) _
    · exact gives_itemsBinary (fun _ => Hereditary.tuple.mpr) (Hereditary.tuple.mp hv)
        (Hereditary.tuple.mp hw) _
    · exact gives_equalityBinary _
  unfold binary
  split
  · exact .ok (Hereditary.bool _)
  · exact .ok (Hereditary.bool _)
  · split
    · exact compatible op
    · exact .error rfl

theorem gives_unary (op : UnaryOp) : Gives V (unary h op v) := by
  unfold unary
  split <;> first | exact .ok (Hereditary.bare rfl) | exact .error rfl

end Value

end TreeScript
