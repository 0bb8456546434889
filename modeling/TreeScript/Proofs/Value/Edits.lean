import TreeScript.Proofs.Value.Names

/-!
# Edits keep types

A place keeps the type of what stands in it, whatever is written there, and an edit that fails
half-way keeps it too. What an edit puts into a value names nothing but what the operands name.
-/
namespace TreeScript

/-- The kind of a value and the name of its type, which for an instance is its class. -/
def Value.tag (h : Handles) (v : Value) : Kind × String := (v.kind, v.typeName h)

namespace Value

variable {V : Value → Prop} {h h' : Handles} {v w : Value}

theorem typeName_of_ne_object (hv : v.kind ≠ .object) : v.typeName h = v.kind.name := by
  cases v with
  | object => exact absurd rfl hv
  | _ => rfl

theorem tag_eq_of_kind (hk : v.kind = w.kind) (hv : v.kind ≠ .object) : v.tag h = w.tag h := by
  rw [tag, tag, typeName_of_ne_object hv, typeName_of_ne_object (hk ▸ hv), hk]

/-- A value of the same type satisfies the same annotations. -/
theorem hasType_of_tag (ht : v.tag h = w.tag h') (type : TypeAnn) :
    v.hasType h type = w.hasType h' type := by
  have hk : v.kind = w.kind := congrArg Prod.fst ht
  have hn : v.typeName h = w.typeName h' := congrArg Prod.snd ht
  cases type with
  | any => simp [hasType]
  | «class» name =>
    cases v with
    | object c =>
      cases w with
      | object d => exact congrArg (· == name) hn
      | _ => simp [kind] at hk
    | _ => cases w <;> simp [hasType, kind] at hk ⊢
  | _ => simp [hasType, hk]

/-- A value that may stand where another stood: it is of the same type and satisfies `V`. -/
structure Replaces (h : Handles) (V : Value → Prop) (old new : Value) : Prop where
  fits : V new
  tag : new.tag h = old.tag h

theorem Replaces.refl (hv : V v) : Replaces h V v v := ⟨hv, rfl⟩

theorem Replaces.trans {u : Value} (hv : Replaces h V u v) (hw : Replaces h V v w) :
    Replaces h V u w := ⟨hw.fits, hw.tag.trans hv.tag⟩

/-- A new value of the kind that the old one has, which is no instance. -/
theorem Replaces.of_kind (hw : V w) (hk : w.kind = v.kind) (hv : v.kind ≠ .object) :
    Replaces h V v w := ⟨hw, tag_eq_of_kind hk (hk ▸ hv)⟩

theorem tag_convertFor {old new : Value} (accepted : old.accepts h new = true) :
    (convertFor old new).tag h = old.tag h := by
  unfold accepts at accepted
  split at accepted
  · rfl
  · rename_i a b
    show (Kind.object, h.className b) = (Kind.object, h.className a)
    rw [eq_of_beq accepted]
  · rename_i hf ho
    have hk : old.kind = new.kind := eq_of_beq accepted
    have same : convertFor old new = new := by
      unfold convertFor
      split
      · rename_i x n
        exact absurd rfl (hf x n rfl)
      · rfl
    rw [same]
    refine tag_eq_of_kind hk.symm ?_
    intro hn
    cases new with
    | object b =>
      cases old with
      | object a => exact ho a b rfl rfl
      | _ => cases hk
    | _ => cases hn

variable [Hereditary V]

theorem fits_convertFor {old new : Value} (hn : V new) : V (convertFor old new) := by
  unfold convertFor
  split
  · exact Hereditary.float _
  · exact hn

theorem gives_assign {old new : Value} (hn : V new) :
    Gives (Replaces h V old) (assign h old new) := by
  unfold assign
  split
  · rename_i accepted
    exact .ok ⟨fits_convertFor hn, tag_convertFor accepted⟩
  · exact .error rfl

theorem gives_assignWith {old operand : Value} (op : AssignOp) (hv : V old) (ho : V operand) :
    Gives (Replaces h V old) (assignWith h op old operand) := by
  cases compound : op.binary? with
  | none =>
    cases op with
    | plain => exact gives_assign ho
    | _ => cases compound
  | some operator =>
    rw [assignWith_compound compound]
    exact (gives_binary hv ho operator).bind fun new hn => gives_assign hn

end Value

open Value (Hereditary Replaces)

namespace Edit

/-- How an edit of a value may end: with a value that may stand in its place, and with a result that
satisfies `q` or a fault that is not stray. -/
def Outcome {α : Type} (h : Handles) (V : Value → Prop) (q : α → Prop) (old : Value) :
    EStateM.Result Fault Value α → Prop
  | .ok a new => q a ∧ Replaces h V old new
  | .error fault new => fault.stray = false ∧ Replaces h V old new

/-- However the edit of a value that satisfies `V` ends, what is left may stand in the place of the
value. All results satisfy `q`. -/
def Sound {α : Type} (h : Handles) (V : Value → Prop) (q : α → Prop) (f : Edit α) : Prop :=
  ∀ v, V v → Outcome h V q v (f v)

namespace Sound

variable {α β : Type} {h : Handles} {V : Value → Prop} {q : α → Prop} {r : β → Prop} {f : Edit α}

theorem pure {a : α} (ha : q a) : Sound h V q (Pure.pure a) := fun _ hv => ⟨ha, .refl hv⟩

theorem mono {q' : α → Prop} (hf : Sound h V q f) (hq : ∀ a, q a → q' a) : Sound h V q' f := by
  intro v hv
  have before := hf v hv
  cases he : f v with
  | ok a new =>
    rw [he] at before
    exact ⟨hq a before.1, before.2⟩
  | error fault new =>
    rw [he] at before
    exact before

theorem fail {fault : Fault} (plain : fault.stray = false) : Sound h V q (Edit.fail fault) :=
  fun _ hv => ⟨plain, .refl hv⟩

theorem replace {g : Value → Except Fault Value} (hg : ∀ v, V v → Gives (Replaces h V v) (g v)) :
    Sound h V (fun _ => True) (Edit.replace g) := by
  intro v hv
  unfold Edit.replace
  cases he : g v with
  | ok new => exact ⟨trivial, (hg v hv).result new he⟩
  | error fault => exact ⟨(hg v hv).sound fault he, .refl hv⟩

theorem check {g : Value → Except Fault α} (hg : ∀ v, Plain (g v)) :
    Sound h V (fun _ => True) (Edit.check g) := by
  intro v hv
  unfold Edit.check
  cases he : g v with
  | ok a => exact ⟨trivial, .refl hv⟩
  | error fault => exact ⟨(hg v).sound fault he, .refl hv⟩

theorem bind {k : α → Edit β} (hf : Sound h V q f) (hk : ∀ a, q a → Sound h V r (k a)) :
    Sound h V r (f >>= k) := by
  intro v hv
  have first := hf v hv
  show Outcome h V r v (EStateM.bind f k v)
  rw [EStateM.bind]
  cases he : f v with
  | error fault new =>
    rw [he] at first
    exact first
  | ok a w =>
    rw [he] at first
    have second := hk a first.1 w first.2.fits
    dsimp only
    cases hw : k a w with
    | ok b new =>
      rw [hw] at second
      exact ⟨second.1, first.2.trans second.2⟩
    | error fault new =>
      rw [hw] at second
      exact ⟨second.1, first.2.trans second.2⟩

/-- Editing a part of a value. -/
theorem within (hf : Sound h V q f) {part whole : Value} {rebuild : Value → Value}
    (hp : V part) (hr : ∀ new, V new → Replaces h V whole (rebuild new)) :
    Outcome h V q whole (f.within part rebuild whole) := by
  have inside := hf part hp
  unfold Edit.within
  cases he : f part with
  | ok a new =>
    rw [he] at inside
    exact ⟨inside.1, hr new inside.2.fits⟩
  | error fault new =>
    rw [he] at inside
    exact ⟨inside.1, hr new inside.2.fits⟩

variable [Hereditary V]

theorem editElement (hf : Sound h V q f) (index : Value) :
    Sound h V q (Value.editElement h index f) := by
  intro v hv
  unfold Value.editElement
  split
  · rename_i items i
    split
    · rename_i fault e
      exact ⟨(Value.plain_checkIndex _ _).sound fault e, .refl hv⟩
    · rename_i at_ _
      have inside := Hereditary.list.mp hv
      refine hf.within (Hereditary.getD inside at_) fun new hn => ?_
      refine .of_kind (Hereditary.list.mpr fun w hw => ?_) rfl nofun
      exact (List.mem_or_eq_of_mem_set hw).elim (inside w) fun e => e ▸ hn
  · exact ⟨rfl, .refl hv⟩
  · rename_i d
    split
    · rename_i fault e
      exact ⟨(Value.plain_keyOf d index).sound fault e, .refl hv⟩
    · rename_i key named
      have takes : d.Takes key := (Value.keyOf_eq_ok_iff.mp named).2
      split
      · rename_i old found
        have inside := Dict.forall_of_get? (p := V) (Hereditary.entries hv) found
        exact hf.within inside fun new hn => .of_kind (Hereditary.insert takes hv hn) rfl nofun
      · exact ⟨rfl, .refl hv⟩
  · exact ⟨rfl, .refl hv⟩

/-- The characters of a text can only be replaced by characters. -/
theorem editChar (hf : Sound h V q f) (s : String) (index : Value) :
    Outcome h V q (.str s) (Value.editChar h s index f (.str s)) := by
  have same : Replaces h V (.str s) (.str s) := .refl (Hereditary.str s)
  unfold Value.editChar
  split
  · rename_i fault e
    exact ⟨(Value.plain_charIndex _ index).sound fault e, same⟩
  · rename_i at_ _
    have inside := hf (.char (s.toList.getD at_ ' ')) (Hereditary.char _)
    split
    · rename_i a c he
      rw [he] at inside
      exact ⟨inside.1, .of_kind (Hereditary.str _) rfl nofun⟩
    · exact ⟨rfl, same⟩
    · rename_i fault new he
      rw [he] at inside
      exact ⟨inside.1, same⟩

theorem edit (hf : Sound h V q f) : ∀ path, Sound h V q (Value.edit h path f)
  | [] => hf
  | [index] => by
    intro v hv
    cases v with
    | str s => exact hf.editChar s index
    | _ => exact hf.editElement index _ hv
  | index :: next :: path => (hf.edit (next :: path)).editElement index

theorem assignElement (index : Value) {new : Value} (hn : V new) :
    Sound h V (fun _ => True) (Value.assignElement h index new) := by
  have element : Sound h V (fun _ => True)
      (Value.editElement h index (.replace (Value.assign h · new))) :=
    editElement (replace fun _ _ => Value.gives_assign hn) index
  intro v hv
  unfold Value.assignElement
  split
  · rename_i d
    split
    · rename_i fault e
      exact ⟨(Value.plain_keyOf d index).sound fault e, .refl hv⟩
    · rename_i key named
      have takes : d.Takes key := (Value.keyOf_eq_ok_iff.mp named).2
      split
      · exact element _ hv
      · exact ⟨trivial, .of_kind (Hereditary.insert takes hv hn) rfl nofun⟩
  · rename_i s
    -- what takes the place of a character need not be one, so this is no sound edit of a character
    unfold Value.editChar
    split
    · rename_i fault e
      exact ⟨(Value.plain_charIndex _ index).sound fault e, .refl hv⟩
    · dsimp only [Edit.replace]
      split
      · exact ⟨trivial, .of_kind (Hereditary.str _) rfl nofun⟩
      · exact ⟨rfl, .refl hv⟩
      · rename_i he
        cases he
  · exact element v hv

/-- Assigning to a place of a value. -/
theorem assignAt (op : AssignOp) (path : List Value) {operand : Value} (ho : V operand) :
    Sound h V (fun _ => True) (Value.assignAt h op path operand) := by
  have whole (op : AssignOp) : Sound h V (fun _ => True)
      (Value.edit h path (.replace (Value.assignWith h op · operand))) :=
    edit (replace fun _ hv => Value.gives_assignWith op hv ho) path
  unfold Value.assignAt
  split
  · exact edit (assignElement _ ho) _
  · exact whole _

end Sound

end Edit

end TreeScript
