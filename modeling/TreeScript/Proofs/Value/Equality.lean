import Mathlib
import TreeScript.Member.Items
import TreeScript.Proofs.Value.Proper
import TreeScript.Value.Operator

/-!
# What equality does

Equality of dictionaries asks for equal values at the same keys, whatever their order. So where keys
are distinct, equality is symmetric, and it is an equivalence of the values without floating-point
numbers. The operators, searches in lists and comparisons of dictionaries all decide it.
-/
namespace TreeScript.Value

variable {v w : Value} {d e : Dict Value} {key : Key} {as bs cs : List Value}

/-- No part of the value is a floating-point number. -/
def FloatFree (v : Value) : Prop := v.Throughout fun w => w.kind ≠ .float

/-- In every dictionary in the value the keys are distinct. -/
def DistinctKeys (v : Value) : Prop := v.Dicts fun d => d.keys.Nodup

theorem Proper.distinctKeys (proper : v.Proper) : v.DistinctKeys :=
  Dicts.mono proper fun _ h => h.distinct

theorem equalItems_symm : ∀ {as bs : List Value},
    (∀ a ∈ as, ∀ b ∈ bs, a.equals b = true → b.equals a = true) →
    equalItems as bs = true → equalItems bs as = true
  | [], [], _, _ => rfl
  | a :: as, b :: bs, symm, same => by
    rw [equalItems, Bool.and_eq_true] at same ⊢
    exact ⟨symm a List.mem_cons_self b List.mem_cons_self same.1,
      equalItems_symm (fun a ha b hb => symm a (List.mem_cons_of_mem _ ha) b
        (List.mem_cons_of_mem _ hb)) same.2⟩

theorem equalItems_trans : ∀ {as bs cs : List Value},
    (∀ a ∈ as, ∀ b ∈ bs, ∀ c ∈ cs, a.equals b = true → b.equals c = true → a.equals c = true) →
    equalItems as bs = true → equalItems bs cs = true → equalItems as cs = true
  | [], [], [], _, _, _ => rfl
  | a :: as, b :: bs, c :: cs, chain, first, second => by
    rw [equalItems, Bool.and_eq_true] at first second ⊢
    exact ⟨chain a List.mem_cons_self b List.mem_cons_self c List.mem_cons_self first.1 second.1,
      equalItems_trans (fun a ha b hb c hc => chain a (List.mem_cons_of_mem _ ha) b
        (List.mem_cons_of_mem _ hb) c (List.mem_cons_of_mem _ hc)) first.2 second.2⟩

theorem equalItems_refl (refl : ∀ a ∈ as, a.equals a = true) : equalItems as as = true := by
  induction as with
  | nil => rfl
  | cons a as ih =>
    obtain ⟨head, tail⟩ := List.forall_mem_cons.mp refl
    rw [equalItems, head, ih tail]
    rfl

theorem equalEntries_iff {entries : List (Key × Value)} :
    equalEntries entries e = true ↔
      ∀ key a, (key, a) ∈ entries → ∃ b, e.get? key = Option.some b ∧ a.equals b = true := by
  induction entries with
  | nil => simp [equalEntries]
  | cons entry rest ih =>
    obtain ⟨k, a⟩ := entry
    rw [equalEntries, Bool.and_eq_true, ih]
    simp only [List.mem_cons, Prod.mk.injEq]
    constructor
    · rintro ⟨first, others⟩ k' a' (⟨rfl, rfl⟩ | mem)
      · cases there : e.get? k' with
        | none => simp [there] at first
        | some b => exact ⟨b, rfl, by simpa [there] using first⟩
      · exact others k' a' mem
    · intro all
      refine ⟨?_, fun k' a' mem => all k' a' (.inr mem)⟩
      obtain ⟨b, there, same⟩ := all k a (.inl ⟨rfl, rfl⟩)
      simpa [there] using same

/-- The keys are the same, and equal values stand at them. -/
structure SameEntries (d e : Dict Value) : Prop where
  keys : ∀ key, key ∈ d.keys ↔ key ∈ e.keys
  values : ∀ key a b, d.get? key = Option.some a → e.get? key = Option.some b → a.equals b = true

theorem equals_dict : (dict d).equals (dict e) = true ↔
    d.keyKind = e.keyKind ∧ d.keys.length = e.keys.length ∧
      equalEntries d.entries e = true := by
  simp only [Dict.keys, List.length_map]
  cases d with
  | undetermined =>
    cases e with
    | undetermined => simp [equals, Dict.keyKind, Dict.entries, equalEntries]
    | ofKind => simp [equals, Dict.keyKind]
  | ofKind kind entries =>
    simp only [equals, Bool.and_eq_true, beq_iff_eq, Dict.keyKind, Dict.entries, and_assoc]

/-- To compare the lengths and to look one way is enough where keys are distinct. -/
theorem equals_dict_iff (hd : d.keys.Nodup) (he : e.keys.Nodup) :
    (dict d).equals (dict e) = true ↔ d.keyKind = e.keyKind ∧ SameEntries d e := by
  rw [equals_dict, equalEntries_iff]
  refine and_congr_right fun _ => ?_
  constructor
  · rintro ⟨length, found⟩
    have sub : d.keys ⊆ e.keys := by
      intro key mem
      obtain ⟨⟨key, a⟩, entry, rfl⟩ := List.mem_map.mp mem
      obtain ⟨b, there, -⟩ := found key a entry
      exact Dict.mem_keys_of_get? there
    have perm : d.keys.Perm e.keys :=
      (List.subperm_of_subset hd sub).perm_of_length_le (Nat.le_of_eq length.symm)
    refine ⟨fun key => perm.mem_iff, fun key a b there other => ?_⟩
    obtain ⟨b', other', same⟩ := found key a ((Dict.get?_eq_some_iff hd).mp there)
    rw [other] at other'
    cases other'
    exact same
  · intro same
    refine ⟨((List.perm_ext_iff_of_nodup hd he).mpr same.keys).length_eq, fun key a mem => ?_⟩
    have there := (Dict.get?_eq_some_iff hd).mpr mem
    obtain ⟨b, other⟩ := Option.isSome_iff_exists.mp
      (Dict.mem_keys_iff.mp ((same.keys key).mp (Dict.mem_keys_of_get? there)))
    exact ⟨b, other, same.values key a b there other⟩

theorem mem_children_of_get? (there : d.get? key = Option.some v) : v ∈ (dict d).children := by
  obtain ⟨before, after, same, -⟩ := List.lookup_eq_some_iff.mp there
  show v ∈ d.entries.map Prod.snd
  rw [same]
  simp

namespace SameEntries

theorem refl (self : ∀ a ∈ (dict d).children, a.equals a = true) : SameEntries d d where
  keys _ := Iff.rfl
  values key a b there other := by
    rw [there] at other
    cases other
    exact self a (mem_children_of_get? there)

theorem symm (same : SameEntries d e)
    (back : ∀ a ∈ (dict d).children, ∀ b ∈ (dict e).children,
      a.equals b = true → b.equals a = true) : SameEntries e d where
  keys key := (same.keys key).symm
  values key b a there other := back a (mem_children_of_get? other) b (mem_children_of_get? there)
    (same.values key a b other there)

theorem trans {f : Dict Value} (first : SameEntries d e) (second : SameEntries e f)
    (chain : ∀ a ∈ (dict d).children, ∀ b ∈ (dict e).children, ∀ c ∈ (dict f).children,
      a.equals b = true → b.equals c = true → a.equals c = true) : SameEntries d f where
  keys key := (first.keys key).trans (second.keys key)
  values key a c there other := by
    obtain ⟨b, between⟩ := Option.isSome_iff_exists.mp
      (Dict.mem_keys_iff.mp ((first.keys key).mp (Dict.mem_keys_of_get? there)))
    exact chain a (mem_children_of_get? there) b (mem_children_of_get? between) c
      (mem_children_of_get? other) (first.values key a b there between)
      (second.values key b c between other)

end SameEntries

theorem DistinctKeys.children (distinct : v.DistinctKeys) : ∀ w ∈ v.children, w.DistinctKeys :=
  (dicts_iff.mp distinct).2

theorem DistinctKeys.keys (distinct : (dict d).DistinctKeys) : d.keys.Nodup :=
  (dicts_iff.mp distinct).1 d rfl

theorem FloatFree.children (free : v.FloatFree) : ∀ w ∈ v.children, w.FloatFree :=
  (throughout_iff.mp free).2

/-- What a value is that holds no other value and is no floating-point number. -/
inductive Scalar where
  | int (n : Int64)
  | bool (b : Bool)
  | text (cs : List Char)
  | none
  | unit
  | file (id : FileId)
  | closure (id : Nat)
  | object (ctx : CtxId)
  | module (world : CtxId)

/-- What the value is, if it holds no other value and is no floating-point number. -/
def scalar? : Value → Option Scalar
  | int n => Option.some (.int n)
  | bool b => Option.some (.bool b)
  | char c => Option.some (.text [c])
  | str s => Option.some (.text s.toList)
  | none => Option.some .none
  | unit => Option.some .unit
  | file f => Option.some (.file f)
  | closure c => Option.some (.closure c.id)
  | object c => Option.some (.object c)
  | module w => Option.some (.module w)
  | _ => Option.none

theorem equals_scalar (scalar : v.scalar?.isSome) (hw : w.kind ≠ .float) :
    v.equals w = true ↔ v.scalar? = w.scalar? := by
  cases v <;> cases scalar <;> cases w <;>
    simp [equals, scalar?, kind, String.toList_inj] at hw ⊢
  all_goals exact eq_comm

theorem eq_dict_of_equals (same : (dict d).equals v = true) : ∃ e, v = dict e := by
  cases v with
  | dict e => exact ⟨e, rfl⟩
  | _ => cases d <;> cases same

theorem equals_symm (v : Value) : ∀ w, v.DistinctKeys → w.DistinctKeys →
    v.equals w = true → w.equals v = true := by
  induction v using Value.induction with
  | step v ih =>
    intro w hv hw same
    have back : ∀ a ∈ v.children, ∀ b ∈ w.children, a.equals b = true → b.equals a = true :=
      fun a ha b hb => ih a ha b (hv.children a ha) (hw.children b hb)
    cases v with
    | list as | tuple as =>
      cases w with
      | list bs | tuple bs => first | cases same | exact equalItems_symm back same
      | _ => cases same
    | dict d =>
      obtain ⟨e, rfl⟩ := eq_dict_of_equals same
      obtain ⟨kind, entries⟩ := (equals_dict_iff hv.keys hw.keys).mp same
      exact (equals_dict_iff hw.keys hv.keys).mpr ⟨kind.symm, entries.symm back⟩
    | some a =>
      cases w with
      | some b => exact back a List.mem_cons_self b List.mem_cons_self same
      | _ => cases same
    | float x =>
      cases w with
      | int n | float y => exact BEq.comm.trans same
      | _ => cases same
    | _ =>
      cases w with
      | float y => first | cases same | exact BEq.comm.trans same
      | _ =>
        have equal := (equals_scalar rfl (by nofun)).mp same
        exact (equals_scalar (equal ▸ rfl) (by nofun)).mpr equal.symm

/-- Equality is symmetric. -/
theorem equals_comm (hv : v.DistinctKeys) (hw : w.DistinctKeys) : v.equals w = w.equals v :=
  Bool.eq_iff_iff.mpr ⟨equals_symm v w hv hw, equals_symm w v hw hv⟩

/-- A value that equality may be relied on for to be an equivalence: no floating-point number is in
it, and the keys of its dictionaries are distinct. -/
structure Exact (v : Value) : Prop where
  floatFree : v.FloatFree
  distinct : v.DistinctKeys

namespace Exact

theorem children (exact : v.Exact) (w : Value) (hw : w ∈ v.children) : w.Exact :=
  ⟨exact.floatFree.children w hw, exact.distinct.children w hw⟩

theorem kind (exact : v.Exact) : v.kind ≠ .float := (throughout_iff.mp exact.floatFree).1

end Exact

theorem equals_refl (v : Value) : v.Exact → v.equals v = true := by
  induction v using Value.induction with
  | step v ih =>
    intro exact
    have self : ∀ a ∈ v.children, a.equals a = true := fun a ha => ih a ha (exact.children a ha)
    cases v with
    | list as | tuple as => exact equalItems_refl self
    | dict d =>
      have keys := exact.distinct.keys
      exact (equals_dict_iff keys keys).mpr ⟨rfl, .refl self⟩
    | some a => exact self a List.mem_cons_self
    | float x => exact absurd rfl exact.kind
    | _ => exact (equals_scalar rfl (by nofun)).mpr rfl

theorem equals_trans (v : Value) : ∀ w u, v.Exact → w.Exact → u.Exact →
    v.equals w = true → w.equals u = true → v.equals u = true := by
  induction v using Value.induction with
  | step v ih =>
    intro w u hv hw hu first second
    have chain : ∀ a ∈ v.children, ∀ b ∈ w.children, ∀ c ∈ u.children,
        a.equals b = true → b.equals c = true → a.equals c = true :=
      fun a ha b hb c hc =>
        ih a ha b c (hv.children a ha) (hw.children b hb) (hu.children c hc)
    cases v with
    | list as | tuple as =>
      cases w with
      | list bs | tuple bs =>
        cases u with
        | list cs | tuple cs =>
          first | cases first | cases second | exact equalItems_trans chain first second
        | _ => cases second
      | _ => cases first
    | dict d =>
      obtain ⟨e, rfl⟩ := eq_dict_of_equals first
      obtain ⟨f, rfl⟩ := eq_dict_of_equals second
      obtain ⟨kind, entries⟩ := (equals_dict_iff hv.distinct.keys hw.distinct.keys).mp first
      obtain ⟨kind', entries'⟩ := (equals_dict_iff hw.distinct.keys hu.distinct.keys).mp second
      exact (equals_dict_iff hv.distinct.keys hu.distinct.keys).mpr
        ⟨kind.trans kind', entries.trans entries' chain⟩
    | some a =>
      cases w with
      | some b =>
        cases u with
        | some c =>
          exact chain a List.mem_cons_self b List.mem_cons_self c List.mem_cons_self first second
        | _ => cases second
      | _ => cases first
    | float x => exact absurd rfl hv.kind
    | _ =>
      have equal := (equals_scalar rfl hw.kind).mp first
      have equal' := (equals_scalar (equal ▸ rfl) hu.kind).mp second
      exact (equals_scalar rfl hu.kind).mpr (equal.trans equal')

variable {h : Handles}

theorem compatible_of_equals (same : v.equals w = true) : v.compatible w = true := by
  cases v with
  | dict d =>
    obtain ⟨e, rfl⟩ := eq_dict_of_equals same
    rfl
  | _ => cases w <;> first | rfl | cases same

theorem binary_eq (compatible : v.compatible w = true) :
    binary h .eq v w = .ok (bool (v.equals w)) := by
  show (if v.compatible w then compatibleBinary h .eq v w else _) = _
  rw [if_pos compatible]
  cases v <;> cases w <;> rfl

theorem binary_ne (compatible : v.compatible w = true) :
    binary h .ne v w = .ok (bool !(v.equals w)) := by
  show (if v.compatible w then compatibleBinary h .ne v w else _) = _
  rw [if_pos compatible]
  cases v <;> cases w <;> rfl

theorem binary_mismatch {op : BinaryOp} (comparison : op ∈ [BinaryOp.eq, .ne])
    (incompatible : v.compatible w = false) :
    binary h op v w = .error (.binaryMismatch op (v.typeName h) (w.typeName h)) := by
  have apart : ¬ v.compatible w = true := by simp [incompatible]
  simp only [List.mem_cons, List.not_mem_nil, or_false] at comparison
  rcases comparison with rfl | rfl <;> exact if_neg apart

/-- Whether two values are equal can be told by the operator, also where it does not take them. -/
theorem binary_eq_true_iff : binary h .eq v w = .ok (bool true) ↔ v.equals w = true := by
  constructor
  · intro yes
    cases compatible : v.compatible w with
    | true =>
      rw [binary_eq compatible] at yes
      simpa using yes
    | false =>
      rw [binary_mismatch List.mem_cons_self compatible] at yes
      cases yes
  · intro same
    rw [binary_eq (compatible_of_equals same), same]

theorem contains_list (h : Handles) (items : List Value) (w : Value) :
    Member.Items.contains h (list items) [w] = .ok (bool (items.any (·.equals w))) := rfl

/-- Equality is symmetric, and it is an equivalence of the exact values. The operators decide it
where they take their operands, and fail elsewhere. Searching a list and comparing dictionaries
come to comparing by the operator. -/
theorem equality_coherent (h : Handles) :
    (∀ v w : Value, v.DistinctKeys → w.DistinctKeys → v.equals w = w.equals v) ∧
    (Equivalence fun v w : { v : Value // v.Exact } => v.1.equals w.1 = true) ∧
    (∀ v w : Value, v.compatible w = true →
      binary h .eq v w = .ok (bool (v.equals w)) ∧
        binary h .ne v w = .ok (bool !(v.equals w))) ∧
    (∀ v w : Value, v.compatible w = false → ∀ op ∈ [BinaryOp.eq, .ne],
      ∃ fault, binary h op v w = .error fault ∧ fault.category = .type) ∧
    (∀ items w, ∃ b, Member.Items.contains h (list items) [w] = .ok (bool b) ∧
      (b = true ↔ ∃ v ∈ items, binary h .eq v w = .ok (bool true))) ∧
    ∀ d e : Dict Value, d.keys.Nodup → e.keys.Nodup →
      (binary h .eq (dict d) (dict e) = .ok (bool true) ↔
        d.keyKind = e.keyKind ∧ (∀ key, key ∈ d.keys ↔ key ∈ e.keys) ∧
          ∀ key a b, d.get? key = Option.some a → e.get? key = Option.some b →
            binary h .eq a b = .ok (bool true)) := by
  refine ⟨fun v w => equals_comm, ⟨fun v => equals_refl v.1 v.2, fun {v w} same => ?_,
    fun {v w u} first second => ?_⟩, fun v w compatible => ?_, fun v w incompatible op mem => ?_,
    fun items w => ?_, fun d e hd he => ?_⟩
  · exact equals_symm v.1 w.1 v.2.distinct w.2.distinct same
  · exact equals_trans v.1 w.1 u.1 v.2 w.2 u.2 first second
  · exact ⟨binary_eq compatible, binary_ne compatible⟩
  · exact ⟨_, binary_mismatch mem incompatible, rfl⟩
  · refine ⟨_, contains_list h items w, ?_⟩
    simp only [List.any_eq_true, binary_eq_true_iff]
  · simp only [binary_eq_true_iff]
    rw [equals_dict_iff hd he]
    exact and_congr_right fun _ => ⟨fun same => ⟨same.keys, same.values⟩,
      fun ⟨keys, values⟩ => ⟨keys, values⟩⟩

/-- Two dictionaries with the same entries in another order, one with a text where the other has the
character, are equal both ways round. -/
theorem coherent_in_other_order :
    let h : Handles := ⟨fun _ => "", fun _ => Option.none, fun _ => "", fun _ => false⟩
    let d : Value := dict (.ofKind .int [(.int 1, str "a"), (.int 2, list [some unit])])
    let e : Value := dict (.ofKind .int [(.int 2, list [some unit]), (.int 1, char 'a')])
    d.DistinctKeys ∧ e.DistinctKeys ∧ d.equals e = e.equals d ∧
      binary h .eq d e = .ok (bool true) ∧ ∃ fault, binary h .ne d unit = .error fault := by
  intro h d e
  have inner : (list [some unit]).DistinctKeys :=
    dicts_list.mpr (List.forall_mem_singleton.mpr (dicts_some.mpr (dicts_of_isBare rfl)))
  have hd : d.DistinctKeys := dicts_dict.mpr ⟨by decide,
    List.forall_mem_cons.mpr ⟨dicts_of_isBare rfl, List.forall_mem_singleton.mpr inner⟩⟩
  have he : e.DistinctKeys := dicts_dict.mpr ⟨by decide,
    List.forall_mem_cons.mpr ⟨inner, List.forall_mem_singleton.mpr (dicts_of_isBare rfl)⟩⟩
  obtain ⟨symm, -, compatible, incompatible, -⟩ := equality_coherent h
  refine ⟨hd, he, symm d e hd he, ?_, ?_⟩
  · exact (compatible d e rfl).1
  · obtain ⟨fault, fails, -⟩ := incompatible d unit rfl .ne (by simp)
    exact ⟨fault, fails⟩

end TreeScript.Value

namespace TreeScript.Session

variable {s t : Session}

/-- In a session that is handed proper values, comparing what any two cells hold gives the same
both ways round. -/
theorem equals_comm
    (h : Relation.ReflTransGen (StepIf fun _ work => ∀ v ∈ work.values, v.Proper) s t)
    (begins : ∀ i, (s.machine.store.cell i).value.Proper) (i j : CellId) :
    (t.machine.store.cell i).value.equals (t.machine.store.cell j).value =
      (t.machine.store.cell j).value.equals (t.machine.store.cell i).value := by
  have proper := (Session.proper h begins).1
  exact Value.equals_comm (proper i).distinctKeys (proper j).distinctKeys

end TreeScript.Session
