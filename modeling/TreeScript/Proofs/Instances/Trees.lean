import Mathlib.Data.Finset.Card
import Mathlib.Data.List.Forall2
import TreeScript.Proofs.Machine.Region
import TreeScript.Proofs.Value.Proper

/-!
# Values as trees

A value and the instances that it holds unfold into a tree, as long as no instance holds itself. The
tree has no identities in it: two values with the same tree differ only in where their instances
are.
-/
namespace TreeScript

/-- What is left of a value when every instance in it is told by its class and its members.
Closures, files and modules are handles, which are what they are. -/
inductive Tree where
  /-- A scalar, an empty dictionary without a kind, or a handle. -/
  | leaf (v : Value)
  | list (items : List Tree)
  | tuple (items : List Tree)
  | dict (kind : KeyKind) (entries : List (Key × Tree))
  | some (item : Tree)
  /-- An instance, with its members in the order of their declaration. -/
  | object (decl : ClassDecl) (members : List (String × Attrs × Tree))

namespace Value

variable {v w : Value} {c d : CtxId} {items : List Value}

/-- The context stands in the value as an instance, in collections and options at any depth. -/
def HasInstance (v : Value) (c : CtxId) : Prop := object c ∈ v.parts

theorem hasInstance_iff :
    v.HasInstance c ↔ v = object c ∨ ∃ w ∈ v.children, w.HasInstance c := by
  rw [HasInstance, parts_eq, List.mem_cons, List.mem_flatMap, eq_comm]
  rfl

@[simp] theorem hasInstance_object : (object d).HasInstance c ↔ d = c := by
  rw [hasInstance_iff]
  simp [children]

@[simp] theorem hasInstance_list : (list items).HasInstance c ↔ ∃ w ∈ items, w.HasInstance c := by
  rw [hasInstance_iff]
  simp [children]

@[simp] theorem hasInstance_tuple : (tuple items).HasInstance c ↔ ∃ w ∈ items, w.HasInstance c := by
  rw [hasInstance_iff]
  simp [children]

@[simp] theorem hasInstance_some : (some v).HasInstance c ↔ v.HasInstance c := by
  rw [hasInstance_iff]
  simp [children]

@[simp] theorem hasInstance_dict {d : Dict Value} :
    (dict d).HasInstance c ↔ ∃ e ∈ d.entries, e.2.HasInstance c := by
  rw [hasInstance_iff]
  constructor
  · rintro (same | ⟨w, hw, has⟩)
    · cases same
    · obtain ⟨e, he, rfl⟩ := List.mem_map.mp hw
      exact ⟨e, he, has⟩
  · rintro ⟨e, he, has⟩
    exact .inr ⟨e.2, List.mem_map_of_mem he, has⟩

/-- What a value names, the instances in it are among. -/
theorem Within.of_hasInstance {P : CtxId → Prop} {v : Value} :
    v.Within P → v.HasInstance c → P c := by
  induction v using Value.induction with
  | step v ih =>
    intro within has
    rcases hasInstance_iff.mp has with rfl | ⟨w, hw, has⟩
    · exact within_object.mp within
    · refine ih w hw ?_ has
      cases v with
      | list items => exact within_list.mp within w hw
      | tuple items => exact within_tuple.mp within w hw
      | some v =>
        obtain rfl := List.mem_singleton.mp hw
        exact within_some.mp within
      | dict d =>
        obtain ⟨e, he, rfl⟩ := List.mem_map.mp hw
        exact within_dict.mp within e he
      | _ => cases hw

end Value

section Lists

variable {α β γ : Type}

/-- There is a list of results if there is a result for each item. -/
theorem isSome_mapM_iff {f : α → Option β} {items : List α} :
    (items.mapM f).isSome ↔ ∀ a ∈ items, (f a).isSome := by
  induction items with
  | nil => simp
  | cons a rest ih =>
    rw [List.forall_mem_cons, ← ih, List.mapM_cons]
    cases f a <;> cases rest.mapM f <;> simp

theorem mapM_eq_of_forall₂ {f : α → Option γ} {g : β → Option γ} {as : List α} {bs : List β}
    (same : List.Forall₂ (fun a b => f a = g b) as bs) : as.mapM f = bs.mapM g := by
  induction same with
  | nil => rfl
  | cons head _ ih => rw [List.mapM_cons, List.mapM_cons, head, ih]

theorem exists_of_forall₂ {R : α → β → Prop} {as : List α} {bs : List β}
    (h : List.Forall₂ R as bs) {b : β} (hb : b ∈ bs) : ∃ a ∈ as, R a b := by
  induction h with
  | nil => cases hb
  | cons head _ ih =>
    rcases List.mem_cons.mp hb with rfl | hb
    · exact ⟨_, List.mem_cons_self, head⟩
    · obtain ⟨a, ha, related⟩ := ih hb
      exact ⟨a, List.mem_cons_of_mem _ ha, related⟩

end Lists

mutual

/-- Unfolds a value; what an instance in it unfolds into is given. -/
def Value.unfold (f : CtxId → Option Tree) : Value → Option Tree
  | .list items => (unfoldItems f items).map .list
  | .tuple items => (unfoldItems f items).map .tuple
  | .dict (.ofKind kind entries) => (unfoldEntries f entries).map (.dict kind)
  | .some v => (v.unfold f).map .some
  | .object c => f c
  | v => some (.leaf v)

def unfoldItems (f : CtxId → Option Tree) : List Value → Option (List Tree)
  | [] => some []
  | v :: rest => do return (← v.unfold f) :: (← unfoldItems f rest)

def unfoldEntries (f : CtxId → Option Tree) : List (Key × Value) → Option (List (Key × Tree))
  | [] => some []
  | (k, v) :: rest => do return (k, ← v.unfold f) :: (← unfoldEntries f rest)

end

namespace Value

variable {f g : CtxId → Option Tree} {v : Value} {items : List Value} {kind : KeyKind}
  {entries : List (Key × Value)}

/-- Unfolds the value of an entry. -/
def unfoldEntry (f : CtxId → Option Tree) (e : Key × Value) : Option (Key × Tree) :=
  (e.2.unfold f).map (e.1, ·)

theorem unfoldItems_eq (items : List Value) : unfoldItems f items = items.mapM (unfold f) := by
  induction items with
  | nil => rfl
  | cons v rest ih => rw [unfoldItems, ih, List.mapM_cons]

theorem unfoldEntries_eq (entries : List (Key × Value)) :
    unfoldEntries f entries = entries.mapM (unfoldEntry f) := by
  induction entries with
  | nil => rfl
  | cons e rest ih =>
    rw [unfoldEntries, ih, List.mapM_cons, unfoldEntry]
    cases e.2.unfold f <;> rfl

@[simp] theorem unfold_list : (list items).unfold f = (items.mapM (unfold f)).map .list := by
  rw [unfold, unfoldItems_eq]

@[simp] theorem unfold_tuple : (tuple items).unfold f = (items.mapM (unfold f)).map .tuple := by
  rw [unfold, unfoldItems_eq]

@[simp] theorem unfold_dict :
    (dict (.ofKind kind entries)).unfold f = (entries.mapM (unfoldEntry f)).map (.dict kind) := by
  rw [unfold, unfoldEntries_eq]

@[simp] theorem unfold_some : (some v).unfold f = (v.unfold f).map .some := by rw [unfold]

@[simp] theorem unfold_object (c : CtxId) : (object c).unfold f = f c := by rw [unfold]

/-- A value unfolds if all that it holds does. -/
theorem isSome_unfold_step : (v.unfold f).isSome ↔
    (∀ c, v = object c → (f c).isSome) ∧ ∀ w ∈ v.children, (w.unfold f).isSome := by
  cases v with
  | list items | tuple items => simp [isSome_mapM_iff, children]
  | some v => simp [children]
  | object c => simp [children]
  | dict d =>
    cases d with
    | undetermined => simp [unfold, children, Dict.values, Dict.entries]
    | ofKind kind entries =>
      have below : (∀ e ∈ entries, (unfoldEntry f e).isSome) ↔
          ∀ w ∈ (dict (.ofKind kind entries)).children, (w.unfold f).isSome := by
        refine Iff.trans ?_ List.forall_mem_map.symm
        simp [unfoldEntry, Dict.entries]
      rw [unfold_dict, Option.isSome_map, isSome_mapM_iff, below]
      exact ⟨fun h => ⟨fun c same => (by cases same), h⟩, And.right⟩
  | _ => simp [unfold, children]

/-- A value unfolds if all instances in it do. -/
theorem isSome_unfold_iff : (v.unfold f).isSome ↔ ∀ c, v.HasInstance c → (f c).isSome := by
  induction v using Value.induction with
  | step v ih =>
    rw [isSome_unfold_step]
    constructor
    · rintro ⟨here, below⟩ c has
      rcases hasInstance_iff.mp has with rfl | ⟨w, hw, has⟩
      · exact here c rfl
      · exact (ih w hw).mp (below w hw) c has
    · refine fun all => ⟨fun c hc => all c (hasInstance_iff.mpr (.inl hc)), fun w hw => ?_⟩
      exact (ih w hw).mpr fun c has => all c (hasInstance_iff.mpr (.inr ⟨w, hw, has⟩))

/-- What a value unfolds into hangs on the instances in it only. -/
theorem unfold_congr (same : ∀ c, v.HasInstance c → f c = g c) : v.unfold f = v.unfold g := by
  induction v using Value.induction with
  | step v ih =>
    have below : ∀ w ∈ v.children, w.unfold f = w.unfold g := fun w hw =>
      ih w hw fun c has => same c (hasInstance_iff.mpr (.inr ⟨w, hw, has⟩))
    cases v with
    | list items =>
      rw [unfold_list, unfold_list]
      exact congrArg _ (mapM_eq_of_forall₂ (List.forall₂_same.mpr below))
    | tuple items =>
      rw [unfold_tuple, unfold_tuple]
      exact congrArg _ (mapM_eq_of_forall₂ (List.forall₂_same.mpr below))
    | some v => rw [unfold_some, unfold_some, below v List.mem_cons_self]
    | object c => rw [unfold_object, unfold_object, same c (hasInstance_object.mpr rfl)]
    | dict d =>
      cases d with
      | undetermined => rw [unfold, unfold] <;> simp
      | ofKind kind entries =>
        have each : ∀ e ∈ entries, unfoldEntry f e = unfoldEntry g e := fun e he => by
          rw [unfoldEntry, unfoldEntry, below e.2 (List.mem_map_of_mem he)]
        rw [unfold_dict, unfold_dict, mapM_eq_of_forall₂ (List.forall₂_same.mpr each)]
    | _ => rw [unfold, unfold] <;> simp

end Value

theorem Graph.kind?_of_isObject {g : Graph} {c : CtxId} (h : g.isObject c = true) :
    ∃ owner decl given arguments members,
      g.kind? c = some (.object owner decl given arguments members) := by
  obtain ⟨kind, hk, object⟩ := (Option.any_eq_true ..).mp h
  cases kind with
  | object owner decl given arguments members => exact ⟨owner, decl, given, arguments, members, hk⟩
  | _ => cases object

theorem Graph.memberNames_of_kind? {g : Graph} {c owner : CtxId} {decl : ClassDecl}
    {given : List (Param × Arg)} {arguments : List (String × CellId)} {members : List String}
    (hk : g.kind? c = some (.object owner decl given arguments members)) : g.memberNames c = members := by
  rw [memberNames, hk]

theorem Graph.member?_of_context? {g g' : Graph} {c : CtxId}
    (same : g'.context? c = g.context? c) (name : String) :
    g'.member? c name = g.member? c name := by
  rw [member?, member?, isObject, isObject, kind?, kind?, localVar?, localVar?, same]

theorem Graph.memberNames_of_context? {g g' : Graph} {c : CtxId}
    (same : g'.context? c = g.context? c) : g'.memberNames c = g.memberNames c := by
  rw [memberNames, memberNames, kind?, kind?, same]

namespace Store

variable {s t : Store} {c d : CtxId} {name : String} {cell : Cell} {depth : Nat} {v : Value}

def memberCell? (s : Store) (c : CtxId) (name : String) : Option Cell :=
  (s.graph.member? c name).bind s.cell?

/-- The members of an instance with their cells, in the order of their declaration. -/
def members (s : Store) (c : CtxId) : List (String × Cell) :=
  (s.graph.memberNames c).filterMap fun name => (s.memberCell? c name).map (name, ·)

theorem mem_members_iff : (name, cell) ∈ s.members c ↔
    name ∈ s.graph.memberNames c ∧ s.memberCell? c name = some cell := by
  simp only [members, List.mem_filterMap, Option.map_eq_some_iff, Prod.mk.injEq]
  constructor
  · rintro ⟨_, listed, _, found, rfl, rfl⟩
    exact ⟨listed, found⟩
  · rintro ⟨listed, found⟩
    exact ⟨name, listed, cell, found, rfl, rfl⟩

/-- Unfolds the value of a member. -/
def unfoldMember (f : CtxId → Option Tree) (e : String × Cell) : Option (String × Attrs × Tree) :=
  (e.2.value.unfold f).map (e.1, e.2.attrs, ·)

/-- Unfolds an instance in which at most `depth` instances hold one another. Any other context is a
handle. -/
def unfoldInstance (s : Store) : Nat → CtxId → Option Tree
  | 0, _ => none
  | depth + 1, c =>
    match s.graph.kind? c with
    | some (.object _ decl ..) =>
      ((s.members c).mapM (unfoldMember (s.unfoldInstance depth))).map (.object decl)
    | _ => some (.leaf (.object c))

/-- Unfolds a value in which at most `depth` instances hold one another. -/
def unfold (s : Store) (depth : Nat) : Value → Option Tree := Value.unfold (s.unfoldInstance depth)

/-- A member of the one instance holds the other. -/
def Contains (s : Store) (c d : CtxId) : Prop := ∃ e ∈ s.members c, e.2.value.HasInstance d

/-- The instances that a value leads to: those in it, those in their members, and so on. -/
def Reaches (s : Store) (v : Value) (d : CtxId) : Prop :=
  s.graph.isObject d = true ∧ ∃ c, v.HasInstance c ∧ Relation.ReflTransGen s.Contains c d

theorem unfoldInstance_of_object {owner : CtxId} {decl : ClassDecl}
    {given : List (Param × Arg)} {arguments : List (String × CellId)} {members : List String}
    (hk : s.graph.kind? c = some (.object owner decl given arguments members)) :
    s.unfoldInstance (depth + 1) c =
      ((s.members c).mapM (unfoldMember (s.unfoldInstance depth))).map (.object decl) := by
  rw [unfoldInstance, hk]

theorem unfoldInstance_of_not_object (h : s.graph.isObject c = false) :
    s.unfoldInstance (depth + 1) c = some (.leaf (.object c)) := by
  rw [unfoldInstance]
  split
  · rename_i hk
    rw [Graph.isObject, hk] at h
    cases h
  · rfl

theorem members_of_not_object (h : s.graph.isObject c = false) : s.members c = [] := by
  rw [members, Graph.memberNames]
  split
  · rename_i hk
    rw [Graph.isObject, hk] at h
    cases h
  · rfl

/-- Only an instance contains something. -/
theorem isObject_of_contains (h : s.Contains c d) : s.graph.isObject c = true := by
  obtain ⟨e, he, -⟩ := h
  by_contra object
  rw [members_of_not_object (Bool.eq_false_of_not_eq_true object)] at he
  cases he

theorem isSome_unfoldInstance_iff : (s.unfoldInstance (depth + 1) c).isSome ↔
    ∀ d, s.Contains c d → (s.unfoldInstance depth d).isSome := by
  cases object : s.graph.isObject c with
  | false =>
    rw [unfoldInstance_of_not_object object]
    refine iff_of_true rfl fun d h => ?_
    cases (isObject_of_contains h).symm.trans object
  | true =>
    obtain ⟨owner, decl, given, arguments, members, hk⟩ := Graph.kind?_of_isObject object
    rw [unfoldInstance_of_object hk, Option.isSome_map, isSome_mapM_iff]
    simp only [unfoldMember, Option.isSome_map, Value.isSome_unfold_iff, Contains]
    exact ⟨fun all d ⟨e, he, has⟩ => all e he d has, fun all e he d has => all d ⟨e, he, has⟩⟩

/-- No member of the contexts that satisfy `P` is a cell that does not satisfy `Q`, and there is no
other instance in what these cells hold. -/
structure Sealed (P : CtxId → Prop) (Q : CellId → Prop) (s : Store) : Prop where
  cells : ∀ c name i, P c → s.graph.member? c name = some i → Q i
  instances : ∀ i cell, Q i → s.cell? i = some cell → ∀ c, cell.value.HasInstance c → P c

/-- The stores are the same in some contexts and some cells. -/
structure Agree (P : CtxId → Prop) (Q : CellId → Prop) (s t : Store) : Prop where
  contexts : ∀ c, P c → t.graph.context? c = s.graph.context? c
  cells : ∀ i, Q i → t.cell? i = s.cell? i

namespace Sealed

variable {P : CtxId → Prop} {Q : CellId → Prop}

theorem memberCell? (sound : s.Sealed P Q) (hc : P c) (found : s.memberCell? c name = some cell) :
    ∀ d, cell.value.HasInstance d → P d := by
  obtain ⟨i, hi, hcell⟩ := Option.bind_eq_some_iff.mp found
  exact sound.instances i cell (sound.cells c name i hc hi) hcell

theorem contains (sound : s.Sealed P Q) (hc : P c) (h : s.Contains c d) : P d := by
  obtain ⟨e, he, has⟩ := h
  exact sound.memberCell? hc (mem_members_iff.mp he).2 d has

theorem transGen (sound : s.Sealed P Q) (hc : P c) (h : Relation.TransGen s.Contains c d) :
    P d := by
  induction h with
  | single step => exact sound.contains hc step
  | tail _ step ih => exact sound.contains ih step

theorem reaches (sound : s.Sealed P Q) (hv : ∀ c, v.HasInstance c → P c) (h : s.Reaches v d) :
    P d := by
  obtain ⟨-, c, has, path⟩ := h
  rcases Relation.reflTransGen_iff_eq_or_transGen.mp path with rfl | path
  · exact hv d has
  · exact sound.transGen (hv c has) path

theorem members_eq (sound : s.Sealed P Q) (agree : Agree P Q s t) (hc : P c) :
    t.members c = s.members c := by
  have context := agree.contexts c hc
  rw [Store.members, Store.members, Graph.memberNames_of_context? context]
  refine congrArg (List.filterMap · _) (funext fun name => ?_)
  rw [Store.memberCell?, Store.memberCell?, Graph.member?_of_context? context]
  refine congrArg (Option.map _) (Option.bind_congr fun i hi => ?_)
  exact agree.cells i (sound.cells c name i hc hi)

theorem of_agree (sound : s.Sealed P Q) (agree : Agree P Q s t) : t.Sealed P Q where
  cells c name i hc hi := by
    rw [Graph.member?_of_context? (agree.contexts c hc)] at hi
    exact sound.cells c name i hc hi
  instances i cell hi hcell := sound.instances i cell hi ((agree.cells i hi).symm.trans hcell)

/-- What there is in a sealed part unfolds in it. -/
theorem unfoldInstance_eq (sound : s.Sealed P Q) (agree : Agree P Q s t) (depth : Nat) (hc : P c) :
    t.unfoldInstance depth c = s.unfoldInstance depth c := by
  induction depth generalizing c with
  | zero => rfl
  | succ depth ih =>
    have same : t.members c = s.members c := sound.members_eq agree hc
    have each : ∀ e ∈ s.members c,
        unfoldMember (t.unfoldInstance depth) e = unfoldMember (s.unfoldInstance depth) e := by
      intro e he
      refine congrArg (Option.map _) (Value.unfold_congr fun d has => ih ?_)
      exact sound.contains hc ⟨e, he, has⟩
    rw [unfoldInstance, unfoldInstance, Graph.kind?, Graph.kind?, agree.contexts c hc, same,
      mapM_eq_of_forall₂ (List.forall₂_same.mpr each)]

theorem unfold_eq (sound : s.Sealed P Q) (agree : Agree P Q s t)
    (hv : ∀ c, v.HasInstance c → P c) (depth : Nat) : t.unfold depth v = s.unfold depth v :=
  Value.unfold_congr fun c has => sound.unfoldInstance_eq agree depth (hv c has)

end Sealed

/-- Nothing in the store leads out of it. -/
def Whole (s : Store) : Prop := s.Sealed (· < s.graph.size) (· < s.cells.size)

theorem whole_of_closed (closed : Region.all.Closed s) : s.Whole where
  cells c name i hc hi := (closed.member? ⟨Nat.zero_le c, hc⟩ hi).2
  instances i cell hi hcell c has := by
    have within := closed.values i ⟨Nat.zero_le i, hi⟩
    rw [Store.cell, hcell] at within
    exact (within.of_hasInstance has).2

open Classical in
/-- What an instance leads to, by way of members. -/
noncomputable def descendants (s : Store) (c : CtxId) : Finset CtxId :=
  (Finset.range s.graph.size).filter (Relation.TransGen s.Contains c)

theorem mem_descendants (whole : s.Whole) (hc : c < s.graph.size) :
    d ∈ s.descendants c ↔ Relation.TransGen s.Contains c d := by
  classical
  rw [descendants, Finset.mem_filter, Finset.mem_range]
  exact and_iff_right_of_imp (whole.transGen hc)

/-- What an instance holds leads to less than the instance does, if that does not hold itself. -/
theorem card_descendants_lt (whole : s.Whole) (hc : c < s.graph.size) (h : s.Contains c d)
    (acyclic : ¬Relation.TransGen s.Contains d d) :
    (s.descendants d).card < (s.descendants c).card := by
  have hd : d < s.graph.size := whole.contains hc h
  refine Finset.card_lt_card (Finset.ssubset_iff_subset_ne.mpr ⟨fun e he => ?_, fun same => ?_⟩)
  · exact (mem_descendants whole hc).mpr (.head h ((mem_descendants whole hd).mp he))
  · have : d ∈ s.descendants d := same ▸ (mem_descendants whole hc).mpr (.single h)
    exact acyclic ((mem_descendants whole hd).mp this)

/-- An instance unfolds at any depth above the number of instances that it leads to. -/
theorem isSome_unfoldInstance (whole : s.Whole) (hc : c < s.graph.size)
    (acyclic : ∀ d, Relation.TransGen s.Contains c d → ¬Relation.TransGen s.Contains d d)
    (deep : (s.descendants c).card < depth) : (s.unfoldInstance depth c).isSome := by
  induction depth generalizing c with
  | zero => exact absurd deep (Nat.not_lt_zero _)
  | succ depth ih =>
    refine isSome_unfoldInstance_iff.mpr fun d h => ih (whole.contains hc h) ?_ ?_
    · exact fun e path => acyclic e (.head h path)
    · exact Nat.lt_of_lt_of_le (card_descendants_lt whole hc h (acyclic d (.single h)))
        (Nat.le_of_lt_succ deep)

/-- The instances in the value are there, and unfold at the depth. -/
def Unfolds (s : Store) (depth : Nat) (v : Value) : Prop :=
  ∀ c, v.HasInstance c → c < s.graph.size ∧ (s.unfoldInstance depth c).isSome

theorem Unfolds.isSome (h : s.Unfolds depth v) : (s.unfold depth v).isSome :=
  Value.isSome_unfold_iff.mpr fun c has => (h c has).2

/-- A value unfolds if no instance that it leads to holds itself. -/
theorem unfolds_of_acyclic (whole : s.Whole) (hv : ∀ c, v.HasInstance c → c < s.graph.size)
    (acyclic : ∀ c, s.Reaches v c → ¬Relation.TransGen s.Contains c c) :
    s.Unfolds (s.graph.size + 1) v := by
  refine fun c has => ⟨hv c has, ?_⟩
  refine isSome_unfoldInstance whole (hv c has) (fun d path => ?_) (Nat.lt_succ_of_le ?_)
  · intro cycle
    obtain ⟨e, first, -⟩ := Relation.TransGen.head'_iff.mp cycle
    exact acyclic d ⟨isObject_of_contains first, c, has, path.to_reflTransGen⟩ cycle
  · classical
    exact (Finset.card_filter_le ..).trans (Finset.card_range _).le

end Store

end TreeScript
