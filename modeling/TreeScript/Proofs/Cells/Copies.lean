import TreeScript.Proofs.Cells.Annotations
import TreeScript.Proofs.Cells.Constants

/-!
# Copies of instances

A copy of an instance has members of the same types, with the same attributes. A member is copied to
a cell of its own, and copying one changes neither the members that are there nor the instance that
is copied.
-/
namespace TreeScript

variable {start s : Store} {c : CtxId} {i : CellId}

/-- What the innermost frame binds a name to is what the name means. -/
theorem ScopeStack.get?_of_lookup_top {α : Type} (stack : ScopeStack α) {name : String} {item : α}
    (h : stack.top.lookup name = some item) : stack.get? name = some item := by
  rw [get?, frames, List.findSome?_cons, h]

namespace Graph

variable {g g' : Graph} {target : CtxId} {name : String}

theorem localVar?_of_scopes? (same : g'.scopes? c = g.scopes? c) (name : String) :
    g'.localVar? c name = g.localVar? c name := by
  rw [localVar?_eq, localVar?_eq, localBinding?, localBinding?, same]

theorem localVar?_update_same (f : Context → Context) (h : ∀ ctx, (f ctx).vars = ctx.vars) :
    (g.update target f).localVar? c name = g.localVar? c name := by
  rw [localVar?, localVar?, context?_update]
  split
  · rw [Option.bind_map]
    exact Option.bind_congr fun ctx _ => by rw [Function.comp_apply, h]
  · rfl

end Graph

namespace Store

variable {source target : CtxId} {cell : Cell} {name : String} {depth : Nat} {t : Store}
  {v v' : Value}

theorem LeadsTo.keepsConstants (h : s.LeadsTo t) : s.KeepsConstants t := by
  induction h with
  | refl => exact .refl s
  | tail _ turn ih =>
    refine ih.trans ?_
    cases turn with
    | step step => exact step.keepsConstants
    | scopeClosed => exact .of_cells rfl
    | released => exact .of_cells rfl

/-- What is never changed of a cell: the type of what it holds, and its attributes. -/
def imprint (s : Store) (i : CellId) : (Kind × String) × Attrs := (s.tag i, (s.cell i).attrs)

/-- Every name that the one context binds is bound by the other, to a cell of the same imprint. -/
def Mirrors (s : Store) (source target : CtxId) : Prop :=
  ∀ name j, s.graph.localVar? target name = some j →
    ∃ i, s.graph.localVar? source name = some i ∧ s.imprint j = s.imprint i

theorem localVar?_declareMethods : ∀ (s : Store) methods,
    (s.declareMethods target methods).graph.localVar? c name = s.graph.localVar? c name
  | s, [] => rfl
  | s, decl :: rest => by
    rw [declareMethods, declare, Declaration.run]
    cases (Declaration.ofFunc target ⟨decl, target⟩).obstacle? s.graph with
    | some fault => exact localVar?_declareMethods s rest
    | none =>
      refine (localVar?_declareMethods _ rest).trans ?_
      exact Graph.localVar?_update_same _ fun _ => rfl

/-- A member gets a cell of its own, or is noted only, if its name is bound already. -/
theorem declareMember_cases (s : Store) (c : CtxId) (cell : Cell) :
    s.declareMember c cell = s.bindNew c cell ∨
      (∃ i, s.graph.localVar? c cell.name = some i) ∧
        s.declareMember c cell = s.modifyGraph (·.update c fun ctx =>
          { ctx with kind := Declaration.recordMember cell.name ctx.kind }) := by
  unfold declareMember declareVar addCell declare Declaration.run
  dsimp only
  cases h : (Declaration.ofVar c cell.name cell.name s.cells.size).obstacle? s.graph with
  | none => exact .inl rfl
  | some fault =>
    refine .inr ⟨?_, rfl⟩
    obtain ⟨bound, -⟩ := Option.ite_none_right_eq_some.mp h
    obtain ⟨ctx, hctx, bound⟩ := (Option.any_eq_true ..).mp bound
    obtain ⟨i, hi⟩ := Option.isSome_iff_exists.mp bound
    exact ⟨i, Option.bind_eq_some_iff.mpr ⟨ctx, hctx, ctx.vars.get?_of_lookup_top hi⟩⟩

/-- Declaring a member binds its name at most, to the cell that is its own. -/
theorem localVar?_declareMember
    (found : (s.declareMember c cell).graph.localVar? c name = some i) :
    s.graph.localVar? c name = some i ∨
      name = cell.name ∧ (s.declareMember c cell).cell i = cell := by
  rcases declareMember_cases s c cell with run | ⟨-, run⟩
  · rw [run] at found ⊢
    obtain ⟨ctx', hctx', hi⟩ := Option.bind_eq_some_iff.mp found
    rw [show (s.bindNew c cell).graph.context? c = _ from Graph.context?_update .., if_pos rfl]
      at hctx'
    obtain ⟨ctx, hctx, rfl⟩ := Option.map_eq_some_iff.mp hctx'
    change (ctx.vars.bind cell.name s.cells.size).get? name = some i at hi
    by_cases same : name = cell.name
    · rw [same, ScopeStack.get?_bind_self] at hi
      cases hi
      exact .inr ⟨same, cell_addCell_self s cell⟩
    · rw [ScopeStack.get?_bind_of_ne _ _ same] at hi
      exact .inl (Option.bind_eq_some_iff.mpr ⟨ctx, hctx, hi⟩)
  · rw [run] at found
    refine .inl (Eq.trans (Eq.symm ?_) found)
    exact Graph.localVar?_update_same _ fun _ => rfl

theorem scopes?_declareMember (h : target ≠ c) :
    (s.declareMember target cell).graph.scopes? c = s.graph.scopes? c := by
  rcases declareMember_cases s target cell with run | ⟨-, run⟩ <;>
  · rw [run]
    exact Graph.scopes?_update_of_ne _ h

/-- Something that is no instance is its own copy. The copy of an instance is a new one of the same
class, with copied members. -/
theorem copyInstance_cases {o o' : CtxId} (h : s.copyInstance depth o = some (o', t)) :
    o' = o ∧ t = s ∨ ∃ depth owner decl given arguments members s₂,
      s.graph.kind? o = some (.object owner decl given arguments members) ∧ o' = s.graph.size ∧
      copyMembers (copy depth) o o' members
        (s.addContext (.object owner decl [] [] [])).2 = some s₂ ∧
      t = s₂.declareMethods o' decl.methods := by
  cases depth with
  | zero => cases h
  | succ depth =>
    rw [copyInstance, copyObject] at h
    split at h
    · rename_i owner decl given arguments members hk
      obtain ⟨s₂, filled, he⟩ := Option.map_eq_some_iff.mp h
      cases he
      exact .inr ⟨depth, owner, decl, given, arguments, members, s₂, hk, rfl, filled, rfl⟩
    · cases h
      exact .inl ⟨rfl, rfl⟩

theorem className?_copyInstance {o o' : CtxId} (h : s.copyInstance depth o = some (o', t)) :
    t.graph.className? o' = s.graph.className? o := by
  rcases copyInstance_cases h with
    ⟨rfl, rfl⟩ | ⟨depth, owner, decl, given, arguments, members, s₂, hk, rfl, filled, rfl⟩
  · rfl
  · let C := copyingAbove s.graph.size
    let kind : ContextKind := .object owner decl [] [] []
    have there : s.graph.size < (s.addContext kind).2.graph.size := by
      rw [addContext, Graph.size_add]
      exact Nat.lt_succ_self _
    have filling : Later s.graph.size (s.addContext kind).2 s₂ :=
      C.leads_copyMembers (C.copies_copy depth) members _ s₂ (Nat.le_of_lt there) trivial
        (Nat.le_refl _) filled
    have declaring : s₂.Later s.graph.size (s₂.declareMethods s.graph.size decl.methods) :=
      C.leads_declareMethods decl.methods s₂
        (Nat.le_trans (Nat.le_of_lt there) filling.extends.contexts) (Nat.le_refl _)
    have skeleton := (filling.trans declaring).extends.skeletons s.graph.size there
    have new : (s.addContext kind).2.graph.className? s.graph.size = some decl.name := by
      rw [Graph.className?, Graph.kind?, show (s.addContext kind).2.graph.context? s.graph.size = _
        from Graph.context?_add_self kind]
      rfl
    rw [Region.className?_of_skeleton? skeleton, new, Graph.className?, hk]

/-- A copy is of the type of what it is a copy of. -/
theorem tag_copy (h : s.copy depth v = some (v', t)) :
    v'.tag (handlesOf t.graph #[]) = v.tag (handlesOf s.graph #[]) := by
  cases v with
  | object o =>
    obtain ⟨⟨o', t'⟩, ho, he⟩ := Option.map_eq_some_iff.mp h
    cases he
    simp only [Value.tag, Value.typeName, handlesOf, className?_copyInstance ho]
    rfl
  | list | tuple | some =>
    obtain ⟨_, -, he⟩ := Option.map_eq_some_iff.mp h
    cases he
    rfl
  | dict d =>
    cases d with
    | undetermined =>
      cases h
      rfl
    | ofKind =>
      obtain ⟨_, -, he⟩ := Option.map_eq_some_iff.mp h
      cases he
      rfl
  | _ =>
    cases h
    rfl

end Store

namespace Ledger

variable {w w' : Ledger .all start} {source target : CtxId} {depth : Nat}

theorem Next.imprint {i : CellId} (next : w.Next w') (there : Region.all.Cell w.store i) :
    w'.store.imprint i = w.store.imprint i :=
  Prod.ext (next.keeps.tags i there) (next.leads.keepsConstants.attrs i there.2)

/-- What goes on elsewhere does not matter, and a name that is bound anew is bound to a cell of the
imprint that it has in the source. -/
theorem mirrors_next (next : w.Next w') (h : w.store.Mirrors source target)
    (hs : source < w.store.graph.size) (ht : target < w.store.graph.size)
    (same : ∀ name, w'.store.graph.localVar? source name = w.store.graph.localVar? source name)
    (bound : ∀ name j, w'.store.graph.localVar? target name = some j →
      w.store.graph.localVar? target name = some j ∨
        ∃ i, w.store.graph.localVar? source name = some i ∧
          w'.store.imprint j = w.store.imprint i) :
    w'.store.Mirrors source target := by
  intro name j found
  have kept {c : CtxId} (hc : c < w.store.graph.size) {i : CellId}
      (hi : w.store.graph.localVar? c name = some i) :
      w'.store.imprint i = w.store.imprint i :=
    next.imprint (w.closed.localVar? ⟨Nat.zero_le c, hc⟩ hi)
  rcases bound name j found with old | ⟨i, hi, alike⟩
  · obtain ⟨i, hi, alike⟩ := h name j old
    refine ⟨i, (same name).trans hi, ?_⟩
    rw [kept ht old, kept hs hi, alike]
  · exact ⟨i, (same name).trans hi, alike.trans (kept hs hi).symm⟩

/-- One member is copied and declared. -/
theorem mirrors_copyMember {name : String} {cell : Cell} {value : Value} {s₁ : Store}
    (hne : source ≠ target) (hs : source < w.store.graph.size) (ht : target < w.store.graph.size)
    (found : (w.store.graph.localVar? source name).bind w.store.cell? = some cell)
    (copied : w.store.copy depth cell.value = some (value, s₁))
    (mirrors : w.store.Mirrors source target) :
    ∃ w', w.Next w' ∧ w'.store = s₁.declareMember target { cell with name, value } ∧
      w'.store.graph.scopes? source = w.store.graph.scopes? source ∧
      w'.store.Mirrors source target := by
  obtain ⟨i, hi, hcell⟩ := Option.bind_eq_some_iff.mp found
  have there := w.closed.localVar? ⟨Nat.zero_le source, hs⟩ hi
  have holds : w.store.cell i = cell := by rw [Store.cell, hcell]; rfl
  -- the value is copied, elsewhere
  obtain ⟨⟨w₁, next₁, left₁⟩, within⟩ := w.copy (holds ▸ w.closed.values i there) copied
  subst left₁
  have later := Store.later_copy copied
  have source₁ := later.scopes?_eq hs hs
  have mirrors₁ : w₁.store.Mirrors source target :=
    mirrors_next next₁ mirrors hs ht (Graph.localVar?_of_scopes? source₁) fun name j found =>
      .inl ((Graph.localVar?_of_scopes? (later.scopes?_eq ht ht) name).symm.trans found)
  -- the member is declared in the copy
  have target₁ : Region.all.Ctx w₁.store target :=
    ⟨Nat.zero_le target, next₁.there ht⟩
  obtain ⟨w₂, next₂, left₂⟩ := (copying .all start).leads_declareMember ⟨w₁, rfl⟩ target₁
    { cell with name, value } within w₁ rfl
  have source₂ : w₂.store.graph.scopes? source = w₁.store.graph.scopes? source := by
    rw [left₂]
    exact Store.scopes?_declareMember hne.symm
  refine ⟨w₂, next₁.trans next₂, left₂, source₂.trans source₁, ?_⟩
  refine mirrors_next next₂ mirrors₁ (next₁.there hs) target₁.2
    (Graph.localVar?_of_scopes? source₂) fun name j found => ?_
  have grown := next₂.keeps.toExtends
  rw [left₂] at found grown ⊢
  refine (Store.localVar?_declareMember found).imp id fun ⟨same, new⟩ => ⟨i, ?_, ?_⟩
  · rw [same, Graph.localVar?_of_scopes? source₁]
    exact hi
  · refine Eq.trans (Prod.ext ?_ ?_) (next₁.imprint there).symm
    · show Store.tag _ j = w.store.tag i
      rw [Store.tag, new, Region.tag_of_extends grown within, Store.tag_copy copied, ← holds]
      rfl
    · show (Store.cell _ j).attrs = (w.store.cell i).attrs
      rw [new, holds]

theorem mirrors_copyMembers (hne : source ≠ target) : ∀ names (w : Ledger .all start) t,
    source < w.store.graph.size → target < w.store.graph.size →
    Store.copyMembers (Store.copy depth) source target names w.store = some t →
    w.store.Mirrors source target → ∃ w', w.Next w' ∧ w'.store = t ∧
      t.graph.scopes? source = w.store.graph.scopes? source ∧ t.Mirrors source target
  | [], w, t, _, _, h, mirrors => by
    cases h
    exact ⟨w, .refl w, rfl, rfl, mirrors⟩
  | name :: rest, w, t, hs, ht, h, mirrors => by
    rw [Store.copyMembers] at h
    split at h
    · exact mirrors_copyMembers hne rest w t hs ht h mirrors
    · rename_i cell found
      split at h
      · cases h
      · rename_i value s₁ copied
        obtain ⟨w₁, next₁, left₁, same, mirrors⟩ :=
          mirrors_copyMember hne hs ht found copied mirrors
        rw [← left₁] at h
        obtain ⟨w', next, left, rest_same, mirrors⟩ := mirrors_copyMembers hne rest w₁ t
          (next₁.there hs) (next₁.there ht) h mirrors
        exact ⟨w', next₁.trans next, left, rest_same.trans same, mirrors⟩

/-- Every member of a copy has the imprint of the member that it is a copy of. -/
theorem imprint_copyInstance (w : Ledger .all start) {o o' : CtxId} (ho : o < w.store.graph.size)
    {t : Store} (h : w.store.copyInstance depth o = some (o', t)) {name : String} {j : CellId}
    (found : t.graph.member? o' name = some j) :
    ∃ i, w.store.graph.member? o name = some i ∧ t.imprint j = w.store.imprint i := by
  rcases Store.copyInstance_cases h with
    ⟨rfl, rfl⟩ | ⟨depth, owner, decl, given, arguments, members, s₂, hk, rfl, filled, rfl⟩
  · exact ⟨j, found, rfl⟩
  · have hc : Region.all.Ctx w.store o := ⟨Nat.zero_le o, ho⟩
    obtain ⟨added, there⟩ := (copying .all start).addObject ⟨w, rfl⟩
      (Value.within_object.mpr hc) hk
    obtain ⟨w₁, next₁, left₁⟩ := added w rfl
    have new : ∀ name, w₁.store.graph.localVar? w.store.graph.size name = none := by
      intro name
      rw [Graph.localVar?, left₁,
        show (w.store.addContext _).2.graph.context? w.store.graph.size = _
          from Graph.context?_add_self _]
      rfl
    rw [← left₁] at filled there
    obtain ⟨w₂, next₂, left₂, same, mirrors⟩ := mirrors_copyMembers (Nat.ne_of_lt ho) members w₁ s₂
      (next₁.there ho) there.2 filled
      (fun name j found => by rw [new name] at found; cases found)
    subst left₂
    obtain ⟨w₃, next₃, left₃⟩ := (copying .all start).leads_declareMethods decl.methods w₂.store
      ⟨w₂, rfl⟩ (there.extends next₂.keeps.toExtends) w₂ rfl
    have next := next₁.trans next₂
    have mirrors₃ : w₃.store.Mirrors o w.store.graph.size := by
      refine mirrors_next next₃ mirrors (next.there ho)
        (there.extends next₂.keeps.toExtends).2 (fun name => ?_) fun name j found => ?_
      · rw [left₃, Store.localVar?_declareMethods]
      · rw [left₃, Store.localVar?_declareMethods] at found
        exact .inl found
    rw [← left₃] at found ⊢
    obtain ⟨i, hi, alike⟩ := mirrors₃ name j (Graph.localVar?_of_member? found)
    have source : w₃.store.graph.localVar? o name = w.store.graph.localVar? o name := by
      rw [left₃, Store.localVar?_declareMethods, Graph.localVar?_of_scopes? same, left₁]
      exact congrArg (·.bind (·.vars.get? name)) (Graph.context?_add_of_lt _ ho)
    rw [source] at hi
    have object : w.store.graph.isObject o = true := by rw [Graph.isObject, hk]; rfl
    refine ⟨i, (if_pos object).trans hi, alike.trans ?_⟩
    exact (next.trans next₃).imprint (w.closed.localVar? hc hi)

/-- Every member of a copy is of the type of the member that it is a copy of. -/
theorem members_copyInstance (w : Ledger .all start) {o o' : CtxId} (ho : o < w.store.graph.size)
    {t : Store} (h : w.store.copyInstance depth o = some (o', t)) {name : String} {j : CellId}
    (found : t.graph.member? o' name = some j) :
    ∃ i, w.store.graph.member? o name = some i ∧ t.tag j = w.store.tag i := by
  obtain ⟨i, hi, alike⟩ := w.imprint_copyInstance ho h found
  exact ⟨i, hi, congrArg Prod.fst alike⟩

end Ledger

end TreeScript
