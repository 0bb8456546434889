import TreeScript.Proofs.Context.Binding
import TreeScript.Proofs.Value.Names

/-!
# Closed parts of a store

A part of a store, some contexts and some cells, is closed if nothing in it leads out of it. Look-up
from a context of a closed part finds only what belongs to the part.
-/
namespace TreeScript

/-- The modules that a context of this kind imports. -/
def ContextKind.imports : ContextKind → List (String × CtxId)
  | world _ _ imports => imports
  | _ => []

/-- All that a context leads to, contexts and cells, satisfies `P` and `Q`. -/
structure Context.Within (P : CtxId → Prop) (Q : CellId → Prop) (ctx : Context) : Prop where
  owner : ∀ o, ctx.kind.owner? = some o → P o
  imports : ∀ e ∈ ctx.kind.imports, P e.2
  arguments : ∀ arguments, ctx.kind.arguments? = some arguments → ∀ e ∈ arguments, Q e.2
  vars : ∀ frame ∈ ctx.vars.frames, ∀ e ∈ frame, Q e.2
  funcs : ∀ frame ∈ ctx.funcs.frames, ∀ e ∈ frame, P e.2.owner

namespace Context.Within

variable {P P' : CtxId → Prop} {Q Q' : CellId → Prop} {ctx : Context}

theorem mono (h : ctx.Within P Q) (hP : ∀ c, P c → P' c) (hQ : ∀ i, Q i → Q' i) :
    ctx.Within P' Q' where
  owner o ho := hP o (h.owner o ho)
  imports e he := hP e.2 (h.imports e he)
  arguments arguments ha e he := hQ e.2 (h.arguments arguments ha e he)
  vars frame hf e he := hQ e.2 (h.vars frame hf e he)
  funcs frame hf e he := hP e.2.owner (h.funcs frame hf e he)

theorem and (h : ctx.Within P Q) (h' : ctx.Within P' Q') :
    ctx.Within (fun c => P c ∧ P' c) fun i => Q i ∧ Q' i where
  owner o ho := ⟨h.owner o ho, h'.owner o ho⟩
  imports e he := ⟨h.imports e he, h'.imports e he⟩
  arguments arguments ha e he := ⟨h.arguments arguments ha e he, h'.arguments arguments ha e he⟩
  vars frame hf e he := ⟨h.vars frame hf e he, h'.vars frame hf e he⟩
  funcs frame hf e he := ⟨h.funcs frame hf e he, h'.funcs frame hf e he⟩

end Context.Within

/-- A context with nothing in it leads to its owner only. -/
theorem Context.within_fresh {P : CtxId → Prop} {Q : CellId → Prop} {kind : ContextKind}
    (owner : ∀ o, kind.owner? = some o → P o) (imports : kind.imports = [])
    (arguments : kind.arguments?.getD [] = []) : (Context.fresh kind).Within P Q where
  owner := owner
  imports e he := absurd (imports ▸ he) List.not_mem_nil
  arguments := by
    intro bound hb e he
    obtain rfl : bound = [] := by
      rw [show kind.arguments? = some bound from hb] at arguments
      exact arguments
    exact absurd he List.not_mem_nil
  vars := List.forall_mem_cons.mpr ⟨nofun, nofun⟩
  funcs := List.forall_mem_cons.mpr ⟨nofun, nofun⟩

/-- Some contexts and some cells. -/
structure Part where
  Ctx : CtxId → Prop
  Cell : CellId → Prop

/-- The contexts that satisfy `P` lead only to such contexts and to cells that satisfy `Q`, and the
values of these cells name only such contexts. -/
structure Store.Closed (P : CtxId → Prop) (Q : CellId → Prop) (s : Store) : Prop where
  contexts : ∀ c ctx, P c → s.graph.context? c = some ctx → ctx.Within P Q
  values : ∀ i, Q i → (s.cell i).value.Within P

theorem ScopeStack.mem_of_get? {α : Type} {s : ScopeStack α} {name : String} {item : α}
    (h : s.get? name = some item) : ∃ frame ∈ s.frames, (name, item) ∈ frame := by
  obtain ⟨frame, hf, hl⟩ := List.exists_of_findSome?_eq_some h
  obtain ⟨before, after, he, -⟩ := List.lookup_eq_some_iff.mp hl
  exact ⟨frame, hf, by simp [he]⟩

namespace Store.Closed

variable {P : CtxId → Prop} {Q : CellId → Prop} {s : Store} {c d : CtxId} {i : CellId}
  {name : String}

theorem of_kind? (closed : s.Closed P Q) (hc : P c) {kind : ContextKind}
    (hk : s.graph.kind? c = some kind) :
    (∀ o, kind.owner? = some o → P o) ∧ ∀ e ∈ kind.imports, P e.2 := by
  obtain ⟨ctx, hctx, rfl⟩ := Option.map_eq_some_iff.mp hk
  have within := closed.contexts c ctx hc hctx
  exact ⟨within.owner, within.imports⟩

theorem localVar? (closed : s.Closed P Q) (hc : P c) (h : s.graph.localVar? c name = some i) :
    Q i := by
  obtain ⟨ctx, hctx, hv⟩ := Option.bind_eq_some_iff.mp h
  obtain ⟨frame, hf, hi⟩ := ScopeStack.mem_of_get? hv
  exact (closed.contexts c ctx hc hctx).vars frame hf _ hi

theorem member? (closed : s.Closed P Q) (hc : P c) (h : s.graph.member? c name = some i) : Q i := by
  unfold Graph.member? at h
  split at h
  · exact closed.localVar? hc h
  · cases h

theorem argument? (closed : s.Closed P Q) (hc : P c) (h : s.graph.argument? c name = some i) :
    Q i := by
  unfold Graph.argument? at h
  split at h
  · rename_i owner decl given arguments members hk
    obtain ⟨ctx, hctx, hkind⟩ := Option.map_eq_some_iff.mp hk
    obtain ⟨before, after, he, -⟩ := List.lookup_eq_some_iff.mp h
    have bound : ctx.kind.arguments? = some arguments := by
      rw [hkind]
      rfl
    exact (closed.contexts c ctx hc hctx).arguments arguments bound (name, i) (by simp [he])
  · cases h

theorem localFunc? (closed : s.Closed P Q) (hc : P c) {f : Func}
    (h : s.graph.localFunc? c name = some f) : P f.owner := by
  obtain ⟨ctx, hctx, hv⟩ := Option.bind_eq_some_iff.mp h
  obtain ⟨frame, hf, hi⟩ := ScopeStack.mem_of_get? hv
  exact (closed.contexts c ctx hc hctx).funcs frame hf _ hi

theorem owner? (closed : s.Closed P Q) (hc : P c) (h : s.graph.owner? c = some d) : P d := by
  unfold Graph.owner? at h
  split at h
  · cases h
  · rename_i o ho
    obtain ⟨kind, hk, ho⟩ := Option.bind_eq_some_iff.mp ho
    split at h
    · unfold Graph.follow at h
      split at h
      · cases h
      · cases h
        exact (closed.of_kind? hc hk).1 d ho
    · cases h

theorem mem_chain (closed : s.Closed P Q) (hc : P c) (h : d ∈ s.graph.chain c) : P d := by
  have upTo : ∀ n c, P c → d ∈ s.graph.chainUpTo n c → P d := by
    intro n
    induction n with
    | zero =>
      intro c hc h
      rw [Graph.chainUpTo, List.mem_singleton] at h
      exact h ▸ hc
    | succ n ih =>
      intro c hc h
      rw [Graph.chainUpTo] at h
      cases ho : s.graph.owner? c with
      | none =>
        rw [ho, List.mem_singleton] at h
        exact h ▸ hc
      | some o =>
        rw [ho] at h
        rcases List.mem_cons.mp h with rfl | h
        · exact hc
        · exact ih o (closed.owner? hc ho) h
  exact upTo c c hc h

theorem root (closed : s.Closed P Q) (hc : P c) : P (s.graph.root c) := by
  refine closed.mem_chain hc ?_
  rw [Graph.root, List.getLastD_eq_getLast?]
  cases hl : (s.graph.chain c).getLast? with
  | none =>
    rw [Graph.chain_eq] at hl
    simp at hl
  | some d => exact List.mem_of_getLast? hl

theorem enclosingObject? (closed : s.Closed P Q) (hc : P c)
    (h : s.graph.enclosingObject? c = some d) : P d :=
  closed.mem_chain hc (List.mem_of_find?_eq_some h)

theorem varAlong? (closed : s.Closed P Q) : ∀ {cs : List CtxId}, (∀ c ∈ cs, P c) →
    s.graph.varAlong? name cs = some i → Q i
  | c :: outer, hcs, h => by
    have hc := hcs c List.mem_cons_self
    have houter : ∀ d ∈ outer, P d := fun d hd => hcs d (List.mem_cons_of_mem c hd)
    have rest : s.graph.varAlong? name outer = some i → Q i := closed.varAlong? houter
    rw [Graph.varAlong?] at h
    split at h
    · cases h
    · exact closed.localVar? hc h
    · rcases Option.or_eq_some_iff.mp h with h | ⟨-, h⟩
      · obtain ⟨d, hd, h⟩ := Option.bind_eq_some_iff.mp h
        exact closed.member? (houter d (List.mem_of_find?_eq_some hd)) h
      · rcases Option.or_eq_some_iff.mp h with h | ⟨-, h⟩
        · exact closed.localVar? hc h
        · exact rest h
    · rcases Option.or_eq_some_iff.mp h with h | ⟨-, h⟩
      · exact closed.localVar? hc h
      · rcases Option.or_eq_some_iff.mp h with h | ⟨-, h⟩
        · exact closed.argument? hc h
        · exact rest h
    · rcases Option.or_eq_some_iff.mp h with h | ⟨-, h⟩
      · exact closed.localVar? hc h
      · exact rest h

theorem var? (closed : s.Closed P Q) (hc : P c) (h : s.graph.var? c name = some i) : Q i :=
  closed.varAlong? (fun _ => closed.mem_chain hc) h

theorem funcAlong? (closed : s.Closed P Q) {f : Func} : ∀ {cs : List CtxId}, (∀ c ∈ cs, P c) →
    s.graph.funcAlong? name cs = some f → P f.owner
  | c :: outer, hcs, h => by
    have hc := hcs c List.mem_cons_self
    have rest : s.graph.funcAlong? name outer = some f → P f.owner :=
      closed.funcAlong? fun d hd => hcs d (List.mem_cons_of_mem c hd)
    rw [Graph.funcAlong?] at h
    split at h
    · cases h
    · exact closed.localFunc? hc h
    · rcases Option.or_eq_some_iff.mp h with h | ⟨-, h⟩
      · exact rest h
      · exact closed.localFunc? hc h
    · rcases Option.or_eq_some_iff.mp h with h | ⟨-, h⟩
      · exact rest h
      · exact closed.localFunc? hc h
    · rcases Option.or_eq_some_iff.mp h with h | ⟨-, h⟩
      · exact closed.localFunc? hc h
      · exact rest h

theorem func? (closed : s.Closed P Q) (hc : P c) {f : Func} (h : s.graph.func? c name = some f) :
    P f.owner := closed.funcAlong? (fun _ => closed.mem_chain hc) h

theorem import? (closed : s.Closed P Q) (hc : P c) (h : s.graph.import? c name = some d) : P d := by
  unfold Graph.import? at h
  split at h
  · rename_i module classes imports hk
    obtain ⟨before, after, he, -⟩ := List.lookup_eq_some_iff.mp h
    exact (closed.of_kind? (closed.root hc) hk).2 (name, d) (by simp [ContextKind.imports, he])
  · cases h

end Store.Closed

end TreeScript
