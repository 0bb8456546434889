import TreeScript.Proofs.Context.Binding
import TreeScript.Proofs.Context.Entries
import TreeScript.Proofs.Lifetime.Survival

/-!
# Chains of owners

Every owner is older than what it owns, so what is said of chains is said by induction on owners. A
World has no owner and is the last of every chain that it is on. A name means something that is bound
on the chain.
-/
namespace TreeScript

variable {s : Store} {holds : List Hold} {c d o w : CtxId} {i : CellId} {name : String}

namespace Graph

variable {g g' : Graph}

theorem owner?_eq_some : g.owner? c = some o ↔
    (g.kind? c).bind ContextKind.owner? = some o ∧ o < c ∧
      (g.isWorld o = true → g.isLive o = true) := by
  have followed : g.follow o = some o ↔ (g.isWorld o = true → g.isLive o = true) := by
    rw [follow]
    cases g.isWorld o <;> cases g.isLive o <;> simp
  rw [owner?]
  cases (g.kind? c).bind ContextKind.owner? with
  | none => simp only [reduceCtorEq, false_and]
  | some p =>
    dsimp only
    constructor
    · intro h
      split at h
      · rename_i older
        have same : p = o := by
          unfold follow at h
          split at h
          · cases h
          · exact Option.some.inj h
        subst same
        exact ⟨rfl, older, followed.mp h⟩
      · cases h
    · rintro ⟨⟨⟩, older, living⟩
      rw [if_pos older]
      exact followed.mpr living

/-- Whatever passes from owners to what they own, and holds of what has no owner, holds of all. -/
theorem owner_induction {P : CtxId → Prop} (last : ∀ c, g.owner? c = none → P c)
    (owned : ∀ c o, g.owner? c = some o → P o → P c) (c : CtxId) : P c := by
  induction c using Nat.strongRecOn with
  | _ c ih =>
    cases ho : g.owner? c with
    | none => exact last c ho
    | some o => exact owned c o ho (ih o (lt_of_owner? ho))

theorem chain_of_none (h : g.owner? c = none) : g.chain c = [c] := by rw [chain_eq, h]

theorem chain_of_some (h : g.owner? c = some o) : g.chain c = c :: g.chain o := by rw [chain_eq, h]

theorem self_mem_chain (g : Graph) (c : CtxId) : c ∈ g.chain c := by
  rw [chain_eq]
  exact List.mem_cons_self

theorem root_of_none (h : g.owner? c = none) : g.root c = c := by
  rw [root, chain_of_none h]
  rfl

theorem root_of_some (h : g.owner? c = some o) : g.root c = g.root o := by
  rw [root, chain_of_some h, root, List.getLastD_cons]
  cases ho : g.chain o with
  | nil =>
    rw [chain_eq] at ho
    cases ho
  | cons d rest => rw [List.getLastD_cons, List.getLastD_cons]

theorem root_mem_chain (g : Graph) (c : CtxId) : g.root c ∈ g.chain c := by
  induction c using g.owner_induction with
  | last c h =>
    rw [root_of_none h]
    exact g.self_mem_chain c
  | owned c o h ih =>
    rw [root_of_some h, chain_of_some h]
    exact List.mem_cons_of_mem c ih

theorem owner?_of_isWorld (world : g.isWorld w = true) : g.owner? w = none := by
  obtain ⟨kind, hk, world⟩ := (Option.any_eq_true ..).mp world
  rw [owner?, hk]
  cases kind with
  | world => rfl
  | _ => cases world

/-- A World is on the chains that end in it, and on no other. -/
theorem mem_chain_iff_root (world : g.isWorld w = true) : w ∈ g.chain c ↔ g.root c = w := by
  induction c using g.owner_induction with
  | last c h =>
    rw [chain_of_none h, root_of_none h, List.mem_singleton]
    exact eq_comm
  | owned c o h ih =>
    rw [chain_of_some h, root_of_some h, List.mem_cons, ih]
    refine or_iff_right ?_
    rintro rfl
    rw [owner?_of_isWorld world] at h
    cases h

theorem root_root (g : Graph) (c : CtxId) : g.root (g.root c) = g.root c := by
  induction c using g.owner_induction with
  | last c h => rw [root_of_none h, root_of_none h]
  | owned c o h ih => rw [root_of_some h, ih]

theorem isWithin_iff : g.isWithin c d = true ↔ d ∈ g.chain c := List.contains_iff_mem

theorem isWithin_eq_false_iff : g.isWithin c d = false ↔ d ∉ g.chain c := by
  rw [← isWithin_iff, Bool.not_eq_true]

/-- With fewer owners chains are shorter. -/
theorem mem_chain_of_owner? (fewer : ∀ c o, g'.owner? c = some o → g.owner? c = some o)
    (h : d ∈ g'.chain c) : d ∈ g.chain c := by
  induction c using g'.owner_induction with
  | last c none =>
    rw [chain_of_none none, List.mem_singleton] at h
    exact h ▸ g.self_mem_chain c
  | owned c o ho ih =>
    rw [chain_of_some ho] at h
    rw [chain_of_some (fewer c o ho)]
    rcases List.mem_cons.mp h with rfl | h
    · exact List.mem_cons_self
    · exact List.mem_cons_of_mem c (ih h)

end Graph

namespace Store

theorem isLive_of_release (h : (s.release holds).graph.isLive c = true) :
    s.graph.isLive c = true :=
  isLive_of_mem_survivors ((isLive_release s holds c).mp h)

theorem mem_chain_of_release (h : d ∈ (s.release holds).graph.chain c) : d ∈ s.graph.chain c := by
  refine Graph.mem_chain_of_owner? (fun c o ho => ?_) h
  obtain ⟨owner, older, living⟩ := Graph.owner?_eq_some.mp ho
  rw [kind?_release] at owner
  refine Graph.owner?_eq_some.mpr ⟨owner, older, fun world => isLive_of_release (living ?_)⟩
  rw [Graph.isWorld, kind?_release]
  exact world

end Store

namespace Graph

variable {g : Graph} {cs : List CtxId} {func : Func}

/-- A frame binds what a name means in a context, at some height. -/
theorem cellAt?_of_localVar? (h : g.localVar? c name = some i) :
    ∃ height, height ≠ 0 ∧ g.cellAt? ⟨c, height, name⟩ = some i := by
  obtain ⟨ctx, hctx, found⟩ := Option.bind_eq_some_iff.mp h
  obtain ⟨frame, mem, bound⟩ := List.exists_of_findSome?_eq_some found
  obtain ⟨height, hh⟩ := List.getElem?_of_mem (List.mem_reverse.mpr mem)
  refine ⟨height + 1, Nat.succ_ne_zero height, Option.bind_eq_some_iff.mpr ⟨ctx, hctx, ?_⟩⟩
  exact Option.bind_eq_some_iff.mpr ⟨frame, hh, bound⟩

theorem cellAt?_of_argument? (h : g.argument? c name = some i) :
    g.cellAt? ⟨c, 0, name⟩ = some i := by
  rw [argument?] at h
  split at h
  · rename_i owner decl given arguments members hk
    obtain ⟨ctx, hctx, kind⟩ := Option.map_eq_some_iff.mp hk
    refine Option.bind_eq_some_iff.mpr ⟨ctx, hctx, ?_⟩
    rw [Context.cellAt?, kind]
    exact h
  · cases h

/-- The name is bound to the cell in one of the contexts that are looked through. -/
theorem entry_of_varAlong? : ∀ {cs : List CtxId}, g.varAlong? name cs = some i →
    ∃ c ∈ cs, ∃ height, g.cellAt? ⟨c, height, name⟩ = some i
  | c :: outer, h => by
    have rest (h : g.varAlong? name outer = some i) :
        ∃ d ∈ c :: outer, ∃ height, g.cellAt? ⟨d, height, name⟩ = some i := by
      obtain ⟨d, hd, bound⟩ := entry_of_varAlong? h
      exact ⟨d, List.mem_cons_of_mem c hd, bound⟩
    have own {d : CtxId} (hd : d ∈ c :: outer) (h : g.localVar? d name = some i) :
        ∃ d ∈ c :: outer, ∃ height, g.cellAt? ⟨d, height, name⟩ = some i := by
      obtain ⟨height, -, bound⟩ := cellAt?_of_localVar? h
      exact ⟨d, hd, height, bound⟩
    rw [varAlong?] at h
    split at h
    · cases h
    · exact own List.mem_cons_self h
    · rcases Option.or_eq_some_iff.mp h with h | ⟨-, h⟩
      · obtain ⟨d, hd, h⟩ := Option.bind_eq_some_iff.mp h
        exact own (List.mem_cons_of_mem c (List.mem_of_find?_eq_some hd)) (localVar?_of_member? h)
      · exact (Option.or_eq_some_iff.mp h).elim (own List.mem_cons_self) fun h => rest h.2
    · rcases Option.or_eq_some_iff.mp h with h | ⟨-, h⟩
      · exact own List.mem_cons_self h
      · rcases Option.or_eq_some_iff.mp h with h | ⟨-, h⟩
        · exact ⟨c, List.mem_cons_self, 0, cellAt?_of_argument? h⟩
        · exact rest h
    · exact (Option.or_eq_some_iff.mp h).elim (own List.mem_cons_self) fun h => rest h.2

theorem entry_of_var? (h : g.var? c name = some i) :
    ∃ d ∈ g.chain c, ∃ height, g.cellAt? ⟨d, height, name⟩ = some i := entry_of_varAlong? h

/-- The function is one that is declared in one of the contexts that are looked through. -/
theorem declared_of_funcAlong? : ∀ {cs : List CtxId}, g.funcAlong? name cs = some func →
    ∃ c ∈ cs, g.localFunc? c name = some func
  | c :: outer, h => by
    have rest (h : g.funcAlong? name outer = some func) :
        ∃ d ∈ c :: outer, g.localFunc? d name = some func := by
      obtain ⟨d, hd, found⟩ := declared_of_funcAlong? h
      exact ⟨d, List.mem_cons_of_mem c hd, found⟩
    have own (h : g.localFunc? c name = some func) :
        ∃ d ∈ c :: outer, g.localFunc? d name = some func := ⟨c, List.mem_cons_self, h⟩
    rw [funcAlong?] at h
    split at h
    · cases h
    · exact own h
    · exact (Option.or_eq_some_iff.mp h).elim rest fun h => own h.2
    · exact (Option.or_eq_some_iff.mp h).elim rest fun h => own h.2
    · exact (Option.or_eq_some_iff.mp h).elim own fun h => rest h.2

theorem declared_of_func? (h : g.func? c name = some func) :
    ∃ d ∈ g.chain c, g.localFunc? d name = some func := declared_of_funcAlong? h

end Graph

end TreeScript
