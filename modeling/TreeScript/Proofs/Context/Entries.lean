import TreeScript.Proofs.Context.Closed

/-!
# Entries

An entry of a graph is a name in a frame of a context, or a constructor argument of an instance. It
is found under the number of the context, the height of the frame and the name, and binds a cell.
-/
namespace TreeScript

namespace ScopeStack

variable {α : Type} {s : ScopeStack α} {h : Nat} {name other : String} {item new : α}

/-- What a name is bound to in the frame at a height, from the base frame up. -/
def at? (s : ScopeStack α) (h : Nat) (name : String) : Option α :=
  (s.frames.reverse[h]?).bind (·.lookup name)

theorem mem_of_at? (found : s.at? h name = some item) :
    ∃ frame ∈ s.frames, (name, item) ∈ frame := by
  obtain ⟨frame, hf, hl⟩ := Option.bind_eq_some_iff.mp found
  obtain ⟨before, after, he, -⟩ := List.lookup_eq_some_iff.mp hl
  exact ⟨frame, List.mem_reverse.mp (List.mem_of_getElem? hf), by simp [he]⟩

theorem at?_base : (base : ScopeStack α).at? h name = none := by
  cases h <;> simp [at?, base, frames]

theorem at?_push : s.push.at? h name = s.at? h name := by
  rw [at?, at?, frames_push, List.reverse_cons, List.getElem?_append]
  split
  · rfl
  · rename_i hh
    rw [List.getElem?_eq_none (Nat.le_of_not_lt hh)]
    cases h - s.frames.reverse.length <;> rfl

/-- Dropping a frame makes no entry. -/
theorem at?_of_pop (found : s.pop.at? h name = some item) : s.at? h name = some item := by
  obtain ⟨top, below⟩ := s
  cases below with
  | nil =>
    rw [show pop ⟨top, []⟩ = base from rfl, at?_base] at found
    cases found
  | cons frame rest =>
    obtain ⟨found, hf, hl⟩ := Option.bind_eq_some_iff.mp found
    refine Option.bind_eq_some_iff.mpr ⟨found, ?_, hl⟩
    rw [frames, List.reverse_cons]
    exact List.getElem?_append_left (List.getElem?_eq_some_iff.mp hf).1 ▸ hf

/-- Binding a name makes one entry, in the innermost frame. -/
theorem at?_of_bind (found : (s.bind other new).at? h name = some item) :
    s.at? h name = some item ∨ (h + 1 = s.depth ∧ name = other ∧ item = new) := by
  obtain ⟨top, below⟩ := s
  obtain ⟨frame, hf, hl⟩ := Option.bind_eq_some_iff.mp found
  rw [frames_bind, List.reverse_cons] at hf
  by_cases hh : h < below.reverse.length
  · rw [List.getElem?_append_left hh] at hf
    refine .inl (Option.bind_eq_some_iff.mpr ⟨frame, ?_, hl⟩)
    rw [frames, List.reverse_cons, List.getElem?_append_left hh]
    exact hf
  · have last : h = below.reverse.length := by
      have := (List.getElem?_eq_some_iff.mp hf).1
      simp only [List.length_append, List.length_singleton] at this
      omega
    subst last
    rw [List.getElem?_append_right (Nat.le_refl _), Nat.sub_self] at hf
    cases hf
    rw [List.lookup_cons] at hl
    split at hl
    · rename_i same
      refine .inr ⟨by simp [depth, frames], eq_of_beq same, ?_⟩
      exact (Option.some.inj hl).symm
    · refine .inl (Option.bind_eq_some_iff.mpr ⟨top, ?_, hl⟩)
      rw [frames, List.reverse_cons, List.getElem?_append_right (Nat.le_refl _), Nat.sub_self]
      rfl

end ScopeStack

namespace Context

variable {ctx : Context} {h : Nat} {name : String} {i : CellId}

/-- The cell that an entry of a context binds: an argument at height 0, or a name in a frame. -/
def cellAt? (ctx : Context) (height : Nat) (name : String) : Option CellId :=
  match height with
  | 0 => (ctx.kind.arguments?.getD []).lookup name
  | h + 1 => ctx.vars.at? h name

theorem Within.cellAt? {P : CtxId → Prop} {Q : CellId → Prop} (within : ctx.Within P Q)
    (found : ctx.cellAt? h name = some i) : Q i := by
  cases h with
  | zero =>
    rw [Context.cellAt?] at found
    cases ha : ctx.kind.arguments? with
    | none =>
      rw [ha] at found
      cases found
    | some arguments =>
      rw [ha] at found
      obtain ⟨before, after, he, -⟩ := List.lookup_eq_some_iff.mp found
      have hin : (name, i) ∈ (some arguments).getD [] := by simp [he]
      exact within.arguments arguments ha _ hin
  | succ h =>
    obtain ⟨frame, hf, hin⟩ := ScopeStack.mem_of_at? found
    exact within.vars frame hf _ hin

theorem cellAt?_fresh {kind : ContextKind} (bare : kind.arguments?.getD [] = []) :
    (fresh kind).cellAt? h name = none := by
  cases h with
  | zero =>
    rw [cellAt?, show (fresh kind).kind = kind from rfl, bare]
    rfl
  | succ h => exact ScopeStack.at?_base

end Context

/-- Where a graph binds a name: in a frame of a context, counted from 1 at the base, or, at height 0,
among the constructor arguments. -/
structure Entry where
  ctx : CtxId
  height : Nat
  name : String
  deriving DecidableEq, Repr

namespace Graph

variable {g : Graph} {c d : CtxId} {e : Entry} {i : CellId} {f : Context → Context}

/-- The cell that an entry binds. -/
def cellAt? (g : Graph) (e : Entry) : Option CellId :=
  (g.context? e.ctx).bind (·.cellAt? e.height e.name)

/-- What a context holds. Whether it is still alive is left out. -/
def contents? (g : Graph) (c : CtxId) : Option Context :=
  (g.context? c).map fun ctx => { ctx with live := true }

theorem contents?_update_of_ne (f : Context → Context) (h : c ≠ d) :
    (g.update c f).contents? d = g.contents? d := by
  rw [contents?, context?_update, if_neg h, contents?]

theorem cellAt?_eq_contents? (g : Graph) (e : Entry) :
    g.cellAt? e = (g.contents? e.ctx).bind (·.cellAt? e.height e.name) := by
  rw [cellAt?, contents?]
  cases g.context? e.ctx with
  | none => rfl
  | some ctx => cases e.height <;> rfl

theorem cellAt?_congr {g' : Graph} (same : g'.contents? e.ctx = g.contents? e.ctx) :
    g'.cellAt? e = g.cellAt? e := by
  rw [cellAt?_eq_contents?, cellAt?_eq_contents?, same]

/-- A new context has no entries. -/
theorem cellAt?_of_add {kind : ContextKind} (bare : kind.arguments?.getD [] = [])
    (found : (g.add kind).2.cellAt? e = some i) : g.cellAt? e = some i := by
  obtain ⟨ctx, hctx, hi⟩ := Option.bind_eq_some_iff.mp found
  have hlt : e.ctx < (g.add kind).2.size := lt_of_context? hctx
  rw [size_add] at hlt
  rcases Nat.lt_succ_iff_lt_or_eq.mp hlt with hlt | heq
  · rw [context?_add_of_lt kind hlt] at hctx
    exact Option.bind_eq_some_iff.mpr ⟨ctx, hctx, hi⟩
  · rw [heq, context?_add_self] at hctx
    cases hctx
    rw [Context.cellAt?_fresh bare] at hi
    cases hi

/-- What an entry binds after a change of one context. -/
theorem cellAt?_of_update (found : (g.update c f).cellAt? e = some i) :
    g.cellAt? e = some i ∨
      ∃ ctx, g.context? c = some ctx ∧ e.ctx = c ∧ (f ctx).cellAt? e.height e.name = some i := by
  rw [cellAt?, context?_update] at found
  split at found
  · rename_i hc
    obtain ⟨ctx', hctx', hi⟩ := Option.bind_eq_some_iff.mp found
    obtain ⟨ctx, hctx, rfl⟩ := Option.map_eq_some_iff.mp hctx'
    exact .inr ⟨ctx, hc ▸ hctx, hc.symm, hi⟩
  · exact .inl found

/-- A change of one context that makes no entry there makes none at all. -/
theorem cellAt?_of_update_same
    (hf : ∀ ctx h name, (f ctx).cellAt? h name = some i → ctx.cellAt? h name = some i)
    (found : (g.update c f).cellAt? e = some i) : g.cellAt? e = some i := by
  rcases cellAt?_of_update found with old | ⟨ctx, hctx, rfl, hi⟩
  · exact old
  · exact Option.bind_eq_some_iff.mpr ⟨ctx, hctx, hf ctx _ _ hi⟩

/-- Binding a name makes one entry, in the innermost frame. -/
theorem cellAt?_of_ofVar (name cellName : String) {j : CellId}
    (found : ((Declaration.ofVar c name cellName j).apply g).cellAt? e = some i) :
    g.cellAt? e = some i ∨ (e = ⟨c, g.scopeDepth c, name⟩ ∧ i = j) := by
  rcases cellAt?_of_update found with old | ⟨ctx, hctx, hc, hi⟩
  · exact .inl old
  · obtain ⟨d, h, n⟩ := e
    obtain rfl : d = c := hc
    cases h with
    | zero =>
      rw [Context.cellAt?, Declaration.arguments?_recordMember] at hi
      exact .inl (Option.bind_eq_some_iff.mpr ⟨ctx, hctx, hi⟩)
    | succ h =>
      rcases ScopeStack.at?_of_bind hi with old | ⟨height, same, rfl⟩
      · exact .inl (Option.bind_eq_some_iff.mpr ⟨ctx, hctx, old⟩)
      · refine .inr ⟨?_, rfl⟩
        obtain rfl : n = name := same
        rw [scopeDepth, hctx, height]

/-- Binding a name opens no frame. -/
theorem scopeDepth_ofVar (name cellName : String) (j : CellId) :
    ((Declaration.ofVar c name cellName j).apply g).scopeDepth c = g.scopeDepth c := by
  rw [scopeDepth, scopeDepth]
  rw [show ((Declaration.ofVar c name cellName j).apply g).context? c = (g.update c _).context? c
    from rfl, context?_update, if_pos rfl]
  cases g.context? c <;> rfl

theorem scopeDepth_add_self (kind : ContextKind) : (g.add kind).2.scopeDepth g.size = 1 := by
  rw [scopeDepth, context?_add_self]
  rfl

/-- Declaring a constructor argument makes one entry. -/
theorem cellAt?_of_ofArgument {name : String} {j : CellId}
    (found : ((Declaration.ofArgument c name j).apply g).cellAt? e = some i) :
    g.cellAt? e = some i ∨ (e = ⟨c, 0, name⟩ ∧ i = j) := by
  rcases cellAt?_of_update found with old | ⟨ctx, hctx, hc, hi⟩
  · exact .inl old
  · obtain ⟨d, h, n⟩ := e
    obtain rfl : d = c := hc
    cases h with
    | zero =>
      rw [Context.cellAt?] at hi
      cases hk : ctx.kind with
      | object owner decl given arguments members =>
        rw [hk] at hi
        change List.lookup n ((name, j) :: arguments) = some i at hi
        rw [List.lookup_cons] at hi
        split at hi
        · rename_i same
          exact .inr ⟨by rw [eq_of_beq same], (Option.some.inj hi).symm⟩
        · refine .inl (Option.bind_eq_some_iff.mpr ⟨ctx, hctx, ?_⟩)
          rw [Context.cellAt?, hk]
          exact hi
      | world | call | closure =>
        rw [hk] at hi
        cases hi
    | succ h => exact .inl (Option.bind_eq_some_iff.mpr ⟨ctx, hctx, hi⟩)

end Graph

end TreeScript
