import TreeScript.Proofs.Cells.Copies
import TreeScript.Proofs.Instances.Trees

/-!
# Stores that get instances

What a copy does to a store: it adds finished instances, which lead to nothing that can be written
but to one another. What such an addition unfolds into is not changed by further ones.
-/
namespace TreeScript

variable {b s t u : Store} {c : CtxId} {i : CellId} {v v' : Value}

/-- An instance that is built: it has no constructor arguments, all that it binds are members, and
its methods are those of its class, as functions of its own. -/
def Graph.IsBuilt (g : Graph) (c : CtxId) : Prop :=
  ∃ owner decl members, g.kind? c = some (.object owner decl [] [] members) ∧
    (∀ name i, g.localVar? c name = some i → name ∈ members) ∧
    ∀ name, g.localFunc? c name = (decl.methods.find? (·.name == name)).map (⟨·, c⟩)

theorem Graph.isBuilt_of_context? {g g' : Graph} (same : g'.context? c = g.context? c)
    (built : g.IsBuilt c) : g'.IsBuilt c := by
  rw [IsBuilt, kind?, same]
  simp only [localVar?, localFunc?, same]
  exact built

theorem Graph.IsBuilt.isObject {g : Graph} (built : g.IsBuilt c) : g.isObject c = true := by
  obtain ⟨owner, decl, members, kind, -, -⟩ := built
  rw [Graph.isObject, kind]
  rfl

theorem Graph.lt_of_isObject {g : Graph} (h : g.isObject c = true) : c < g.size := by
  obtain ⟨kind, hk, -⟩ := (Option.any_eq_true ..).mp h
  exact lt_of_kind? hk

theorem Graph.isObject_of_le {g : Graph} (h : g.size ≤ c) : g.isObject c = false := by
  rw [isObject, kind?, context?, Array.getElem?_eq_none h]
  rfl

namespace Store

theorem Extends.isObject_eq (h : s.Extends t) (hc : c < s.graph.size) :
    t.graph.isObject c = s.graph.isObject c := by
  have kind (g : Graph) : g.isObject c = (g.skeleton? c).any ContextKind.isObject := by
    rw [Graph.isObject, Graph.skeleton?, Option.any_map]
    exact congrArg (Option.any · _) (funext fun kind => (Graph.isObject_skeleton kind).symm)
  rw [kind, kind, h.skeletons c hc]

/-- Contexts and cells come to those that are there. -/
structure Adds (s t : Store) : Prop where
  size : s.graph.size ≤ t.graph.size
  room : s.cells.size ≤ t.cells.size
  agree : Agree (· < s.graph.size) (· < s.cells.size) s t

theorem Agree.mono {P P' : CtxId → Prop} {Q Q' : CellId → Prop} (h : Agree P Q s t)
    (hP : ∀ c, P' c → P c) (hQ : ∀ i, Q' i → Q i) : Agree P' Q' s t :=
  ⟨fun c hc => h.contexts c (hP c hc), fun i hi => h.cells i (hQ i hi)⟩

namespace Adds

theorem refl (s : Store) : s.Adds s :=
  ⟨Nat.le_refl _, Nat.le_refl _, fun _ _ => rfl, fun _ _ => rfl⟩

theorem trans (h : s.Adds t) (h' : t.Adds u) : s.Adds u where
  size := Nat.le_trans h.size h'.size
  room := Nat.le_trans h.room h'.room
  agree.contexts c hc := (h'.agree.contexts c (Nat.lt_of_lt_of_le hc h.size)).trans
    (h.agree.contexts c hc)
  agree.cells i hi := (h'.agree.cells i (Nat.lt_of_lt_of_le hi h.room)).trans (h.agree.cells i hi)

theorem grows (h : s.Adds t) : s.Extends t where
  contexts := h.size
  cells := h.room
  skeletons c hc := by rw [Graph.skeleton?, Graph.skeleton?, Graph.kind?, Graph.kind?,
    h.agree.contexts c hc]

theorem addContext (s : Store) (kind : ContextKind) : s.Adds (s.addContext kind).2 where
  size := (Extends.addContext s kind).contexts
  room := Nat.le_refl _
  agree.contexts _ hc := Graph.context?_add_of_lt kind hc
  agree.cells _ _ := rfl

end Adds

/-- A context that is no instance, or is one that was not there before. -/
def NewCtx (b t : Store) (c : CtxId) : Prop := b.graph.isObject c = false ∧ c < t.graph.size

/-- A cell that was not there before. -/
def NewCell (b t : Store) (i : CellId) : Prop := b.cells.size ≤ i ∧ i < t.cells.size

theorem NewCtx.later (h : b.NewCtx t c) (size : t.graph.size ≤ u.graph.size) : b.NewCtx u c :=
  ⟨h.1, Nat.lt_of_lt_of_le h.2 size⟩

theorem NewCtx.earlier (h : s.NewCtx t c) (grown : b.Extends s) : b.NewCtx t c := by
  refine ⟨?_, h.2⟩
  rcases Nat.lt_or_ge c b.graph.size with lt | ge
  · exact (grown.isObject_eq lt).symm.trans h.1
  · exact Graph.isObject_of_le ge

theorem NewCell.later (h : b.NewCell t i) (room : t.cells.size ≤ u.cells.size) : b.NewCell u i :=
  ⟨h.1, Nat.lt_of_lt_of_le h.2 room⟩

/-- What has come to a store since is built, and is sealed against the instances and the cells that
were there. -/
structure Additions (b t : Store) : Prop where
  sound : t.Sealed (b.NewCtx t) (b.NewCell t)
  built : ∀ c, b.graph.size ≤ c → c < t.graph.size → t.graph.IsBuilt c

/-- No change is made but built instances are added. -/
structure AddsInstances (s t : Store) : Prop extends Adds s t, Additions s t where
  closures : t.nextClosure = s.nextClosure

theorem Additions.refl (s : Store) : s.Additions s where
  sound.cells c name i hc hi := by
    rw [Graph.member?, hc.1] at hi
    cases hi
  sound.instances i _ hi := absurd hi.2 (Nat.not_lt.mpr hi.1)
  built c hc lt := absurd lt (Nat.not_lt.mpr hc)

theorem AddsInstances.refl (s : Store) : s.AddsInstances s := ⟨.refl s, .refl s, rfl⟩

/-- More is added. -/
theorem Additions.trans (h : Additions b t) (grown : b.Extends t) (next : t.AddsInstances u) :
    Additions b u where
  sound.cells c name i hc hi := by
    rcases Nat.lt_or_ge c t.graph.size with lt | ge
    · rw [Graph.member?_of_context? (next.agree.contexts c lt)] at hi
      exact (h.sound.cells c name i ⟨hc.1, lt⟩ hi).later next.room
    · have new := next.sound.cells c name i ⟨Graph.isObject_of_le ge, hc.2⟩ hi
      exact ⟨Nat.le_trans grown.cells new.1, new.2⟩
  sound.instances i cell hi hcell d has := by
    rcases Nat.lt_or_ge i t.cells.size with lt | ge
    · rw [next.agree.cells i lt] at hcell
      exact (h.sound.instances i cell ⟨hi.1, lt⟩ hcell d has).later next.size
    · exact (next.sound.instances i cell ⟨ge, hi.2⟩ hcell d has).earlier grown
  built c hc lt := by
    rcases Nat.lt_or_ge c t.graph.size with old | new
    · exact Graph.isBuilt_of_context? (next.agree.contexts c old) (h.built c hc old)
    · exact next.built c new lt

theorem AddsInstances.trans (h : s.AddsInstances t) (next : t.AddsInstances u) :
    s.AddsInstances u :=
  ⟨h.toAdds.trans next.toAdds, h.toAdditions.trans h.grows next, next.closures.trans h.closures⟩

/-- A whole store stays whole. -/
theorem Whole.after (whole : s.Whole) (h : s.AddsInstances t) : t.Whole where
  cells c name i hc hi := by
    rcases Nat.lt_or_ge c s.graph.size with lt | ge
    · rw [Graph.member?_of_context? (h.agree.contexts c lt)] at hi
      exact Nat.lt_of_lt_of_le (whole.cells c name i lt hi) h.room
    · exact (h.sound.cells c name i ⟨Graph.isObject_of_le ge, hc⟩ hi).2
  instances i cell hi hcell d has := by
    rcases Nat.lt_or_ge i s.cells.size with lt | ge
    · rw [h.agree.cells i lt] at hcell
      exact Nat.lt_of_lt_of_le (whole.instances i cell lt hcell d has) h.size
    · exact (h.sound.instances i cell ⟨ge, hi⟩ hcell d has).2

/-- The value of the later store leads to nothing of the earlier one that can be written, and
unfolds into what the other unfolds into there. -/
structure Duplicate (b t : Store) (v v' : Value) : Prop where
  instances : ∀ c, v'.HasInstance c → b.NewCtx t c
  tree : ∀ depth, t.unfold depth v' = b.unfold depth v

namespace Duplicate

theorem later (h : Duplicate b t v v') (additions : Additions b t)
    (agree : Agree (b.NewCtx t) (b.NewCell t) t u) (size : t.graph.size ≤ u.graph.size) :
    Duplicate b u v v' where
  instances c has := (h.instances c has).later size
  tree depth := (additions.sound.unfold_eq agree h.instances depth).trans (h.tree depth)

theorem added (h : Duplicate b t v v') (additions : Additions b t) (next : t.Adds u) :
    Duplicate b u v v' :=
  h.later additions (next.agree.mono (fun _ hc => hc.2) fun _ hi => hi.2) next.size

theorem earlier (h : Duplicate s t v v') (grown : b.Extends s)
    (same : ∀ depth, s.unfold depth v = b.unfold depth v) : Duplicate b t v v' where
  instances c has := (h.instances c has).earlier grown
  tree depth := (h.tree depth).trans (same depth)

end Duplicate

namespace Adds

variable (h : s.Adds t) (whole : s.Whole)

include h whole

/-- What is in a whole store unfolds as before when something is added. -/
theorem unfold_eq (hv : ∀ c, v.HasInstance c → c < s.graph.size) (depth : Nat) :
    t.unfold depth v = s.unfold depth v := whole.unfold_eq h.agree hv depth

theorem unfolds {depth : Nat} (hv : s.Unfolds depth v) : t.Unfolds depth v := by
  intro c has
  obtain ⟨there, unfolds⟩ := hv c has
  rw [whole.unfoldInstance_eq h.agree depth there]
  exact ⟨Nat.lt_of_lt_of_le there h.size, unfolds⟩

end Adds

end Store

end TreeScript
