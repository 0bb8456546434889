import TreeScript.Proofs.Context.Changes
import TreeScript.Proofs.Machine.Step
import TreeScript.Proofs.Value.Edits

/-!
# Regions of a store

A region is the part of a store from some numbers on: the contexts and cells that have come about
since. Code that has got hold of nothing outside a region, with a region that nothing leads out of,
works inside it: what is outside stays as it is.
-/
namespace TreeScript

namespace Store

variable {s t u : Store} {c : CtxId} {i : CellId}

/-- One store comes from another by what runs do. -/
inductive Turn : Store → Store → Prop where
  | step {f : Footprint} {s t : Store} (step : Step f s t) : Turn s t
  | scopeClosed {s : Store} (c : CtxId) : Turn s (s.modifyGraph (·.popScope c))
  | released {s : Store} (holds : List Hold) : Turn s (s.release holds)

/-- One store comes from another in any number of turns. -/
def LeadsTo : Store → Store → Prop := Relation.ReflTransGen Turn

/-- The type of what a cell holds. -/
def tag (s : Store) (i : CellId) : Kind × String := (s.cell i).value.tag (handlesOf s.graph #[])

end Store

/-- A region of stores, by the numbers that it begins with. -/
structure Region where
  contexts : CtxId
  cells : CellId

namespace Region

variable {R : Region} {s t u : Store} {c : CtxId} {i : CellId}

/-- All of a store. -/
def all : Region := ⟨0, 0⟩

/-- The context is there, in the region. -/
def Ctx (R : Region) (s : Store) (c : CtxId) : Prop := R.contexts ≤ c ∧ c < s.graph.size

/-- The cell is there, in the region. -/
def Cell (R : Region) (s : Store) (i : CellId) : Prop := R.cells ≤ i ∧ i < s.cells.size

/-- Nothing leads out of the region. -/
def Closed (R : Region) (s : Store) : Prop := s.Closed (R.Ctx s) (R.Cell s)

theorem Ctx.extends (h : R.Ctx s c) (grown : s.Extends t) : R.Ctx t c :=
  ⟨h.1, Nat.lt_of_lt_of_le h.2 grown.contexts⟩

theorem Cell.extends (h : R.Cell s i) (grown : s.Extends t) : R.Cell t i :=
  ⟨h.1, Nat.lt_of_lt_of_le h.2 grown.cells⟩

/-- The contents of contexts and the cells outside the region stay, and inside it the types of the
cells. -/
structure Keeps (R : Region) (s t : Store) : Prop extends Store.Extends s t where
  outside : ∀ c < s.graph.size, c < R.contexts → t.graph.contents? c = s.graph.contents? c
  cellsOutside : ∀ i < s.cells.size, i < R.cells → t.cell i = s.cell i
  tags : ∀ i, R.Cell s i → t.tag i = s.tag i

theorem Keeps.refl (R : Region) (s : Store) : R.Keeps s s where
  toExtends := .refl s
  outside _ _ _ := rfl
  cellsOutside _ _ _ := rfl
  tags _ _ := rfl

theorem Keeps.trans (h : R.Keeps s t) (h' : R.Keeps t u) : R.Keeps s u where
  toExtends := h.toExtends.trans h'.toExtends
  outside c hc out :=
    (h'.outside c (Nat.lt_of_lt_of_le hc h.contexts) out).trans (h.outside c hc out)
  cellsOutside i hi out :=
    (h'.cellsOutside i (Nat.lt_of_lt_of_le hi h.cells) out).trans (h.cellsOutside i hi out)
  tags i hi := (h'.tags i (hi.extends h.toExtends)).trans (h.tags i hi)

theorem className?_of_skeleton? {g g' : Graph} (h : g'.skeleton? c = g.skeleton? c) :
    g'.className? c = g.className? c := by
  rw [Graph.skeleton?, Graph.skeleton?] at h
  rw [Graph.className?, Graph.className?]
  cases hk : g.kind? c with
  | none =>
    rw [hk, Option.map_none, Option.map_eq_none_iff] at h
    rw [h]
  | some kind =>
    rw [hk, Option.map_some] at h
    obtain ⟨kind', hk', same⟩ := Option.map_eq_some_iff.mp h
    rw [hk']
    cases kind <;> cases kind' <;> cases same <;> rfl

/-- A value that names only contexts that are there keeps its type while the store grows. -/
theorem tag_of_extends {v : Value} (grown : s.Extends t) (hv : v.Within (R.Ctx s)) :
    v.tag (handlesOf t.graph #[]) = v.tag (handlesOf s.graph #[]) := by
  cases v with
  | object c =>
    have there := (Value.within_object.mp hv).2
    have same : t.graph.className? c = s.graph.className? c :=
      className?_of_skeleton? (grown.skeletons c there)
    simp only [Value.tag, Value.typeName, handlesOf, same]
  | _ => rfl

/-- The files have no part in types. -/
theorem tag_handles (v : Value) (m : Machine) :
    v.tag m.handles = v.tag (handlesOf m.store.graph #[]) := by
  cases v <;> rfl

/-- A cell that keeps its value keeps its type. -/
theorem Closed.tag_eq (closed : R.Closed s) (grown : s.Extends t) (hi : R.Cell s i)
    (same : (t.cell i).value = (s.cell i).value) : t.tag i = s.tag i := by
  rw [Store.tag, same]
  exact tag_of_extends grown (closed.values i hi)

/-- A change that leaves all cells alone. -/
theorem Keeps.of_cells (closed : R.Closed s) (grown : s.Extends t)
    (outside : ∀ c < s.graph.size, c < R.contexts → t.graph.contents? c = s.graph.contents? c)
    (cells : ∀ i < s.cells.size, t.cell i = s.cell i) : R.Keeps s t where
  toExtends := grown
  outside := outside
  cellsOutside i hi _ := cells i hi
  tags i hi := closed.tag_eq grown hi (by rw [cells i hi.2])

theorem Keeps.addContext (closed : R.Closed s) (kind : ContextKind) :
    R.Keeps s (s.addContext kind).2 := by
  refine .of_cells closed (.addContext s kind) (fun c hc _ => ?_) fun _ _ => rfl
  show (s.graph.add kind).2.contents? c = _
  rw [Graph.contents?, Graph.context?_add_of_lt kind hc]
  rfl

theorem Keeps.addCell (closed : R.Closed s) (cell : TreeScript.Cell) :
    R.Keeps s (s.addCell cell).2 :=
  .of_cells closed (.addCell s cell) (fun _ _ _ => rfl) fun _ hi => Store.cell_addCell_of_lt cell hi

/-- A change of one context of the region. -/
theorem Keeps.update (closed : R.Closed s) (hc : R.contexts ≤ c) {f : Context → Context}
    (hf : ∀ ctx, (f ctx).kind.skeleton = ctx.kind.skeleton) :
    R.Keeps s (s.modifyGraph (·.update c f)) := by
  refine .of_cells closed (.update s c f hf) (fun d _ out => ?_) fun _ _ => rfl
  exact Graph.contents?_update_of_ne f (Nat.ne_of_gt (Nat.lt_of_lt_of_le out hc))

theorem contents?_release (s : Store) (holds : List Hold) (c : CtxId) :
    (s.release holds).graph.contents? c = s.graph.contents? c := by
  obtain ⟨live, h⟩ := Store.context?_release s holds c
  rw [Graph.contents?, h, Option.map_map]
  rfl

theorem Keeps.release (closed : R.Closed s) (holds : List Hold) : R.Keeps s (s.release holds) :=
  .of_cells closed (.release s holds) (fun c _ _ => contents?_release s holds c) fun _ _ => rfl

/-- A new value of the same type in a cell of the region. -/
theorem Keeps.setValue (hi : R.Cell s i) {value : Value}
    (tag : value.tag (handlesOf s.graph #[]) = s.tag i) : R.Keeps s (s.setValue i value) where
  toExtends := .ofCells rfl (by simp [Store.setValue])
  outside _ _ _ := rfl
  cellsOutside j _ out :=
    Store.cell_setValue_of_ne value (Nat.ne_of_gt (Nat.lt_of_lt_of_le out hi.1))
  tags j hj := by
    by_cases h : i = j
    · subst h
      rw [Store.tag, Store.cell_setValue_self value hi.2]
      exact tag
    · rw [Store.tag, Store.cell_setValue_of_ne value h]
      rfl

end Region

namespace Store.Closed

variable {P P' : CtxId → Prop} {Q Q' : CellId → Prop} {s t : Store} {c : CtxId}

/-- A part that is left alone stays closed. -/
theorem congr (closed : s.Closed P Q)
    (contexts : ∀ c, P c → t.graph.contents? c = s.graph.contents? c)
    (cells : ∀ i, Q i → t.cell i = s.cell i) : t.Closed P Q where
  contexts c ctx hc hctx := by
    have same : (s.graph.context? c).map (fun ctx => { ctx with live := true }) =
        some { ctx with live := true } := by
      have same := contexts c hc
      rw [Graph.contents?, Graph.contents?, hctx] at same
      exact same.symm
    obtain ⟨old, hold, same⟩ := Option.map_eq_some_iff.mp same
    obtain ⟨kind, vars, funcs, live⟩ := ctx
    obtain ⟨rfl, rfl, rfl, -⟩ := Context.mk.inj same
    have within := closed.contexts c old hc hold
    exact ⟨within.owner, within.imports, within.arguments, within.vars, within.funcs⟩
  values i hi := cells i hi ▸ closed.values i hi

/-- Two closed parts are closed together. -/
theorem or (closed : s.Closed P Q) (closed' : s.Closed P' Q') :
    s.Closed (fun c => P c ∨ P' c) fun i => Q i ∨ Q' i where
  contexts c ctx hc hctx := hc.elim
    (fun hc => (closed.contexts c ctx hc hctx).mono (fun _ => .inl) fun _ => .inl)
    fun hc => (closed'.contexts c ctx hc hctx).mono (fun _ => .inr) fun _ => .inr
  values i hi := hi.elim (fun hi => (closed.values i hi).mono fun _ => .inl)
    fun hi => (closed'.values i hi).mono fun _ => .inr

theorem release (closed : s.Closed P Q) (holds : List Hold) : (s.release holds).Closed P Q :=
  closed.congr (fun c _ => Region.contents?_release s holds c) fun _ _ => rfl

/-- A change of one context. -/
theorem update (closed : s.Closed P Q) {f : Context → Context}
    (hf : ∀ ctx, ctx.Within P Q → (f ctx).Within P Q) :
    (s.modifyGraph (·.update c f)).Closed P Q where
  contexts d ctx hd hctx := by
    change (s.graph.update c f).context? d = some ctx at hctx
    rw [Graph.context?_update] at hctx
    split at hctx
    · obtain ⟨old, hold, rfl⟩ := Option.map_eq_some_iff.mp hctx
      exact hf old (closed.contexts d old hd hold)
    · exact closed.contexts d ctx hd hctx
  values := closed.values

theorem setValue (closed : s.Closed P Q) {i : CellId} {value : Value} (hv : value.Within P) :
    (s.setValue i value).Closed P Q where
  contexts := closed.contexts
  values := Store.forall_values_setValue closed.values hv

/-- A part that gains a context at most. -/
theorem addContext (closed : s.Closed P Q) {kind : ContextKind} (sub : ∀ c, P c → P' c)
    (old : ∀ c < s.graph.size, P' c → P c) (fresh : (Context.fresh kind).Within P' Q) :
    (s.addContext kind).2.Closed P' Q where
  contexts c ctx hc hctx := by
    change (s.graph.add kind).2.context? c = some ctx at hctx
    rw [Graph.context?_add] at hctx
    split at hctx
    · cases hctx
      exact fresh
    · have there := old c (Graph.lt_of_context? hctx) hc
      exact (closed.contexts c ctx there hctx).mono sub fun _ => id
  values i hi := (closed.values i hi).mono sub

/-- A part that gains a cell at most. -/
theorem addCell (closed : s.Closed P Q) {cell : Cell} (sub : ∀ i, Q i → Q' i)
    (old : ∀ i ≠ s.cells.size, Q' i → Q i) (hv : cell.value.Within P) :
    (s.addCell cell).2.Closed P Q' where
  contexts c ctx hc hctx := (closed.contexts c ctx hc hctx).mono (fun _ => id) sub
  values i hi := by
    by_cases new : i = s.cells.size
    · rw [new, Store.cell_addCell_self]
      exact hv
    · rw [Store.cell_addCell_of_ne cell new]
      exact closed.values i (old i new hi)

end Store.Closed

namespace Region

variable {R : Region} {s t : Store} {c : CtxId} {i : CellId}

theorem Closed.addContext (closed : R.Closed s) {kind : ContextKind}
    (ho : ∀ o, kind.owner? = some o → R.Ctx s o)
    (bare : kind.imports = [] ∧ kind.arguments?.getD [] = []) : R.Closed (s.addContext kind).2 := by
  have grown := Store.Extends.addContext s kind
  exact Store.Closed.addContext closed (fun _ hc => hc.extends grown) (fun _ hlt hc => ⟨hc.1, hlt⟩)
    (Context.within_fresh (fun o h => (ho o h).extends grown) bare.1 bare.2)

theorem Closed.addCell (closed : R.Closed s) {cell : TreeScript.Cell}
    (hv : cell.value.Within (R.Ctx s)) : R.Closed (s.addCell cell).2 := by
  refine Store.Closed.addCell closed (fun _ hi => hi.extends (.addCell s cell)) (fun i new hi => ?_) hv
  have hlt := hi.2
  rw [Store.addCell, Array.size_push] at hlt
  exact ⟨hi.1, Nat.lt_of_le_of_ne (Nat.lt_succ_iff.mp hlt) new⟩

theorem Closed.setValue (closed : R.Closed s) {value : Value} (hv : value.Within (R.Ctx s)) :
    R.Closed (s.setValue i value) := by
  have cells : R.Cell (s.setValue i value) = R.Cell s := by
    funext j
    simp [Cell, Store.setValue]
  unfold Closed
  rw [cells]
  exact Store.Closed.setValue closed hv

/-- A change of one context. -/
theorem Closed.update (closed : R.Closed s) {f : Context → Context}
    (hf : ∀ ctx, ctx.Within (R.Ctx s) (R.Cell s) → (f ctx).Within (R.Ctx s) (R.Cell s)) :
    R.Closed (s.modifyGraph (·.update c f)) := by
  have contexts : R.Ctx (s.modifyGraph (·.update c f)) = R.Ctx s := by
    funext d
    rw [Ctx, Ctx, Store.modifyGraph, Graph.size_update]
  unfold Closed
  rw [contexts]
  exact Store.Closed.update closed hf

theorem Closed.release (closed : R.Closed s) (holds : List Hold) : R.Closed (s.release holds) := by
  have contexts : R.Ctx (s.release holds) = R.Ctx s := by
    funext d
    rw [Ctx, Ctx, Store.size_release]
  unfold Closed
  rw [contexts]
  exact Store.Closed.release closed holds

end Region

end TreeScript
