import TreeScript.Proofs.Calls.Given
import TreeScript.Proofs.Machine.Copy
import TreeScript.Proofs.Machine.Region

/-!
# Ledgers

A ledger follows the store of a run, from a start on, and keeps account of a region of it: nothing
leads out of the region, and no two names bind one cell but by a reference, a parameter of a call that
was given a variable of the caller.
-/
namespace TreeScript

variable {R : Region} {start s t : Store} {c : CtxId} {i : CellId}

/-- Two entries bind one cell. -/
def Store.BindsBoth (s : Store) (e e' : Entry) (i : CellId) : Prop :=
  s.graph.cellAt? e = some i ∧ s.graph.cellAt? e' = some i

theorem Store.Extends.isReference {e : Entry} (grown : s.Extends t) (h : s.graph.IsReference e i) :
    t.graph.IsReference e i :=
  h.of_skeleton? (grown.skeletons e.ctx h.lt)

/-- Of two entries of the region that bind one cell one is a reference, unless they did so at the
start. -/
def Region.Owned (R : Region) (start s : Store) : Prop :=
  ∀ e e' i, R.contexts ≤ e.ctx → R.contexts ≤ e'.ctx → s.BindsBoth e e' i →
    e = e' ∨ s.graph.IsReference e i ∨ s.graph.IsReference e' i ∨ start.BindsBoth e e' i

structure Ledger (R : Region) (start : Store) where
  store : Store
  contexts : R.contexts ≤ store.graph.size
  cells : R.cells ≤ store.cells.size
  closed : R.Closed store
  owned : R.Owned start store

namespace Ledger

variable {w w' w'' : Ledger R start}

/-- A ledger for a store that nothing has been done to. -/
def begin (R : Region) (s : Store) (contexts : R.contexts ≤ s.graph.size)
    (cells : R.cells ≤ s.cells.size) (closed : R.Closed s) : Ledger R s where
  store := s
  contexts := contexts
  cells := cells
  closed := closed
  owned _ _ _ _ _ both := .inr (.inr (.inr both))

/-- The second ledger is the first one or later. -/
structure Next (w w' : Ledger R start) : Prop where
  keeps : R.Keeps w.store w'.store
  leads : w.store.LeadsTo w'.store

theorem Next.refl (w : Ledger R start) : w.Next w := ⟨.refl R w.store, .refl⟩

theorem Next.trans (h : w.Next w') (h' : w'.Next w'') : w.Next w'' :=
  ⟨h.keeps.trans h'.keeps, h.leads.trans h'.leads⟩

theorem Next.there (h : w.Next w') (hc : c < w.store.graph.size) : c < w'.store.graph.size :=
  Nat.lt_of_lt_of_le hc h.keeps.contexts

/-- No name of the region binds the cell. -/
def Unbound (w : Ledger R start) (i : CellId) : Prop :=
  ∀ e, R.contexts ≤ e.ctx → w.store.graph.cellAt? e ≠ some i

/-- What the entries of the region bind is in the region. -/
theorem cell_of_cellAt? (w : Ledger R start) {e : Entry} (he : R.contexts ≤ e.ctx)
    (found : w.store.graph.cellAt? e = some i) : R.Cell w.store i := by
  obtain ⟨ctx, hctx, hi⟩ := Option.bind_eq_some_iff.mp found
  exact (w.closed.contexts e.ctx ctx ⟨he, Graph.lt_of_context? hctx⟩ hctx).cellAt? hi

/-- Some later ledger has the store. -/
def Reaches (w : Ledger R start) (t : Store) : Prop :=
  ∃ w' : Ledger R start, w.Next w' ∧ w'.store = t

theorem Reaches.refl (w : Ledger R start) : w.Reaches w.store := ⟨w, .refl w, rfl⟩

/-- Moving on twice. -/
theorem Reaches.andThen {u : Store} (h : w.Reaches t)
    (more : ∀ w' : Ledger R start, w.Next w' → w'.store = t → w'.Reaches u) : w.Reaches u := by
  obtain ⟨w', next, rfl⟩ := h
  obtain ⟨w'', next', hu⟩ := more w' next rfl
  exact ⟨w'', next.trans next', hu⟩

/-- Moving on by a turn that makes one entry at most: one that binds a cell which no name binds yet,
or one that is a reference. -/
theorem move (w : Ledger R start) (new : Entry) (turn : w.store.Turn t) (keeps : R.Keeps w.store t)
    (closed : R.Closed t)
    (entries : ∀ e i, t.graph.cellAt? e = some i → w.store.graph.cellAt? e = some i ∨
      e = new ∧ (w.Unbound i ∨ t.graph.IsReference e i)) : w.Reaches t := by
  refine ⟨⟨t, Nat.le_trans w.contexts keeps.contexts, Nat.le_trans w.cells keeps.cells, closed, ?_⟩,
    ⟨keeps, .single turn⟩, rfl⟩
  intro e e' i he he' ⟨hi, hi'⟩
  rcases entries e i hi with old | ⟨rfl, fresh | refers⟩
  · rcases entries e' i hi' with old' | ⟨rfl, fresh | refers⟩
    · rcases w.owned e e' i he he' ⟨old, old'⟩ with same | refers | refers | both
      · exact .inl same
      · exact .inr (.inl (keeps.isReference refers))
      · exact .inr (.inr (.inl (keeps.isReference refers)))
      · exact .inr (.inr (.inr both))
    · exact absurd old (fresh e he)
    · exact .inr (.inr (.inl refers))
  · rcases entries e' i hi' with old' | ⟨rfl, -⟩
    · exact absurd old' (fresh e' he')
    · exact .inl rfl
  · exact .inr (.inl refers)

/-- Moving on by a turn that makes no entry. -/
theorem stay (w : Ledger R start) (turn : w.store.Turn t) (keeps : R.Keeps w.store t)
    (closed : R.Closed t)
    (entries : ∀ e i, t.graph.cellAt? e = some i → w.store.graph.cellAt? e = some i) :
    w.Reaches t :=
  w.move ⟨0, 0, ""⟩ turn keeps closed fun e i h => .inl (entries e i h)

/-- There is a reason to bind the cell under a new name: no name binds it yet, or this is a
reference. -/
def MayBind (w : Ledger R start) (new : Entry) (i : CellId) : Prop :=
  w.Unbound i ∨ w.store.graph.IsReference new i

/-- Moving on by a turn that makes one entry. -/
theorem bind (w : Ledger R start) {new : Entry} (may : w.MayBind new i) (turn : w.store.Turn t)
    (keeps : R.Keeps w.store t) (closed : R.Closed t)
    (entries : ∀ e j, t.graph.cellAt? e = some j →
      w.store.graph.cellAt? e = some j ∨ e = new ∧ j = i) : w.Reaches t := by
  refine w.move new turn keeps closed fun e j found => ?_
  rcases entries e j found with old | ⟨rfl, rfl⟩
  · exact .inl old
  · exact .inr ⟨rfl, may.imp_right keeps.isReference⟩

theorem addContext (w : Ledger R start) {kind : ContextKind}
    (ho : ∀ o, kind.owner? = some o → R.Ctx w.store o)
    (bare : kind.imports = [] ∧ kind.arguments?.getD [] = []) :
    w.Reaches (w.store.addContext kind).2 :=
  w.stay (.step (.contextAdded kind)) (.addContext w.closed kind) (w.closed.addContext ho bare)
    fun _ _ => Graph.cellAt?_of_add bare.2

theorem addCell (w : Ledger R start) {cell : TreeScript.Cell}
    (hv : cell.value.Within (R.Ctx w.store)) : w.Reaches (w.store.addCell cell).2 :=
  w.stay (.step (.cellAdded cell)) (.addCell w.closed cell) (w.closed.addCell hv) fun _ _ h => h

/-- A cell that has just been added is bound by no name. -/
theorem unbound_of_addCell {cell : TreeScript.Cell}
    (h : w'.store = (w.store.addCell cell).2) : w'.Unbound w.store.cells.size := by
  intro e he found
  rw [h] at found
  exact Nat.lt_irrefl _ (w.cell_of_cellAt? he found).2

theorem setValue (w : Ledger R start) (hi : R.Cell w.store i) {value : Value}
    (writable : (w.store.cell i).checkWrite false = .ok ()) (hv : value.Within (R.Ctx w.store))
    (tag : value.tag (handlesOf w.store.graph #[]) = w.store.tag i) :
    w.Reaches (w.store.setValue i value) :=
  w.stay (.step (.cellWritten value writable)) (.setValue hi tag) (w.closed.setValue hv)
    fun _ _ h => h

theorem makeClosure (w : Ledger R start) :
    w.Reaches { w.store with nextClosure := w.store.nextClosure + 1 } :=
  w.stay (.step .closureMade)
    (.of_cells w.closed (Store.Step.closureMade).extends (fun _ _ _ => rfl) fun _ _ => rfl)
    ⟨w.closed.contexts, w.closed.values⟩ fun _ _ h => h

theorem release (w : Ledger R start) (holds : List Hold) : w.Reaches (w.store.release holds) :=
  w.stay (.released holds) (.release w.closed holds) (w.closed.release holds) fun e _ h =>
    (Graph.cellAt?_congr (Region.contents?_release w.store holds e.ctx)).symm.trans h

/-- A harmless change of one context. -/
theorem update (w : Ledger R start) (hc : R.contexts ≤ c) {f : Context → Context}
    (harmless : Context.Harmless (R.Ctx w.store) (R.Cell w.store) f)
    (turn : w.store.Turn (w.store.modifyGraph (·.update c f))) :
    w.Reaches (w.store.modifyGraph (·.update c f)) :=
  w.stay turn (.update w.closed hc harmless.skeleton) (w.closed.update harmless.within)
    fun _ i => Graph.cellAt?_of_update_same fun ctx h name => harmless.entries ctx h name i

/-- Binding a name in the innermost frame of a context. -/
theorem bindVar (w : Ledger R start) (hc : R.contexts ≤ c) (hi : R.Cell w.store i)
    {name cellName : String}
    (free : (Declaration.ofVar c name cellName i).obstacle? w.store.graph = none)
    (may : w.MayBind ⟨c, w.store.graph.scopeDepth c, name⟩ i) :
    w.Reaches (w.store.modifyGraph (Declaration.ofVar c name cellName i).apply) :=
  w.bind may (.step (.varBound free))
    (.update w.closed hc fun ctx => Declaration.skeleton_recordMember name ctx.kind)
    (w.closed.update fun _ within => within.bindVar name hi)
    fun _ _ => Graph.cellAt?_of_ofVar name cellName

/-- Declaring a constructor argument. -/
theorem bindArgument (w : Ledger R start) (hc : R.contexts ≤ c) (hi : R.Cell w.store i)
    {name : String}
    (free : (Declaration.ofArgument c name i).obstacle? w.store.graph = none)
    (may : w.MayBind ⟨c, 0, name⟩ i) :
    w.Reaches (w.store.modifyGraph (Declaration.ofArgument c name i).apply) :=
  w.bind may (.step (.argumentDeclared free))
    (.update w.closed hc fun ctx => Declaration.skeleton_addArgument name i ctx.kind)
    (w.closed.update fun _ within => within.addArgument name hi)
    fun _ _ => Graph.cellAt?_of_ofArgument

/-- Declaring a function that belongs to the context. -/
theorem declareFunc (w : Ledger R start) (hc : R.Ctx w.store c) {decl : FuncDecl}
    (free : (Declaration.ofFunc c ⟨decl, c⟩).obstacle? w.store.graph = none) :
    w.Reaches (w.store.modifyGraph (Declaration.ofFunc c ⟨decl, c⟩).apply) :=
  w.update hc.1 (Context.harmless_bindFunc hc) (.step (.funcDeclared free))

/-- Binding a name to a cell of its own. -/
theorem bindNew (w : Ledger R start) (hc : R.contexts ≤ c) {cell : TreeScript.Cell}
    (hv : cell.value.Within (R.Ctx w.store))
    (free : (Declaration.ofVar c cell.name cell.name w.store.cells.size).obstacle? w.store.graph =
      none) : w.Reaches (w.store.bindNew c cell) := by
  refine (w.addCell hv).andThen fun w' next same => ?_
  have new : R.Cell w'.store w.store.cells.size := by
    refine ⟨w.cells, ?_⟩
    rw [same, Store.addCell, Array.size_push]
    exact Nat.lt_succ_self _
  have bound := w'.bindVar hc new (by rw [same]; exact free) (.inl (unbound_of_addCell same))
  rwa [same] at bound

/-- Ledgers keep account of copies. -/
def copying (R : Region) (start : Store) : Store.Copying where
  Inv s := ∃ w : Ledger R start, w.store = s
  Val s v := v.Within (R.Ctx s)
  Target := R.Ctx
  Leads s t := ∀ w : Ledger R start, w.store = s → w.Reaches t
  hereditary _ := inferInstance
  refl s w h := h ▸ .refl w
  trans h h' w hw := (h w hw).andThen fun w' _ => h' w'
  inv := by
    rintro s t ⟨w, rfl⟩ leads
    obtain ⟨w', -, h⟩ := leads w rfl
    exact ⟨w', h⟩
  val := by
    rintro s t v ⟨w, rfl⟩ leads hv
    obtain ⟨w', next, rfl⟩ := leads w rfl
    exact hv.mono fun _ hc => hc.extends next.keeps.toExtends
  target := by
    rintro s t c ⟨w, rfl⟩ leads hc
    obtain ⟨w', next, rfl⟩ := leads w rfl
    exact hc.extends next.keeps.toExtends
  val_of_target := Value.within_object.mpr
  member := by
    rintro s c name cell ⟨w, rfl⟩ hc found
    obtain ⟨i, hi, hcell⟩ := Option.bind_eq_some_iff.mp found
    have within := w.closed.values i (w.closed.localVar? (Value.within_object.mp hc) hi)
    rwa [Store.cell, hcell] at within
  addObject := by
    rintro s c owner decl given arguments members ⟨w, rfl⟩ hc hk
    have ho := (w.closed.of_kind? (Value.within_object.mp hc) hk).1 owner rfl
    refine ⟨fun w' h => ?_, w.contexts, ?_⟩
    · rw [← h] at ho ⊢
      exact w'.addContext (fun o e => Option.some.inj e ▸ ho) ⟨rfl, rfl⟩
    · rw [Store.addContext, Graph.size_add]
      exact Nat.lt_succ_self _
  declareFunc := by
    rintro s c decl - hc free w rfl
    exact w.declareFunc hc free
  bindNew := by
    rintro s c cell - hc hv free w rfl
    exact w.bindNew hc.1 hv free
  recordMember := by
    rintro s c name - hc w rfl
    exact w.update hc.1 (Context.harmless_recordMember name) (.step (.memberRecorded c name))

/-- A copy names only what is in the region then. -/
theorem copy (w : Ledger R start) {depth : Nat} {v v' : Value} (hv : v.Within (R.Ctx w.store))
    (h : w.store.copy depth v = some (v', t)) : w.Reaches t ∧ v'.Within (R.Ctx t) := by
  obtain ⟨leads, within⟩ := (copying R start).copies_copy depth v w.store v' t ⟨w, rfl⟩ hv h
  exact ⟨leads w rfl, within⟩

end Ledger

end TreeScript
