import TreeScript.Proofs.Machine.Ledger
import TreeScript.Proofs.Run.Detours

/-!
# Runs under account

Runs are followed by ledgers: a run that gets hold of nothing outside the region of a ledger goes on
to a machine that a later ledger is for, and what it gives is in the region. This is one tracking.
-/
namespace TreeScript

variable {R : Region} {start : Store} {w w' : Ledger R start} {Q : Ledger R start → Prop}
  {m m' : Machine} {c : CtxId} {i : CellId} {α β : Type}

namespace Ledger

/-- A cell of the region that holds an integer. -/
structure Counter (w : Ledger R start) (i : CellId) : Prop where
  cell : R.Cell w.store i
  int : (w.store.cell i).value.kind = .int

theorem Counter.next (h : w.Counter i) (next : w.Next w') : w'.Counter i :=
  ⟨h.cell.extends next.keeps.toExtends,
    (congrArg Prod.fst (next.keeps.tags i h.cell)).trans h.int⟩

/-- A run has got hold of what is in the region. -/
def grasp (w : Ledger R start) : Grasp where
  Val := Value.Within (R.Ctx w.store)
  Cell := R.Cell w.store
  Held := Value.Within (R.Ctx w.store)
  HeldCell := R.Cell w.store
  Kept := R.Ctx w.store
  Counter := w.Counter

theorem lawful_grasp (w : Ledger R start) : w.grasp.Lawful where
  val := inferInstanceAs (Value.Hereditary (Value.Within (R.Ctx w.store)))
  held := inferInstanceAs (Value.Hereditary (Value.Within (R.Ctx w.store)))
  val_of_held := id
  cell_of_held := id
  kept_of_object := Value.within_object.mp
  kept_of_module := Value.within_module.mp

/-- What is in the region stays there, whether it is held or not. -/
theorem Next.enters (next : w.Next w') (holds : List Hold) : w.grasp.Enters holds w'.grasp where
  held hv := hv.mono fun _ hc => hc.extends next.keeps.toExtends
  heldCell hi := hi.extends next.keeps.toExtends
  kept hc := hc.extends next.keeps.toExtends
  counter h := h.next next
  val hv := hv.mono fun _ hc => hc.extends next.keeps.toExtends
  cell hi := hi.extends next.keeps.toExtends
  held_of_mem _ hv := hv.mono fun _ hc => hc.extends next.keeps.toExtends
  heldCell_of_mem _ hi := hi.extends next.keeps.toExtends

/-- All that something names is in the region. -/
abbrev Fits (w : Ledger R start) (N : Names) : Prop := N.Fit w.grasp

theorem Fits.next {N : Names} (h : w.Fits N) (next : w.Next w') : w'.Fits N :=
  h.enters (next.enters [])

/-- Code finds nothing outside the region. -/
theorem shows (w : Ledger R start) (hm : m.store = w.store) :
    m.Shows w.grasp fun _ => True where
  value i hi := hm ▸ w.closed.values i hi
  var hc hi := w.closed.var? hc (hm ▸ hi)
  imported hc h := Value.within_module.mpr (w.closed.import? hc (hm ▸ h))
  enclosing hc h := Value.within_object.mpr (w.closed.enclosingObject? hc (hm ▸ h))
  root hc := hm ▸ w.closed.root hc
  func hc h := w.closed.func? hc (hm ▸ h)
  localFunc hc h := w.closed.localFunc? hc (hm ▸ h)
  member ho h := w.closed.member? (Value.within_object.mp ho) (hm ▸ h)
  global hw h := w.closed.localVar? (Value.within_module.mp hw) (hm ▸ h)
  live _ _ _ := trivial
  followed _ _ := trivial

/-- `Q` holds of every ledger between two. -/
def Always (Q : Ledger R start → Prop) (w w' : Ledger R start) : Prop :=
  ∀ w₁, w.Next w₁ → w₁.Next w' → Q w₁

theorem Always.sub {w₁ w₂ : Ledger R start} (h : Always Q w w') (h₁ : w.Next w₁)
    (h₂ : w₂.Next w') : Always Q w₁ w₂ :=
  fun w'' from₁ to₂ => h w'' (h₁.trans from₁) (to₂.trans h₂)

/-- A context in which the parameters of a call are being bound. -/
structure AtCall (w : Ledger R start) (callee : Callee) (args : List Arg) (c : CtxId) : Prop where
  ctx : R.Ctx w.store c
  skeleton : w.store.graph.skeleton? c = some (callee.kind args).skeleton
  depth : callee.IsCode → w.store.graph.scopeDepth c = 1

variable {callee : Callee} {args : List Arg}

/-- The context of an instance stays one. -/
theorem AtCall.next {decl : ClassDecl} {world : CtxId} (h : w.AtCall (.class decl world) args c)
    (next : w.Next w') : w'.AtCall (.class decl world) args c :=
  ⟨h.ctx.extends next.keeps.toExtends, (next.keeps.skeletons c h.ctx.2).trans h.skeleton, False.elim⟩

theorem AtCall.of_graph (h : w.AtCall callee args c) (next : w.Next w')
    (same : w'.store.graph = w.store.graph) : w'.AtCall callee args c :=
  ⟨h.ctx.extends next.keeps.toExtends, same ▸ h.skeleton, fun code => same ▸ h.depth code⟩

theorem AtCall.bound {name : String} (h : w.AtCall callee args c) (next : w.Next w')
    (same : w'.store = w.store.modifyGraph (callee.binding w.store c name i).apply) :
    w'.AtCall callee args c where
  ctx := h.ctx.extends next.keeps.toExtends
  skeleton := (next.keeps.skeletons c h.ctx.2).trans h.skeleton
  depth code := by
    rw [same]
    cases callee with
    | func | closure =>
      exact (Graph.scopeDepth_ofVar name (w.store.cell i).name i).trans (h.depth code)
    | «class» => exact code.elim

/-- The context of a call that begins. -/
theorem begin_call (w : Ledger R start) (callee : Callee) (args : List Arg)
    (ho : R.Ctx w.store callee.owner) :
    ∃ w' : Ledger R start, w.Next w' ∧ w'.store = (w.store.addContext (callee.kind args)).2 ∧
      w'.AtCall callee args w.store.graph.size := by
  have owned : ∀ o, (callee.kind args).owner? = some o → R.Ctx w.store o := by
    rw [Callee.owner?_kind]
    exact fun o e => Option.some.inj e ▸ ho
  obtain ⟨w', next, added⟩ := w.addContext owned (callee.bare args)
  refine ⟨w', next, added, ⟨w.contexts, ?_⟩, ?_, fun _ => ?_⟩
  · rw [added, Store.addContext, Graph.size_add]
    exact Nat.lt_succ_self _
  · rw [added]
    exact Graph.skeleton?_add_self _
  · rw [added]
    exact Graph.scopeDepth_add_self _

/-- Binding a parameter, for a reason. -/
theorem bindParam {name : String} (call : w.AtCall callee args c) (hi : R.Cell w.store i)
    (may : w.MayBind ⟨c, (callee.kind args).paramHeight, name⟩ i)
    (free : (callee.binding w.store c name i).obstacle? w.store.graph = none) :
    w.Reaches (w.store.modifyGraph (callee.binding w.store c name i).apply) := by
  cases callee with
  | func f =>
    have depth := call.depth trivial
    refine w.bindVar call.ctx.1 hi free ?_
    rw [depth]
    exact may
  | closure cl =>
    have depth := call.depth trivial
    refine w.bindVar call.ctx.1 hi free ?_
    rw [depth]
    exact may
  | «class» decl world => exact w.bindArgument call.ctx.1 hi free may

end Ledger

namespace Ledger

/-- A ledger, and what is held meanwhile. -/
structure Held (R : Region) (start : Store) where
  ledger : Ledger R start
  held : List Hold
  outside : Option (List Hold)

/-- The worlds of the ledgers of a region. An observer is silent where `Q` holds. -/
def worlds (Q : Ledger R start → Prop) : Worlds where
  World := Held R start
  scene w := ⟨w.ledger.store, w.held, w.outside⟩
  Next w w' := w.ledger.Next w'.ledger
  enter holds w := { w with held := holds ++ w.held }
  grasp w := w.ledger.grasp
  May _ := True
  Silent w w' := Always Q w.ledger w'.ledger
  next_refl w := .refl w.ledger
  next_trans := .trans
  silent_between always h₁ _ h₂ := always.sub h₁ h₂

variable {W : Held R start} {t : Store}

theorem reaches_held (h : W.ledger.Reaches t) :
    (worlds Q).Reaches W { (worlds Q).scene W with store := t } := by
  obtain ⟨w', next, rfl⟩ := h
  exact ⟨⟨w', W.held, W.outside⟩, next, rfl⟩

theorem gives_held {N : Names} (h : W.ledger.Reaches t) (fits : W.ledger.Fits N) :
    (worlds Q).Gives W N { (worlds Q).scene W with store := t } := by
  obtain ⟨w', next, rfl⟩ := h
  exact ⟨⟨w', W.held, W.outside⟩, next, rfl, Fits.next fits next⟩

theorem letsGo {s : Scene} (h : ((worlds Q).scene W).LetsGo s) : (worlds Q).Reaches W s := by
  cases h with
  | nothing => exact Worlds.Reaches.refl (W := worlds Q) W
  | released known => exact reaches_held (W.ledger.release _)

/-- Coming back to an earlier ledger's holds. -/
theorem returns_held {W₁ W₂ : Held R start} {N : Names} {held : List Hold} {outside : Option (List Hold)}
    (before : W.ledger.Next W₁.ledger) (between : W₁.ledger.Next W₂.ledger)
    (h : W₂.ledger.Reaches t) (fits : W₂.ledger.Fits N) :
    (worlds Q).Returns W W₁ W₂ N ⟨t, held, outside⟩ := by
  obtain ⟨w', next, rfl⟩ := h
  exact ⟨⟨w', held, outside⟩, (before.trans between).trans next, rfl,
    fun always => always.sub before next, Fits.next fits next⟩

/-- A call is being prepared in the context. -/
def Prepares (W : Held R start) (callee : Callee) (args : List Arg) (c : CtxId) (s : Scene) : Prop :=
  ∃ w, W.ledger.Next w ∧ w.store = s.store ∧ w.AtCall callee args c

/-- Ledgers of a region are kept up. -/
def upkeep (Q : Ledger R start → Prop) : Upkeep where
  toWorlds := worlds Q
  lawful w := w.ledger.lawful_grasp
  lasts next := (Next.enters next []).toLasts
  enters holds w := (Ledger.Next.refl w.ledger).enters holds
  may_of_plain _ := trivial
  shows hm := Ledger.shows _ (congrArg Scene.store hm)
  rooted _ _ := ⟨trivial, trivial⟩
  entered _ _ := rfl
  left {w w₁} _ _ _ _ next _ fits fits₁ :=
    returns_held (.refl w.ledger) next (.refl w₁.ledger)
      (Names.fit_append.mpr ⟨fits₁, Fits.next fits next⟩)
  letGo := letsGo
  scopeOpened {w c} hc := reaches_held (w.ledger.update hc.1 Context.harmless_push
    (.step (.scopeOpened c)))
  scopeClosed {w c _} hc fits := gives_held (w.ledger.update hc.1 Context.harmless_pop
    (.scopeClosed c)) fits
  cellAdded {w} _ hv := reaches_held (w.ledger.addCell hv)
  varDeclared {w c cell} hc hv free := by
    obtain ⟨w', next, same⟩ := w.ledger.bindNew hc.1 hv free
    refine ⟨⟨w', w.held, w.outside⟩, next, ?_, fun int => ⟨⟨w.ledger.cells, ?_⟩, ?_⟩⟩
    · show Scene.mk w'.store _ _ = _
      rw [same]
      rfl
    · show w.ledger.store.cells.size < w'.store.cells.size
      rw [same, Store.bindNew, Store.modifyGraph, Store.addCell, Array.size_push]
      exact Nat.lt_succ_self _
    · show (w'.store.cell w.ledger.store.cells.size).value.kind = .int
      rw [same]
      exact (congrArg (·.value.kind) (Store.cell_addCell_self w.ledger.store cell)).trans int
  funcDeclared {w _} decl hc free := reaches_held (w.ledger.declareFunc hc free)
  classDeclared {w _} decl hc free := reaches_held (w.ledger.update (w.ledger.closed.root hc).1
    (Context.harmless_addClass decl) (.step (.classDeclared free)))
  moduleNamed {w _} name hc := reaches_held (w.ledger.update (w.ledger.closed.root hc).1
    (Context.harmless_setModuleName name) (.step (.moduleNamed _ name)))
  closureMade {w} _ hc := gives_held w.ledger.makeClosure
    (fit_value.mpr (Value.within_closure.mpr hc))
  written {w _ _ _} hi writable replaces fits :=
    gives_held (w.ledger.setValue hi writable replaces.fits replaces.tag) fits
  counted {w i} n counter writable := by
    have object : (w.ledger.store.cell i).value.kind ≠ .object := by simp [counter.int]
    have replaces : Value.Replaces (handlesOf w.ledger.store.graph #[])
        (Value.Within (R.Ctx w.ledger.store)) (w.ledger.store.cell i).value (.int n) :=
      .of_kind (Value.within_int n) counter.int.symm object
    exact reaches_held (w.ledger.setValue counter.cell writable replaces.fits replaces.tag)
  copied {w _ v v' t} hv copied := by
    obtain ⟨⟨w', next, same⟩, within⟩ := w.ledger.copy hv copied
    subst same
    exact ⟨⟨w', w.held, w.outside⟩, next, rfl, fit_value.mpr within⟩
  Prepares := Prepares
  begun {w callee args} may := by
    refine w.ledger.begin_call callee args ?_
    cases callee with
    | func f => exact may
    | closure cl => exact Value.within_closure.mp may
    | «class» decl world => exact may
  ownParam {w callee args c s param v} h hv := by
    obtain ⟨w₁, next₁, same, call⟩ := h
    obtain ⟨store, held, outside⟩ := s
    obtain rfl := same
    let cell : TreeScript.Cell := ⟨param.name, v, param.attrs.withoutRef⟩
    have within : cell.value.Within (R.Ctx w₁.store) :=
      Value.Within.mono hv fun _ hc => hc.extends next₁.keeps.toExtends
    obtain ⟨w₂, next₂, added⟩ := w₁.addCell within
    have call₂ := call.of_graph next₂ (by rw [added]; rfl)
    refine ⟨⟨w₂, next₁.trans next₂, added, call₂⟩, fun free => ?_⟩
    have new : R.Cell w₂.store w₁.store.cells.size := by
      refine ⟨w₁.cells, ?_⟩
      rw [added, Store.addCell, Array.size_push]
      exact Nat.lt_succ_self _
    obtain ⟨w₃, next₃, bound⟩ := w₂.bindParam call₂ new (.inl (unbound_of_addCell added))
      (added ▸ free)
    refine ⟨w₃, (next₁.trans next₂).trans next₃, ?_, call₂.bound next₃ bound⟩
    rw [bound, added]
  refParam {w callee args c s param arg i} h given isRef carries hi free := by
    obtain ⟨w₁, next₁, same, call⟩ := h
    obtain ⟨store, held, outside⟩ := s
    obtain rfl := same
    obtain ⟨w₂, next₂, bound⟩ := w₁.bindParam call (hi.extends next₁.keeps.toExtends)
      (.inr ((Graph.isReference_iff call.skeleton).mpr ⟨rfl, param, arg, given, isRef, rfl, carries⟩))
      free
    exact ⟨w₂, next₁.trans next₂, bound, call.bound next₂ bound⟩
  methodDeclared {w decl args world c s method} h free := by
    obtain ⟨w₁, next₁, same, call⟩ := h
    obtain ⟨store, held, outside⟩ := s
    obtain rfl := same
    obtain ⟨w₂, next₂, declared⟩ := w₁.declareFunc call.ctx free
    exact ⟨w₂, next₁.trans next₂, declared, call.next next₂⟩
  callRefused {w _ _ _ s} _ h := by
    obtain ⟨w₁, next₁, same, -⟩ := h
    obtain ⟨store, held, outside⟩ := s
    obtain rfl := same
    exact ⟨⟨w₁, held, outside⟩, next₁, rfl⟩
  called {w callee args c s} _ h := by
    obtain ⟨w₁, next₁, same, call⟩ := h
    obtain ⟨store, held, outside⟩ := s
    obtain rfl := same
    refine ⟨⟨w₁, [.context callee.owner, .context c] ++ held, outside⟩, rfl, call.ctx, ?_⟩
    exact fun w₂ N next fits => returns_held next₁ next (.refl w₂.ledger) fits
  buildRefused {w decl args world c s} h := by
    obtain ⟨w₁, next₁, same, call⟩ := h
    obtain ⟨store, held, outside⟩ := s
    obtain rfl := same
    obtain ⟨w₂, next₂, cleared⟩ := w₁.update call.ctx.1 Context.harmless_dropArguments
      (.step (.argumentsCleared c))
    refine ⟨⟨w₂, held, outside⟩, next₁.trans next₂, ?_⟩
    show Scene.mk w₂.store held outside = _
    rw [cleared]
    rfl
  built {w decl args world c s} h := by
    obtain ⟨w₁, next₁, same, call⟩ := h
    obtain ⟨store, held, outside⟩ := s
    obtain rfl := same
    refine ⟨⟨w₁, [.context world, .context c] ++ held, outside⟩, rfl, call.ctx, fun w₂ next => ?_⟩
    have hc := call.ctx.extends next.keeps.toExtends
    exact returns_held next₁ next (w₂.ledger.update hc.1 Context.harmless_dropArguments
      (.step (.argumentsCleared c))) (fit_value.mpr (Value.within_object.mpr hc))
  imported {w c} hc := by
    intro s world
    have unowned : ∀ o, ContextKind.emptyWorld.owner? = some o → R.Ctx w.ledger.store o := nofun
    obtain ⟨w₁, next₁, added⟩ := w.ledger.addContext unowned ⟨rfl, rfl⟩
    have hw : R.Ctx w₁.store w.ledger.store.graph.size := by
      refine ⟨w.ledger.contexts, ?_⟩
      rw [added, Store.addContext, Graph.size_add]
      exact Nat.lt_succ_self _
    refine ⟨⟨w₁, .context world :: s.held, s.outside⟩, ?_, hw, fun w₂ next => ⟨?_, fun t ht => ?_⟩⟩
    · show Scene.mk w₁.store _ _ = _
      rw [added]
      rfl
    · exact returns_held next₁ next (.refl w₂.ledger) Names.fit_none
    · obtain ⟨w₃, next₃, rfl⟩ := letsGo (Q := Q) ht
      have reached : w₂.ledger.Reaches w₃.ledger.store := ⟨w₃.ledger, next₃, rfl⟩
      refine ⟨fun _ => trivial, returns_held next₁ next reached Names.fit_none,
        fun name free => returns_held next₁ next (reached.andThen fun w₄ next₄ same => ?_)
          Names.fit_none⟩
      have later := (next₁.trans next).trans next₄
      have hc₄ : R.Ctx w₄.store c := hc.extends later.keeps.toExtends
      have hw₄ := (hw.extends next.keeps.toExtends).extends next₄.keeps.toExtends
      have declared := w₄.update (w₄.closed.root hc₄).1 (Context.harmless_addModule name hw₄)
        (.step (.moduleDeclared (same ▸ free)))
      rw [same] at declared
      exact declared

end Ledger

namespace Run

/-- The store that a run leaves, if the store is all that is said of it. -/
theorem Ends.store_after {x : Run α} {s : Store} {q : α → Prop}
    (h : Ends x m (fun a m' => m'.store = s ∧ q a) (fun m' => m'.store = s)) :
    (x.after m).store = s := by
  rw [Ends] at h
  rw [after]
  cases hx : x m with
  | ok a m' =>
    rw [hx] at h
    exact h.1
  | error stop m' =>
    rw [hx] at h
    exact h

variable {config : Config} {fuel : Nat} {P : CtxId → Machine → Prop} {f : Footprint}
  {kept : List CtxId} {names : Names} {ν : α → Names} {run : Evaluator → Run α}

theorem begins_of_ledger (Q : Ledger R start → Prop) (hm : m.store = w.store)
    (hk : ∀ c ∈ kept, R.Ctx w.store c) (fits : w.Fits names) :
    (Ledger.upkeep Q).Begins ⟨w, m.held, m.outside⟩ kept names m where
  scene := by
    rw [Machine.scene, hm]
    rfl
  kept := hk
  fits := fits

/-- A run under account goes on to a machine that a later ledger is for. -/
theorem Tracked.ends (tracked : Tracked f kept names ν run) (config : Config) (fuel : Nat)
    (hm : m.store = w.store) (hk : ∀ c ∈ kept, R.Ctx w.store c) (fits : w.Fits names) :
    ∃ w', w.Next w' ∧ Ends (run (evaluator config fuel)) m
      (fun a m' => m'.store = w'.store ∧ w'.Fits (ν a)) (fun m' => m'.store = w'.store) := by
  obtain ⟨w', next, ended⟩ := Upkeep.ends_of_tracked (U := Ledger.upkeep fun _ => True) tracked
    (fun _ _ _ _ _ _ => trivial) fuel (begins_of_ledger _ hm hk fits)
  refine ⟨w'.ledger, next, ?_⟩
  rw [Ends]
  cases hr : run (evaluator config fuel) m with
  | ok a m' =>
    rw [hr] at ended
    exact ⟨congrArg Scene.store ended.1, ended.2⟩
  | error stop m' =>
    rw [hr] at ended
    exact congrArg Scene.store ended.1

theorem Tracked.reaches (tracked : Tracked f kept names ν run) (hm : m.store = w.store)
    (hk : ∀ c ∈ kept, R.Ctx w.store c) (fits : w.Fits names) :
    w.Reaches ((run (evaluator config fuel)).after m).store := by
  obtain ⟨w', next, ends⟩ := tracked.ends config fuel hm hk fits
  exact ⟨w', next, ends.store_after.symm⟩

/-- What holds of every machine that a ledger on the way is for holds at every moment of a run under
account. -/
theorem Tracked.throughout (tracked : Tracked f kept names ν run) (hm : m.store = w.store)
    (hk : ∀ c ∈ kept, R.Ctx w.store c) (fits : w.Fits names)
    (hP : ∀ c m₁ w₁ w', w.Next w₁ → w₁.Next w' → m₁.store = w₁.store →
      ((run (evaluator config fuel)).after m).store = w'.store → P c m₁) :
    Throughout config fuel P run m := by
  let Q : Ledger R start → Prop := fun w₁ => ∀ c m₁, m₁.store = w₁.store → P c m₁
  refine Upkeep.throughout_of_tracked (U := Ledger.upkeep Q) tracked (fun _ _ _ _ _ _ => trivial)
    (begins_of_ledger Q hm hk fits) ?_ ?_
  · intro c w₁ w₂ m' next always _ hm'
    exact always w₁.ledger (.refl w₁.ledger) next c m' (congrArg Scene.store hm')
  · intro w' _ left w₁ before behind c m₁ hm₁
    exact hP c m₁ w₁ w'.ledger before behind hm₁ (congrArg Scene.store left)

end Run

namespace Eval

theorem tracked_expr (e : Expr) (c : CtxId) :
    Run.Tracked .clean [c] .none Value.names (·.expr e c) :=
  fun _ w _ _ h kept _ => h.expr w e c (kept c List.mem_cons_self)

theorem kept_context {w : Ledger .all start} (hm : m.store = w.store)
    (hc : c < m.store.graph.size) : ∀ d ∈ [c], Region.all.Ctx w.store d :=
  List.forall_mem_singleton.mpr ⟨Nat.zero_le c, hm ▸ hc⟩

end Eval

end TreeScript
