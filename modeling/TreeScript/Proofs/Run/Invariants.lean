import TreeScript.Proofs.Run.Detours
import TreeScript.Proofs.Run.Work

/-!
# Invariants of stores

Some properties of stores hang only on what the cells hold, on the modules that are imported and on
the functions that are declared. Whatever opens or closes a scope, binds a name or names a module
keeps them, and so does a release. If the few steps that are left keep such a property, all runs do.
-/
namespace TreeScript

variable {m : Machine} {c : CtxId} {i : CellId} {α : Type}

/-- A change of a context that leaves its kind, and what it imports, as it is, and adds no
function. -/
structure Context.Mild (f : Context → Context) : Prop where
  skeleton : ∀ ctx, (f ctx).kind.skeleton = ctx.kind.skeleton
  imports : ∀ ctx, (f ctx).kind.imports = ctx.kind.imports
  funcs : ∀ ctx (p : String × Func → Prop), (∀ frame ∈ ctx.funcs.frames, ∀ e ∈ frame, p e) →
    ∀ frame ∈ (f ctx).funcs.frames, ∀ e ∈ frame, p e

namespace Context

/-- A change of the kind that keeps the skeleton and the imports. -/
theorem mild_kind {g : ContextKind → ContextKind}
    (skeleton : ∀ kind, (g kind).skeleton = kind.skeleton)
    (imports : ∀ kind, (g kind).imports = kind.imports) :
    Mild fun ctx => { ctx with kind := g ctx.kind } :=
  ⟨fun ctx => skeleton ctx.kind, fun ctx => imports ctx.kind, fun _ _ h => h⟩

theorem mild_push :
    Mild fun ctx => { ctx with vars := ctx.vars.push, funcs := ctx.funcs.push } :=
  ⟨fun _ => rfl, fun _ => rfl, fun _ _ h => List.forall_mem_cons.mpr ⟨nofun, h⟩⟩

theorem mild_pop :
    Mild fun ctx => { ctx with vars := ctx.vars.pop, funcs := ctx.funcs.pop } :=
  ⟨fun _ => rfl, fun _ => rfl, fun _ _ => forall_frames_pop⟩

theorem mild_recordMember (name : String) :
    Mild fun ctx => { ctx with kind := Declaration.recordMember name ctx.kind } :=
  mild_kind (Declaration.skeleton_recordMember name) fun kind => by cases kind <;> rfl

theorem mild_bindVar (name : String) (i : CellId) :
    Mild fun ctx => { ctx with
      kind := Declaration.recordMember name ctx.kind, vars := ctx.vars.bind name i } :=
  ⟨(mild_recordMember name).skeleton, (mild_recordMember name).imports, fun _ _ h => h⟩

theorem mild_addArgument (name : String) (i : CellId) :
    Mild fun ctx => { ctx with kind := Declaration.addArgument name i ctx.kind } :=
  mild_kind (Declaration.skeleton_addArgument name i) fun kind => by cases kind <;> rfl

theorem mild_dropArguments :
    Mild fun ctx => { ctx with kind := Graph.dropArguments ctx.kind } :=
  mild_kind Graph.skeleton_dropArguments fun kind => by cases kind <;> rfl

theorem mild_addClass (decl : ClassDecl) :
    Mild fun ctx => { ctx with kind := Declaration.addClass decl ctx.kind } :=
  mild_kind (Declaration.skeleton_addClass decl) fun kind => by cases kind <;> rfl

theorem mild_setModuleName (name : String) :
    Mild fun ctx => { ctx with kind := Graph.setModuleName name ctx.kind } :=
  mild_kind (Graph.skeleton_setModuleName name) fun kind => by cases kind <;> rfl

end Context

/-- A property of stores that all runs keep in which every value is one that may be had. -/
structure Store.Invariant where
  Inv : Store → Prop
  /-- The value may be had. -/
  Val : Value → Prop
  hereditary : Value.Hereditary Val
  closure (cl : Closure) : Val (.closure cl)
  object {s : Store} {c : CtxId} : Inv s → s.graph.isObject c = true → Val (.object c)
  imported {s : Store} {c world : CtxId} {name : String} : Inv s →
    s.graph.import? c name = some world → Val (.module world)
  value {s : Store} (i : CellId) : Inv s → Val (s.cell i).value
  contextAdded {s : Store} (kind : ContextKind) : Inv s → kind.imports = [] →
    Inv (s.addContext kind).2
  cellAdded {s : Store} (cell : Cell) : Inv s → Val cell.value → Inv (s.addCell cell).2
  cellWritten {s : Store} {v : Value} (i : CellId) : Inv s → Val v → Inv (s.setValue i v)
  closureMade {s : Store} : Inv s → Inv { s with nextClosure := s.nextClosure + 1 }
  released {s : Store} (holds : List Hold) : Inv s → Inv (s.release holds)
  updated {s : Store} {f : Context → Context} (c : CtxId) : Inv s → Context.Mild f →
    Inv (s.modifyGraph (·.update c f))
  funcDeclared {s : Store} (c : CtxId) (decl : FuncDecl) : Inv s →
    Inv (s.modifyGraph (Declaration.ofFunc c ⟨decl, c⟩).apply)
  /-- A World comes to know a module that has come about in the meantime. -/
  moduleDeclared {s t : Store} (c : CtxId) (name : String) : Inv s → Inv t →
    Inv (t.modifyGraph (Declaration.ofModule c name s.graph.size).apply)

namespace Store.Invariant

variable (I : Store.Invariant) {s t : Store} {v v' : Value} {depth : Nat}

instance : Value.Hereditary I.Val := I.hereditary

variable {I}

theorem varBound {name cellName : String} (h : I.Inv s) :
    I.Inv (s.modifyGraph (Declaration.ofVar c name cellName i).apply) :=
  I.updated c h (Context.mild_bindVar name i)

theorem bindNew {cell : Cell} (h : I.Inv s) (hv : I.Val cell.value) : I.Inv (s.bindNew c cell) :=
  I.varBound (I.cellAdded cell h hv)

theorem bound {callee : Callee} {name : String} (h : I.Inv s) :
    I.Inv (s.modifyGraph (callee.binding t c name i).apply) := by
  cases callee with
  | func | closure => exact I.varBound h
  | «class» => exact I.updated c h (Context.mild_addArgument name i)

/-- Copies keep invariants. -/
def copying (I : Store.Invariant) : Store.Copying where
  Inv := I.Inv
  Val _ := I.Val
  Target _ c := I.Val (.object c)
  Leads s t := I.Inv s → I.Inv t
  hereditary _ := I.hereditary
  refl _ := id
  trans h h' := h' ∘ h
  inv h leads := leads h
  val _ _ hv := hv
  target _ _ ht := ht
  val_of_target ht := ht
  member {s c name cell} h _ found := by
    obtain ⟨i, -, hi⟩ := Option.bind_eq_some_iff.mp found
    have held := I.value i h
    rwa [Store.cell, hi] at held
  addObject {s c owner decl _ _ _} h _ _ := by
    have added := I.contextAdded (.object owner decl [] [] []) h rfl
    exact ⟨fun _ => added, I.object added (Graph.isObject_add_self _)⟩
  declareFunc _ _ _ := I.funcDeclared _ _
  bindNew _ _ hv _ h := I.bindNew h hv
  recordMember name _ _ h := I.updated _ h (Context.mild_recordMember name)

theorem copied (h : I.Inv s) (hv : I.Val v) (copied : s.copy depth v = some (v', t)) :
    I.Inv t ∧ I.Val v' := by
  obtain ⟨leads, hv'⟩ := I.copying.copies_copy depth v s v' t h hv copied
  exact ⟨leads h, hv'⟩

/-- The scenes that have the property. -/
def worlds (I : Store.Invariant) : Worlds where
  World := { s : Scene // I.Inv s.store }
  scene w := w.1
  Next w w' := w'.1.held = w.1.held ∧ w'.1.outside = w.1.outside
  enter holds w := ⟨{ w.1 with held := holds ++ w.1.held }, w.2⟩
  grasp _ := { Grasp.anything with Val := I.Val, Held := I.Val }
  May _ := True
  Silent _ _ := True
  next_refl _ := ⟨rfl, rfl⟩
  next_trans h h' := ⟨h'.1.trans h.1, h'.2.trans h.2⟩
  silent_between _ _ _ _ := trivial

variable {w w₁ w₂ : I.worlds.World}

theorem reaches (h : I.Inv t) : I.worlds.Reaches w { w.1 with store := t } :=
  ⟨⟨{ w.1 with store := t }, h⟩, ⟨rfl, rfl⟩, rfl⟩

theorem gives {N : Names} (h : I.Inv t) (fits : N.Fit (I.worlds.grasp w)) :
    I.worlds.Gives w N { w.1 with store := t } :=
  ⟨⟨{ w.1 with store := t }, h⟩, ⟨rfl, rfl⟩, rfl, fits⟩

theorem fits_value (hv : I.Val v) : v.names.Fit (I.worlds.grasp w) := fit_value.mpr hv

/-- Coming back with what was held before. -/
theorem returns {N : Names} {held : List Hold} {outside : Option (List Hold)}
    (h : I.Inv t) (fits : N.Fit (I.worlds.grasp w)) (same : held = w.1.held)
    (known : outside = w.1.outside) : I.worlds.Returns w w₁ w₂ N ⟨t, held, outside⟩ :=
  ⟨⟨⟨t, held, outside⟩, h⟩, ⟨same, known⟩, rfl, fun _ => trivial, fits⟩

theorem letsGo {s : Scene} (h : w.1.LetsGo s) : I.Inv s.store :=
  h.store w.2 fun holds => I.released holds w.2

theorem shows (hm : m.scene = w.1) : m.Shows (I.worlds.grasp w) I.worlds.May := by
  have same : m.store = w.1.store := congrArg Scene.store hm
  have inv : I.Inv m.store := same ▸ w.2
  exact {
    value := fun i _ => I.value i inv
    var := fun _ _ => trivial
    imported := fun _ h => I.imported inv h
    enclosing := fun _ h => I.object inv (List.find?_some h)
    root := fun _ => trivial
    func := fun _ _ => trivial
    localFunc := fun _ _ => trivial
    member := fun _ _ => trivial
    global := fun _ _ => trivial
    live := fun _ _ _ => trivial
    followed := fun _ _ => trivial }

/-- A call of the callee is being prepared in a context. -/
structure Prepares (w : I.worlds.World) (callee : Callee) (args : List Arg) (c : CtxId) (s : Scene) :
    Prop where
  inv : I.Inv s.store
  held : s.held = w.1.held
  outside : s.outside = w.1.outside
  object : (callee.kind args).isObject = true → I.Val (.object c)

/-- An invariant of stores is kept up. -/
def upkeep (I : Store.Invariant) : Upkeep where
  toWorlds := I.worlds
  lawful _ := {
    val := I.hereditary
    held := I.hereditary
    val_of_held := id
    cell_of_held := id
    kept_of_object := fun _ => trivial
    kept_of_module := fun _ => trivial }
  lasts _ := Grasp.lasts_refl
  enters _ _ := {
    toLasts := Grasp.lasts_refl
    val := id
    cell := id
    held_of_mem := fun _ hv => hv
    heldCell_of_mem := fun _ hi => hi }
  may_of_plain _ := trivial
  shows := shows
  rooted _ _ := ⟨trivial, trivial⟩
  entered _ _ := rfl
  left {_ w₁ _ _ _} _ next _ fits fits' :=
    returns w₁.2 (Names.fit_append.mpr ⟨fits', fits⟩) rfl next.2
  letGo {w s} h := ⟨⟨s, letsGo h⟩, ⟨h.held, h.outside⟩, rfl⟩
  scopeOpened {w c} _ := reaches (I.updated c w.2 Context.mild_push)
  scopeClosed {w c _} _ fits := gives (I.updated c w.2 Context.mild_pop) fits
  cellAdded {w _} hv := reaches (I.cellAdded _ w.2 hv)
  varDeclared {w c cell} _ hv _ :=
    ⟨⟨{ w.1 with store := w.1.store.bindNew c cell }, I.bindNew w.2 hv⟩, ⟨rfl, rfl⟩, rfl,
      fun _ => trivial⟩
  funcDeclared {w c} decl _ _ := reaches (I.funcDeclared c decl w.2)
  classDeclared {w _} decl _ _ := reaches (I.updated _ w.2 (Context.mild_addClass decl))
  moduleNamed {w _} name _ := reaches (I.updated _ w.2 (Context.mild_setModuleName name))
  closureMade {w} cl _ := gives (I.closureMade w.2) (fits_value (I.closure cl))
  written {w i _ _} _ _ replaces fits := gives (I.cellWritten i w.2 replaces.fits) fits
  counted {w i} n _ _ := reaches (I.cellWritten i w.2 (Value.Hereditary.int n))
  copied {w _ _ _ _} hv copied := by
    obtain ⟨inv, hv'⟩ := I.copied w.2 hv copied
    exact gives inv (fits_value hv')
  Prepares := Prepares
  begun {w callee args} _ := {
    inv := I.contextAdded _ w.2 (callee.bare args).1
    held := rfl
    outside := rfl
    object := fun object => I.object (I.contextAdded (callee.kind args) w.2 (callee.bare args).1)
      ((Graph.isObject_add_self (callee.kind args)).trans object) }
  ownParam {_ _ _ _ s param v} h hv := by
    have added := I.cellAdded ⟨param.name, v, param.attrs.withoutRef⟩ h.inv hv
    exact ⟨⟨added, h.held, h.outside, h.object⟩,
      fun _ => ⟨bound added, h.held, h.outside, h.object⟩⟩
  refParam h _ _ _ _ _ := ⟨bound h.inv, h.held, h.outside, h.object⟩
  methodDeclared h _ := ⟨I.funcDeclared _ _ h.inv, h.held, h.outside, h.object⟩
  callRefused _ h := ⟨⟨_, h.inv⟩, ⟨h.held, h.outside⟩, rfl⟩
  called {w callee _ c s} _ h :=
    ⟨⟨{ s with held := [.context callee.owner, .context c] ++ s.held }, h.inv⟩, rfl, trivial,
      fun w₂ _ next fits => returns w₂.2 fits h.held (next.2.trans h.outside)⟩
  buildRefused {_ _ _ _ c s} h :=
    ⟨⟨{ s with store := s.store.modifyGraph (·.clearArguments c) },
      I.updated c h.inv Context.mild_dropArguments⟩, ⟨h.held, h.outside⟩, rfl⟩
  built {w _ _ world c s} h :=
    ⟨⟨{ s with held := [.context world, .context c] ++ s.held }, h.inv⟩, rfl, trivial,
      fun w₂ next => returns (I.updated _ w₂.2 Context.mild_dropArguments)
        (fits_value (h.object rfl)) h.held (next.2.trans h.outside)⟩
  imported {w c} _ := by
    intro s world
    refine ⟨⟨{ s with
      store := (s.store.addContext .emptyWorld).2, held := .context world :: s.held },
      I.contextAdded _ w.2 rfl⟩, rfl, trivial, fun w₂ next => ⟨?_, fun t ht => ?_⟩⟩
    · exact returns w₂.2 Names.fit_none rfl next.2
    · have inv := letsGo ht
      have outside := ht.outside.trans next.2
      exact ⟨fun _ => trivial, returns inv Names.fit_none rfl outside,
        fun name _ => returns (I.moduleDeclared c name w.2 inv) Names.fit_none rfl outside⟩

variable {config : Config} {fuel : Nat} {f : Footprint} {kept : List CtxId} {names : Names}
  {ν : α → Names} {run : Evaluator → Run α}

theorem begins (inv : I.Inv m.store) (had : ∀ v ∈ names.values, I.Val v) :
    I.upkeep.Begins ⟨m.scene, inv⟩ kept names m where
  scene := rfl
  kept _ _ := trivial
  fits := ⟨had, fun _ _ => trivial⟩

/-- A run keeps the invariant and holds in the end what it held before. -/
theorem ends (I : Store.Invariant) (tracked : Run.Tracked f kept names ν run) (config : Config)
    (fuel : Nat) (inv : I.Inv m.store) (had : ∀ v ∈ names.values, I.Val v) :
    Run.Ends (run (evaluator config fuel)) m
      (fun a m' => (I.Inv m'.store ∧ m'.held = m.held) ∧ ∀ v ∈ (ν a).values, I.Val v)
      fun m' => I.Inv m'.store ∧ m'.held = m.held := by
  obtain ⟨⟨s, inv'⟩, ⟨held, -⟩, ended⟩ := Upkeep.ends_of_tracked (U := I.upkeep) tracked
    (fun _ _ _ _ _ _ => trivial) fuel (begins inv had)
  have left {m' : Machine} (same : m'.scene = s) : I.Inv m'.store ∧ m'.held = m.held := by
    subst same
    exact ⟨inv', held⟩
  rw [Run.Ends]
  cases hr : run (evaluator config fuel) m with
  | ok a m' =>
    rw [hr] at ended
    exact ⟨left ended.1, ended.2.values⟩
  | error stop m' =>
    rw [hr] at ended
    exact left ended.1

/-- The invariant holds at every moment of a run. -/
theorem throughout (tracked : Run.Tracked f kept names ν run) (inv : I.Inv m.store)
    (had : ∀ v ∈ names.values, I.Val v) :
    Throughout config fuel (fun _ m' => I.Inv m'.store) run m := by
  refine Upkeep.throughout_of_tracked (U := I.upkeep) tracked (fun _ _ _ _ _ _ => trivial)
    (begins inv had) (fun _ w₁ _ m' _ _ _ same => ?_) fun _ _ _ => trivial
  have same : m'.store = w₁.1.store := congrArg Scene.store same
  exact same ▸ w₁.2

end Store.Invariant

variable {I : Store.Invariant} {s t : Session}

theorem Work.keeps {work : Work} (config : Config) (fuel : Nat) (inv : I.Inv m.store)
    (had : ∀ v ∈ work.values, I.Val v) :
    I.Inv (work.after config fuel m).store ∧ (work.after config fuel m).held = m.held := by
  have ends := I.ends work.tracked config fuel inv had
  rw [Run.Ends] at ends
  rw [Work.after, Run.after]
  cases hr : work.run (evaluator config fuel) m with
  | ok _ m' =>
    rw [hr] at ends
    exact ends.1
  | error stop m' =>
    rw [hr] at ends
    exact ends

/-- Nothing at all is asked of stores. What is left is that a run holds in the end what it held
before. -/
def Store.anything : Store.Invariant where
  Inv _ := True
  Val _ := True
  hereditary := Value.hereditary_true
  closure _ := trivial
  object _ _ := trivial
  imported _ _ := trivial
  value _ _ := trivial
  contextAdded _ _ _ := trivial
  cellAdded _ _ _ := trivial
  cellWritten _ _ _ := trivial
  closureMade _ := trivial
  released _ _ := trivial
  updated _ _ _ := trivial
  funcDeclared _ _ _ := trivial
  moduleDeclared _ _ _ _ := trivial

theorem Work.held_after (config : Config) (fuel : Nat) (work : Work) (m : Machine) :
    (work.after config fuel m).held = m.held :=
  (Work.keeps (I := Store.anything) config fuel trivial fun _ _ => trivial).2

/-- All that a session is used for keeps an invariant, if what it is handed may be had. -/
theorem Session.keeps {may : Session → Work → Prop}
    (h : Relation.ReflTransGen (StepIf may) s t) (own : ∀ u work, work.values = [] → may u work)
    (handed : ∀ u work, u.world = s.world → may u work → ∀ v ∈ work.values, I.Val v)
    (inv : I.Inv s.machine.store) :
    I.Inv t.machine.store ∧ t.machine.held = s.machine.held ∧ s.SameSetting t := by
  induction h with
  | refl => exact ⟨inv, rfl, rfl, rfl, rfl⟩
  | @tail t u _ step ih =>
    obtain ⟨inv, held, setting⟩ := ih
    obtain ⟨next, machine⟩ := step.used fun work _ => own t work
    refine ⟨?_, ?_, next.config.trans setting.config, next.fuel.trans setting.fuel,
      next.world.trans setting.world⟩ <;>
    rcases machine with same | ⟨work, ⟨-, allowed⟩, left⟩
    · rwa [same]
    · rw [left]
      exact (Work.keeps _ _ inv (handed t work setting.world allowed)).1
    · rw [same, held]
    · rw [left, (Work.keeps _ _ inv (handed t work setting.world allowed)).2, held]

/-- Every function belongs to the context that it is stored in. -/
def Store.Belongs (s : Store) : Prop :=
  ∀ c ctx, s.graph.context? c = some ctx → ∀ frame ∈ ctx.funcs.frames, ∀ e ∈ frame, e.2.owner = c

namespace Store.Belongs

variable {s : Store} {func : Func} {name : String}

theorem empty : Store.empty.Belongs := by
  intro c ctx hctx
  cases hctx

theorem localFunc? (h : s.Belongs) (found : s.graph.localFunc? c name = some func) :
    func.owner = c := by
  obtain ⟨ctx, hctx, found⟩ := Option.bind_eq_some_iff.mp found
  obtain ⟨frame, hf, mem⟩ := ScopeStack.mem_of_get? found
  exact h c ctx hctx frame hf _ mem

theorem update (h : s.Belongs) (c : CtxId) {f : Context → Context}
    (own : ∀ ctx, (∀ frame ∈ ctx.funcs.frames, ∀ e ∈ frame, e.2.owner = c) →
      ∀ frame ∈ (f ctx).funcs.frames, ∀ e ∈ frame, e.2.owner = c) :
    (s.modifyGraph (·.update c f)).Belongs := by
  intro d ctx hctx
  change (s.graph.update c f).context? d = some ctx at hctx
  rw [Graph.context?_update] at hctx
  split at hctx
  · rename_i same
    subst same
    obtain ⟨old, hold, rfl⟩ := Option.map_eq_some_iff.mp hctx
    exact own old (h c old hold)
  · exact h d ctx hctx

theorem addContext (h : s.Belongs) (kind : ContextKind) : (s.addContext kind).2.Belongs := by
  intro d ctx hctx
  change (s.graph.add kind).2.context? d = some ctx at hctx
  rw [Graph.context?_add] at hctx
  split at hctx
  · cases hctx
    exact List.forall_mem_singleton.mpr nofun
  · exact h d ctx hctx

theorem release (h : s.Belongs) (holds : List Hold) : (s.release holds).Belongs := by
  intro d ctx hctx
  obtain ⟨live, same⟩ := context?_release s holds d
  rw [same] at hctx
  obtain ⟨old, hold, rfl⟩ := Option.map_eq_some_iff.mp hctx
  exact h d old hold

end Store.Belongs

/-- That functions belong to the contexts that they are stored in is an invariant. -/
def Store.belongs : Store.Invariant where
  Inv := Store.Belongs
  Val _ := True
  hereditary := inferInstance
  closure _ := trivial
  object _ _ := trivial
  imported _ _ := trivial
  value _ _ := trivial
  contextAdded kind h _ := h.addContext kind
  cellAdded _ h _ := h
  cellWritten _ h _ := h
  closureMade h := h
  released holds h := h.release holds
  updated c h mild := h.update c fun ctx => mild.funcs ctx fun e => e.2.owner = c
  funcDeclared c _ h := h.update c fun ctx own =>
    List.forall_mem_cons.mpr ⟨List.forall_mem_cons.mpr ⟨rfl, own ctx.funcs.top List.mem_cons_self⟩,
      (List.forall_mem_cons.mp own).2⟩
  moduleDeclared _ _ _ h := h.update _ fun _ => id

end TreeScript
