import TreeScript.Proofs.Run.Detours
import TreeScript.Proofs.Run.Work

/-!
# The building of instances

An instance has constructor arguments while it is built, and the machine holds it for that time,
next to its World. Whatever becomes of the building, the arguments are gone in the end. So in the end
of any run no instance that has come about in it has any, and those of all others are what they were.
-/
namespace TreeScript

variable {s t u : Store} {c d : CtxId} {m m' : Machine} {α : Type}

/-- The constructor arguments that an instance has. Other contexts have none. -/
def Store.arguments (s : Store) (c : CtxId) : List (String × CellId) :=
  (s.graph.arguments? c).getD []

/-- No instance has constructor arguments. -/
def Store.Settled (s : Store) : Prop := ∀ c, s.arguments c = []

/-- The instance is being built: it is held for that, next to its World. -/
def Scene.Builds (s : Scene) (c : CtxId) : Prop :=
  ∃ world decl given before behind, s.held = before ++ .context world :: .context c :: behind ∧
    s.store.graph.skeleton? c = some (.object world decl given [] [])

namespace Store

theorem arguments_of_ge (h : s.graph.size ≤ c) : s.arguments c = [] := by
  have none : s.graph.context? c = none := Array.getElem?_eq_none h
  rw [arguments, Graph.arguments?, Graph.kind?, none]
  rfl

/-- The constructor arguments of all that was there are what they were, and nothing else has any. -/
structure Settles (s t : Store) : Prop extends Extends s t where
  old : ∀ c < s.graph.size, t.arguments c = s.arguments c
  new : ∀ c, s.graph.size ≤ c → t.arguments c = []

theorem Settles.refl (s : Store) : s.Settles s where
  toExtends := .refl s
  old _ _ := rfl
  new _ := arguments_of_ge

theorem Settles.trans (h : s.Settles t) (h' : t.Settles u) : s.Settles u where
  toExtends := h.toExtends.trans h'.toExtends
  old c hc := (h'.old c (Nat.lt_of_lt_of_le hc h.contexts)).trans (h.old c hc)
  new c hc := by
    rcases Nat.lt_or_ge c t.graph.size with lt | ge
    · rw [h'.old c lt, h.new c hc]
    · exact h'.new c ge

theorem Settles.settled (h : s.Settles t) (hs : s.Settled) : t.Settled := by
  intro c
  rcases Nat.lt_or_ge c s.graph.size with lt | ge
  · rw [h.old c lt, hs c]
  · exact h.new c ge

/-- A store that has all constructor arguments as they were. -/
theorem Settles.of_eq (grown : s.Extends t) (same : ∀ c, t.arguments c = s.arguments c) :
    s.Settles t where
  toExtends := grown
  old c _ := same c
  new c hc := (same c).trans (arguments_of_ge hc)

theorem Settles.update (s : Store) (c : CtxId) {f : Context → Context}
    (skeleton : ∀ ctx, (f ctx).kind.skeleton = ctx.kind.skeleton)
    (same : ∀ ctx, (f ctx).kind.arguments? = ctx.kind.arguments?) :
    s.Settles (s.modifyGraph (·.update c f)) :=
  .of_eq (.update s c f skeleton) fun _ =>
    congrArg (·.getD []) (Graph.arguments?_update_same f same)

theorem Settles.addContext (s : Store) {kind : ContextKind} (bare : kind.arguments?.getD [] = []) :
    s.Settles (s.addContext kind).2 := by
  refine .of_eq (.addContext s kind) fun c => ?_
  show ((s.graph.add kind).2.arguments? c).getD [] = _
  rw [Graph.arguments?, Graph.kind?, Graph.context?_add]
  split
  · rename_i same
    rw [arguments_of_ge (Nat.le_of_eq same.symm)]
    exact bare
  · rfl

theorem Settles.addCell (s : Store) (cell : Cell) : s.Settles (s.addCell cell).2 :=
  .of_eq (.addCell s cell) fun _ => rfl

theorem Settles.setValue (s : Store) (i : CellId) (v : Value) : s.Settles (s.setValue i v) :=
  .of_eq (.ofCells rfl (by simp [Store.setValue])) fun _ => rfl

theorem Settles.release (s : Store) (holds : List Hold) : s.Settles (s.release holds) :=
  .of_eq (.release s holds) fun c => congrArg (·.getD []) (arguments?_release s holds c)

theorem Settles.bindNew (s : Store) (c : CtxId) (cell : Cell) : s.Settles (s.bindNew c cell) :=
  (Settles.addCell s cell).trans (.update _ c
    (fun ctx => Declaration.skeleton_recordMember cell.name ctx.kind)
    fun ctx => Declaration.arguments?_recordMember cell.name ctx.kind)

theorem Settles.declareFunc (s : Store) (c : CtxId) (func : Func) :
    s.Settles (s.modifyGraph (Declaration.ofFunc c func).apply) :=
  .update s c (fun _ => rfl) fun _ => rfl

/-- Copies are made without constructor arguments. -/
def settling : Copying where
  Inv _ := True
  Val _ _ := True
  Target _ _ := True
  Leads := Settles
  hereditary _ := Value.hereditary_true
  refl := .refl
  trans := .trans
  inv _ _ := trivial
  val _ _ _ := trivial
  target _ _ _ := trivial
  val_of_target _ := trivial
  member _ _ _ := trivial
  addObject {s _ _ _ _ _ _} _ _ _ := ⟨.addContext s rfl, trivial⟩
  declareFunc {s _ _} _ _ _ := .declareFunc s _ _
  bindNew {s _ _} _ _ _ _ := .bindNew s _ _
  recordMember {s c} name _ _ := .update s c
    (fun ctx => Declaration.skeleton_recordMember name ctx.kind)
    fun ctx => Declaration.arguments?_recordMember name ctx.kind

theorem Settles.copy {depth : Nat} {v v' : Value} (h : s.copy depth v = some (v', t)) :
    s.Settles t := (settling.copies_copy depth v s v' t trivial trivial h).1

end Store

namespace Scene

/-- What is held besides does not matter. -/
theorem Builds.besides {sc : Scene} (h : sc.Builds c) (holds : List Hold) :
    Scene.Builds { sc with held := holds ++ sc.held } c := by
  obtain ⟨world, decl, given, before, behind, held, skeleton⟩ := h
  refine ⟨world, decl, given, holds ++ before, behind, ?_, skeleton⟩
  rw [held, List.append_assoc]

end Scene

/-- A scene on the way from some store: all that was there has the constructor arguments that it had
then, and whatever else has any is being built. -/
structure Yard (base : Store) where
  scene : Scene
  grown : base.graph.size ≤ scene.store.graph.size
  old : ∀ c < base.graph.size, scene.store.arguments c = base.arguments c
  new : ∀ c, base.graph.size ≤ c → scene.store.arguments c ≠ [] → scene.Builds c

namespace Yard

variable {base : Store} {w w' w₁ w₂ : Yard base} {sc : Scene}

/-- The second scene is the first one or later. -/
structure Next (w w' : Yard base) : Prop where
  settles : w.scene.store.Settles w'.scene.store
  held : w'.scene.held = w.scene.held
  outside : w'.scene.outside = w.scene.outside

theorem Next.refl (w : Yard base) : w.Next w := ⟨.refl _, rfl, rfl⟩

theorem Next.trans {w'' : Yard base} (h : w.Next w') (h' : w'.Next w'') : w.Next w'' :=
  ⟨h.settles.trans h'.settles, h'.held.trans h.held, h'.outside.trans h.outside⟩

/-- Whatever is settled then is a later scene. -/
theorem move (w : Yard base) (sc : Scene) (settles : w.scene.store.Settles sc.store)
    (held : sc.held = w.scene.held) (outside : sc.outside = w.scene.outside) :
    ∃ w', w.Next w' ∧ w'.scene = sc := by
  refine ⟨⟨sc, Nat.le_trans w.grown settles.contexts, fun c hc => ?_, fun c hc some => ?_⟩,
    ⟨settles, held, outside⟩, rfl⟩
  · rw [settles.old c (Nat.lt_of_lt_of_le hc w.grown), w.old c hc]
  · rcases Nat.lt_or_ge c w.scene.store.graph.size with lt | ge
    · rw [settles.old c lt] at some
      obtain ⟨world, decl, given, before, behind, held', skeleton⟩ := w.new c hc some
      exact ⟨world, decl, given, before, behind, held.trans held',
        (settles.skeletons c lt).trans skeleton⟩
    · exact absurd (settles.new c ge) some

def enter (holds : List Hold) (w : Yard base) : Yard base :=
  { w with
    scene := { w.scene with held := holds ++ w.scene.held }
    new := fun c hc some => (w.new c hc some).besides holds }

/-- The worlds of these scenes, in which anything may be in hand. -/
def worlds (base : Store) : Worlds where
  World := Yard base
  scene := scene
  Next := Next
  enter := enter
  grasp _ := .anything
  May _ := True
  Silent _ _ := True
  next_refl := .refl
  next_trans := .trans
  silent_between _ _ _ _ := trivial

theorem reaches (settles : w.scene.store.Settles t) :
    (worlds base).Reaches w { w.scene with store := t } := w.move _ settles rfl rfl

theorem gives {N : Names} (settles : w.scene.store.Settles t) :
    (worlds base).Gives w N { w.scene with store := t } := by
  obtain ⟨w', next, same⟩ := w.move { w.scene with store := t } settles rfl rfl
  exact ⟨w', next, same, Names.fit_anything N⟩

/-- Coming back to what was held before. -/
theorem returns {N : Names} (settles : w.scene.store.Settles sc.store)
    (held : sc.held = w.scene.held) (outside : sc.outside = w.scene.outside) :
    (worlds base).Returns w w₁ w₂ N sc := by
  obtain ⟨w', next, same⟩ := w.move _ settles held outside
  exact ⟨w', next, same, fun _ => trivial, Names.fit_anything N⟩

theorem settles_of_letsGo {sc' : Scene} (h : sc.LetsGo sc') : sc.store.Settles sc'.store :=
  h.store (.refl _) (.release _)

/-- A call of the callee is being prepared in a context that has just come about. Nobody else's
constructor arguments have changed. -/
structure Prepares (w : Yard base) (callee : Callee) (args : List Arg) (c : CtxId) (sc : Scene) :
    Prop where
  new : c = w.scene.store.graph.size
  last : sc.store.graph.size = c + 1
  grown : w.scene.store.Extends sc.store
  skeleton : sc.store.graph.skeleton? c = some (callee.kind args).skeleton
  old : ∀ d < c, sc.store.arguments d = w.scene.store.arguments d
  code : callee.IsCode → sc.store.arguments c = []
  held : sc.held = w.scene.held
  outside : sc.outside = w.scene.outside

namespace Prepares

variable {callee : Callee} {args : List Arg} {decl : ClassDecl} {world : CtxId}

/-- What settles keeps all that has been prepared. -/
theorem settles (h : Prepares w callee args c sc) (settles : sc.store.Settles t)
    (same : t.graph.size = sc.store.graph.size) :
    Prepares w callee args c { sc with store := t } where
  new := h.new
  last := same.trans h.last
  grown := h.grown.trans settles.toExtends
  skeleton := (settles.skeletons c (h.last ▸ Nat.lt_succ_self c)).trans h.skeleton
  old d hd := (settles.old d (h.last ▸ Nat.lt_succ_of_lt hd)).trans (h.old d hd)
  code code := (settles.old c (h.last ▸ Nat.lt_succ_self c)).trans (h.code code)
  held := h.held
  outside := h.outside

/-- Binding a parameter makes at most a constructor argument of the instance. -/
theorem bound (h : Prepares w callee args c sc) (u : Store) (name : String) (i : CellId) :
    Prepares w callee args c
      { sc with store := sc.store.modifyGraph (callee.binding u c name i).apply } := by
  have var : sc.store.Settles (sc.store.modifyGraph
      (Declaration.ofVar c name (u.cell i).name i).apply) :=
    .update _ c (fun ctx => Declaration.skeleton_recordMember name ctx.kind)
      fun ctx => Declaration.arguments?_recordMember name ctx.kind
  cases callee with
  | func | closure => exact h.settles var (Graph.size_update _)
  | «class» decl world =>
    have grown := Store.Extends.update sc.store c
      (fun ctx => { ctx with kind := Declaration.addArgument name i ctx.kind })
      fun ctx => Declaration.skeleton_addArgument name i ctx.kind
    exact {
      new := h.new
      last := (Graph.size_update _).trans h.last
      grown := h.grown.trans grown
      skeleton := (grown.skeletons c (h.last ▸ Nat.lt_succ_self c)).trans h.skeleton
      old := fun d hd => (congrArg (·.getD []) (Graph.arguments?_update_of_ne _
        (Nat.ne_of_gt hd))).trans (h.old d hd)
      code := fun code => code.elim
      held := h.held
      outside := h.outside }

/-- A call of a function or a closure leaves no constructor arguments. -/
theorem settled (h : Prepares w callee args c sc) (code : callee.IsCode) :
    w.scene.store.Settles sc.store where
  toExtends := h.grown
  old d hd := h.old d (h.new ▸ hd)
  new d hd := by
    rcases Nat.lt_or_eq_of_le (h.new ▸ hd : c ≤ d) with lt | rfl
    · exact Store.arguments_of_ge (h.last ▸ lt)
    · exact h.code code

/-- When the building of an instance has ended, no constructor arguments are left. -/
theorem cleared (h : Prepares w (.class decl world) args c sc) (settles : sc.store.Settles t) :
    w.scene.store.Settles (t.modifyGraph (·.clearArguments c)) where
  toExtends := (h.grown.trans settles.toExtends).trans
    (.update t c _ fun ctx => Graph.skeleton_dropArguments ctx.kind)
  old d hd := by
    have hd : d < c := h.new ▸ hd
    have other : (t.graph.clearArguments c).arguments? d = t.graph.arguments? d :=
      Graph.arguments?_update_of_ne _ (Nat.ne_of_gt hd)
    refine (congrArg (·.getD []) other).trans ?_
    exact (settles.old d (h.last ▸ Nat.lt_succ_of_lt hd)).trans (h.old d hd)
  new d hd := by
    rcases Nat.lt_or_eq_of_le (h.new ▸ hd : c ≤ d) with lt | rfl
    · have other : (t.graph.clearArguments c).arguments? d = t.graph.arguments? d :=
        Graph.arguments?_update_of_ne _ (Nat.ne_of_lt lt)
      exact (congrArg (·.getD []) other).trans (settles.new d (h.last ▸ lt))
    · show ((t.graph.clearArguments c).arguments? c).getD [] = []
      rw [Graph.arguments?, Graph.kind?, Graph.clearArguments, Graph.context?_update, if_pos rfl]
      cases t.graph.context? c with
      | none => rfl
      | some ctx =>
        show (Graph.dropArguments ctx.kind).arguments?.getD [] = []
        cases ctx.kind <;> rfl

/-- What was being built is still being built. -/
theorem builds (h : Prepares w callee args c sc) (base : base.graph.size ≤ d) (hd : d < c)
    (some : sc.store.arguments d ≠ []) : sc.Builds d := by
  rw [h.old d hd] at some
  obtain ⟨world, decl, given, before, behind, held, skeleton⟩ := w.new d base some
  exact ⟨world, decl, given, before, behind, h.held.trans held,
    (h.grown.skeletons d (h.new ▸ hd)).trans skeleton⟩

/-- The scene at which an instance is being built. -/
def site (h : Prepares w (.class decl world) args c sc) : Yard base where
  scene := { sc with held := [.context world, .context c] ++ sc.held }
  grown := Nat.le_trans w.grown h.grown.contexts
  old d hd := (h.old d (h.new ▸ Nat.lt_of_lt_of_le hd w.grown)).trans (w.old d hd)
  new d base some := by
    rcases Nat.lt_trichotomy d c with lt | rfl | gt
    · exact (h.builds base lt some).besides _
    · exact ⟨world, decl, _, [], sc.held, rfl, h.skeleton⟩
    · exact absurd (Store.arguments_of_ge (h.last ▸ gt)) some

end Prepares

/-- It is kept up that constructor arguments are transient. -/
def upkeep (base : Store) : Upkeep where
  toWorlds := worlds base
  lawful _ := Grasp.lawful_anything
  lasts _ := Grasp.lasts_refl
  enters holds _ := Grasp.enters_anything holds
  may_of_plain _ := trivial
  shows _ := Grasp.shows_anything fun _ => trivial
  rooted _ _ := ⟨trivial, trivial⟩
  entered _ _ := rfl
  left _ next _ _ _ := returns next.settles rfl next.outside
  letGo {w s} h := w.move _ (settles_of_letsGo h) h.held h.outside
  scopeOpened {_ c} _ := reaches (.update _ c (fun _ => rfl) fun _ => rfl)
  scopeClosed {_ c _} _ _ := gives (.update _ c (fun _ => rfl) fun _ => rfl)
  cellAdded _ := reaches (.addCell _ _)
  varDeclared {w c cell} _ _ _ := by
    obtain ⟨w', next, same⟩ := reaches (w := w) (.bindNew w.scene.store c cell)
    exact ⟨w', next, same, fun _ => trivial⟩
  funcDeclared _ _ _ := reaches (.declareFunc _ _ _)
  classDeclared decl _ _ := reaches (.update _ _
    (fun ctx => Declaration.skeleton_addClass decl ctx.kind)
    fun ctx => Declaration.arguments?_addClass decl ctx.kind)
  moduleNamed name _ := reaches (.update _ _
    (fun ctx => Graph.skeleton_setModuleName name ctx.kind)
    fun ctx => Graph.arguments?_setModuleName name ctx.kind)
  closureMade {w} _ _ := gives (.of_eq (.ofCells rfl (Nat.le_refl _)) fun _ => rfl)
  written _ _ _ _ := gives (.setValue _ _ _)
  counted _ _ _ := reaches (.setValue _ _ _)
  copied _ copied := gives (.copy copied)
  Prepares := Prepares
  begun {w callee args} _ := {
    new := rfl
    last := Graph.size_add _
    grown := .addContext _ _
    skeleton := Graph.skeleton?_add_self _
    old := (Store.Settles.addContext w.scene.store (callee.bare args).2).old
    code := fun _ =>
      (Store.Settles.addContext w.scene.store (callee.bare args).2).new _ (Nat.le_refl _)
    held := rfl
    outside := rfl }
  ownParam {_ _ _ _ s param v} h _ := by
    have added := h.settles (.addCell s.store ⟨param.name, v, param.attrs.withoutRef⟩) rfl
    exact ⟨added, fun _ => added.bound _ _ _⟩
  refParam h _ _ _ _ _ := h.bound _ _ _
  methodDeclared h _ := h.settles (.declareFunc _ _ _) (Graph.size_update _)
  callRefused {w _ _ _ s} code h := w.move _ (h.settled code) h.held h.outside
  called {w callee _ c s} code h := by
    obtain ⟨w', next, rfl⟩ := w.move _ (h.settled code) h.held h.outside
    exact ⟨w'.enter [.context callee.owner, .context c], rfl, trivial, fun w₂ _ next₂ _ =>
      returns (next.settles.trans next₂.settles) next.held (next₂.outside.trans next.outside)⟩
  buildRefused {w _ _ _ _ s} h := w.move _ (h.cleared (.refl s.store)) h.held h.outside
  built h := ⟨h.site, rfl, trivial, fun _ next =>
    returns (h.cleared next.settles) h.held (next.outside.trans h.outside)⟩
  imported {w c} _ := by
    intro s world
    obtain ⟨w', next, same⟩ := w.move { s with store := (s.store.addContext .emptyWorld).2 }
      (.addContext s.store rfl) rfl rfl
    refine ⟨w'.enter [.context world], ?_, trivial, fun w₂ next₂ => ⟨?_, fun t ht => ?_⟩⟩
    · show Scene.mk w'.scene.store (.context world :: w'.scene.held) w'.scene.outside = _
      rw [same]
    · exact returns (next.settles.trans next₂.settles) rfl (next₂.outside.trans next.outside)
    · have settles := (next.settles.trans next₂.settles).trans (settles_of_letsGo ht)
      have outside := ht.outside.trans (next₂.outside.trans next.outside)
      exact ⟨fun _ => trivial, returns settles rfl outside, fun name _ =>
        returns (settles.trans (.update t.store _
          (fun ctx => Declaration.skeleton_addModule name world ctx.kind)
          fun ctx => Declaration.arguments?_addModule name world ctx.kind)) rfl outside⟩

variable {config : Config} {fuel : Nat} {f : Footprint} {kept : List CtxId} {names : Names}
  {ν : α → Names} {run : Evaluator → Run α}

/-- The scene of a machine at which something begins. -/
def start (m : Machine) : Yard m.store where
  scene := m.scene
  grown := Nat.le_refl _
  old _ _ := rfl
  new _ hc some := absurd (Store.arguments_of_ge hc) some

/-- However a run ends, what it has begun to build is not being built any more. -/
theorem settles_after (related : ∀ {ev₁ ev₂ : Evaluator},
    (upkeep m.store).tracking.Relates ev₁ ev₂ →
      (upkeep m.store).tracking.Rel (start m) f ν (run ev₁) (run ev₂)) (config : Config) (fuel : Nat) :
    m.store.Settles ((run (evaluator config fuel)).after m).store ∧
      ((run (evaluator config fuel)).after m).held = m.held := by
  obtain ⟨w', next, ended⟩ :=
    Upkeep.ends_of_related (U := upkeep m.store) (w := start m) (fun _ _ _ _ _ _ => trivial) fuel
      rfl related
  have left {m' : Machine} (same : m'.scene = w'.scene) :
      m.store.Settles m'.store ∧ m'.held = m.held := by
    have settles := next.settles
    have held := next.held
    rw [← same] at settles held
    exact ⟨settles, held⟩
  rw [Run.after]
  cases hr : run (evaluator config fuel) m <;>
  · rw [hr] at ended
    exact left ended.1

/-- At every moment of a run what was there has the constructor arguments that it had, and whatever
else has any is being built. -/
theorem throughout (tracked : Run.Tracked f kept names ν run) :
    Throughout config fuel (fun _ m' =>
      (∀ c < m.store.graph.size, m'.store.arguments c = m.store.arguments c) ∧
      ∀ c, m.store.graph.size ≤ c → m'.store.arguments c ≠ [] → m'.scene.Builds c) run m := by
  have begins : (upkeep m.store).Begins (start m) kept names m :=
    ⟨rfl, fun _ _ => trivial, Names.fit_anything names⟩
  refine Upkeep.throughout_of_tracked tracked (fun _ _ _ _ _ _ => trivial) begins
    (fun _ w₁ _ m' _ _ _ same => ?_) fun _ _ _ => trivial
  have same : m'.scene = w₁.scene := same
  have store : m'.store = w₁.scene.store := congrArg Scene.store same
  rw [store, same]
  exact ⟨w₁.old, w₁.new⟩

end Yard

end TreeScript
