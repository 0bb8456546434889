import TreeScript.Proofs.Lifetime.Custody

/-!
# Runs in custody

Whatever runs in custody gets hold of nothing but what is alive in the realm, and never finds that a
World is gone. Custody is kept up along all runs, through calls, scopes and imports.
-/
namespace TreeScript

variable {root : CtxId} {s t : Store} {m : Machine} {c o v x : CtxId} {i : CellId} {name : String}

/-- What is held is alive in the realm. -/
def Hold.Lies (r : Realm) (s : Store) : Hold → Prop
  | .context c => r.Alive s c
  | .cell i => r.Sure s i
  | .value v => v.Within (r.Alive s)

namespace Custody

variable {w w' w'' w₁ w₂ : Custody root} {r : Realm} {holds : List Hold}

/-- A run has got hold of what is alive in the realm, and holds what is held of it. -/
def grasp (w : Custody root) : Grasp where
  Val := Value.Within (w.realm.Alive w.store)
  Cell := w.realm.Sure w.store
  Held := Value.Within (w.realm.Keeps w.scene)
  HeldCell i := w.realm.Sure w.store i ∧ .cell i ∈ w.scene.holds
  Kept := w.realm.Keeps w.scene
  Counter := w.realm.Cell

theorem lawful_grasp (w : Custody root) : w.grasp.Lawful where
  val := inferInstanceAs (Value.Hereditary (Value.Within (w.realm.Alive w.store)))
  held := inferInstanceAs (Value.Hereditary (Value.Within (w.realm.Keeps w.scene)))
  val_of_held hv := hv.mono fun _ => w.secured.alive
  cell_of_held hi := hi.1
  kept_of_object := Value.within_object.mp
  kept_of_module := Value.within_module.mp

theorem Next.lasts (next : w.Next w') : w.grasp.Lasts w'.grasp where
  held hv := hv.mono fun _ => next.keeps
  heldCell hi := ⟨⟨next.cells _ hi.1.1, next.values _ hi.2 hi.1.2⟩, next.holds ▸ hi.2⟩
  kept := next.keeps
  counter := next.cells _

theorem Grows.fit {N : Names} (grows : w.Grows w') (fits : N.Fit w.grasp) : N.Fit w'.grasp where
  values v hv := (fits.values v hv).mono fun _ => grows.alive_realm
  cells i hi := grows.sure_realm (fits.cells i hi)

/-- All that is held is alive in the realm, or in one of those around it. -/
def Honest (w : Custody root) : Prop :=
  ∀ hold ∈ w.scene.holds, ∃ r ∈ w.realm :: w.outer, hold.Lies r w.store

theorem Honest.next (h : w.Honest) (next : w.Next w') : w'.Honest := by
  intro hold hh
  rw [next.holds] at hh
  -- the realm of the code may have grown, the others are the same
  have still (r q : Realm) (hq : q ∈ w'.realm :: w'.outer) (contexts : ∀ c, r.Ctx c → q.Ctx c)
      (cells : ∀ i, r.Cell i → q.Cell i) (lies : hold.Lies r w.store) : hold.Lies q w'.store := by
    cases hold with
    | context c => exact ⟨contexts c lies.1, next.living c (.context hh lies.2)⟩
    | cell i => exact ⟨cells i lies.1, next.values i hh lies.2⟩
    | value v =>
      intro c hc
      obtain ⟨there, living⟩ := lies c hc
      refine (w'.secure hq).alive_of_firm (contexts c there) ?_
      cases inner : w.scene.graph.isWorld c with
      | true =>
        exact .inr ((next.widens.isWorld_eq (Graph.lt_of_isLive living)).trans inner)
      | false => exact .inl (next.living c (.value hh hc inner living))
  obtain ⟨r, hr, lies⟩ := h hold hh
  rcases List.mem_cons.mp hr with rfl | outer
  · exact ⟨w'.realm, List.mem_cons_self,
      still _ _ List.mem_cons_self next.contexts next.cells lies⟩
  · have hr' : r ∈ w'.realm :: w'.outer := List.mem_cons_of_mem _ (next.outer.symm ▸ outer)
    exact ⟨r, hr', still r r hr' (fun _ => id) (fun _ => id) lies⟩

theorem lies_of_mayHold {hold : Hold} (may : w.grasp.MayHold hold) : hold.Lies w.realm w.store := by
  cases hold with
  | context c => exact w.secured.alive may
  | cell i => exact may
  | value v => exact may

def enter (holds : List Hold) (w : Custody root) : Custody root where
  scene := { w.scene with held := holds ++ w.scene.held }
  realm := w.realm
  outer := w.outer
  stands := w.stands
  rooted r hr := (w.rooted r hr).later rfl
    (by
      rw [Scene.holds, Scene.holds, List.append_assoc]
      exact List.subset_append_right _ _) (.refl _) (w.rooted r hr).living
  apart := w.apart
  sound := w.sound
  belongs := w.belongs
  session := w.session

theorem holds_enter (holds : List Hold) (w : Custody root) :
    (w.enter holds).scene.holds = holds ++ w.scene.holds := List.append_assoc ..

theorem rooted_enter (holds : List Hold) (hc : w.scene.Root c) : (w.enter holds).scene.Root c :=
  hc.later rfl (by rw [holds_enter]; exact List.subset_append_right _ _) (.refl _) hc.living

theorem keeps_of_mem {v : Value} (held : .value v ∈ w.scene.holds)
    (hv : v.Within (w.realm.Alive w.store)) : v.Within (w.realm.Keeps w.scene) := by
  intro c hc
  obtain ⟨there, living⟩ := hv c hc
  cases inner : w.scene.graph.isWorld c with
  | true => exact w.secured.keeps_of_isWorld there inner
  | false => exact .root there (.value held hc inner living)

theorem enters (holds : List Hold) (w : Custody root) :
    w.grasp.Enters holds (w.enter holds).grasp where
  held hv := hv.mono fun _ hc => hc.mono (fun _ => id) (fun _ => rooted_enter holds) (.refl _)
  heldCell hi := ⟨hi.1, holds_enter holds w ▸ List.mem_append_right _ hi.2⟩
  kept hc := hc.mono (fun _ => id) (fun _ => rooted_enter holds) (.refl _)
  counter := id
  val := id
  cell := id
  held_of_mem mem hv := keeps_of_mem (w := w.enter holds)
    (holds_enter holds w ▸ List.mem_append_left _ mem) hv
  heldCell_of_mem mem hi := ⟨hi, holds_enter holds w ▸ List.mem_append_left _ mem⟩

theorem Honest.enter (h : w.Honest) (lies : ∀ hold ∈ holds, hold.Lies w.realm w.store) :
    (w.enter holds).Honest := by
  intro hold hh
  rw [holds_enter] at hh
  rcases List.mem_append.mp hh with mem | old
  · exact ⟨w.realm, List.mem_cons_self, lies hold mem⟩
  · exact h hold old

/-- What was held before is held after what has been held meanwhile is let go. -/
theorem passes_leave (next : (w.enter holds).Next w₁) :
    w.Passes { w₁.scene with held := w.scene.held } w₁.realm where
  held := rfl
  outside := next.outside
  world := next.world
  contexts := next.contexts
  cells := next.cells
  widens := next.widens
  living c hc := next.living c (rooted_enter holds hc)
  values i held := next.values i (holds_enter holds w ▸ List.mem_append_right _ held)
  stands r hr := w₁.stands r (next.outer.symm ▸ hr)
  apart r hr := w₁.apart r (next.outer.symm ▸ hr)
  sound := w₁.sound
  belongs := w₁.belongs

theorem leave (next : (w.enter holds).Next w₁) : ∃ w', w.Next w' ∧
    w'.scene = { w₁.scene with held := w.scene.held } ∧ ∀ N : Names, N.Fit w₁.grasp → N.Fit w'.grasp := by
  obtain ⟨w', next', same, realm⟩ := (passes_leave next).next
  have store : w'.store = w₁.store := (congrArg Scene.store same :)
  refine ⟨w', next', same, fun N fits => ⟨fun v hv => ?_, fun i hi => ?_⟩⟩
  · show v.Within (w'.realm.Alive w'.store)
    rw [realm, store]
    exact fits.values v hv
  · show w'.realm.Sure w'.store i
    rw [realm, store]
    exact fits.cells i hi

theorem builds_addWorld (w : Custody root) : w.store.Builds (w.store.addContext .emptyWorld).2 :=
  .addWorld w.sound w.belongs

/-- The scene in which a module begins to run. -/
def moduleScene (s : Scene) : Scene where
  store := (s.store.addContext .emptyWorld).2
  held := .context s.store.graph.size :: s.held
  outside := s.outside

theorem holds_moduleScene (s : Scene) :
    (moduleScene s).holds = .context s.store.graph.size :: s.holds := rfl

theorem rooted_moduleScene (w : Custody root) (hc : w.scene.Root c) :
    (moduleScene w.scene).Root c :=
  hc.later rfl (List.subset_cons_self _ _) w.builds_addWorld.toExtends
    (w.builds_addWorld.living c hc.living)

/-- A module runs in the custody of a realm of its own. -/
def enterModule (w : Custody root) : Custody root where
  scene := moduleScene w.scene
  realm := Realm.ofModule w.store
  outer := w.realm :: w.outer
  stands := List.forall_mem_cons.mpr ⟨Realm.stands_ofModule w.store, fun r hr =>
    (w.stands r hr).addWorld w.builds_addWorld.toWidens⟩
  rooted := List.forall_mem_cons.mpr ⟨.context List.mem_cons_self (Graph.isLive_add_self _),
    fun r hr => w.rooted_moduleScene (w.rooted r hr)⟩
  apart r hr := ⟨fun c hc => Nat.ne_of_lt ((w.stands r hr).contexts c hc), fun _ _ => id⟩
  sound := w.builds_addWorld.sound
  belongs := w.builds_addWorld.belongs
  session := by
    obtain ⟨r, hr, same⟩ := w.session
    exact ⟨r, List.mem_cons_of_mem _ hr, same⟩

theorem Honest.enterModule (h : w.Honest) : w.enterModule.Honest := by
  intro hold hh
  rw [show w.enterModule.scene.holds = _ from holds_moduleScene w.scene] at hh
  rcases List.mem_cons.mp hh with rfl | old
  · exact ⟨_, List.mem_cons_self, rfl, Graph.isLive_add_self _⟩
  · obtain ⟨r, hr, lies⟩ := h hold old
    refine ⟨r, List.mem_cons_of_mem _ hr, ?_⟩
    cases hold with
    | context c => exact ⟨lies.1, w.builds_addWorld.living c lies.2⟩
    | cell i => exact ⟨lies.1, w.builds_addWorld.values i lies.2⟩
    | value v => exact fun c hc => ⟨(lies c hc).1, w.builds_addWorld.living c (lies c hc).2⟩

/-- After a module has run the importer is in the custody of its own realm again. -/
theorem passes_leaveModule (next : w.enterModule.Next w₁) :
    w.Passes { w₁.scene with held := w.scene.held } w.realm where
  held := rfl
  outside := next.outside
  world := rfl
  contexts _ := id
  cells _ := id
  widens := w.builds_addWorld.toWidens.trans next.widens
  living c hc := next.living c (w.rooted_moduleScene hc)
  values i held firm :=
    next.values i (List.mem_cons_of_mem _ held) (w.builds_addWorld.values i firm)
  stands r hr := w₁.stands r (List.mem_cons_of_mem _ (next.outer.symm ▸ hr))
  apart := w.apart
  sound := w₁.sound
  belongs := w₁.belongs

/-- The importer comes to know the World of another realm, which becomes part of its own. -/
theorem passes_join (w : Custody root) (hv : w.realm.Ctx v) (isWorld : w.scene.graph.isWorld v = true)
    {q : Realm} (stands : q.Stands w.store) (living : w.scene.graph.isLive q.world = true)
    (apart : ∀ r ∈ w.outer, r.Apart q) (name : String) :
    w.Passes { w.scene with store := w.store.modifyGraph (·.update v fun ctx =>
      { ctx with kind := Declaration.addModule name q.world ctx.kind }) } (w.realm.join q) := by
  have gentle := Context.gentle_addModule (c := v) name q.world
  have builds : w.store.Builds (w.store.modifyGraph (·.update v fun ctx =>
      { ctx with kind := Declaration.addModule name q.world ctx.kind })) :=
    .update w.sound w.belongs gentle (List.forall_mem_singleton.mpr living) nofun
  have mine := w.stands w.realm List.mem_cons_self
  refine ⟨rfl, rfl, rfl, fun _ => .inl, fun _ => .inl, builds.toWidens,
    fun c hc => builds.living c hc.living, fun i _ => builds.values i, ?_, fun r hr => ?_,
    builds.sound, builds.belongs⟩
  · refine List.forall_mem_cons.mpr ⟨mine.join stands hv isWorld name, fun r hr => ?_⟩
    have theirs := w.stands r (List.mem_cons_of_mem _ hr)
    refine theirs.widens builds.toWidens (theirs.closed.congr (fun c hc => ?_) fun _ _ => rfl)
    exact Graph.contents?_update_of_ne _ fun same => (w.apart r hr).contexts c hc (same ▸ hv)
  · exact ⟨fun c hc => not_or.mpr ⟨(w.apart r hr).contexts c hc, (apart r hr).contexts c hc⟩,
      fun i hi => not_or.mpr ⟨(w.apart r hr).cells i hi, (apart r hr).cells i hi⟩⟩

theorem leaveModule (next : w.enterModule.Next w₁) :
    ∃ w', w.Next w' ∧ w'.scene = { w₁.scene with held := w.scene.held } := by
  obtain ⟨w', next', same, -⟩ := (passes_leaveModule next).next
  exact ⟨w', next', same⟩

/-- The World of the importer comes to know a module that has run. -/
theorem joinModule (next : w.enterModule.Next w₁) (hc : w.realm.Ctx c) (name : String) :
    ∃ w', w.Next w' ∧ w'.scene = { w₁.scene with
      held := w.scene.held
      store := w₁.store.modifyGraph
        (Declaration.ofModule c name w.store.graph.size).apply } := by
  obtain ⟨w₂, next₂, same, -⟩ := (passes_leaveModule next).next
  have store : w₂.store = w₁.store := (congrArg Scene.store same :)
  have there := next₂.contexts c hc
  have living : w₂.store.graph.isLive w₁.realm.world = true :=
    store ▸ w₁.secured.rooted.living
  have apart (r : Realm) (hr : r ∈ w₂.outer) : r.Apart w₁.realm :=
    w₁.apart r (next.outer ▸ List.mem_cons_of_mem _ (next₂.outer ▸ hr))
  obtain ⟨w₃, next₃, joined, -⟩ := (w₂.passes_join (v := w₂.store.graph.root c)
    (w₂.secured.closed.root there) (w₂.secured.isWorld_root there)
    (store ▸ w₁.secured.toStands) living apart name).next
  refine ⟨w₃, next₂.trans next₃, ?_⟩
  have module : w₁.realm.world = w.store.graph.size := next.world
  rw [joined, store, same, module]
  rfl

theorem shows (w : Custody root) {own : Fault → Prop} (hm : m.scene = w.scene) :
    m.Shows w.grasp fun fault => fault.stray = true → own fault := by
  have store : m.store = w.store := congrArg Scene.store hm
  have secure := w.secured
  have closed := secure.closed_alive
  have alive {c : CtxId} (hc : w.realm.Keeps w.scene c) := secure.alive hc
  -- a function is declared in a context that is held with the one that knows it
  have declared {c d : CtxId} {name : String} {f : Func} (hc : w.realm.Keeps w.scene c)
      (hd : d ∈ w.scene.graph.chain c) (h : w.scene.graph.localFunc? d name = some f) :
      w.realm.Keeps w.scene f.owner := by
    rw [w.belongs.localFunc? h]
    exact hc.of_mem_chain hd
  refine {
    value := fun i hi => store ▸ closed.values i hi
    var := fun hc h => closed.var? (alive hc) (store ▸ h)
    imported := fun hc h => Value.within_module.mpr (closed.import? (alive hc) (store ▸ h))
    enclosing := fun hc h => Value.within_object.mpr <| by
      rw [store] at h
      exact closed.enclosingObject? (alive hc) h
    root := fun {c} hc => store ▸ hc.of_mem_chain (Graph.root_mem_chain _ c)
    func := fun {c name f} hc h => ?_
    localFunc := fun {c name f} hc h => declared hc (Graph.self_mem_chain _ c) (store ▸ h)
    member := fun ho h => closed.member? (Value.within_object.mp ho) (store ▸ h)
    global := fun hw h => closed.localVar? (Value.within_module.mp hw) (store ▸ h)
    live := fun {c} name hc dead => ?_
    followed := fun {cl} hv gone => ?_ }
  · obtain ⟨d, hd, here⟩ := Graph.declared_of_func? (store ▸ h)
    exact declared hc hd here
  · rw [store] at dead
    cases dead.symm.trans (secure.living hc)
  · rw [store, Graph.follow, (Value.within_closure.mp hv).2] at gone
    simp at gone

/-- The custody has grown, and a call of the callee is being prepared in the context. -/
structure AtCall (w w' : Custody root) (callee : Callee) (c : CtxId) : Prop where
  grows : w.Grows w'
  ctx : w'.realm.Alive w'.store c
  owner : w'.realm.Alive w'.store callee.owner

variable {callee : Callee}

theorem AtCall.trans (call : w.AtCall w' callee c) (grows : w'.Grows w'') :
    w.AtCall w'' callee c :=
  ⟨call.grows.trans grows, grows.alive_realm call.ctx, grows.alive_realm call.owner⟩

/-- A call is being prepared in the context. -/
def Prepares (w : Custody root) (callee : Callee) (c : CtxId) (s : Scene) : Prop :=
  ∃ w', w.AtCall w' callee c ∧ w'.scene = s

theorem AtCall.prepares (call : w.AtCall w' callee c) (reached : w'.Reaches t) :
    w.Prepares callee c { w'.scene with store := t } := by
  obtain ⟨w'', grows, same⟩ := reached
  exact ⟨w'', call.trans grows, same⟩

theorem begin_call (w : Custody root) (callee : Callee) (args : List Arg)
    (owner : w.realm.Alive w.store callee.owner) :
    w.Prepares callee w.store.graph.size
      { w.scene with store := (w.store.addContext (callee.kind args)).2 } := by
  obtain ⟨w', grows, same⟩ := w.addContext (callee.owner?_kind args) (callee.bare args) owner
  have added : w'.store = (w.store.addContext (callee.kind args)).2 := congrArg Scene.store same
  exact ⟨w', ⟨grows, grows.alive_new added, grows.alive_realm owner⟩, same⟩

theorem bindParam (w : Custody root) (callee : Callee) (s : Store) (name : String)
    (hc : w.realm.Ctx c) (hi : w.realm.Sure w.store i) :
    w.Reaches (w.store.modifyGraph (callee.binding s c name i).apply) := by
  have sure : ∀ j ∈ [i], w.realm.Sure w.store j := List.forall_mem_singleton.mpr hi
  cases callee with
  | func | closure => exact w.update hc (Context.gentle_bindVar name i) sure
  | «class» => exact w.update hc (Context.gentle_addArgument name i) sure

/-- A call keeps its callee's code and its own context. -/
theorem AtCall.enter (call : w.AtCall w' callee c) :
    let holds := [.context callee.owner, .context c]
    (w'.enter holds).realm.Keeps (w'.enter holds).scene c ∧ (w.Honest → (w'.enter holds).Honest) := by
  refine ⟨.root call.ctx.1 (.context ?_ call.ctx.2), fun honest => ?_⟩
  · rw [holds_enter]
    exact List.mem_append_left _ (List.mem_cons_of_mem _ List.mem_cons_self)
  · refine (honest.next call.grows.toNext).enter (List.forall_mem_cons.mpr ⟨call.owner, ?_⟩)
    exact List.forall_mem_singleton.mpr call.ctx

/-- The worlds in custody of a World. Stray faults may be raised only as one's own. -/
def worlds (root : CtxId) (own : Fault → Prop) : Worlds where
  World := Custody root
  scene := Custody.scene
  Next := Custody.Next
  enter := enter
  grasp := grasp
  May fault := fault.stray = true → own fault
  Silent w _ := w.Honest
  next_refl := .refl
  next_trans := .trans
  silent_between honest next _ _ := honest.next next

variable {own : Fault → Prop}

theorem Reaches.onward (h : w.Reaches t) :
    (worlds root own).Reaches w { w.scene with store := t } := by
  obtain ⟨w', grows, same⟩ := h
  exact ⟨w', grows.toNext, same⟩

theorem Reaches.gives {N : Names} (h : w.Reaches t) (fits : N.Fit w.grasp) :
    (worlds root own).Gives w N { w.scene with store := t } := by
  obtain ⟨w', grows, same⟩ := h
  exact ⟨w', grows.toNext, same, grows.fit fits⟩

theorem letsGo {s : Scene} (h : w.scene.LetsGo s) : ∃ w' : Custody root, w.Next w' ∧ w'.scene = s := by
  cases h with
  | nothing => exact ⟨w, .refl w, rfl⟩
  | released known => exact w.release known

/-- Custody is kept up along all runs. -/
def upkeep (root : CtxId) (own : Fault → Prop) : Upkeep where
  toWorlds := worlds root own
  lawful := lawful_grasp
  lasts := Next.lasts
  enters := enters
  may_of_plain plain stray := by cases plain.symm.trans stray
  shows {w _} := w.shows
  rooted {w _} hc lost := by
    cases lost.symm.trans (w.secured.isWorld_root (w.secured.alive hc).1)
  entered _ _ := rfl
  left {w w₁ holds N N'} hh next held fits fits' := by
    obtain ⟨w', next', same, still⟩ := leave next
    have lasting := ((fits.held held (enters holds w)).lasts (Next.lasts next)).fit w₁.lawful_grasp
    refine ⟨w', next', same, fun honest => honest.enter fun hold mem => ?_,
      still _ (Names.fit_append.mpr ⟨fits', lasting⟩)⟩
    exact lies_of_mayHold (hh hold mem)
  letGo := letsGo
  scopeOpened {w _} hc := (w.update (w.secured.alive hc).1 Context.gentle_push nofun).onward
  scopeClosed {w _ _} hc fits :=
    (w.update (w.secured.alive hc).1 Context.gentle_pop nofun).gives fits
  cellAdded {w _} hv := (w.addCell hv).onward
  varDeclared {w c cell} hc hv _ := by
    obtain ⟨w', grows, same⟩ := w.bindNew (w.secured.alive hc).1 hv
    refine ⟨w', grows.toNext, same, fun _ => ?_⟩
    have store : w'.store = w.store.bindNew c cell := congrArg Scene.store same
    show w'.realm.Cell _
    rw [grows.realm, store]
    refine .inr ⟨Nat.le_refl _, ?_⟩
    rw [Store.bindNew, Store.modifyGraph, Store.addCell, Array.size_push]
    exact Nat.lt_succ_self _
  funcDeclared {w _} decl hc _ :=
    (w.update (w.secured.alive hc).1 (Context.gentle_bindFunc decl) nofun).onward
  classDeclared {w _} decl hc _ := (w.update (w.secured.closed.root (w.secured.alive hc).1)
    (Context.gentle_addClass decl) nofun).onward
  moduleNamed {w _} name hc := (w.update (w.secured.closed.root (w.secured.alive hc).1)
    (Context.gentle_setModuleName name) nofun).onward
  closureMade {w} _ hc := w.makeClosure.gives
    (fit_value.mpr (Value.within_closure.mpr (w.secured.alive hc)))
  written {w _ _ _} hi _ replaces fits := (w.setValue hi.1 replaces.fits).gives fits
  counted {w _} n counter _ := (w.setValue counter (Value.within_int n)).onward
  copied {w _ _ _ _} hv copied := by
    obtain ⟨w', grows, same, within⟩ := w.copy hv copied
    exact ⟨w', grows.toNext, same, fit_value.mpr within⟩
  Prepares w callee _ := w.Prepares callee
  begun {w callee args} may := by
    refine w.begin_call callee args ?_
    cases callee with
    | func f => exact w.secured.alive may
    | closure cl => exact Value.within_closure.mp may
    | «class» decl world => exact w.secured.alive may
  ownParam {w callee _ c s param v} h hv := by
    obtain ⟨w₁, call, rfl⟩ := h
    let cell : TreeScript.Cell := ⟨param.name, v, param.attrs.withoutRef⟩
    have within : cell.value.Within (w₁.realm.Alive w₁.store) :=
      Value.Within.mono hv fun _ => call.grows.alive_realm
    obtain ⟨w₂, grows, same⟩ := w₁.addCell within
    have added : w₂.store = (w₁.store.addCell cell).2 := congrArg Scene.store same
    have call₂ := call.trans grows
    refine ⟨⟨w₂, call₂, same⟩, fun _ => ?_⟩
    have bound := call₂.prepares (w₂.bindParam callee w₂.store param.name call₂.ctx.1
      (grows.sure_new added within))
    rw [same, added] at bound
    exact bound
  refParam {w callee _ c s param _ i} h _ _ _ hi _ := by
    obtain ⟨w₁, call, rfl⟩ := h
    exact call.prepares (w₁.bindParam callee w₁.store param.name call.ctx.1
      (call.grows.sure_realm hi))
  methodDeclared {w _ _ world c s method} h _ := by
    obtain ⟨w₁, call, rfl⟩ := h
    exact call.prepares (w₁.update call.ctx.1 (Context.gentle_bindFunc method) nofun)
  callRefused _ h := by
    obtain ⟨w₁, call, same⟩ := h
    exact ⟨w₁, call.grows.toNext, same⟩
  called {w callee _ c s} _ h := by
    obtain ⟨w₁, call, rfl⟩ := h
    refine ⟨w₁.enter _, rfl, call.enter.1, fun w₂ N next fits => ?_⟩
    obtain ⟨w₃, next₃, same, still⟩ := leave next
    exact ⟨w₃, call.grows.toNext.trans next₃, same, call.enter.2, still N fits⟩
  buildRefused {w _ _ _ c s} h := by
    obtain ⟨w₁, call, rfl⟩ := h
    obtain ⟨w₂, grows, same⟩ := w₁.update call.ctx.1 Context.gentle_dropArguments nofun
    exact ⟨w₂, call.grows.toNext.trans grows.toNext, same⟩
  built {w _ _ _ c s} h := by
    obtain ⟨w₁, call, rfl⟩ := h
    refine ⟨w₁.enter _, rfl, call.enter.1, fun w₂ next => ?_⟩
    obtain ⟨w₃, next₃, same, still⟩ := leave next
    have there := w₂.secured.alive (next.keeps call.enter.1)
    have fits := still (Value.names (.object c)) (fit_value.mpr (Value.within_object.mpr there))
    obtain ⟨w₄, grows, same'⟩ :=
      w₃.update (next₃.contexts c call.ctx.1) Context.gentle_dropArguments nofun
    refine ⟨w₄, (call.grows.toNext.trans next₃).trans grows.toNext, ?_, call.enter.2,
      grows.fit fits⟩
    have store : w₃.store = w₂.store := (congrArg Scene.store same :)
    show w₄.scene = _
    rw [same', store, same]
    rfl
  imported {w c} hc := by
    intro s world
    refine ⟨w.enterModule, rfl, .root rfl (.context List.mem_cons_self (Graph.isLive_add_self _)),
      fun w₂ next => ⟨?_, fun t ht => ?_⟩⟩
    · obtain ⟨w', next', same⟩ := leaveModule next
      exact ⟨w', next', same, Honest.enterModule, Names.fit_none⟩
    · obtain ⟨w₃, next₃, rfl⟩ := letsGo ht
      have next := next.trans next₃
      have there := (w.secured.alive hc).1
      obtain ⟨w', next', same⟩ := leaveModule next
      refine ⟨fun lost => ?_, ⟨w', next', same, Honest.enterModule, Names.fit_none⟩,
        fun name _ => ?_⟩
      · have store : w'.store = w₃.store := (congrArg Scene.store same :)
        have isWorld : w'.store.graph.isWorld (w'.store.graph.root c) = true :=
          w'.secured.isWorld_root (next'.contexts c there)
        rw [store] at isWorld
        cases lost.symm.trans isWorld
      · obtain ⟨w', next', same⟩ := joinModule next there name
        exact ⟨w', next', same, Honest.enterModule, Names.fit_none⟩

end Custody

end TreeScript
