import TreeScript.Proofs.Machine.Region
import TreeScript.Proofs.Run.Moment

/-!
# What is kept up along runs

Most trackings keep something up step by step. Their worlds are each of one scene, which is what code
can reach of a machine. Whatever a machine does at a scene leads from a world to a later one, and
where a run makes a detour, for a scope, a call or an import, it comes back from any world that the
detour may end in. What the steps keep up is kept up along all runs: this is one tracking.
-/
namespace TreeScript

variable {m m' : Machine} {c : CtxId} {i : CellId} {α β : Type}

/-- What code can reach of a machine: the store, and what is held. -/
structure Scene where
  store : Store
  held : List Hold
  outside : Option (List Hold)

def Machine.scene (m : Machine) : Scene := ⟨m.store, m.held, m.outside⟩

namespace Scene

abbrev graph (s : Scene) : Graph := s.store.graph

/-- What letting go may make of a scene. -/
inductive LetsGo (s : Scene) : Scene → Prop where
  | nothing : s.LetsGo s
  | released {outside : List Hold} (known : s.outside = some outside) :
      s.LetsGo { s with store := s.store.release (s.held ++ outside) }

namespace LetsGo

variable {s t : Scene}

theorem held (h : s.LetsGo t) : t.held = s.held := by cases h <;> rfl

theorem outside (h : s.LetsGo t) : t.outside = s.outside := by cases h <;> rfl

theorem store {P : Store → Prop} (h : s.LetsGo t) (same : P s.store)
    (released : ∀ holds, P (s.store.release holds)) : P t.store := by
  cases h with
  | nothing => exact same
  | released known => exact released _

end LetsGo

end Scene

/-- How a call binds a parameter to a cell: an instance gets constructor arguments, any other context
variables. -/
def Callee.binding (callee : Callee) (s : Store) (c : CtxId) (name : String) (i : CellId) :
    Declaration :=
  match callee with
  | .class .. => .ofArgument c name i
  | .func _ | .closure _ => .ofVar c name (s.cell i).name i

namespace Declaration

variable {g : Graph} {fault : Fault}

theorem plain_ofVar {name cellName : String} (h : (ofVar c name cellName i).obstacle? g = some fault) :
    fault.stray = false := by
  unfold ofVar at h
  dsimp only at h
  split at h
  · cases h
    rfl
  · cases h

theorem plain_ofFunc {func : Func} (h : (ofFunc c func).obstacle? g = some fault) :
    fault.stray = false := by
  unfold ofFunc at h
  dsimp only at h
  split at h
  · cases h
    rfl
  · cases h

theorem plain_ofArgument {name : String} (h : (ofArgument c name i).obstacle? g = some fault) :
    fault.stray = false := by
  unfold ofArgument at h
  dsimp only at h
  split at h
  · obtain ⟨-, -, rfl⟩ := Option.map_eq_some_iff.mp h
    rfl
  · cases h
    rfl

theorem plain_binding {callee : Callee} {s : Store} {name : String}
    (h : (callee.binding s c name i).obstacle? g = some fault) : fault.stray = false := by
  cases callee with
  | func | closure => exact plain_ofVar h
  | «class» => exact plain_ofArgument h

/-- The only fault of a class declaration that is not plain tells that the World is gone. -/
theorem obstacle_ofClass {decl : ClassDecl} (h : (ofClass c decl).obstacle? g = some fault) :
    fault.stray = false ∨ fault = .classOutsideWorld ∧ g.isWorld (g.root c) = false := by
  unfold ofClass at h
  dsimp only at h
  split at h
  · obtain ⟨-, -, rfl⟩ := Option.map_eq_some_iff.mp h
    exact .inl rfl
  · rename_i outside
    cases h
    exact .inr ⟨rfl, Bool.not_eq_true _ ▸ outside⟩

theorem obstacle_ofModule {name : String} {world : CtxId}
    (h : (ofModule c name world).obstacle? g = some fault) :
    fault.stray = false ∨ fault = .importOutsideWorld ∧ g.isWorld (g.root c) = false := by
  unfold ofModule at h
  dsimp only at h
  split at h
  · obtain ⟨-, -, rfl⟩ := Option.map_eq_some_iff.mp h
    exact .inl rfl
  · rename_i outside
    cases h
    exact .inr ⟨rfl, Bool.not_eq_true _ ▸ outside⟩

end Declaration

theorem CallStack.plain_push {s : CallStack} {frame : CallFrame} {fault : Fault}
    (h : s.push frame = .error fault) : fault.stray = false := by
  unfold CallStack.push at h
  split at h
  · cases h
  · split at h
    · cases h
      rfl
    · cases h

theorem CallStack.fault_attach (calls : CallStack) (e : Failure) : (calls.attach e).fault = e.fault := by
  unfold CallStack.attach Failure.trace
  split
  · rfl
  · split <;> rfl

theorem Cell.plain_checkWrite {cell : Cell} {beingRead : Bool} {fault : Fault}
    (h : cell.checkWrite beingRead = .error fault) : fault.stray = false := by
  unfold Cell.checkWrite at h
  split at h
  · cases h
    rfl
  · split at h
    · cases h
      rfl
    · cases h

/-- A failure keeps its fault when it is told where and in which calls it was raised. -/
theorem Failure.fault_locate (span : Span) (e : Failure) : (e.locate span).fault = e.fault := by
  unfold Failure.locate
  split
  · rfl
  · split <;> rfl

namespace Eval

theorem nameImport_cases (path : String) (c world : CtxId) (m : Machine) :
    ∃ m' name, m.scene.LetsGo m'.scene ∧
      nameImport path c world m = Run.declare (.ofModule c name world) m' := by
  let name := (m.store.graph.moduleName? world).getD ((Files.stem? path).getD path)
  have run : nameImport path c world m =
      (Run.letGo (·.origin c) >>= fun _ => Run.declare (.ofModule c name world)) m := rfl
  rw [run, Run.bind_apply]
  rcases Run.letGo_apply (·.origin c) m with h | ⟨outside, known, h⟩
  · exact ⟨m, name, .nothing, by rw [h]⟩
  · exact ⟨{ m with store := m.store.release (m.held ++ outside) }, name, .released known, by rw [h]⟩

variable {path : String} {world : CtxId} {held : List Hold} {x : Run Unit}

theorem importCode_ok (h : x m = .ok () m') : importCode path c world held x m =
    (nameImport path c world).ensuring (fun m => { m with held })
      { m' with importing := m'.importing.tail } := by
  simp only [importCode, Run.ensuring, Run.bind_apply, h]

theorem importCode_error {stop : Stop} (h : x m = .error stop m') :
    importCode path c world held x m =
      .error stop { m' with importing := m'.importing.tail, held } := by
  simp only [importCode, Run.ensuring, Run.bind_apply, h]

end Eval

/-- Worlds, each of one scene, and what runs have got hold of in them. -/
structure Worlds where
  World : Type
  scene : World → Scene
  /-- The second world is the first one or later, with the same things held. -/
  Next : World → World → Prop
  /-- The world with more held. -/
  enter : List Hold → World → World
  grasp : World → Grasp
  /-- A fault that may be raised. -/
  May : Fault → Prop
  /-- What an observer is told on the way from one world to another leaves him silent. -/
  Silent : World → World → Prop
  next_refl (w : World) : Next w w
  next_trans {w w' w'' : World} : Next w w' → Next w' w'' → Next w w''
  silent_between {w w₁ w₂ w' : World} : Silent w w' → Next w w₁ → Next w₁ w₂ → Next w₂ w' →
    Silent w₁ w₂

namespace Worlds

variable {W : Worlds} {w w₁ w₂ w' : W.World}

/-- Some later world is of the scene. -/
def Reaches (W : Worlds) (w : W.World) (s : Scene) : Prop := ∃ w', W.Next w w' ∧ W.scene w' = s

/-- Some later world is of the scene, and what is named is in hand there. -/
def Gives (W : Worlds) (w : W.World) (N : Names) (s : Scene) : Prop :=
  ∃ w', W.Next w w' ∧ W.scene w' = s ∧ N.Fit (W.grasp w')

/-- Coming back from a detour between two worlds: a later world is of the scene, and what is named is
in hand there. -/
def Returns (W : Worlds) (w w₁ w₂ : W.World) (N : Names) (s : Scene) : Prop :=
  ∃ w', W.Next w w' ∧ W.scene w' = s ∧ (W.Silent w w' → W.Silent w₁ w₂) ∧ N.Fit (W.grasp w')

/-- A run may stop so: if it has failed, its fault may be raised. -/
def MayStop (W : Worlds) (stop : Stop) : Prop := ∀ e raised, stop = .failed e raised → W.May e.fault

/-- A run ends at the scene of the world, with what it gives in hand there, or it may stop there. -/
def Ended (W : Worlds) (w : W.World) (ν : α → Names) : EStateM.Result Stop Machine α → Prop
  | .ok a m => m.scene = W.scene w ∧ (ν a).Fit (W.grasp w)
  | .error stop m => m.scene = W.scene w ∧ W.MayStop stop

theorem Reaches.refl (w : W.World) : W.Reaches w (W.scene w) := ⟨w, W.next_refl w, rfl⟩

theorem Gives.reaches {N : Names} {s : Scene} (h : W.Gives w N s) : W.Reaches w s := by
  obtain ⟨w', next, same, -⟩ := h
  exact ⟨w', next, same⟩

end Worlds

/-- Worlds that are kept up by all that runs are made of. -/
structure Upkeep extends Worlds where
  lawful (w : World) : (grasp w).Lawful
  lasts {w w' : World} : Next w w' → (grasp w).Lasts (grasp w')
  enters (holds : List Hold) (w : World) : (grasp w).Enters holds (grasp (enter holds w))
  may_of_plain {fault : Fault} : fault.stray = false → May fault
  shows {w : World} {m : Machine} : m.scene = scene w → m.Shows (grasp w) May
  /-- Code that has lost its World is told so only if it may be. -/
  rooted {w : World} {c : CtxId} : (grasp w).Kept c →
    (scene w).graph.isWorld ((scene w).graph.root c) = false →
      May .classOutsideWorld ∧ May .importOutsideWorld
  entered (holds : List Hold) (w : World) :
    scene (enter holds w) = { scene w with held := holds ++ (scene w).held }
  /-- What is held meanwhile is still in hand when it is let go. -/
  left {w w₁ : World} {holds : List Hold} {N N' : Names} : (∀ hold ∈ holds, (grasp w).MayHold hold) →
    Next (enter holds w) w₁ → N.HeldBy holds → N.Fit (grasp w) → N'.Fit (grasp w₁) →
      toWorlds.Returns w (enter holds w) w₁ (N' ++ N) { scene w₁ with held := (scene w).held }
  letGo {w : World} {s : Scene} : (scene w).LetsGo s → toWorlds.Reaches w s
  scopeOpened {w : World} {c : CtxId} : (grasp w).Kept c →
    toWorlds.Reaches w { scene w with store := (scene w).store.modifyGraph (·.pushScope c) }
  scopeClosed {w : World} {c : CtxId} {N : Names} : (grasp w).Kept c → N.Fit (grasp w) →
    toWorlds.Gives w N { scene w with store := (scene w).store.modifyGraph (·.popScope c) }
  cellAdded {w : World} {cell : Cell} : (grasp w).Val cell.value →
    toWorlds.Reaches w { scene w with store := ((scene w).store.addCell cell).2 }
  varDeclared {w : World} {c : CtxId} {cell : Cell} : (grasp w).Kept c → (grasp w).Val cell.value →
    (Declaration.ofVar c cell.name cell.name (scene w).store.cells.size).obstacle? (scene w).graph =
      none →
    ∃ w', Next w w' ∧ scene w' = { scene w with store := (scene w).store.bindNew c cell } ∧
      (cell.value.kind = .int → (grasp w').Counter (scene w).store.cells.size)
  funcDeclared {w : World} {c : CtxId} (decl : FuncDecl) : (grasp w).Kept c →
    (Declaration.ofFunc c ⟨decl, c⟩).obstacle? (scene w).graph = none →
    toWorlds.Reaches w { scene w with
      store := (scene w).store.modifyGraph (Declaration.ofFunc c ⟨decl, c⟩).apply }
  classDeclared {w : World} {c : CtxId} (decl : ClassDecl) : (grasp w).Kept c →
    (Declaration.ofClass c decl).obstacle? (scene w).graph = none →
    toWorlds.Reaches w { scene w with
      store := (scene w).store.modifyGraph (Declaration.ofClass c decl).apply }
  moduleNamed {w : World} {c : CtxId} (name : String) : (grasp w).Kept c →
    toWorlds.Reaches w { scene w with store := (scene w).store.modifyGraph (·.nameModule c name) }
  closureMade {w : World} (cl : Closure) : (grasp w).Kept cl.captured →
    toWorlds.Gives w cl.names
      { scene w with store := { (scene w).store with nextClosure := (scene w).store.nextClosure + 1 } }
  written {w : World} {i : CellId} {v : Value} {N : Names} : (grasp w).Cell i →
    ((scene w).store.cell i).checkWrite false = .ok () →
    Value.Replaces (handlesOf (scene w).graph #[]) (grasp w).Val ((scene w).store.cell i).value v →
    N.Fit (grasp w) → toWorlds.Gives w N { scene w with store := (scene w).store.setValue i v }
  counted {w : World} {i : CellId} (n : Int64) : (grasp w).Counter i →
    ((scene w).store.cell i).checkWrite false = .ok () →
    toWorlds.Reaches w { scene w with store := (scene w).store.setValue i (.int n) }
  copied {w : World} {depth : Nat} {v v' : Value} {t : Store} : (grasp w).Val v →
    (scene w).store.copy depth v = some (v', t) →
    toWorlds.Gives w v'.names { scene w with store := t }
  /-- Since the world a context has come about in which a call of the callee with the arguments is
  being prepared. -/
  Prepares : World → Callee → List Arg → CtxId → Scene → Prop
  begun {w : World} {callee : Callee} {args : List Arg} : (grasp w).MayCall callee →
    Prepares w callee args (scene w).graph.size
      { scene w with store := ((scene w).store.addContext (callee.kind args)).2 }
  /-- A parameter gets a cell of its own, with the value of the argument. -/
  ownParam {w : World} {callee : Callee} {args : List Arg} {c : CtxId} {s : Scene} {param : Param}
    {v : Value} : Prepares w callee args c s → (grasp w).Val v →
    let t := (s.store.addCell ⟨param.name, v, param.attrs.withoutRef⟩).2
    let d := callee.binding t c param.name s.store.cells.size
    Prepares w callee args c { s with store := t } ∧
      (d.obstacle? t.graph = none →
        Prepares w callee args c { s with store := t.modifyGraph d.apply })
  /-- A reference takes the variable that the argument names. -/
  refParam {w : World} {callee : Callee} {args : List Arg} {c : CtxId} {s : Scene} {param : Param}
    {arg : Arg} {i : CellId} : Prepares w callee args c s → (param, arg) ∈ callee.params.zip args →
    param.attrs.isRef = true → arg.cell = some i → (grasp w).Cell i →
    let d := callee.binding s.store c param.name i
    d.obstacle? s.graph = none →
      Prepares w callee args c { s with store := s.store.modifyGraph d.apply }
  methodDeclared {w : World} {decl : ClassDecl} {args : List Arg} {world c : CtxId} {s : Scene}
    {method : FuncDecl} : Prepares w (.class decl world) args c s →
    (Declaration.ofFunc c ⟨method, c⟩).obstacle? s.graph = none →
    Prepares w (.class decl world) args c { s with
      store := s.store.modifyGraph (Declaration.ofFunc c ⟨method, c⟩).apply }
  /-- A call that cannot be prepared to the end. -/
  callRefused {w : World} {callee : Callee} {args : List Arg} {c : CtxId} {s : Scene} :
    callee.IsCode → Prepares w callee args c s → toWorlds.Reaches w s
  /-- A call that has been prepared. -/
  called {w : World} {callee : Callee} {args : List Arg} {c : CtxId} {s : Scene} :
    callee.IsCode → Prepares w callee args c s →
    ∃ w₁, scene w₁ = { s with held := [.context callee.owner, .context c] ++ s.held } ∧
      (grasp w₁).Kept c ∧ ∀ w₂ N, Next w₁ w₂ → N.Fit (grasp w₂) →
        toWorlds.Returns w w₁ w₂ N { scene w₂ with held := s.held }
  buildRefused {w : World} {decl : ClassDecl} {args : List Arg} {world c : CtxId} {s : Scene} :
    Prepares w (.class decl world) args c s →
    toWorlds.Reaches w { s with store := s.store.modifyGraph (·.clearArguments c) }
  built {w : World} {decl : ClassDecl} {args : List Arg} {world c : CtxId} {s : Scene} :
    Prepares w (.class decl world) args c s →
    ∃ w₁, scene w₁ = { s with held := [.context world, .context c] ++ s.held } ∧
      (grasp w₁).Kept c ∧ ∀ w₂, Next w₁ w₂ →
        toWorlds.Returns w w₁ w₂ (Value.names (.object c))
          { scene w₂ with held := s.held, store := (scene w₂).store.modifyGraph (·.clearArguments c) }
  /-- A module runs in a World of its own. Then the World of the importer comes to know it, unless
  that is refused. -/
  imported {w : World} {c : CtxId} : (grasp w).Kept c →
    let s := scene w
    let world := s.graph.size
    ∃ w₁, scene w₁ = { s with
        store := (s.store.addContext .emptyWorld).2, held := .context world :: s.held } ∧
      (grasp w₁).Kept world ∧ ∀ w₂, Next w₁ w₂ →
        toWorlds.Returns w w₁ w₂ .none { scene w₂ with held := s.held } ∧
        ∀ t, (scene w₂).LetsGo t →
          (t.graph.isWorld (t.graph.root c) = false → May .importOutsideWorld) ∧
          toWorlds.Returns w w₁ w₂ .none { t with held := s.held } ∧
          ∀ name, (Declaration.ofModule c name world).obstacle? t.graph = none →
            toWorlds.Returns w w₁ w₂ .none { t with
              held := s.held, store := t.store.modifyGraph (Declaration.ofModule c name world).apply }

namespace Upkeep

variable {U : Upkeep} {w w₁ w₂ : U.World} {μ : α → Names} {ν : β → Names} {x y : Run α}

/-- All that something names is in hand. -/
abbrev Fits (U : Upkeep) (w : U.World) (N : Names) : Prop := N.Fit (U.grasp w)

abbrev Kept (U : Upkeep) (w : U.World) : CtxId → Prop := (U.grasp w).Kept

/-- On a machine at the scene of a world a run ends at the scene of a later one. Another run does the
same if the observer is silent on the way. -/
def Accounts (U : Upkeep) (w : U.World) (ν : α → Names) (x y : Run α) (m : Machine) : Prop :=
  ∃ w', U.Next w w' ∧ U.Ended w' ν (y m) ∧ (U.Silent w w' → x m = y m)

instance (U : Upkeep) (w : U.World) : Value.Hereditary (U.grasp w).Val := (U.lawful w).val

theorem mayStop_raised {fault : Fault} (may : U.May fault) : U.MayStop (m.raised fault) := by
  rintro e raised ⟨⟩
  exact may

theorem mayStop_panicked (f : FileId) (v : Value) : U.MayStop (.panicked f v) := by
  rintro e raised ⟨⟩

theorem mayStop_outOfFuel : U.MayStop .outOfFuel := by
  rintro e raised ⟨⟩

theorem mayStop_plain {fault : Fault} (plain : fault.stray = false) : U.MayStop (m.raised fault) :=
  mayStop_raised (U.may_of_plain plain)

namespace Accounts

/-- A run that gives a result. -/
theorem of_ok {a : α} (hx : x m = .ok a m') (gives : U.Gives w (μ a) m'.scene) :
    Accounts U w μ x x m := by
  obtain ⟨w', next, same, fits⟩ := gives
  refine ⟨w', next, ?_, fun _ => rfl⟩
  rw [hx]
  exact ⟨same.symm, fits⟩

/-- A run that gives nothing to get hold of. -/
theorem of_unit {a : α} (hx : x m = .ok a m') (reached : U.Reaches w m'.scene) :
    Accounts U w (fun _ => .none) x x m := by
  obtain ⟨w', next, same⟩ := reached
  exact of_ok hx ⟨w', next, same, Names.fit_none⟩

theorem of_error {stop : Stop} (hx : x m = .error stop m') (hy : y m = .error stop m')
    (reached : U.Reaches w m'.scene) (may : U.MayStop stop) : Accounts U w μ x y m := by
  obtain ⟨w', next, same⟩ := reached
  refine ⟨w', next, ?_, fun _ => hx.trans hy.symm⟩
  rw [hy]
  exact ⟨same.symm, may⟩

/-- A run that stops at once. -/
theorem stopped {stop : Stop} (hm : m.scene = U.scene w) (may : U.MayStop stop)
    (hx : x m = .error stop m) (hy : y m = .error stop m) : Accounts U w μ x y m :=
  of_error hx hy (hm ▸ .refl w) may

theorem of_eq {x' y' : Run α} (hx : x m = x' m') (hy : y m = y' m')
    (h : Accounts U w μ x' y' m') : Accounts U w μ x y m := by
  obtain ⟨w', next, ended, agree⟩ := h
  rw [← hy] at ended
  rw [← hx, ← hy] at agree
  exact ⟨w', next, ended, agree⟩

/-- Moving on before the rest. -/
theorem first {x' y' : Run α} (hx : x m = x' m') (hy : y m = y' m')
    (reached : U.Reaches w m'.scene)
    (rest : ∀ w', U.Next w w' → m'.scene = U.scene w' → Accounts U w' μ x' y' m') :
    Accounts U w μ x y m := by
  obtain ⟨w₁, next₁, same⟩ := reached
  obtain ⟨w₂, next₂, ended, agree⟩ := rest w₁ next₁ same.symm
  exact of_eq hx hy ⟨w₂, U.next_trans next₁ next₂, ended,
    fun silent => agree (U.silent_between silent next₁ next₂ (U.next_refl w₂))⟩

theorem bind {k l : α → Run β} (h : Accounts U w μ x y m)
    (hk : ∀ a m' w', U.Next w w' → m'.scene = U.scene w' → U.Fits w' (μ a) →
      Accounts U w' ν (k a) (l a) m') : Accounts U w ν (x >>= k) (y >>= l) m := by
  obtain ⟨w₁, next₁, ended, agree⟩ := h
  cases hy : y m with
  | error stop m' =>
    rw [hy] at ended
    refine ⟨w₁, next₁, ?_, fun silent => ?_⟩
    · rw [Run.bind_apply, hy]
      exact ended
    · rw [Run.bind_apply, Run.bind_apply, agree silent, hy]
  | ok a m' =>
    rw [hy] at ended
    obtain ⟨w₂, next₂, ended₂, agree₂⟩ := hk a m' w₁ next₁ ended.1 ended.2
    refine ⟨w₂, U.next_trans next₁ next₂, ?_, fun silent => ?_⟩
    · rw [Run.bind_apply, hy]
      exact ended₂
    · have before := U.silent_between silent (U.next_refl w) next₁ next₂
      have behind := U.silent_between silent next₁ next₂ (U.next_refl w₂)
      rw [Run.bind_apply, Run.bind_apply, agree before, hy]
      exact agree₂ behind

theorem mapFailure {g : Machine → Failure → Failure} (hg : ∀ m e, (g m e).fault = e.fault)
    (h : Accounts U w μ x y m) : Accounts U w μ (x.mapFailure g) (y.mapFailure g) m := by
  obtain ⟨w', next, ended, agree⟩ := h
  refine ⟨w', next, ?_, fun silent => ?_⟩
  · cases hy : y m with
    | ok a m' =>
      rw [hy] at ended
      simp only [Run.mapFailure, hy]
      exact ended
    | error stop m' =>
      rw [hy] at ended
      simp only [Run.mapFailure, hy]
      refine ⟨ended.1, fun e raised he => ?_⟩
      cases stop with
      | outOfFuel | panicked => cases he
      | failed e' =>
        cases he
        rw [hg]
        exact ended.2 e' _ rfl
  · simp only [Run.mapFailure, agree silent]

/-- Coming back to where one is. -/
theorem returns_self {N : Names} (next : U.Next w w₂) (hm : m.scene = U.scene w₂)
    (fits : U.Fits w₂ N) : U.Returns w w w₂ N m.scene :=
  ⟨w₂, next, hm.symm, id, fits⟩

/-- A detour: work in another world after which something is undone. -/
theorem detour {μ' : α → Names} {back : Machine → Machine} (h : Accounts U w₁ μ x y m')
    (stops : ∀ m₂ w₂, U.Next w₁ w₂ → m₂.scene = U.scene w₂ →
      U.Returns w w₁ w₂ .none (back m₂).scene)
    (ends : ∀ a m₂ w₂, U.Next w₁ w₂ → m₂.scene = U.scene w₂ → U.Fits w₂ (μ a) →
      U.Returns w w₁ w₂ (μ' a) (back m₂).scene) :
    Accounts U w μ' (x.ensuring back) (y.ensuring back) m' := by
  obtain ⟨w₂, next₂, ended, agree⟩ := h
  have same (silent : U.Silent w₁ w₂) : x.ensuring back m' = y.ensuring back m' := by
    simp only [Run.ensuring, agree silent]
  cases hy : y m' with
  | ok a m₂ =>
    rw [hy] at ended
    obtain ⟨w', next, left, silent, fits⟩ := ends a m₂ w₂ next₂ ended.1 ended.2
    refine ⟨w', next, ?_, fun h => same (silent h)⟩
    simp only [Run.ensuring, hy]
    exact ⟨left.symm, fits⟩
  | error stop m₂ =>
    rw [hy] at ended
    obtain ⟨w', next, left, silent, -⟩ := stops m₂ w₂ next₂ ended.1
    refine ⟨w', next, ?_, fun h => same (silent h)⟩
    simp only [Run.ensuring, hy]
    exact ⟨left.symm, ended.2⟩

theorem holding {N : Names} {holds : List Hold} (hm : m.scene = U.scene w)
    (hh : ∀ hold ∈ holds, (U.grasp w).MayHold hold) (hN : N.HeldBy holds) (fits : U.Fits w N)
    (h : Accounts U (U.enter holds w) μ x y { m with held := holds ++ m.held }) :
    Accounts U w (fun a => μ a ++ N) (Run.holding holds x) (Run.holding holds y) m := by
  let back (m₂ : Machine) : Machine := { m₂ with held := m.held }
  have left {m₂ : Machine} {w₂ : U.World} (hm₂ : m₂.scene = U.scene w₂) :
      (back m₂).scene = { U.scene w₂ with held := (U.scene w).held } := by
    rw [← hm₂, ← hm]
    rfl
  have run (x : Run α) :
      Run.holding holds x m = x.ensuring back { m with held := holds ++ m.held } := rfl
  refine of_eq (run x) (run y) (h.detour (fun m₂ w₂ next hm₂ => ?_) fun a m₂ w₂ next hm₂ ha => ?_)
  · rw [left hm₂]
    exact U.left hh next Names.heldBy_none Names.fit_none Names.fit_none
  · rw [left hm₂]
    exact U.left hh next hN fits ha

theorem inCall {name : String} {span : Span} (hm : m.scene = U.scene w)
    (h : ∀ m', m'.scene = U.scene w → Accounts U w μ x y m') :
    Accounts U w μ (Run.inCall name span x) (Run.inCall name span y) m := by
  cases hp : m.calls.push ⟨name, some span⟩ with
  | error fault =>
    have refused (x : Run α) : Run.inCall name span x m = .error (m.raised fault) m := by
      rw [Run.inCall_apply, hp]
    exact stopped hm (mayStop_plain (CallStack.plain_push hp)) (refused x) (refused y)
  | ok calls =>
    have entered (x : Run α) := Run.inCall_apply name span x m
    simp only [hp] at entered
    have inner := (h { m with calls } hm).mapFailure
      (g := fun m e => (m.calls.attach e).locate span) fun m e => by
        rw [Failure.fault_locate, CallStack.fault_attach]
    refine of_eq (entered x) (entered y) (inner.detour (fun m₂ w₂ next hm₂ => ?_)
      fun a m₂ w₂ next hm₂ ha => ?_)
    · exact returns_self next hm₂ Names.fit_none
    · exact returns_self next hm₂ ha

theorem inScope (hm : m.scene = U.scene w) (hc : U.Kept w c)
    (h : ∀ m' w', U.Next w w' → m'.scene = U.scene w' → Accounts U w' μ x y m') :
    Accounts U w μ (Run.inScope c x) (Run.inScope c y) m := by
  have run (x : Run α) : Run.inScope c x m =
      (x.ensuring fun m => { m with store := m.store.modifyGraph (·.popScope c) })
        { m with store := m.store.modifyGraph (·.pushScope c) } := rfl
  have opened := U.scopeOpened hc
  rw [← hm] at opened
  refine first (run x) (run y) opened fun w₁ next₁ hm₁ => ?_
  have closed {m₂ : Machine} {w₂ : U.World} {N : Names} (next₂ : U.Next w₁ w₂)
      (hm₂ : m₂.scene = U.scene w₂) (fits : U.Fits w₂ N) : U.Returns w₁ w₁ w₂ N
        ({ m₂ with store := m₂.store.modifyGraph (·.popScope c) } : Machine).scene := by
    have hc₂ := (U.lasts next₂).kept ((U.lasts next₁).kept hc)
    obtain ⟨w₃, next₃, same, fits⟩ := U.scopeClosed hc₂ fits
    rw [← hm₂] at same
    exact ⟨w₃, U.next_trans next₂ next₃, same,
      fun silent => U.silent_between silent (U.next_refl w₁) next₂ next₃, fits⟩
  exact (h _ w₁ next₁ hm₁).detour (fun m₂ w₂ next₂ hm₂ => closed next₂ hm₂ Names.fit_none)
    fun a m₂ w₂ next₂ hm₂ ha => closed next₂ hm₂ ha

theorem letGo (sought : Graph → CtxId) (hm : m.scene = U.scene w) :
    Accounts U w (fun _ => .none) (Run.letGo sought) (Run.letGo sought) m := by
  rcases Run.letGo_apply sought m with h | ⟨outside, known, h⟩
  · exact of_unit h (hm ▸ .refl w)
  · refine of_unit h (U.letGo ?_)
    rw [← hm]
    exact .released known

theorem declare {d : Declaration} (hm : m.scene = U.scene w)
    (refused : ∀ fault, d.obstacle? m.store.graph = some fault → U.May fault)
    (h : d.obstacle? m.store.graph = none →
      U.Reaches w { m.scene with store := m.store.modifyGraph d.apply }) :
    Accounts U w (fun _ => .none) (Run.declare d) (Run.declare d) m := by
  have run := Run.declare_apply d m
  cases hd : d.obstacle? m.store.graph with
  | none =>
    rw [hd] at run
    exact of_unit run (h hd)
  | some fault =>
    rw [hd] at run
    exact stopped hm (mayStop_raised (refused fault hd)) run run

theorem editCell {κ : α → List Value} {f : Handles → Edit α} (hm : m.scene = U.scene w)
    (hi : (U.grasp w).Cell i)
    (outcome : Edit.Outcome m.handles (U.grasp w).Val (fun a => ∀ v ∈ κ a, (U.grasp w).Val v)
      (m.store.cell i).value (f m.handles (m.store.cell i).value)) :
    Accounts U w (fun a => .ofValues (κ a)) (Run.editCell i f) (Run.editCell i f) m := by
  cases writable : (m.store.cell i).checkWrite false with
  | error fault =>
    have refused : Run.editCell i f m = .error (m.raised fault) m := by
      simp only [Run.editCell, writable]
    exact stopped hm (mayStop_plain (Cell.plain_checkWrite writable)) refused refused
  | ok =>
    have given {N : Names} {v : Value} (fits : U.Fits w N)
        (replaces : Value.Replaces m.handles (U.grasp w).Val (m.store.cell i).value v) :
        U.Gives w N { m.scene with store := m.store.setValue i v } := by
      have rule (tag : v.tag (handlesOf (U.scene w).graph #[]) =
          ((U.scene w).store.cell i).value.tag (handlesOf (U.scene w).graph #[]))
          (writable : ((U.scene w).store.cell i).checkWrite false = .ok ()) :=
        U.written hi writable ⟨replaces.fits, tag⟩ fits
      rw [← hm] at rule
      have tag := replaces.tag
      rw [Region.tag_handles, Region.tag_handles] at tag
      exact rule tag writable
    cases he : f m.handles (m.store.cell i).value with
    | ok a new =>
      rw [he] at outcome
      have run : Run.editCell i f m = .ok a { m with store := m.store.setValue i new } := by
        simp only [Run.editCell, writable, he]
      exact of_ok run (given (Names.fit_ofValues.mpr outcome.1) outcome.2)
    | error fault new =>
      rw [he] at outcome
      have run : Run.editCell i f m =
          .error (m.raised fault) { m with store := m.store.setValue i new } := by
        simp only [Run.editCell, writable, he]
      exact of_error run run (given Names.fit_none outcome.2).reaches (mayStop_plain outcome.1)

theorem count (n : Int64) (hm : m.scene = U.scene w) (counter : (U.grasp w).Counter i) :
    Accounts U w (fun _ => .none) (Run.editCell i fun _ => .replace fun _ => .ok (.int n))
      (Run.editCell i fun _ => .replace fun _ => .ok (.int n)) m := by
  have reached (writable : (m.store.cell i).checkWrite false = .ok ()) :
      U.Reaches w { m.scene with store := m.store.setValue i (.int n) } := by
    have rule := U.counted n counter
    rw [← hm] at rule
    exact rule writable
  cases writable : (m.store.cell i).checkWrite false with
  | error fault =>
    have refused : Run.editCell i (fun _ => .replace fun _ => .ok (.int n)) m =
        .error (m.raised fault) m := by
      simp only [Run.editCell, writable]
    exact stopped hm (mayStop_plain (Cell.plain_checkWrite writable)) refused refused
  | ok =>
    have run : Run.editCell i (fun _ => .replace fun _ => .ok (.int n)) m =
        .ok () { m with store := m.store.setValue i (.int n) } := by
      simp only [Run.editCell, writable, Edit.replace]
    exact of_unit run (reached writable)

theorem copy {v : Value} (hm : m.scene = U.scene w) (hv : (U.grasp w).Val v) :
    Accounts U w Value.names (Run.copy v) (Run.copy v) m := by
  cases hc : m.store.copy (m.store.graph.contexts.size + 1) v with
  | none =>
    have endless : Run.copy v m = .error .outOfFuel m := by simp only [Run.copy, hc]
    exact stopped hm mayStop_outOfFuel endless endless
  | some result =>
    obtain ⟨v', t⟩ := result
    have run : Run.copy v m = .ok v' { m with store := t } := by simp only [Run.copy, hc]
    have rule {depth : Nat} (copied : (U.scene w).store.copy depth v = some (v', t)) :=
      U.copied hv copied
    rw [← hm] at rule
    exact of_ok run (rule hc)

theorem declareNew {cell : Cell} {k l : CellId → Run α} (hm : m.scene = U.scene w)
    (hc : U.Kept w c) (hv : (U.grasp w).Val cell.value)
    (h : ∀ i m' w', U.Next w w' → m'.scene = U.scene w' →
      (cell.value.kind = .int → (U.grasp w').Counter i) → Accounts U w' μ (k i) (l i) m') :
    Accounts U w μ (Run.declareNew c cell k) (Run.declareNew c cell l) m := by
  have run (k : CellId → Run α) := Run.declareNew_apply c cell k m
  have added := U.cellAdded hv
  have rule := U.varDeclared hc hv
  rw [← hm] at added rule
  cases free : (Declaration.ofVar c cell.name cell.name m.store.cells.size).obstacle?
    m.store.graph with
  | some fault =>
    simp only [free] at run
    exact of_error (run k) (run l) added (mayStop_plain (Declaration.plain_ofVar free))
  | none =>
    simp only [free] at run
    obtain ⟨w₁, next₁, same, counter⟩ := rule free
    obtain ⟨w₂, next₂, ended, agree⟩ := h m.store.cells.size
      { m with store := m.store.bindNew c cell } w₁ next₁ same.symm counter
    exact of_eq (run k) (run l) ⟨w₂, U.next_trans next₁ next₂, ended,
      fun silent => agree (U.silent_between silent next₁ next₂ (U.next_refl w₂))⟩

/-- What is outside the store and held by nobody. -/
theorem onDisk {κ : α → List Value} {f : Files.Disk → Except Fault α × Files.Disk}
    (hm : m.scene = U.scene w) (h : ∀ d, Gives (fun a => ∀ v ∈ κ a, v.LeadsNowhere) (f d).1) :
    Accounts U w (fun a => .ofValues (κ a)) (Run.onDisk f) (Run.onDisk f) m := by
  have given := h m.disk
  rcases hf : f m.disk with ⟨fault | a, disk⟩
  · rw [hf] at given
    have run : Run.onDisk f m = .error (m.raised fault) { m with disk } := by
      simp only [Run.onDisk, hf]
    exact of_error run run (show U.Reaches w m.scene from hm ▸ .refl w)
      (mayStop_plain (given.sound fault rfl))
  · rw [hf] at given
    have run : Run.onDisk f m = .ok a { m with disk } := by simp only [Run.onDisk, hf]
    refine of_ok run (show U.Gives w _ m.scene from ⟨w, U.next_refl w, hm.symm, ?_⟩)
    exact Names.fit_ofValues.mpr fun v hv => given.result a rfl v hv _

theorem nextLine (hm : m.scene = U.scene w) :
    Accounts U w (fun _ => .none) Run.nextLine Run.nextLine m := by
  have same : U.Reaches w m.scene := hm ▸ .refl w
  cases hi : m.input with
  | nil =>
    have run : Run.nextLine m = .ok none m := by simp only [Run.nextLine, hi]
    exact of_unit run same
  | cons line rest =>
    have run : Run.nextLine m = .ok (some line) { m with input := rest } := by
      simp only [Run.nextLine, hi]
    exact of_unit run same

end Accounts

end Upkeep

end TreeScript
