import TreeScript.Proofs.Run.Upkeep

/-!
# Detours

What is kept up comes back from calls, from the building of instances and from imports, however they
end. So it is kept up along all runs, and at all moments of them.
-/
namespace TreeScript

variable {m m' : Machine} {c : CtxId} {i : CellId} {α β : Type}

namespace Run

theorem paramCell_apply (param : Param) (arg : Arg) (m : Machine) :
    Eval.paramCell param arg m =
      match (if param.attrs.isRef then arg.cell else none) with
      | some i => ((fun _ => i) <$>
          ofExcept ((m.store.cell i).value.annotate m.handles param.type)) m
      | none => (ofExcept (arg.value.annotate m.handles param.type) >>= fun v =>
          newCell ⟨param.name, v, param.attrs.withoutRef⟩) m := by
  unfold Eval.paramCell
  cases (if param.attrs.isRef then arg.cell else none) <;> rfl

/-- What a parameter is bound to, unless its annotation is not met: the variable that the argument
names if the parameter is a reference, or else a cell of its own. -/
theorem paramCell_cases (param : Param) (arg : Arg) (m : Machine) :
    (∃ i, Eval.paramCell param arg m = .ok i m ∧ param.attrs.isRef = true ∧ arg.cell = some i) ∨
    (∃ v, Eval.paramCell param arg m = .ok m.store.cells.size { m with
        store := (m.store.addCell ⟨param.name, v, param.attrs.withoutRef⟩).2 } ∧
      arg.value.annotate m.handles param.type = .ok v) ∨
    ∃ fault, Eval.paramCell param arg m = .error (m.raised fault) m ∧
      fault.stray = false := by
  have plain {v : Value} {fault : Fault} (h : v.annotate m.handles param.type = .error fault) :
      fault.stray = false :=
    (Value.gives_annotate (V := fun _ => True) trivial param.type).sound fault h
  rw [paramCell_apply]
  cases hi : (if param.attrs.isRef then arg.cell else none) with
  | some i =>
    have reference : param.attrs.isRef = true ∧ arg.cell = some i := by
      split at hi
      · exact ⟨by assumption, hi⟩
      · cases hi
    dsimp only
    cases ha : (m.store.cell i).value.annotate m.handles param.type with
    | ok v => exact .inl ⟨i, rfl, reference⟩
    | error fault => exact .inr (.inr ⟨fault, rfl, plain ha⟩)
  | none =>
    dsimp only
    cases ha : arg.value.annotate m.handles param.type with
    | ok v => exact .inr (.inl ⟨v, rfl, rfl⟩)
    | error fault => exact .inr (.inr ⟨fault, rfl, plain ha⟩)

end Run

namespace Upkeep

variable {U : Upkeep} {w : U.World} {P : Scene → Prop} {callee : Callee} {args : List Arg}

/-- However a run ends, `P` holds of what it leaves, and it may stop so. -/
structure Leaves (U : Upkeep) (P : Scene → Prop) (x : Run α) (m : Machine) : Prop where
  scene : P (x.after m).scene
  stops : ∀ stop m', x m = .error stop m' → U.MayStop stop

namespace Leaves

variable {x : Run α}

theorem of_ok {a : α} (hx : x m = .ok a m') (h : P m'.scene) : U.Leaves P x m where
  scene := by
    rw [Run.after, hx]
    exact h
  stops stop m₂ he := by cases hx.symm.trans he

theorem of_fault {fault : Fault} (hx : x m = .error (m'.raised fault) m')
    (plain : fault.stray = false) (h : P m'.scene) : U.Leaves P x m where
  scene := by
    rw [Run.after, hx]
    exact h
  stops stop m₂ he := by
    cases hx.symm.trans he
    exact mayStop_plain plain

theorem bind {k : α → Run β} (h : U.Leaves P x m)
    (hk : ∀ a m', x m = .ok a m' → P m'.scene → U.Leaves P (k a) m') : U.Leaves P (x >>= k) m := by
  cases hx : x m with
  | ok a m' =>
    have scene := h.scene
    rw [Run.after, hx] at scene
    have rest := hk a m' hx scene
    refine ⟨Run.after_bind_ok k hx ▸ rest.scene, fun stop m₂ he => rest.stops stop m₂ ?_⟩
    rwa [Run.bind_apply, hx] at he
  | error stop m' =>
    have scene := h.scene
    rw [Run.after, hx] at scene
    refine ⟨Run.after_bind_error k hx ▸ scene, fun stop₂ m₂ he => ?_⟩
    rw [Run.bind_apply, hx] at he
    cases he
    exact h.stops stop m' hx

theorem declare {d : Declaration}
    (plain : ∀ fault, d.obstacle? m.store.graph = some fault → fault.stray = false)
    (refused : P m.scene)
    (declared : d.obstacle? m.store.graph = none →
      P { m.scene with store := m.store.modifyGraph d.apply }) : U.Leaves P (Run.declare d) m := by
  have run := Run.declare_apply d m
  cases hd : d.obstacle? m.store.graph with
  | none =>
    rw [hd] at run
    exact of_ok run (declared hd)
  | some fault =>
    rw [hd] at run
    exact of_fault run (plain fault hd) refused

theorem ends (h : U.Leaves P x m) : Run.Ends x m (fun _ m' => P m'.scene) fun _ => True :=
  .of_after (fun _ => h.scene) trivial

end Leaves

theorem leaves_param {param : Param} {arg : Arg} {bind : String → CellId → Run Unit}
    (hbind : ∀ name i m, bind name i m = Run.declare (callee.binding m.store c name i) m)
    (h : U.Prepares w callee args c m.scene) (given : (param, arg) ∈ callee.params.zip args)
    (fits : U.Fits w arg.names) :
    U.Leaves (U.Prepares w callee args c) (Eval.paramCell param arg >>= bind param.name) m := by
  have binding (i : CellId) (m' : Machine) (before : U.Prepares w callee args c m'.scene)
      (after : (callee.binding m'.store c param.name i).obstacle? m'.store.graph = none →
        U.Prepares w callee args c { m'.scene with
          store := m'.store.modifyGraph (callee.binding m'.store c param.name i).apply }) :
      U.Leaves (U.Prepares w callee args c) (bind param.name i) m' := by
    have run : U.Leaves (U.Prepares w callee args c)
        (Run.declare (callee.binding m'.store c param.name i)) m' :=
      .declare (fun _ => Declaration.plain_binding) before after
    refine ⟨?_, fun stop m₂ he => run.stops stop m₂ ((hbind _ _ _).symm.trans he)⟩
    rw [Run.after, hbind]
    exact run.scene
  rcases Run.paramCell_cases param arg m with
    ⟨i, run, isRef, cell⟩ | ⟨v, run, annotated⟩ | ⟨fault, run, plain⟩
  · refine .bind (.of_ok run h) fun i' m' he _ => ?_
    cases run.symm.trans he
    have hi : i ∈ arg.cell.toList := by simp [cell]
    exact binding i m h fun free => U.refParam h given isRef cell (fits.cells i hi) free
  · have hv := (Value.gives_annotate (fits.values arg.value List.mem_cons_self) param.type).result
      v annotated
    obtain ⟨refused, bound⟩ := U.ownParam h hv
    refine .bind (.of_ok run refused) fun i' m' he _ => ?_
    cases run.symm.trans he
    exact binding _ _ refused bound
  · exact .bind (.of_fault run plain h) fun i' m' he _ => by cases run.symm.trans he

theorem bindCell_eq (code : callee.IsCode) (name : String) (i : CellId) (m : Machine) :
    Run.bindCell c name i m = Run.declare (callee.binding m.store c name i) m := by
  cases callee with
  | func | closure => rfl
  | «class» => exact code.elim

/-- The parameters of a call are bound one after the other. -/
theorem leaves_params {bind : String → CellId → Run Unit}
    (hbind : ∀ name i m, bind name i m = Run.declare (callee.binding m.store c name i) m) :
    ∀ {m : Machine} (params : List Param) (args' : List Arg), U.Prepares w callee args c m.scene →
      (∀ given ∈ params.zip args', given ∈ callee.params.zip args) → U.Fits w (argNames args') →
      U.Leaves (U.Prepares w callee args c) (Eval.bindParams bind params args') m
  | m, [], _, h, _, _ => .of_ok rfl h
  | m, _ :: _, [], h, _, _ => .of_ok rfl h
  | m, param :: params, arg :: args', h, given, fits => by
    obtain ⟨fitsArg, fitsArgs⟩ := fit_argNames_cons.mp fits
    obtain ⟨given, others⟩ := List.forall_mem_cons.mp given
    rw [Eval.bindParams, ← bind_assoc]
    exact .bind (leaves_param hbind h given fitsArg) fun _ m' _ h' =>
      leaves_params hbind params args' h' others fitsArgs

theorem leaves_methods {decl : ClassDecl} {world : CtxId} :
    ∀ {m : Machine} (methods : List FuncDecl), U.Prepares w (.class decl world) args c m.scene →
      U.Leaves (U.Prepares w (.class decl world) args c) (Eval.declareMethods c methods) m
  | m, [], h => .of_ok rfl h
  | m, method :: rest, h => by
    refine .bind (.declare (fun _ => Declaration.plain_ofFunc) h (U.methodDeclared h))
      fun _ m' _ h' => leaves_methods rest h'

namespace Accounts

variable {w₁ : U.World} {μ : α → Names} {ν : β → Names} {x y : Run α}

/-- Work that comes after preparations. -/
theorem after_leaves {p : Run β} {k l : β → Run α} (h : U.Leaves P p m)
    (refused : ∀ s, P s → U.Reaches w s)
    (rest : ∀ b m', p m = .ok b m' → P m'.scene → Accounts U w μ (k b) (l b) m') :
    Accounts U w μ (p >>= k) (p >>= l) m := by
  cases hp : p m with
  | ok b m' =>
    have scene := h.scene
    rw [Run.after, hp] at scene
    have run (k : β → Run α) : (p >>= k) m = k b m' := by rw [Run.bind_apply, hp]
    exact of_eq (run k) (run l) (rest b m' hp scene)
  | error stop m' =>
    have scene := h.scene
    rw [Run.after, hp] at scene
    have run (k : β → Run α) : (p >>= k) m = .error stop m' := by rw [Run.bind_apply, hp]
    exact of_error (run k) (run l) (refused _ scene) (h.stops stop m' hp)

/-- Preparations, and work that comes after them, with something undone in the end. -/
theorem undoing {p : Run β} {k l : β → Run α} {undo : Machine → Machine} (h : U.Leaves P p m)
    (refused : ∀ m', P m'.scene → U.Reaches w (undo m').scene)
    (rest : ∀ b m', P m'.scene → Accounts U w μ ((k b).ensuring undo) ((l b).ensuring undo) m') :
    Accounts U w μ ((p >>= k).ensuring undo) ((p >>= l).ensuring undo) m := by
  cases hp : p m with
  | ok b m' =>
    have scene := h.scene
    rw [Run.after, hp] at scene
    have run (k : β → Run α) : (p >>= k).ensuring undo m = (k b).ensuring undo m' := by
      rw [Run.ensuring, Run.bind_apply, hp]
      rfl
    exact of_eq (run k) (run l) (rest b m' scene)
  | error stop m' =>
    have scene := h.scene
    rw [Run.after, hp] at scene
    have run (k : β → Run α) : (p >>= k).ensuring undo m = .error stop (undo m') := by
      rw [Run.ensuring, Run.bind_apply, hp]
    exact of_error (run k) (run l) (refused m' scene) (h.stops stop m' hp)

theorem begun {kind : ContextKind} {k l : CtxId → Run α} (hm : m.scene = U.scene w)
    (hk : kind = callee.kind args) (may : (U.grasp w).MayCall callee)
    (h : ∀ m', U.Prepares w callee args m.store.graph.size m'.scene → m'.held = m.held →
      Accounts U w μ (k m.store.graph.size) (l m.store.graph.size) m') :
    Accounts U w μ (Run.newContext kind >>= k) (Run.newContext kind >>= l) m := by
  subst hk
  have run (k : CtxId → Run α) : (Run.newContext (callee.kind args) >>= k) m =
      k m.store.graph.size { m with store := (m.store.addContext (callee.kind args)).2 } := rfl
  refine of_eq (run k) (run l) (h _ ?_ rfl)
  have begun := @Upkeep.begun U w callee args may
  rwa [← hm] at begun

theorem callWith {k l : CtxId → Run α} (hm : m.scene = U.scene w)
    (code : callee.IsCode) (may : (U.grasp w).MayCall callee) (fits : U.Fits w (argNames args))
    (h : ∀ c m' w', m'.scene = U.scene w' → U.Kept w' c → Accounts U w' μ (k c) (l c) m') :
    Accounts U w μ (Eval.callWith callee args k) (Eval.callWith callee args l) m := by
  refine begun hm rfl may fun m₁ prepares _ => ?_
  refine after_leaves (leaves_params (bindCell_eq code) callee.params args prepares (fun _ => id)
    fits) (fun s => U.callRefused code) fun _ m₂ _ prepared => ?_
  obtain ⟨w₁, scene, hc, returns⟩ := U.called code prepared
  have run (x : Run α) (holds : List Hold) : Run.holding holds x m₂ =
      x.ensuring (fun after => { after with held := m₂.held })
        { m₂ with held := holds ++ m₂.held } := rfl
  refine of_eq (run _ _) (run _ _) ((h _ _ w₁ scene.symm hc).detour ?_ ?_)
  · intro m₃ w₃ next hm₃
    have back := returns w₃ .none next Names.fit_none
    rwa [← hm₃] at back
  · intro a m₃ w₃ next hm₃ ha
    have back := returns w₃ (μ a) next ha
    rwa [← hm₃] at back

theorem instantiateWith {decl : ClassDecl} {world : CtxId}
    {k l : CtxId → Run Unit} (hm : m.scene = U.scene w) (hw : U.Kept w world)
    (fits : U.Fits w (argNames args))
    (h : ∀ c m' w', m'.scene = U.scene w' → U.Kept w' c →
      Accounts U w' (fun _ => .none) (k c) (l c) m') :
    Accounts U w Value.names (Eval.instantiateWith decl world args k)
      (Eval.instantiateWith decl world args l) m := by
  have may : (U.grasp w).MayCall (.class decl world) := hw
  refine begun hm rfl may fun m₁ prepares _ => ?_
  refine bind (μ := fun _ => Value.names (.object m.store.graph.size)) ?_
    fun _ m' w' _ hm' made => of_ok rfl ⟨w', U.next_refl w', hm'.symm, made⟩
  have hbind (name : String) (i : CellId) (m : Machine) {c : CtxId} :
      Run.declare (.ofArgument c name i) m =
        Run.declare ((Callee.class decl world).binding m.store c name i) m := rfl
  refine undoing (leaves_params (fun name i m => hbind name i m) decl.params args prepares
    (fun _ => id) fits) (fun m' prepared => U.buildRefused prepared) fun _ m₂ prepared => ?_
  refine undoing (leaves_methods decl.methods prepared) (fun m' prepared => U.buildRefused prepared)
    fun _ m₃ prepared => ?_
  obtain ⟨w₁, scene, hc, returns⟩ := U.built prepared
  have run (x : Run Unit) (holds : List Hold) (undo : Machine → Machine) :
      (Run.holding holds x).ensuring undo m₃ =
        x.ensuring (fun after => undo { after with held := m₃.held })
          { m₃ with held := holds ++ m₃.held } := by
    simp only [Run.holding, Run.ensuring]
    cases x { m₃ with held := holds ++ m₃.held } <;> rfl
  refine of_eq (run _ _ _) (run _ _ _) ((h _ _ w₁ scene.symm hc).detour ?_ ?_)
  · intro m₄ w₄ next hm₄
    obtain ⟨w', next', same, silent, -⟩ := returns w₄ next
    rw [← hm₄] at same
    exact ⟨w', next', same, silent, Names.fit_none⟩
  · intro a m₄ w₄ next hm₄ _
    have back := returns w₄ next
    rwa [← hm₄] at back

theorem importWith {config : Config} {path : String} {k l : Program → CtxId → Run Unit}
    (loads : ∀ loader ∈ config.loader, ∀ tree path fault,
      loader tree path = .error fault → U.May fault)
    (hm : m.scene = U.scene w) (hc : U.Kept w c)
    (h : ∀ code world m' w', m'.scene = U.scene w' → U.Kept w' world →
      Accounts U w' (fun _ => .none) (k code world) (l code world) m') :
    Accounts U w (fun _ => .none) (Eval.importWith config path c k)
      (Eval.importWith config path c l) m := by
  rcases Eval.importWith_cases config path c m with ⟨fault, refused, known⟩ | ⟨code, run⟩
  · refine stopped hm (mayStop_raised ?_) (refused k) (refused l)
    rcases known with plain | ⟨loader, hl, failed⟩
    · exact U.may_of_plain plain
    · exact loads loader hl _ _ _ failed
  · have rule := U.imported hc
    rw [← hm] at rule
    obtain ⟨w₁, scene, hw, returns⟩ := rule
    obtain ⟨w₂, next₂, ended, agree⟩ := h code m.store.graph.size (m.forModule path) w₁ scene.symm hw
    obtain ⟨failed, naming⟩ := returns w₂ next₂
    have left : ∃ w', U.Next w w' ∧
        U.Ended w' (fun _ => .none) (Eval.importCode path c m.store.graph.size m.held
          (l code m.store.graph.size) (m.forModule path)) ∧
        (U.Silent w w' → U.Silent w₁ w₂) := by
      cases hl : l code m.store.graph.size (m.forModule path) with
      | error stop m₂ =>
        rw [hl] at ended
        obtain ⟨w', next, same, silent, -⟩ := failed
        refine ⟨w', next, ?_, silent⟩
        rw [← ended.1] at same
        rw [Eval.importCode_error hl]
        exact ⟨same.symm, ended.2⟩
      | ok _ m₂ =>
        rw [hl] at ended
        obtain ⟨m₃, name, letsGo, named⟩ := Eval.nameImport_cases path c m.store.graph.size
          { m₂ with importing := m₂.importing.tail }
        obtain ⟨may, refused, declared⟩ := naming m₃.scene (ended.1 ▸ letsGo)
        rw [Eval.importCode_ok hl, Run.ensuring, named, Run.declare_apply]
        cases free : (Declaration.ofModule c name m.store.graph.size).obstacle? m₃.store.graph with
        | none =>
          obtain ⟨w', next, same, silent, -⟩ := declared name free
          exact ⟨w', next, ⟨same.symm, Names.fit_none⟩, silent⟩
        | some fault =>
          obtain ⟨w', next, same, silent, -⟩ := refused
          refine ⟨w', next, ⟨same.symm, mayStop_raised ?_⟩, silent⟩
          rcases Declaration.obstacle_ofModule free with plain | ⟨rfl, outside⟩
          · exact U.may_of_plain plain
          · exact may outside
    obtain ⟨w', next, ended, silent⟩ := left
    refine of_eq (run k) (run l) ⟨w', next, ended, fun h => ?_⟩
    simp only [Eval.importCode, Run.ensuring, Run.bind_apply, agree (silent h)]

end Accounts

/-- What is kept up by steps is kept up along all runs. -/
def tracking (U : Upkeep) : Run.Tracking where
  World := U.World
  Next := U.Next
  enter := U.enter
  grasp := U.grasp
  May := U.May
  Loads config := ∀ loader ∈ config.loader, ∀ tree path fault,
    loader tree path = .error fault → U.May fault
  next_refl := U.next_refl
  next_trans := U.next_trans
  lawful := U.lawful
  lasts := U.lasts
  enters := U.enters
  may_of_plain := U.may_of_plain
  Rel w _ _ ν x y := ∀ m : Machine, m.scene = U.scene w → U.Accounts w ν x y m
  blocks_of_clean h := h
  names_of_blocks h := h
  setup_of_names h := h
  pure a fits := fun m hm => .of_ok rfl ⟨_, U.next_refl _, hm.symm, fits⟩
  raise may := fun m hm => .stopped hm (mayStop_raised may) rfl rfl
  panic f v := fun m hm => .stopped hm (mayStop_panicked f v) rfl rfl
  outOfFuel := fun m hm => .stopped hm mayStop_outOfFuel rfl rfl
  look g _ _ h := fun m hm => h m (U.shows hm) m hm
  bind h hk := fun m hm => (h m hm).bind fun a m' w' next hm' fits => hk a w' next fits m' hm'
  locating span h := fun m hm => (h m hm).mapFailure fun _ => Failure.fault_locate span
  holding hh hN fits h := fun m hm => .holding hm hh hN fits <| h _ <| by
    rw [U.entered, ← hm]
    rfl
  inScope hc h := fun m hm => .inScope hm hc fun m' w' next hm' => h w' next m' hm'
  inCall name span h := fun m hm => .inCall hm h
  letGo sought := fun m hm => .letGo sought hm
  callWith code may fits h := fun m hm =>
    .callWith hm code may fits fun c m' w' hm' hc => h c w' hc m' hm'
  instantiateWith hw fits h := fun m hm =>
    .instantiateWith hm hw fits fun c m' w' hm' hc => h c w' hc m' hm'
  editCell {w α κ i f operands} hi ho sound := fun m hm =>
    .editCell hm hi (sound _ (U.grasp w).Val ho _ ((U.shows hm).value i hi))
  count n counter := fun m hm => .count n hm counter
  newClosure {w c} params body hc := fun m hm => by
    let cl : Closure := ⟨m.store.nextClosure, params, body, c⟩
    have made := U.closureMade cl hc
    rw [← hm] at made
    have run : Eval.newClosure params body c m = .ok (.closure cl)
      { m with store := { m.store with nextClosure := m.store.nextClosure + 1 } } := rfl
    exact .of_ok run made
  copy hv := fun m hm => .copy hm hv
  declareNew cell _ _ hc hv h := fun m hm =>
    .declareNew hm hc hv fun i m' w' next hm' counter => h i w' next counter m' hm'
  declareFunc {w c} decl hc := fun m hm => by
    refine .declare hm (fun _ h => U.may_of_plain (Declaration.plain_ofFunc h)) fun free => ?_
    have rule := U.funcDeclared decl hc
    rw [← hm] at rule
    exact rule free
  declareClass {w c} decl hc := fun m hm => by
    have rule := U.classDeclared decl hc
    have rooted := U.rooted hc
    rw [← hm] at rule rooted
    refine .declare hm (fun fault h => ?_) rule
    rcases Declaration.obstacle_ofClass h with plain | ⟨rfl, outside⟩
    · exact U.may_of_plain plain
    · exact (rooted outside).1
  nameModule {w c} name hc := fun m hm => by
    have rule := U.moduleNamed name hc
    rw [← hm] at rule
    have run : Run.modifyGraph (·.nameModule c name) m =
      .ok () { m with store := m.store.modifyGraph (·.nameModule c name) } := rfl
    exact .of_unit run rule
  importWith path _ _ loads hc h := fun m hm =>
    .importWith loads hm hc fun code world m' w' hm' hw => h code world w' hw m' hm'
  onDisk g h := fun m hm => .onDisk hm h
  modifyOutput {w} g := fun m hm => by
    have run : (modify fun m => { m with output := g m.output } : Run Unit) m =
      .ok () { m with output := g m.output } := rfl
    exact .of_unit run (show U.Reaches w m.scene from hm ▸ .refl w)
  nextLine := fun m hm => .nextLine hm

variable {μ : α → Names} {config : Config} {fuel : Nat} {watch : CtxId → Run Unit} {x y : Run α}

/-- The observer does nothing where he is to be silent. -/
def Unheard (U : Upkeep) (watch : CtxId → Run Unit) : Prop :=
  ∀ c w w' m, U.Next w w' → U.Silent w w' → U.Kept w c → m.scene = U.scene w →
    watch c m = .ok () m

theorem Accounts.watching (unheard : U.Unheard watch) (hm : m.scene = U.scene w) (hc : U.Kept w c)
    (h : Accounts U w μ x y m) : Accounts U w μ (Run.watching (watch c) x) y m := by
  obtain ⟨w', next, ended, agree⟩ := h
  refine ⟨w', next, ended, fun silent => ?_⟩
  have same := agree silent
  have behind : (x.after m).scene = U.scene w' := by
    rw [Run.after, same]
    cases hy : y m <;>
    · rw [hy] at ended
      exact ended.1
  have last := U.silent_between silent next (U.next_refl w') (U.next_refl w')
  rw [Run.watching_apply (unheard c w w' m next silent hc hm)
    (unheard c w' w' _ (U.next_refl w') last ((U.lasts next).kept hc) behind), same]

theorem watched_relates (loads : U.tracking.Loads config) (watch : CtxId → Run Unit)
    (unheard : U.Unheard watch) (fuel : Nat) :
    U.tracking.Relates (watched config watch fuel) (evaluator config fuel) :=
  Run.Tracking.watched_relates (T := U.tracking) loads watch
    (fun hc related m hm => (related m hm).watching unheard hm hc) fuel

variable {f : Footprint} {kept : List CtxId} {names : Names} {run : Evaluator → Run α}

/-- A run that the upkeep relates to itself ends at the scene of a later world, and may stop there if
it stops. -/
theorem ends_of_related {run : Evaluator → Run α} (loads : U.tracking.Loads config) (fuel : Nat)
    (hm : m.scene = U.scene w)
    (related : ∀ {ev₁ ev₂ : Evaluator}, U.tracking.Relates ev₁ ev₂ →
      U.tracking.Rel w f μ (run ev₁) (run ev₂)) :
    ∃ w', U.Next w w' ∧ U.Ended w' μ (run (evaluator config fuel) m) := by
  have evaluators :=
    watched_relates (U := U) loads (fun _ => pure ()) (fun _ _ _ _ _ _ _ _ => rfl) fuel
  obtain ⟨w', next, ended, -⟩ := related evaluators m hm
  exact ⟨w', next, ended⟩

/-- What the run of an evaluator begins with is there. -/
structure Begins (U : Upkeep) (w : U.World) (kept : List CtxId) (names : Names) (m : Machine) :
    Prop where
  scene : m.scene = U.scene w
  kept : ∀ c ∈ kept, U.Kept w c
  fits : U.Fits w names

theorem ends_of_tracked (tracked : Run.Tracked f kept names μ run) (loads : U.tracking.Loads config)
    (fuel : Nat) (begins : U.Begins w kept names m) :
    ∃ w', U.Next w w' ∧ U.Ended w' μ (run (evaluator config fuel) m) :=
  ends_of_related loads fuel begins.scene fun evaluators =>
    tracked U.tracking w evaluators begins.kept begins.fits

/-- What holds in all worlds that a run passes through holds at every moment of it. -/
theorem throughout_of_tracked {P : CtxId → Machine → Prop}
    (tracked : Run.Tracked f kept names μ run) (loads : U.tracking.Loads config)
    (begins : U.Begins w kept names m)
    (hP : ∀ c w₁ w₂ m', U.Next w₁ w₂ → U.Silent w₁ w₂ → U.Kept w₁ c → m'.scene = U.scene w₁ →
      P c m')
    (silent : ∀ w', U.Next w w' →
      ((run (evaluator config fuel)).after m).scene = U.scene w' → U.Silent w w') :
    Throughout config fuel P run m := by
  intro watch hwatch
  have related := watched_relates (U := U) loads watch
    (fun c w₁ w₂ m' next h hc hm' => hwatch c m' (hP c w₁ w₂ m' next h hc hm')) fuel
  obtain ⟨w', next, ended, agree⟩ := tracked U.tracking w related begins.kept begins.fits m
    begins.scene
  refine agree (silent w' next ?_)
  rw [Run.after]
  cases hy : run (evaluator config fuel) m <;>
  · rw [hy] at ended
    exact ended.1

end Upkeep

end TreeScript
