import TreeScript.Proofs.Context.BindingFrames
import TreeScript.Proofs.Run.Sessions

/-!
# Annotations

A variable that is declared with an annotation meets it, and so do the members of a new instance. A
cell that keeps its type meets the annotations that it met.
-/
namespace TreeScript

variable {config : Config} {fuel : Nat} {start s t u : Store} {m m' : Machine} {c : CtxId}
  {i : CellId} {α : Type}

namespace Store

/-- The cells stay, and what they hold stays of its type: of its kind, and of its class if it is an
instance. -/
structure KeepsTypes (s t : Store) : Prop where
  cells : s.cells.size ≤ t.cells.size
  tags : ∀ i < s.cells.size, t.tag i = s.tag i

/-- The cells of both stores hold values of the same types in both. -/
def SameTypes (s t : Store) : Prop :=
  ∀ i < s.cells.size, i < t.cells.size → t.tag i = s.tag i

/-- The cell holds a value that satisfies the annotation. -/
def Satisfies (s : Store) (i : CellId) (type : TypeAnn) : Prop :=
  (s.cell i).value.hasType (handlesOf s.graph #[]) type = true

theorem KeepsTypes.trans (h : s.KeepsTypes t) (h' : t.KeepsTypes u) : s.KeepsTypes u where
  cells := Nat.le_trans h.cells h'.cells
  tags i hi := (h'.tags i (Nat.lt_of_lt_of_le hi h.cells)).trans (h.tags i hi)

theorem KeepsTypes.sameTypes (h : s.KeepsTypes u) (h' : t.KeepsTypes u) : s.SameTypes t :=
  fun i hs ht => (h'.tags i ht).symm.trans (h.tags i hs)

/-- An annotation says something about types only. -/
theorem satisfies_of_tag {j : CellId} (same : t.tag j = s.tag i) (type : TypeAnn) :
    t.Satisfies j type ↔ s.Satisfies i type := by
  unfold Satisfies
  rw [Value.hasType_of_tag same type]

theorem KeepsTypes.satisfies_iff (h : s.KeepsTypes t) (hi : i < s.cells.size) (type : TypeAnn) :
    t.Satisfies i type ↔ s.Satisfies i type := satisfies_of_tag (h.tags i hi) type

end Store

theorem Ledger.Next.keepsTypes {w w' : Ledger .all start} (h : w.Next w') :
    w.store.KeepsTypes w'.store where
  cells := h.keeps.cells
  tags i hi := h.keeps.tags i ⟨Nat.zero_le i, hi⟩

namespace Graph

variable {g : Graph} {name : String}

/-- What the innermost frame of a context binds a name to. -/
def topVar? (g : Graph) (c : CtxId) (name : String) : Option CellId :=
  (g.scopes? c).bind (·.vars.top.lookup name)

theorem localVar?_of_topVar? (h : g.topVar? c name = some i) : g.localVar? c name = some i := by
  obtain ⟨scopes, hs, hi⟩ := Option.bind_eq_some_iff.mp h
  obtain ⟨ctx, hctx, rfl⟩ := Option.map_eq_some_iff.mp hs
  refine Option.bind_eq_some_iff.mpr ⟨ctx, hctx, ?_⟩
  rw [ScopeStack.get?, ScopeStack.frames, List.findSome?_cons,
    show ctx.vars.top.lookup name = some i from hi]

theorem lt_of_topVar? (h : g.topVar? c name = some i) : c < g.size := by
  obtain ⟨scopes, hs, -⟩ := Option.bind_eq_some_iff.mp h
  obtain ⟨ctx, hctx, -⟩ := Option.map_eq_some_iff.mp hs
  exact lt_of_context? hctx

theorem topVar?_ofVar (cellName : String) (there : c < g.size) :
    ((Declaration.ofVar c name cellName i).apply g).topVar? c name = some i := by
  obtain ⟨scopes, hs⟩ := scopes?_isSome_of_lt there
  rw [topVar?, scopes?_ofVar, hs]
  exact List.lookup_cons_self

/-- A name that is new in its frame hides no other there. -/
theorem topVar?_ofVar_of_free {cellName other : String} {j : CellId}
    (free : (Declaration.ofVar c name cellName i).obstacle? g = none)
    (bound : g.topVar? c other = some j) :
    ((Declaration.ofVar c name cellName i).apply g).topVar? c other = some j := by
  obtain ⟨scopes, hs, hj⟩ := Option.bind_eq_some_iff.mp bound
  have unbound := ofVar_free_iff.mp free scopes hs
  rw [topVar?, scopes?_ofVar, hs]
  show ((name, i) :: scopes.vars.top).lookup other = some j
  rw [List.lookup_cons]
  split
  · rename_i same
    rw [ScopeStack.bindsOnTop, ← eq_of_beq same, hj] at unbound
    cases unbound
  · exact hj

end Graph

namespace Store

variable {name : String} {type : Option TypeAnn} {cell : Cell}

/-- The innermost frame of a context binds a name to a cell that meets the annotation. -/
def Bears (s : Store) (c : CtxId) (name : String) (type : Option TypeAnn) : Prop :=
  ∃ i < s.cells.size, s.graph.topVar? c name = some i ∧ ∀ T ∈ type, s.Satisfies i T

/-- The innermost frame of a context binds all names that it bound, to the same cells. -/
def KeepsNames (c : CtxId) (s t : Store) : Prop :=
  ∀ name i, s.graph.topVar? c name = some i → t.graph.topVar? c name = some i

theorem Bears.mono (h : s.Bears c name type) (names : s.KeepsNames c t) (types : s.KeepsTypes t) :
    t.Bears c name type := by
  obtain ⟨i, hi, bound, met⟩ := h
  exact ⟨i, Nat.lt_of_lt_of_le hi types.cells, names name i bound, fun T hT =>
    (types.satisfies_iff hi T).mpr (met T hT)⟩

theorem KeepsNames.trans (h : s.KeepsNames c t) (h' : t.KeepsNames c u) : s.KeepsNames c u :=
  fun name i bound => h' name i (h name i bound)

theorem keepsNames_bindNew (free : (Declaration.ofVar c cell.name cell.name
    s.cells.size).obstacle? s.graph = none) : s.KeepsNames c (s.bindNew c cell) :=
  fun _ _ bound => Graph.topVar?_ofVar_of_free free bound

/-- A new variable meets the annotation that its value meets. -/
theorem bears_bindNew (hc : c < s.graph.size)
    (met : ∀ T ∈ type, cell.value.hasType (handlesOf s.graph #[]) T = true) :
    (s.bindNew c cell).Bears c cell.name type := by
  refine ⟨s.cells.size, ?_, Graph.topVar?_ofVar cell.name hc, fun T hT => ?_⟩
  · rw [bindNew, modifyGraph, addCell, Array.size_push]
    exact Nat.lt_succ_self _
  · rw [Satisfies, show (s.bindNew c cell).cell s.cells.size = cell from cell_addCell_self s cell,
      ← met T hT]
    refine Value.hasType_of_tag ?_ T
    have classes (d : CtxId) : (s.bindNew c cell).graph.className? d = s.graph.className? d :=
      Region.className?_of_skeleton? (Graph.skeleton?_update _ fun ctx =>
        Declaration.skeleton_recordMember cell.name ctx.kind)
    cases hv : cell.value with
    | object d => simp only [Value.tag, Value.typeName, handlesOf, classes]
    | _ => rfl

end Store

theorem Value.gives_hasType (h : Handles) (v : Value) (type : Option TypeAnn) :
    Gives (fun v' => ∀ T ∈ type, v'.hasType h T = true) (v.annotate h type) := by
  unfold annotate
  split
  · exact .ok fun T hT => by cases hT
  · refine .ok fun T hT => ?_
    cases hT
    rfl
  · split
    · rename_i met
      refine .ok fun T hT => ?_
      cases hT
      exact met
    · exact .error rfl

theorem Machine.SameScopes.keepsNames (h : m.SameScopes m') (hc : c < m.store.graph.size) :
    m.store.KeepsNames c m'.store := by
  intro name i bound
  rw [Graph.topVar?, h c hc]
  exact bound

namespace Run

variable {w : Ledger .all start} {names : Names} {ν : α → Names} {run : Evaluator → Run α}

/-- A run under account, of code in a context, that changes no scope. -/
theorem Tracked.ends_clean (tracked : Tracked .clean [c] .none ν run) (config : Config)
    (fuel : Nat) (hm : m.store = w.store) (hc : c < m.store.graph.size) :
    Ends (run (evaluator config fuel)) m
      (fun a m' => m.SameScopes m' ∧ ∃ w', w.Next w' ∧ m'.store = w'.store ∧ w'.Fits (ν a))
      fun _ => True := by
  have kept := (agree_of_rel (tracked.logical _ (Logic.evaluator_relates _ config fuel))
    (m := m) (by rintro _ ⟨⟩)).kept.sameScopes rfl
  obtain ⟨w', next, ends⟩ := tracked.ends config fuel hm (Eval.kept_context hm hc) Names.fit_none
  rw [Ends] at ends ⊢
  rw [after] at kept
  cases hr : run (evaluator config fuel) m with
  | ok a m' =>
    rw [hr] at ends kept
    exact ⟨kept, w', next, ends⟩
  | error stop m' => trivial

/-- A check that a value meets an annotation. -/
def Checks (type : Option TypeAnn) (check : Value → Run Value) : Prop :=
  ∀ v m, v.Within (Region.all.Ctx m.store) →
    Ends (check v) m
      (fun v' m' => m' = m ∧ v'.Within (Region.all.Ctx m.store) ∧
        ∀ T ∈ type, v'.hasType (handlesOf m.store.graph #[]) T = true)
      fun _ => True

theorem checks_annotate (type : Option TypeAnn) :
    Checks type fun v => (do Run.ofExcept (v.annotate (← Run.handles) type)) := by
  intro v m hv
  have run : (do Run.ofExcept (v.annotate (← Run.handles) type) : Run Value) m =
      Run.ofExcept (v.annotate m.handles type) m := rfl
  dsimp only
  rw [Ends, run]
  cases he : v.annotate m.handles type with
  | error fault => trivial
  | ok v' =>
    refine ⟨rfl, (Value.gives_annotate hv type).result v' he, fun T hT => ?_⟩
    rw [← Value.hasType_of_tag (Region.tag_handles v' m) T]
    exact (Value.gives_hasType m.handles v type).result v' he T hT

theorem ends_declareVar {cell : Cell} {type : Option TypeAnn} (hm : m.store = w.store)
    (hc : c < m.store.graph.size) (hv : cell.value.Within (Region.all.Ctx m.store))
    (met : ∀ T ∈ type, cell.value.hasType (handlesOf m.store.graph #[]) T = true) :
    Ends (declareVar c cell) m
      (fun _ m' => (∃ w', w.Next w' ∧ m'.store = w'.store) ∧ m.store.KeepsNames c m'.store ∧
        m'.store.Bears c cell.name type)
      fun _ => True := by
  have run : declareVar c cell = declareNew c cell fun _ => Pure.pure () := by
    simp [declareVar, declareNew]
  rw [Ends, run, declareNew_apply]
  cases free : (Declaration.ofVar c cell.name cell.name m.store.cells.size).obstacle?
    m.store.graph with
  | some fault => trivial
  | none =>
    obtain ⟨w', next, same⟩ := w.bindNew (Nat.zero_le c) (hm ▸ hv) (hm ▸ free)
    refine ⟨⟨w', next, ?_⟩, Store.keepsNames_bindNew free, Store.bears_bindNew hc met⟩
    rw [same, hm]

end Run

namespace Eval

variable {w : Ledger .all start}

/-- A declaration with an annotation: the value is evaluated, checked and bound. -/
theorem ends_declare {name : String} {type : Option TypeAnn} {e : Expr} {attrs : Attrs}
    {check : Value → Run Value} (checks : Run.Checks type check) (hm : m.store = w.store)
    (hc : c < m.store.graph.size) :
    Run.Ends
      (do
        let v ← (evaluator config fuel).expr e c
        let v ← check v
        Run.declareVar c ⟨name, v, attrs⟩)
      m
      (fun _ m' => (∃ w', w.Next w' ∧ m'.store = w'.store) ∧ m.store.KeepsNames c m'.store ∧
        m'.store.Bears c name type)
      fun _ => True := by
  have value := Run.Tracked.ends_clean (tracked_expr e c) config fuel hm hc
  refine value.bind fun v m₁ ⟨scopes, w₁, next₁, hm₁, hv⟩ => ?_
  have hc₁ : c < m₁.store.graph.size := by
    rw [hm₁]
    exact next₁.there (hm ▸ hc)
  refine (checks v m₁ (hm₁ ▸ fit_value.mp hv)).bind fun v' m₂ ⟨same, within, met⟩ => ?_
  obtain rfl := same
  let cell : Cell := ⟨name, v', attrs⟩
  have declared := Run.ends_declareVar (c := c) hm₁ hc₁ (show cell.value.Within _ from within) met
  refine declared.mono (fun _ m' ⟨⟨w₂, next₂, hm₂⟩, names, bears⟩ => ?_) fun _ _ => trivial
  exact ⟨⟨w₂, next₁.trans next₂, hm₂⟩, (scopes.keepsNames hc).trans names, bears⟩

/-- A `let` that succeeds leaves a variable that meets its annotation. -/
theorem ends_let {s : Stmt} {name : String} {type : Option TypeAnn} {e : Expr} {attrs : Attrs}
    (hs : s.node = .letVar name type e attrs) (hm : m.store = w.store)
    (hc : c < m.store.graph.size) :
    Run.Ends ((evaluator config fuel).stmt s c) m (fun _ m' => m'.store.Bears c name type)
      fun _ => True := by
  cases fuel with
  | zero => trivial
  | succ fuel =>
    have whole : (evaluator config (fuel + 1)).stmt s c =
        Run.locating s.span (stmtNode config (evaluator config fuel) s.node c) := rfl
    rw [whole, hs]
    refine .mapFailure _ (silently_ends ?_)
    exact (ends_declare (Run.checks_annotate type) hm hc).mono (fun _ _ ⟨_, _, bears⟩ => bears)
      fun _ _ => trivial

/-- Initialises one member. -/
def initMember (ev : Evaluator) (c : CtxId) (member : MemberDecl) : Run Unit := do
  let v ← ev.expr member.value c
  let v ← Run.locating member.span do
    Run.ofExcept (v.annotate (← Run.handles) member.type)
  Run.declareVar c ⟨member.name, v, member.attrs⟩

theorem initMembers_cons (ev : Evaluator) (c : CtxId) (member : MemberDecl)
    (rest : List MemberDecl) :
    initMembers ev c (member :: rest) =
      initMember ev c member >>= fun _ => initMembers ev c rest := by
  simp only [initMembers, initMember, bind_assoc]

/-- Every member of an instance meets its annotation. -/
theorem ends_initMembers : ∀ members {w : Ledger .all start} {m : Machine}, m.store = w.store →
    c < m.store.graph.size →
    Run.Ends (initMembers (evaluator config fuel) c members) m
      (fun _ m' => (∃ w', w.Next w' ∧ m'.store = w'.store) ∧ m.store.KeepsNames c m'.store ∧
        ∀ member ∈ members, m'.store.Bears c member.name member.type)
      fun _ => True
  | [], w, m, hm, _ => ⟨⟨w, .refl w, hm⟩, fun _ _ h => h, nofun⟩
  | member :: rest, w, m, hm, hc => by
    have checks : Run.Checks member.type fun v =>
        (Run.locating member.span do Run.ofExcept (v.annotate (← Run.handles) member.type)) :=
      fun v m hv => (Run.checks_annotate member.type v m hv).mapFailure _
    rw [initMembers_cons]
    refine (ends_declare checks hm hc).bind
      fun _ m₁ ⟨⟨w₁, next₁, hm₁⟩, names₁, bears₁⟩ => ?_
    have hc₁ : c < m₁.store.graph.size := by
      rw [hm₁]
      exact next₁.there (hm ▸ hc)
    refine (ends_initMembers rest hm₁ hc₁).mono
      (fun _ m' ⟨⟨w', next, hm'⟩, names, bears⟩ => ?_) fun _ _ => trivial
    refine ⟨⟨w', next₁.trans next, hm'⟩, names₁.trans names, ?_⟩
    rw [List.forall_mem_cons]
    refine ⟨bears₁.mono names ?_, bears⟩
    rw [hm₁, hm']
    exact next.keepsTypes

theorem tracked_callFunc (func : Func) (span : Span) :
    Run.Tracked .clean [func.owner] .none Value.names (callFunc · func [] span) :=
  fun _ _ _ _ h kept _ => Run.Tracking.callFunc h func [] span (kept _ List.mem_cons_self)
    fit_argNames_nil

/-- The constructor of the class leaves the members, of their types. -/
theorem ends_construct {decl : ClassDecl} {span : Span} (hm : m.store = w.store)
    (hc : c < m.store.graph.size) :
    Run.Ends (construct (evaluator config fuel) c decl span) m
      (fun _ m' => ∃ w', w.Next w' ∧ m'.store = w'.store ∧
        ∀ member ∈ decl.members, m'.store.Bears c member.name member.type)
      fun _ => True := by
  refine (ends_initMembers decl.members hm hc).bind fun _ m₁ ⟨⟨w₁, next₁, hm₁⟩, _, bears⟩ => ?_
  have hc₁ : Region.all.Ctx m₁.store c := by
    rw [hm₁]
    exact ⟨Nat.zero_le c, next₁.there (hm ▸ hc)⟩
  refine .graph ?_
  cases hf : m₁.store.graph.localFunc? c "constructor" with
  | none => exact ⟨w₁, next₁, hm₁, bears⟩
  | some func =>
    have closed : Region.all.Closed m₁.store := hm₁ ▸ w₁.closed
    have ho := (closed.localFunc? hc₁ hf).2
    have called := Run.Tracked.ends_clean (tracked_callFunc func span) config fuel hm₁ ho
    refine Run.Ends.bind called fun _ m₂ ⟨scopes, w₂, next₂, hm₂, _⟩ => ?_
    refine ⟨w₂, next₁.trans next₂, hm₂, fun member hmember => ?_⟩
    refine (bears member hmember).mono (scopes.keepsNames hc₁.2) ?_
    rw [hm₁, hm₂]
    exact next₂.keepsTypes

end Eval

/-- A call may be made with the arguments: the owner of the callee is there, and so is what the
arguments name. -/
structure Machine.MayCall (m : Machine) (callee : Callee) (args : List Arg) : Prop where
  owner : callee.owner < m.store.graph.size
  values : ∀ arg ∈ args, arg.value.Within (Region.all.Ctx m.store)
  named : ∀ arg ∈ args, ∀ i, arg.cell = some i →
    ∃ c name, c < m.store.graph.size ∧ m.store.graph.var? c name = some i

/-- All that the arguments name is in hand. -/
theorem Machine.MayCall.begins {callee : Callee} {args : List Arg} (h : m.MayCall callee args)
    {w : Ledger .all start} (hm : m.store = w.store) : w.Fits (argNames args) := by
  have shows := w.shows hm
  refine ⟨fun v hv => ?_, fun i hi => ?_⟩
  · obtain ⟨arg, harg, rfl⟩ := List.mem_map.mp hv
    have there := h.values arg harg
    rw [hm] at there
    exact there
  · obtain ⟨arg, harg, hi⟩ := List.mem_flatMap.mp hi
    obtain ⟨c, name, hc, bound⟩ := h.named arg harg i (Option.mem_toList.mp hi)
    exact shows.var ⟨Nat.zero_le c, hm ▸ hc⟩ bound

/-- The instance has the member, and its value meets the annotation. -/
def Store.HasMember (s : Store) (o : CtxId) (member : MemberDecl) : Prop :=
  ∃ i < s.cells.size, s.graph.member? o member.name = some i ∧
    ∀ T ∈ member.type, s.Satisfies i T

namespace Eval

variable {w : Ledger .all start}

theorem checkArity_ends (name : String) (params : List Param) (args : List Arg) :
    Run.Ends (checkArity name params args) m (fun _ m' => m' = m) fun _ => True := by
  unfold checkArity
  split
  · rfl
  · trivial

/-- The constructor arguments go, the members stay. -/
theorem hasMember_clearArguments {o world : CtxId} {decl : ClassDecl} {member : MemberDecl}
    {args : List Arg} (call : w.AtCall (.class decl world) args o)
    (bears : w.store.Bears o member.name member.type) :
    (w.store.modifyGraph (·.clearArguments o)).HasMember o member := by
  obtain ⟨w', next, same⟩ := w.update call.ctx.1 Context.harmless_dropArguments
    (.step (.argumentsCleared o))
  have names : w.store.KeepsNames o (w.store.modifyGraph (·.clearArguments o)) := by
    intro name i bound
    have scopes : (w.store.graph.clearArguments o).scopes? o = w.store.graph.scopes? o :=
      Graph.scopes?_update_same _ fun _ => rfl
    rw [Graph.topVar?, show (w.store.modifyGraph (·.clearArguments o)).graph.scopes? o = _
      from scopes]
    exact bound
  have types := next.keepsTypes
  rw [same] at types
  obtain ⟨i, hi, bound, met⟩ := bears.mono names types
  have object : (w.store.graph.clearArguments o).isObject o = true := by
    have skeleton := (call.next next).skeleton
    rw [same] at skeleton
    obtain ⟨kind, hk, hs⟩ := Option.map_eq_some_iff.mp skeleton
    change (w.store.graph.clearArguments o).kind? o = some kind at hk
    rw [Graph.isObject, hk, Option.any_some, ← Graph.isObject_skeleton, hs]
    rfl
  refine ⟨i, hi, ?_, met⟩
  rw [Graph.member?, show (w.store.modifyGraph (·.clearArguments o)).graph.isObject o = true
    from object, if_pos rfl]
  exact Graph.localVar?_of_topVar? bound

/-- A new instance has all members of its class, and they meet their annotations. -/
theorem ends_instantiate {decl : ClassDecl} {world : CtxId} {args : List Arg} {span : Span}
    (hm : m.store = w.store) (may : m.MayCall (.class decl world) args) :
    Run.Ends (instantiate (evaluator config fuel) decl world args span) m
      (fun v m' => ∃ o, v = .object o ∧ m.store.graph.size ≤ o ∧
        ∀ member ∈ decl.members, m'.store.HasMember o member)
      fun _ => True := by
  refine (checkArity_ends decl.name decl.params args).bind fun _ m₀ same => ?_
  obtain rfl := same
  refine .newContext (.bind (P := fun _ m' => ∀ member ∈ decl.members,
    m'.store.HasMember m₀.store.graph.size member) (.ensuring ?_) fun _ m' has =>
      ⟨_, rfl, Nat.le_refl _, has⟩)
  let U := Ledger.upkeep fun _ : Ledger .all start => True
  let W : U.World := ⟨w, m₀.held, m₀.outside⟩
  obtain ⟨w₁, next₁, added, call⟩ :=
    w.begin_call (.class decl world) args ⟨Nat.zero_le world, hm ▸ may.owner⟩
  rw [← hm] at added call
  -- the constructor arguments and the methods make no members
  let kind := (Callee.class decl world).kind args
  have begun : U.Prepares W (.class decl world) args m₀.store.graph.size
      ⟨(m₀.store.addContext kind).2, m₀.held, m₀.outside⟩ := ⟨w₁, next₁, added, call⟩
  have params := Upkeep.leaves_params (U := U) (w := W)
    (m := { m₀ with store := (m₀.store.addContext kind).2 })
    (fun _ _ _ => rfl) decl.params args begun (fun _ => id) (may.begins hm)
  refine params.ends.bind fun _ m₂ prepared => ?_
  have methods := Upkeep.leaves_methods (U := U) (w := W) decl.methods prepared
  refine methods.ends.bind fun _ m₃ ⟨w₃, next₃, hm₃, call₃⟩ => ?_
  change w₃.store = m₃.store at hm₃
  refine .holding (.inCall trivial fun calls => ?_)
  refine (ends_construct
    (m := { m₃ with held := [.context world, .context m₀.store.graph.size] ++ m₃.held, calls })
    hm₃.symm (hm₃ ▸ call₃.ctx.2)).mono
      (fun _ m₄ ⟨w₄, next₄, hm₄, bears⟩ member hmember => ?_) fun _ _ => trivial
  have has := hasMember_clearArguments (call₃.next next₄) (hm₄ ▸ bears member hmember)
  rw [← hm₄] at has
  exact has

end Eval

end TreeScript
