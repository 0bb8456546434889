import TreeScript.Proofs.Cells.Bindings

/-!
# Annotated parameters

A call binds each parameter in its own context. A parameter has a cell of its own with the argument
as the annotation has it, or it is a reference: then it is the variable of the caller, which has been
checked and is left as it was.
-/
namespace TreeScript

variable {m m' m₁ : Machine} {k : CtxId} {i j : CellId} {name : String} {param : Param} {arg : Arg}
  {params : List Param} {args : List Arg} {h : Handles} {s s' : Store} {v : Value} {T : TypeAnn}

/-- The variable of the caller that a parameter refers to. -/
def Param.reference? (param : Param) (arg : Arg) : Option CellId :=
  if param.attrs.isRef then arg.cell else none

/-- The value that a parameter is bound to before its annotation is looked at. -/
def Param.given (param : Param) (arg : Arg) (s : Store) : Value :=
  match param.reference? arg with
  | some i => (s.cell i).value
  | none => arg.value

/-- The attributes of what a parameter is bound to. A variable of the caller has its own. -/
def Param.boundAttrs (param : Param) (arg : Arg) (s : Store) : Attrs :=
  match param.reference? arg with
  | some i => (s.cell i).attrs
  | none => param.attrs.withoutRef

namespace Param

theorem mem_cell_of_reference? (refers : param.reference? arg = some i) : i ∈ arg.cell := by
  rw [reference?] at refers
  split at refers
  · exact refers
  · cases refers

theorem boundAttrs_congr {t : Store} (same : ∀ j ∈ arg.cell, t.cell j = s.cell j) :
    param.boundAttrs arg t = param.boundAttrs arg s := by
  rw [boundAttrs, boundAttrs]
  cases hr : param.reference? arg with
  | none => rfl
  | some i => exact congrArg Cell.attrs (same i (mem_cell_of_reference? hr))

/-- A cell holds what a parameter is bound to: what it is given as the annotation has it, or the
variable that it refers to as it was, if that passes the check. -/
inductive BoundTo (h : Handles) (s s' : Store) (param : Param) (arg : Arg) (i : CellId) : Prop
  | own (plain : param.reference? arg = none)
      (bound : arg.value.BoundAs h param.type (s'.cell i).value)
  | shared {v : Value} (refers : param.reference? arg = some i)
      (same : (s'.cell i).value = (s.cell i).value)
      (passes : (s.cell i).value.BoundAs h param.type v)

/-- The parameter refers to a variable with an integer, and its annotation wants a floating-point
number. -/
def Unpromoted (param : Param) (arg : Arg) (s : Store) : Prop :=
  (param.reference? arg).isSome ∧ param.type = some .float ∧ (param.given arg s).kind = .int

/-- What a parameter is bound to satisfies the annotation unless it should have been promoted. -/
theorem BoundTo.hasType_iff (h' : param.BoundTo h s s' arg i) (annotated : param.type = some T) :
    (s'.cell i).value.hasType h T = true ↔ ¬param.Unpromoted arg s := by
  cases h' with
  | own plain bound =>
    refine iff_of_true (bound.met T annotated) fun unpromoted => ?_
    have refers := unpromoted.1
    rw [plain] at refers
    cases refers
  | shared refers same passes =>
    rw [annotated] at passes
    rw [same, passes.hasType_iff, Unpromoted, given, refers, annotated]
    simp

/-- Promotion is the only change that is made to what a parameter is given. -/
theorem BoundTo.eq_or_promoted (h' : param.BoundTo h s s' arg i) :
    (s'.cell i).value = param.given arg s ∨ param.reference? arg = none ∧
      param.type = some .float ∧ ∃ n, arg.value = .int n ∧ (s'.cell i).value = .float n.toFloat := by
  cases h' with
  | own plain bound =>
    rcases bound.eq_or_promoted with same | promoted
    · exact .inl (by rw [given, plain, same])
    · exact .inr ⟨plain, promoted⟩
  | shared refers same passes => exact .inl (by rw [given, refers, same])

end Param

theorem Param.BoundTo.later {h' : Handles} {t : Store} (bound : param.BoundTo h s s' arg i)
    (same : t.cell i = s'.cell i) (classes : ∀ c, h'.className c = h.className c) :
    param.BoundTo h' s t arg i := by
  cases bound with
  | own plain bound => exact .own plain (same ▸ bound.congr classes)
  | shared refers kept passes => exact .shared refers (same ▸ kept) (passes.congr classes)

theorem Param.BoundTo.since {t : Store} (bound : param.BoundTo h s s' arg i)
    (same : ∀ j ∈ arg.cell, t.cell j = s.cell j) : param.BoundTo h t s' arg i := by
  cases bound with
  | own plain bound => exact .own plain bound
  | shared refers kept passes =>
    have hi := same i (mem_cell_of_reference? refers)
    exact .shared refers (hi ▸ kept) (hi ▸ passes)

/-- From one machine to a later one the cells stay as they are, and the classes of instances. -/
structure Machine.Grows (m m' : Machine) : Prop where
  size : m.store.cells.size ≤ m'.store.cells.size
  cells : ∀ i < m.store.cells.size, m'.store.cell i = m.store.cell i
  classes : ∀ c, m'.handles.className c = m.handles.className c

namespace Machine.Grows

theorem refl (m : Machine) : m.Grows m := ⟨Nat.le_refl _, fun _ _ => rfl, fun _ => rfl⟩

theorem trans {m₂ : Machine} (h : m.Grows m₁) (h' : m₁.Grows m₂) : m.Grows m₂ where
  size := Nat.le_trans h.size h'.size
  cells i hi := (h'.cells i (Nat.lt_of_lt_of_le hi h.size)).trans (h.cells i hi)
  classes c := (h'.classes c).trans (h.classes c)

theorem modifyGraph {f : Graph → Graph}
    (same : ∀ c, (f m.store.graph).skeleton? c = m.store.graph.skeleton? c) :
    m.Grows { m with store := m.store.modifyGraph f } where
  size := Nat.le_refl _
  cells _ _ := rfl
  classes c := congrArg (Option.getD · "") (Region.className?_of_skeleton? (same c))

end Machine.Grows

theorem Run.bind_eq_error {α β : Type} {x : Run α} {r : α → Run β} {stop : Stop}
    (failed : (x >>= r) m = .error stop m') :
    x m = .error stop m' ∨ ∃ a m₁, x m = .ok a m₁ ∧ r a m₁ = .error stop m' := by
  rw [Run.bind_apply] at failed
  cases hx : x m with
  | ok a m₁ =>
    rw [hx] at failed
    exact .inr ⟨a, m₁, rfl, failed⟩
  | error stop' m₁ =>
    rw [hx] at failed
    cases failed
    exact .inl rfl

theorem Run.declare_eq_ok {d : Declaration} {u : Unit} (ok : Run.declare d m = .ok u m') :
    d.obstacle? m.store.graph = none ∧ m' = { m with store := m.store.modifyGraph d.apply } := by
  rw [Run.declare_apply] at ok
  split at ok
  · cases ok
  · rename_i free
    cases ok
    exact ⟨free, rfl⟩

namespace Eval

/-- What a parameter is given is checked. Then it has a cell of its own, unless it refers to one. -/
theorem paramCell_eq (param : Param) (arg : Arg) (m : Machine) :
    paramCell param arg m =
      match (param.given arg m.store).annotate m.handles param.type with
      | .error fault => .error (m.raised fault) m
      | .ok v =>
        match param.reference? arg with
        | some i => .ok i m
        | none => Run.newCell ⟨param.name, v, param.attrs.withoutRef⟩ m := by
  rw [Run.paramCell_apply, Param.given,
    show (if param.attrs.isRef then arg.cell else none) = param.reference? arg from rfl]
  cases param.reference? arg with
  | some i =>
    dsimp only
    cases (m.store.cell i).value.annotate m.handles param.type <;> rfl
  | none =>
    dsimp only
    cases arg.value.annotate m.handles param.type <;> rfl

/-- A parameter whose argument passes its check is bound to a cell that is there; the store grows at
most by that cell. -/
theorem of_paramCell (named : ∀ i ∈ arg.cell, i < m.store.cells.size)
    (ok : paramCell param arg m = .ok i m') :
    m.Grows m' ∧ m'.store.graph = m.store.graph ∧ i < m'.store.cells.size ∧
      param.BoundTo m.handles m.store m'.store arg i ∧
      (m'.store.cell i).attrs = param.boundAttrs arg m.store := by
  rw [paramCell_eq] at ok
  cases ha : (param.given arg m.store).annotate m.handles param.type with
  | error fault =>
    rw [ha] at ok
    cases ok
  | ok v =>
    rw [ha] at ok
    have bound := Value.annotate_eq_ok_iff.mp ha
    rw [Param.given] at bound
    cases hr : param.reference? arg with
    | some j =>
      rw [hr] at ok bound
      cases ok
      refine ⟨.refl m, rfl, named i (Param.mem_cell_of_reference? hr), .shared hr rfl bound, ?_⟩
      rw [Param.boundAttrs, hr]
    | none =>
      rw [hr] at ok bound
      cases ok
      have held := Store.cell_addCell_self m.store ⟨param.name, v, param.attrs.withoutRef⟩
      refine ⟨⟨Nat.le_of_lt ?_, fun i hi => Store.cell_addCell_of_lt _ hi, fun _ => rfl⟩, rfl, ?_,
        .own hr ((congrArg Cell.value held).symm ▸ bound), ?_⟩
      · simp
      · simp
      · rw [Param.boundAttrs, hr]
        exact congrArg Cell.attrs held

/-- A misfit is refused before anything is done. -/
theorem paramCell_of_misfits (annotated : param.type = some T)
    (misfits : (param.given arg m.store).Misfits m.handles T) :
    paramCell param arg m =
      .error (m.raised (.typeMismatch T.text ((param.given arg m.store).typeName m.handles))) m := by
  rw [paramCell_eq, annotated, Value.annotate_of_misfits misfits]

/-- A name has been bound to a cell: it is found now, and what was found otherwise still is. -/
structure NameBound (found : Graph → String → Option CellId) (m m' : Machine) (name : String)
    (i : CellId) : Prop extends m.Grows m' where
  bound : found m'.store.graph name = some i
  others : ∀ other j, found m.store.graph other = some j → found m'.store.graph other = some j

/-- A way to bind names where the graph is ready for it, and stays so. -/
def BindsNames (ready : Graph → Prop) (found : Graph → String → Option CellId)
    (bind : String → CellId → Run Unit) : Prop :=
  ∀ ⦃name i m u m'⦄, ready m.store.graph → bind name i m = .ok u m' →
    ready m'.store.graph ∧ NameBound found m m' name i

variable {ready : Graph → Prop} {found : Graph → String → Option CellId}
  {bind : String → CellId → Run Unit}

/-- All parameters of a call are bound. -/
theorem of_bindParams (binds : BindsNames ready found bind) :
    ∀ {params : List Param} {args : List Arg} {m m' : Machine} {u : Unit}, ready m.store.graph →
      (∀ arg ∈ args, ∀ i ∈ arg.cell, i < m.store.cells.size) →
      bindParams bind params args m = .ok u m' →
      ready m'.store.graph ∧ m.Grows m' ∧
        (∀ name i, found m.store.graph name = some i → found m'.store.graph name = some i) ∧
        ∀ pa ∈ params.zip args, ∃ i < m'.store.cells.size,
          found m'.store.graph pa.1.name = some i ∧
          pa.1.BoundTo m'.handles m.store m'.store pa.2 i ∧
          (m'.store.cell i).attrs = pa.1.boundAttrs pa.2 m.store
  | [], args, m, _, u, hr, _, ok => by
    cases ok
    exact ⟨hr, .refl m, fun _ _ h => h, by simp⟩
  | param :: params, [], m, _, u, hr, _, ok => by
    cases ok
    exact ⟨hr, .refl m, fun _ _ h => h, by simp⟩
  | param :: params, arg :: args, m, m', u, hr, named, ok => by
    rw [List.forall_mem_cons] at named
    obtain ⟨i, m₁, made, ok⟩ := Run.bind_eq_ok ok
    obtain ⟨_, m₂, done, ok⟩ := Run.bind_eq_ok ok
    obtain ⟨grown₁, graph₁, there, bound, attrs⟩ := of_paramCell named.1 made
    obtain ⟨hr₂, names⟩ := binds (graph₁ ▸ hr) done
    have grown := grown₁.trans names.toGrows
    obtain ⟨hr', grown', others, rest⟩ := of_bindParams binds hr₂
      (fun arg ha i hi => Nat.lt_of_lt_of_le (named.2 arg ha i hi) grown.size) ok
    have there₂ := Nat.lt_of_lt_of_le there names.size
    refine ⟨hr', grown.trans grown', fun name j h => others name j ?_, ?_⟩
    · exact names.others name j (by rw [graph₁]; exact h)
    · rw [List.zip_cons_cons, List.forall_mem_cons]
      have same : m'.store.cell i = m₁.store.cell i := by
        rw [grown'.cells i there₂, names.cells i there]
      refine ⟨⟨i, Nat.lt_of_lt_of_le there₂ grown'.size, others _ _ names.bound, ?_, ?_⟩, ?_⟩
      · refine bound.later same fun c => ?_
        rw [grown'.classes, names.classes, grown₁.classes]
      · rw [same, attrs]
      · intro pa hpa
        obtain ⟨j, hj, read, held, attrs⟩ := rest pa hpa
        have before : ∀ i ∈ pa.2.cell, m₂.store.cell i = m.store.cell i := fun i hi =>
          grown.cells i (named.2 _ (List.of_mem_zip hpa).2 i hi)
        refine ⟨j, hj, read, held.since fun i hi => (before i hi).symm, ?_⟩
        rw [attrs, Param.boundAttrs_congr before]

theorem bindParams_append {rest : List Param} {others : List Arg} :
    ∀ {params : List Param} {args : List Arg}, params.length = args.length →
      bindParams bind (params ++ rest) (args ++ others) =
        bindParams bind params args >>= fun _ => bindParams bind rest others
  | [], [], _ => rfl
  | param :: params, arg :: args, same => by
    simp only [List.cons_append, bindParams, bindParams_append (Nat.succ.inj same), bind_assoc]

end Eval

namespace Graph

variable {g : Graph} {c : CtxId}

/-- A constructor argument that is new hides no other. -/
theorem argument?_ofArgument (free : (Declaration.ofArgument c name i).obstacle? g = none) :
    ((Declaration.ofArgument c name i).apply g).argument? c name = some i ∧
      ∀ other j, g.argument? c other = some j →
        ((Declaration.ofArgument c name i).apply g).argument? c other = some j := by
  rw [Declaration.ofArgument] at free
  dsimp only at free
  split at free
  · rename_i object
    rw [Option.map_eq_none_iff] at free
    obtain ⟨kind, hk, isObject⟩ := (Option.any_eq_true ..).mp object
    cases kind with
    | object owner decl given arguments members =>
      have after : ((Declaration.ofArgument c name i).apply g).kind? c =
          some (.object owner decl given ((name, i) :: arguments) members) := by
        obtain ⟨ctx, hctx, rk⟩ := Option.map_eq_some_iff.mp hk
        rw [kind?, Declaration.ofArgument, context?_update, if_pos rfl, hctx]
        show some (Declaration.addArgument name i ctx.kind) = _
        rw [rk]
        rfl
      rw [argument?, hk] at free
      refine ⟨by rw [argument?, after]; exact List.lookup_cons_self, fun other j found => ?_⟩
      rw [argument?, hk] at found
      rw [argument?, after]
      show ((name, i) :: arguments).lookup other = some j
      rw [List.lookup_cons]
      split
      · rename_i same
        rw [eq_of_beq same] at found
        cases free.symm.trans found
      · exact found
    | _ => cases isObject
  · cases free

theorem scopes?_ofArgument (d : CtxId) :
    ((Declaration.ofArgument c name i).apply g).scopes? d = g.scopes? d :=
  scopes?_update_same _ fun _ => rfl

theorem localVar?_of_vars {g' : Graph}
    (same : (g'.scopes? c).map Scopes.vars = (g.scopes? c).map Scopes.vars) (name : String) :
    g'.localVar? c name = g.localVar? c name := by
  have eq (g : Graph) : g.localVar? c name =
      ((g.scopes? c).map Scopes.vars).bind (·.get? name) := by
    rw [localVar?, scopes?, Option.map_map, Option.bind_map]
    rfl
  rw [eq, eq, same]

/-- Functions are no variables. -/
theorem ownVar?_ofFunc (func : Func) {d : CtxId} :
    ((Declaration.ofFunc c func).apply g).ownVar? d name = g.ownVar? d name := by
  have kinds : ((Declaration.ofFunc c func).apply g).kind? d = g.kind? d := by
    rw [kind?, kind?, Declaration.ofFunc, context?_update]
    split
    · rw [Option.map_map]
      rfl
    · rfl
  have scopes : ((Declaration.ofFunc c func).apply g).scopes? d = if c = d then
      (g.scopes? d).map (·.bindFunc func) else g.scopes? d :=
    scopes?_update _ (·.bindFunc func) fun _ => rfl
  rw [ownVar?, ownVar?, argument?, argument?, kinds]
  refine congrArg (Option.or · _) (localVar?_of_vars ?_ name)
  rw [scopes]
  split
  · rw [Option.map_map]
    rfl
  · rfl

end Graph

namespace Callee

open Eval

/-- What binds the parameters in the context of a call. -/
def bindsIn (callee : Callee) (c : CtxId) : String → CellId → Run Unit :=
  match callee with
  | .class .. => fun name i => Run.declare (.ofArgument c name i)
  | _ => Run.bindCell c

/-- The methods of an instance. -/
def methods : Callee → List FuncDecl
  | .class decl _ => decl.methods
  | _ => []

/-- What a parameter is bound to in the context of a call. -/
def parameter? (callee : Callee) (c : CtxId) (g : Graph) (name : String) : Option CellId :=
  match callee with
  | .class .. => g.argument? c name
  | _ => g.topVar? c name

/-- Parameters can be bound in the context. -/
def Ready (callee : Callee) (c : CtxId) (g : Graph) : Prop :=
  match callee with
  | .class .. => ∀ name, g.localVar? c name = none
  | _ => c < g.size

variable {callee : Callee} {c : CtxId}

theorem setUp_eq (callee : Callee) (c : CtxId) (args : List Arg) : callee.setUp c args =
    bindParams (callee.bindsIn c) callee.params args >>= fun _ =>
      declareMethods c callee.methods := by
  cases callee with
  | func f => exact (bind_pure _).symm
  | closure cl => exact (bind_pure _).symm
  | «class» decl world => rfl

theorem ownVar?_of_parameter? {g : Graph} (ready : callee.Ready c g)
    (found : callee.parameter? c g name = some i) : g.ownVar? c name = some i := by
  cases callee with
  | func f => rw [Graph.ownVar?, Graph.localVar?_of_topVar? found, Option.some_or]
  | closure cl => rw [Graph.ownVar?, Graph.localVar?_of_topVar? found, Option.some_or]
  | «class» decl world => rw [Graph.ownVar?, ready name, Option.none_or]; exact found

theorem bindsNames_bindCell (c : CtxId) :
    BindsNames (c < ·.size) (·.topVar? c) (Run.bindCell c) := by
  intro name i m u m' there ok
  obtain ⟨free, rfl⟩ := Run.declare_eq_ok (d := .ofVar c name (m.store.cell i).name i) ok
  refine ⟨?_, .modifyGraph fun d => ?_, Graph.topVar?_ofVar (m.store.cell i).name there,
    fun other j bound => Graph.topVar?_ofVar_of_free free bound⟩
  · exact there.trans_eq (Graph.size_update _).symm
  · exact Graph.skeleton?_update _ fun ctx => Declaration.skeleton_recordMember name ctx.kind

theorem bindsNames_ofArgument (c : CtxId) :
    BindsNames (fun g => ∀ name, g.localVar? c name = none) (·.argument? c)
      fun name i => Run.declare (.ofArgument c name i) := by
  intro name i m u m' none ok
  obtain ⟨free, rfl⟩ := Run.declare_eq_ok ok
  obtain ⟨bound, others⟩ := Graph.argument?_ofArgument free
  refine ⟨fun other => ?_, .modifyGraph fun d => ?_, bound, others⟩
  · rw [← none other]
    exact Graph.localVar?_of_vars (congrArg _ (Graph.scopes?_ofArgument c)) other
  · exact Graph.skeleton?_update _ fun ctx => Declaration.skeleton_addArgument name i ctx.kind

theorem bindsNames (callee : Callee) (c : CtxId) :
    BindsNames (callee.Ready c) (callee.parameter? c) (callee.bindsIn c) := by
  cases callee with
  | func f => exact bindsNames_bindCell c
  | closure cl => exact bindsNames_bindCell c
  | «class» decl world => exact bindsNames_ofArgument c

/-- The methods of an instance bind no variables. -/
theorem of_declareMethods : ∀ {methods : List FuncDecl} {m m' : Machine} {u : Unit},
    declareMethods c methods m = .ok u m' →
      m.Grows m' ∧ ∀ d name, m'.store.graph.ownVar? d name = m.store.graph.ownVar? d name
  | [], m, _, _, ok => by
    cases ok
    exact ⟨.refl m, fun _ _ => rfl⟩
  | decl :: rest, m, m', _, ok => by
    obtain ⟨_, m₁, done, ok⟩ := Run.bind_eq_ok ok
    obtain ⟨free, rfl⟩ := Run.declare_eq_ok done
    obtain ⟨grown, same⟩ := of_declareMethods ok
    have declared : m.Grows { m with store := m.store.modifyGraph (Declaration.ofFunc c ⟨decl, c⟩).apply } :=
      .modifyGraph fun d => Graph.skeleton?_update _ fun _ => rfl
    exact ⟨declared.trans grown, fun d name => (same d name).trans (Graph.ownVar?_ofFunc ⟨decl, c⟩)⟩

/-- A context that has been made for a call is ready for its parameters. -/
theorem ready_newContext (callee : Callee) (args : List Arg)
    (ok : Run.newContext (callee.kind args) m = .ok c m') :
    callee.Ready c m'.store.graph ∧ m'.store.cells = m.store.cells := by
  cases ok
  refine ⟨?_, rfl⟩
  have there : m.store.graph.size < (m.store.graph.add (callee.kind args)).2.size := by simp
  cases callee with
  | func f => exact there
  | closure cl => exact there
  | «class» decl world =>
    intro name
    refine (congrArg (Option.bind · _) (Graph.context?_add_self _)).trans ?_
    rfl

/-- The parameters of a call that has been prepared are bound, and to what. -/
theorem boundTo_of_prepare (named : ∀ arg ∈ args, ∀ i ∈ arg.cell, i < m.store.cells.size)
    (ok : callee.prepare args m = .ok c m₁) :
    ∀ pa ∈ callee.params.zip args, ∃ i < m₁.store.cells.size,
      m₁.store.graph.ownVar? c pa.1.name = some i ∧
      pa.1.BoundTo m₁.handles m.store m₁.store pa.2 i ∧
      (m₁.store.cell i).attrs = pa.1.boundAttrs pa.2 m.store := by
  obtain ⟨m₂, m₃, checked, added, set⟩ := prepare_eq_ok ok
  obtain ⟨ready, cells⟩ := ready_newContext callee args added
  have same : m₃.store.cells = m.store.cells := cells.trans (of_check checked).1.cells
  rw [setUp_eq] at set
  obtain ⟨_, m₄, bound, declared⟩ := Run.bind_eq_ok set
  obtain ⟨ready₄, -, -, all⟩ := of_bindParams (callee.bindsNames c) ready
    (fun arg ha i hi => same ▸ named arg ha i hi) bound
  obtain ⟨grown, names⟩ := of_declareMethods declared
  intro pa hpa
  obtain ⟨i, hi, found, held, attrs⟩ := all pa hpa
  have before (j : CellId) : m₃.store.cell j = m.store.cell j := by
    rw [Store.cell, Store.cell, Store.cell?, Store.cell?, same]
  refine ⟨i, Nat.lt_of_lt_of_le hi grown.size, ?_, ?_, ?_⟩
  · rw [names]
    exact ownVar?_of_parameter? ready₄ found
  · exact (held.later (grown.cells i hi) grown.classes).since fun j _ => (before j).symm
  · rw [grown.cells i hi, attrs, Param.boundAttrs_congr fun j _ => before j]

/-- The parameters of a call that has been prepared are bound. -/
theorem of_prepare (named : ∀ arg ∈ args, ∀ i ∈ arg.cell, i < m.store.cells.size)
    (ok : callee.prepare args m = .ok c m₁) :
    ∀ pa ∈ callee.params.zip args, ∃ i < m₁.store.cells.size,
      m₁.store.graph.ownVar? c pa.1.name = some i ∧
      pa.1.BoundTo m₁.handles m.store m₁.store pa.2 i := by
  intro pa hpa
  obtain ⟨i, hi, own, held, -⟩ := boundTo_of_prepare named ok pa hpa
  exact ⟨i, hi, own, held⟩

/-- Prepares a call as far as its first parameters. -/
def prepareFirst (callee : Callee) (args : List Arg) (n : Nat) : Run CtxId := do
  callee.check args
  let c ← Run.newContext (callee.kind args)
  bindParams (callee.bindsIn c) (callee.params.take n) (args.take n)
  return c

variable {n : Nat} {stop : Stop}

/-- A misfit ends the preparation of a call. -/
theorem prepare_of_misfits (begun : callee.prepareFirst args n m = .ok c m₁)
    (hp : callee.params[n]? = some param) (ha : args[n]? = some arg)
    (annotated : param.type = some T)
    (misfits : (param.given arg m₁.store).Misfits m₁.handles T) :
    callee.prepare args m = .error (m₁.raised (.typeMismatch T.text
      ((param.given arg m₁.store).typeName m₁.handles))) m₁ := by
  obtain ⟨_, m₂, checked, begun⟩ := Run.bind_eq_ok begun
  obtain ⟨d, m₃, added, begun⟩ := Run.bind_eq_ok begun
  obtain ⟨_, m₄, bound, begun⟩ := Run.bind_eq_ok begun
  cases begun
  have split {α : Type} {l : List α} {a : α} (h : l[n]? = some a) :
      l = l.take n ++ a :: l.drop (n + 1) ∧ (l.take n).length = n := by
    obtain ⟨hn, rfl⟩ := List.getElem?_eq_some_iff.mp h
    rw [← List.drop_eq_getElem_cons hn, List.take_append_drop, List.length_take]
    exact ⟨rfl, Nat.min_eq_left (Nat.le_of_lt hn)⟩
  obtain ⟨params, lengthParams⟩ := split hp
  obtain ⟨arguments, lengthArgs⟩ := split ha
  have whole := congrArg₂ (bindParams (callee.bindsIn c)) params arguments
  rw [bindParams_append (lengthParams.trans lengthArgs.symm)] at whole
  have refused : bindParams (callee.bindsIn c) callee.params args m₃ =
      .error (m₁.raised (.typeMismatch T.text
        ((param.given arg m₁.store).typeName m₁.handles))) m₁ := by
    rw [whole, Run.bind_of_ok _ bound, bindParams, Run.bind_apply,
      paramCell_of_misfits annotated misfits]
  rw [prepare, Run.bind_of_ok _ checked, Run.bind_of_ok _ added, setUp_eq, Run.bind_apply,
    Run.bind_apply, refused]

/-- All contexts that were there keep their scopes when the preparation of a call fails. -/
theorem sameScopes_of_prepare_error (failed : callee.prepare args m = .error stop m₁) :
    m.SameScopes m₁ := by
  have kept := (Run.agree_of_rel (prepare_keeps (L := Run.Logic.after 0 m (Nat.zero_le _)) callee
    args) (by rintro _ ⟨⟩)).kept
  rw [Run.after, failed] at kept
  exact kept.sameScopes rfl

/-- A call whose preparation fails fails with it, and binds nothing further. -/
theorem call_of_prepare_error (failed : callee.prepare args m = .error stop m₁) (ev : Evaluator)
    (span : Span) :
    ∃ m', callee.call ev args span m = .error stop m' ∧ m.SameScopes m' := by
  have same := sameScopes_of_prepare_error failed
  cases callee with
  | func f =>
    refine ⟨m₁, ?_, same⟩
    rw [call_func, Run.bind_apply, failed]
  | closure cl =>
    refine ⟨m₁, ?_, same⟩
    rw [call_closure, Run.bind_apply, failed]
  | «class» decl world =>
    rcases Run.bind_eq_error failed with early | ⟨_, m₂, checked, failed⟩
    · refine ⟨m₁, ?_, same⟩
      rw [check] at early
      rw [call, instantiate, Run.bind_apply, early]
    rcases Run.bind_eq_error failed with early | ⟨c, m₃, added, failed⟩
    · cases early
    rcases Run.bind_eq_error failed with set | ⟨_, m₄, -, failed⟩
    · refine ⟨Run.clearArguments c m₁, ?_, fun d hd => ?_⟩
      · rw [setUp] at set
        rw [check] at checked
        change Run.newContext (.object world decl (decl.params.zip args) [] []) m₂ = _ at added
        rw [call, instantiate, Run.bind_of_ok _ checked, Run.bind_of_ok _ added, Run.bind_apply,
          Run.ensuring, ← bind_assoc, Run.bind_apply, set]
        rfl
      · have cleared : (Run.clearArguments c m₁).store.graph.scopes? d = m₁.store.graph.scopes? d :=
          Graph.scopes?_update_same _ fun _ => rfl
        exact cleared.trans (same d hd)
    · cases failed

end Callee

/-- Runs the body of a function in the context of a call, without regard to the annotation of its
result. -/
def Func.returns (f : Func) (ev : Evaluator) (args : List Arg) (span : Span) : Run Value := do
  let c ← (Callee.func f).prepare args
  Run.holding [.context f.owner, .context c] do
    Run.inCall f.decl.name span (Eval.body ev c f.decl.body)

theorem Eval.bindsUnder_result (f : Func) (ev : Evaluator) (args : List Arg) (span : Span)
    (m : Machine) :
    Run.BindsUnder f.decl.result (f.returns ev args span) (Eval.callFunc ev f args span) m
      fun v' _ v => v' = v := by
  have split : Eval.callFunc ev f args span = f.returns ev args span >>= fun v =>
      Run.checking (Failure.locate span) f.decl.result v >>= pure := by
    simp only [bind_pure]
    exact (Callee.call_func f args ev span).trans (bind_assoc _ _ _).symm
  rw [split]
  refine .of_checking (fun e => e.fault_locate span) fun v m₁ v' a m' _ _ ok => ?_
  cases ok
  exact ⟨rfl, fun _ => rfl⟩

open Run (BindsUnder) in
/-- What is known of all that is bound under annotations, by an evaluator of some fuel. -/
structure AnnotationsMet (config : Config) (fuel : Nat) : Prop where
  /-- A variable. -/
  vars {s : Stmt} {name : String} {type : Option TypeAnn} {e : Expr} {attrs : Attrs}
    {c : CtxId} {m : Machine} (node : s.node = .letVar name type e attrs)
    (there : c < m.store.graph.size) :
    BindsUnder type ((evaluator config fuel).expr e c)
      (Eval.stmt config (evaluator config fuel) s c) m
      fun _ m' v => ∃ i, m'.store.Reads c name i v
  /-- A member of an instance. -/
  members (member : MemberDecl) {c : CtxId} {m : Machine} (there : c < m.store.graph.size) :
    BindsUnder member.type ((evaluator config fuel).expr member.value c)
      (Eval.initMember (evaluator config fuel) c member) m
      fun _ m' v => ∃ i, m'.store.Reads c member.name i v
  /-- The parameters of a function, a closure or a class, once a call has been prepared. Each
  satisfies its annotation, unless it refers to a variable whose value should be promoted. -/
  parameters {callee : Callee} {args : List Arg} {m m₁ : Machine} {c : CtxId}
    (named : ∀ arg ∈ args, ∀ i ∈ arg.cell, i < m.store.cells.size)
    (ok : callee.prepare args m = .ok c m₁) {param : Param} {arg : Arg}
    (bound : (param, arg) ∈ callee.params.zip args) :
    ∃ i, m₁.store.Reads c param.name i (m₁.store.cell i).value ∧
      param.BoundTo m₁.handles m.store m₁.store arg i ∧
      ∀ T ∈ param.type, (m₁.store.cell i).value.hasType m₁.handles T = true ↔
        ¬param.Unpromoted arg m.store
  /-- A misfit for a parameter is a mismatch of types. The call does not begin, and all contexts
  keep the names that they had. -/
  refusals {callee : Callee} {args : List Arg} {m m₁ : Machine} {c : CtxId} {n : Nat}
    {param : Param} {arg : Arg} {T : TypeAnn} (begun : callee.prepareFirst args n m = .ok c m₁)
    (hp : callee.params[n]? = some param) (ha : args[n]? = some arg)
    (annotated : param.type = some T)
    (misfits : (param.given arg m₁.store).Misfits m₁.handles T) (ev : Evaluator) (span : Span) :
    ∃ m', callee.call ev args span m = .error (m₁.raised (.typeMismatch T.text
      ((param.given arg m₁.store).typeName m₁.handles))) m' ∧ m.SameScopes m'
  /-- The result of a function. -/
  results (f : Func) (ev : Evaluator) (args : List Arg) (span : Span) (m : Machine) :
    BindsUnder f.decl.result (f.returns ev args span) (Eval.callFunc ev f args span) m
      fun v' _ v => v' = v

/-- **Annotations.** Whatever is bound under an annotation satisfies it and is the value that was
given, or an integer made a floating-point number; any other value is a mismatch of types, and
nothing is bound. There is one exception: a parameter that refers to a variable of the caller is that
variable as it is, even if an integer there should be promoted. -/
theorem annotations_met (config : Config) (fuel : Nat) : AnnotationsMet config fuel where
  vars node there := Eval.bindsUnder_let node there
  members member := Eval.bindsUnder_member member
  parameters named ok _ _ bound := by
    obtain ⟨i, -, own, held⟩ := Callee.of_prepare named ok _ bound
    refine ⟨i, ⟨own, Graph.var?_of_ownVar? own, rfl⟩, held, fun T hT => ?_⟩
    exact held.hasType_iff hT
  refusals begun hp ha annotated misfits ev span :=
    Callee.call_of_prepare_error (Callee.prepare_of_misfits begun hp ha annotated misfits) ev span
  results := Eval.bindsUnder_result

/-- `def f(ref x: float) { return type(x); }` -/
def typeOfFloat : FuncDecl :=
  let span : Span := ⟨0, 1⟩
  ⟨"f", [⟨"x", some .float, ⟨false, false, true⟩⟩], none,
    [⟨.ret (some ⟨.call "type" [⟨.name "x", span⟩], span⟩), span⟩], .none⟩

/-- After `let n = 1;` the call `f(n)` begins, and its parameter reads the variable of the caller,
which does not satisfy the annotation. The call gives `"int"`. -/
theorem unpromoted_reference :
    let span : Span := ⟨0, 1⟩
    let start := Session.start ⟨[], none⟩ 6 (.start .empty .silent [] none)
    let s₁ := (start.runLine ⟨.defFunc typeOfFloat, span⟩).2
    let s := (s₁.runLine ⟨.letVar "n" none ⟨.int 1, span⟩ .none, span⟩).2
    let call := (Callee.func ⟨typeOfFloat, 0⟩).prepare [⟨.int 1, some 0⟩]
    let m₁ := call.after s.machine
    (call.stop? s.machine = none ∧ m₁.store.graph.var? 1 "x" = some 0 ∧
      (m₁.store.cell 0).value.hasType m₁.handles .float = false) ∧
    (match (s.runLine ⟨.expr ⟨.call "f" [⟨.name "n", span⟩], span⟩, span⟩).1 with
      | .value v => v.asStr?
      | _ => none) = some "int" := by
  decide +kernel

end TreeScript
