import TreeScript.Proofs.Places.Agreement
import TreeScript.Proofs.Run.Sessions

/-!
# References

Two names mean one cell only if one of them is a parameter that is a reference, of a call that was
given a variable for it. A call is given a variable only by a bare name that means it. So globals
never share a cell, nor do the members of instances, and an assignment is seen through another name
only by such a parameter.
-/
namespace TreeScript

variable {config : Config} {fuel : Nat} {start s t : Store} {m m' : Machine} {c : CtxId}
  {i : CellId} {e e' : Entry}

namespace Store

/-- No two names bind one cell. -/
def Unaliased (s : Store) : Prop := ∀ e e' i, s.BindsBoth e e' i → e = e'

/-- Two names are one name, or one of them is a reference to the cell. -/
def Linked (s : Store) (e e' : Entry) (i : CellId) : Prop :=
  e = e' ∨ s.graph.IsReference e i ∨ s.graph.IsReference e' i

/-- There is no other way for two names to bind one cell. -/
def Accounted (s : Store) : Prop := ∀ e e' i, s.BindsBoth e e' i → s.Linked e e' i

theorem unaliased_empty : Store.empty.Unaliased := by
  intro e e' i both
  cases both.1

end Store

theorem Ledger.accounted (w : Ledger .all start) (fresh : start.Unaliased) : w.store.Accounted := by
  intro e e' i both
  rcases w.owned e e' i (Nat.zero_le _) (Nat.zero_le _) both with same | refers | refers | old
  · exact .inl same
  · exact .inr (.inl refers)
  · exact .inr (.inr refers)
  · exact .inl (fresh e e' i old)

/-- A global of a module, or a member of an instance. -/
def Graph.IsOwn (g : Graph) (e : Entry) : Prop :=
  g.isWorld e.ctx = true ∨ g.isObject e.ctx = true ∧ e.height ≠ 0

theorem Graph.IsOwn.not_isReference {g : Graph} (own : g.IsOwn e) : ¬g.IsReference e i := by
  intro refers
  rcases own with world | ⟨object, member⟩
  · cases world.symm.trans refers.not_world
  · exact member (refers.height_of_object object)

/-- A cell has one name among the globals of all modules and the members of all instances. -/
theorem Store.Accounted.eq_of_isOwn (h : s.Accounted) (own : s.graph.IsOwn e)
    (own' : s.graph.IsOwn e') (both : s.BindsBoth e e' i) : e = e' := by
  rcases h e e' i both with same | refers | refers
  · exact same
  · exact (own.not_isReference refers).elim
  · exact (own'.not_isReference refers).elim

/-- What is done to a place leaves all bindings, and all cells but the one that it is in. -/
theorem Place.after_editRoot {α : Type} (p : Place) (f : Handles → Edit α) (m : Machine) :
    ((p.editRoot f).after m).store.graph = m.store.graph ∧
      ∀ j, p.root ≠ .inl j → ((p.editRoot f).after m).store.cell j = m.store.cell j := by
  cases hp : p.root with
  | inr v =>
    have same : (p.editRoot f).after m = m := by
      have handles : Run.handles m = .ok m.handles m := rfl
      rw [editRoot, hp]
      dsimp only
      rw [Run.after_bind_ok _ handles]
      cases f m.handles v <;> rfl
    rw [same]
    exact ⟨rfl, fun _ _ => rfl⟩
  | inl i =>
    have written : ((p.editRoot f).after m).store = m.store ∨
        ∃ value, ((p.editRoot f).after m).store = m.store.setValue i value := by
      rw [editRoot, hp, Run.after]
      dsimp only
      rw [Run.editCell]
      cases (m.store.cell i).checkWrite false with
      | error fault => exact .inl rfl
      | ok _ =>
        dsimp only
        cases f m.handles (m.store.cell i).value with
        | ok a value => exact .inr ⟨value, rfl⟩
        | error fault value => exact .inr ⟨value, rfl⟩
    rcases written with same | ⟨value, same⟩
    · rw [same]
      exact ⟨rfl, fun _ _ => rfl⟩
    · rw [same]
      exact ⟨rfl, fun j hj => Store.cell_setValue_of_ne value fun h => hj (h ▸ rfl)⟩

/-- The expression is a bare name, and to code in the context it means a variable. -/
def Store.Means (s : Store) (c : CtxId) (e : Expr) (i : CellId) : Prop :=
  ∃ name, e.name? = some name ∧ s.graph.import? c name = none ∧ s.graph.var? c name = some i

namespace Eval

/-- The machine as the expression of an argument is looked at once more when its value is there:
before a bare name is looked up, what nothing holds is let go. -/
def afterValue (c : CtxId) (e : Expr) (v : Value) (m : Machine) : Machine :=
  if e.name?.isSome then
    { { m with held := .value v :: m.held }.seenFrom c with held := m.held }
  else m

/-- Expressions give the arguments of a call. They are evaluated from left to right, and an argument
carries a cell just when its expression is a bare name that means it once the value is there. -/
inductive Gives (ev : Evaluator) (c : CtxId) : Machine → List Expr → List Arg → Machine → Prop
  | nil (m : Machine) : Gives ev c m [] [] m
  | cons {m m₁ m₂ m₃ : Machine} {e : Expr} {rest : List Expr} {arg : Arg} {args : List Arg}
    (value : ev.expr e c m = .ok arg.value m₁) (looked : m₂ = afterValue c e arg.value m₁)
    (carries : ∀ i, arg.cell = some i ↔ m₂.store.Means c e i)
    (others : Gives ev c { m₂ with held := arg.holds ++ m₂.held } rest args m₃) :
    Gives ev c m (e :: rest) (arg :: args) { m₃ with held := m₂.held }

/-- The cell that an argument carries. -/
def carried (c : CtxId) (e : Expr) (v : Value) : Run (Option CellId) :=
  match e.name? with
  | some name => do
    let g ← Run.holding [.value v] (Run.graphFrom c)
    pure (if (g.import? c name).isNone then g.var? c name else none)
  | none => pure none

theorem args_cons (ev : Evaluator) (c : CtxId) (e : Expr) (rest : List Expr) :
    Eval.args ev c (e :: rest) = ev.expr e c >>= fun v => carried c e v >>= fun cell =>
      Run.holding (Arg.holds ⟨v, cell⟩) (Eval.args ev c rest) >>= fun others =>
        pure (⟨v, cell⟩ :: others) := by
  rw [Eval.args]
  refine bind_congr fun v => ?_
  rw [carried]
  cases e.name? with
  | none => rfl
  | some name => exact (bind_assoc _ _ _).symm

theorem carried_ok (c : CtxId) (e : Expr) (v : Value) (m : Machine) :
    ∃ cell, carried c e v m = .ok cell (afterValue c e v m) ∧
      ∀ i, cell = some i ↔ (afterValue c e v m).store.Means c e i := by
  cases hn : e.name? with
  | none =>
    have same : afterValue c e v m = m := by rw [afterValue, hn]; rfl
    rw [same, carried, hn]
    refine ⟨none, rfl, fun i => iff_of_false nofun ?_⟩
    rintro ⟨name, is, -⟩
    cases hn.symm.trans is
  | some name =>
    have seen : afterValue c e v m =
        { { m with held := .value v :: m.held }.seenFrom c with held := m.held } := by
      rw [afterValue, hn]
      rfl
    have looked : Run.holding [.value v] (Run.graphFrom c) m =
        .ok (afterValue c e v m).store.graph (afterValue c e v m) := by
      rw [Run.holding, Run.ensuring, Run.graphFrom_ok, seen]
      rfl
    rw [carried, hn]
    dsimp only
    rw [Run.bind_of_ok _ looked]
    refine ⟨_, rfl, fun i => ?_⟩
    generalize (afterValue c e v m).store = s
    constructor
    · intro carried
      split at carried
      · rename_i free
        exact ⟨name, hn, Option.isNone_iff_eq_none.mp free, carried⟩
      · cases carried
    · rintro ⟨name', is, free, means⟩
      cases hn.symm.trans is
      rw [free]
      exact means

/-- The arguments of a call are what its expressions give. -/
theorem args_eq_ok_iff (ev : Evaluator) (c : CtxId) (es : List Expr) {m m' : Machine}
    {args : List Arg} : Eval.args ev c es m = .ok args m' ↔ Gives ev c m es args m' := by
  induction es generalizing m m' args with
  | nil =>
    constructor
    · rintro ⟨⟩
      exact .nil m
    · rintro ⟨⟩
      rfl
  | cons e rest ih =>
    rw [args_cons]
    constructor
    · intro ok
      obtain ⟨v, m₁, value, ok⟩ := Run.bind_eq_ok ok
      obtain ⟨cell, looked, carries⟩ := carried_ok c e v m₁
      rw [Run.bind_of_ok _ looked] at ok
      obtain ⟨others, m₂, rested, ok⟩ := Run.bind_eq_ok ok
      cases ok
      rw [Run.holding, Run.ensuring] at rested
      split at rested
      · rename_i given
        cases rested
        exact .cons value rfl carries (ih.mp given)
      · cases rested
    · intro gives
      cases gives with
      | @cons _ m₁ m₂ m₃ _ _ arg args value looked carries others =>
        obtain ⟨cell, found, carries'⟩ := carried_ok c e arg.value m₁
        rw [← looked] at found carries'
        have same : arg.cell = cell := Option.ext fun i => (carries i).trans (carries' i).symm
        subst same
        have rested : Run.holding arg.holds (Eval.args ev c rest) m₂ =
            .ok args { m₃ with held := m₂.held } := by
          rw [Run.holding, Run.ensuring, ih.mpr others]
        rw [Run.bind_of_ok _ value, Run.bind_of_ok _ found]
        exact Run.bind_of_ok _ rested

/-- Calls are given what their expressions give. Callbacks are given values, which carry nothing. -/
structure Passes (config : Config) (ev : Evaluator) : Prop where
  name : ∀ f es span c m args m₁, Gives ev c m es args m₁ →
    node config ev ⟨.call f es, span⟩ c m = callName config ev f args c span m₁
  member : ∀ left f es span span' c m p m₀ args m₁, place ev c left m = .ok p m₀ →
    Gives ev c { m₀ with held := p.holds ++ m₀.held } es args m₁ →
    node config ev ⟨.member left ⟨.call f es, span⟩, span'⟩ c m =
      (callMember ev p f args c span).ensuring (fun after => { after with held := m₀.held }) m₁
  callback : ∀ span cl vs,
    callback ev span cl vs = (Callee.closure cl).call ev (vs.map Arg.ofValue) span

theorem passes (config : Config) (ev : Evaluator) : Passes config ev where
  name f es span c m args m₁ gives := Run.bind_of_ok _ ((args_eq_ok_iff ev c es).mpr gives)
  member left f es span span' c m p m₀ args m₁ placed gives := by
    have given := (args_eq_ok_iff ev c es).mpr gives
    show (place ev c left >>= fun p => Run.holding p.holds
      (Eval.args ev c es >>= fun args => callMember ev p f args c span)) m = _
    rw [Run.bind_of_ok _ placed, Run.holding, Run.ensuring, Run.bind_of_ok _ given]
    rfl
  callback _ _ _ := rfl

end Eval

/-- The context of a call tells what the call was given: its references are the parameters that are
references by declaration, each to the cell that its argument carries. -/
theorem Callee.isReference_of_prepare {callee : Callee} {args : List Arg} {m₁ : Machine}
    (prepared : callee.prepare args m = .ok c m₁) (height : Nat) (name : String) (i : CellId) :
    m₁.store.graph.IsReference ⟨c, height, name⟩ i ↔ height = (callee.kind args).paramHeight ∧
      ∃ param arg, (param, arg) ∈ callee.params.zip args ∧ param.attrs.isRef = true ∧
        param.name = name ∧ arg.cell = some i :=
  Graph.isReference_iff (Callee.prepared prepared).skeleton

/-- **References.** In a session, and at every moment of all that is done in it, two names that bind
one cell are one name, or one of them is a reference: a parameter that is one by its declaration, in
the context of a call that was given the cell for it. So globals and members never share a cell. An
edit of a variable, as assignments and members that change their receiver make it, changes what
another name means only if one of the two is a reference to it. A parameter is bound to a cell of its
own, unless it is a reference and its argument carries a cell, and an argument carries a cell just
when it is a bare name that means it. Calls pass on just these arguments, and callbacks carry none.
The references of a call are the parameters that are references by declaration, each to the cell that
its argument carries. -/
theorem aliases_are_references (config : Config) (fuel : Nat) :
    (∀ (m : Machine) (s : Session), Region.all.Closed m.store → m.store.Unaliased →
      Session.GroundedReachable config fuel m s →
      s.machine.store.Accounted ∧
      ∀ work : Work, work.Grounded s.machine →
        Throughout s.config s.fuel (fun _ m' => m'.store.Accounted) work.run s.machine) ∧
    (∀ s : Store, s.Accounted → ∀ e e' i, s.graph.IsOwn e → s.graph.IsOwn e' →
      s.BindsBoth e e' i → e = e') ∧
    (∀ m : Machine, m.store.Accounted →
      ∀ (α : Type) (p : Place) (f : Handles → Edit α) (e e' : Entry) (i j : CellId),
        p.root = .inl i → m.store.graph.cellAt? e = some i → m.store.graph.cellAt? e' = some j →
        ((p.editRoot f).after m).store.cell j ≠ m.store.cell j → m.store.Linked e e' i) ∧
    (∀ (param : Param) (arg : Arg) (m : Machine),
      Run.Ends (Eval.paramCell param arg) m
        (fun i m' => i = m.store.cells.size ∧ i < m'.store.cells.size ∨
          param.attrs.isRef = true ∧ arg.cell = some i) fun _ => True) ∧
    (∀ (ev : Evaluator) (c : CtxId) (es : List Expr) (m m' : Machine) (args : List Arg),
      Eval.args ev c es m = .ok args m' ↔ Eval.Gives ev c m es args m') ∧
    (∀ ev : Evaluator, Eval.Passes config ev) ∧
    ∀ (callee : Callee) (args : List Arg) (m m₁ : Machine) (c : CtxId),
      callee.prepare args m = .ok c m₁ →
      (∀ height name i, m₁.store.graph.IsReference ⟨c, height, name⟩ i ↔
        height = (callee.kind args).paramHeight ∧
          ∃ param arg, (param, arg) ∈ callee.params.zip args ∧ param.attrs.isRef = true ∧
            param.name = name ∧ arg.cell = some i) ∧
      ∀ ev span, callee.call ev args span m = callee.enter ev c span m₁ := by
  refine ⟨?_, ?_, ?_, ?_, ?_, Eval.passes config, ?_⟩
  · intro m s closed fresh reached
    obtain ⟨⟨w, same⟩, -⟩ := reached.ledger closed
    refine ⟨same ▸ w.accounted fresh, fun work grounded => ?_⟩
    refine Work.throughout_of_ledgers grounded same fun _ m₁ w₁ _ _ _ hm₁ _ => ?_
    exact hm₁ ▸ w₁.accounted fresh
  · intro s accounted e e' i own own' both
    exact accounted.eq_of_isOwn own own' both
  · intro m accounted α p f e e' i j root bound bound' changed
    have same : i = j := by
      refine Decidable.byContradiction fun ne => changed ?_
      exact (p.after_editRoot f m).2 j fun h => ne (Sum.inl.inj (root.symm.trans h))
    exact accounted e e' i ⟨bound, same ▸ bound'⟩
  · intro param arg m
    rw [Run.Ends]
    rcases Run.paramCell_cases param arg m with
      ⟨i, run, isRef, cell⟩ | ⟨v, run, -⟩ | ⟨fault, run, -⟩
    · rw [run]
      exact .inr ⟨isRef, cell⟩
    · rw [run]
      refine .inl ⟨rfl, ?_⟩
      rw [Store.addCell, Array.size_push]
      exact Nat.lt_succ_self _
    · rw [run]
      trivial
  · intro ev c es m m' args
    exact Eval.args_eq_ok_iff ev c es
  · intro callee args m m₁ c prepared
    exact ⟨Callee.isReference_of_prepare prepared, Callee.call_of_prepare prepared⟩

/-- A function is called with a variable for a parameter that is a reference. The parameter and the
variable bind one cell, and it is the parameter that is the reference. -/
theorem aliases_are_references_call :
    let span : Span := ⟨0, 1⟩
    let param : Param := ⟨"y", none, ⟨false, false, true⟩⟩
    let f : FuncDecl := ⟨"f", [param], none, [], .none⟩
    let start := Session.start ⟨[], none⟩ 4 (.start .empty .silent [] none)
    let s₁ := (start.runLine ⟨.letVar "x" none ⟨.int 1, span⟩ .none, span⟩).2
    let s₂ := (s₁.runLine ⟨.defFunc f, span⟩).2
    let s := (s₂.runLine ⟨.expr ⟨.call "f" [⟨.name "x", span⟩], span⟩, span⟩).2
    s.machine.store.BindsBoth ⟨0, 1, "x"⟩ ⟨1, 1, "y"⟩ 0 ∧ s.machine.store.Accounted ∧
      s.machine.store.graph.IsReference ⟨1, 1, "y"⟩ 0 := by
  intro span param f start s₁ s₂ s
  have both : s.machine.store.BindsBoth ⟨0, 1, "x"⟩ ⟨1, 1, "y"⟩ 0 :=
    ⟨by decide +kernel, by decide +kernel⟩
  have reached : Session.GroundedReachable ⟨[], none⟩ 4 (.start .empty .silent [] none) s :=
    ((Relation.ReflTransGen.single (.line start _)).tail (.line s₁ _)).tail (.line s₂ _)
  have accounted := ((aliases_are_references ⟨[], none⟩ 4).1 _ s
    Region.closed_empty Store.unaliased_empty reached).1
  refine ⟨both, accounted, ?_⟩
  rcases accounted _ _ _ both with same | refers | refers
  · cases same
  · cases (refers.not_world).symm.trans (by decide +kernel : s.machine.store.graph.isWorld 0 = true)
  · exact refers

end TreeScript
