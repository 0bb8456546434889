import TreeScript.Proofs.Run.Moment

/-!
# Calls in two parts

Every call of a program checks its arguments first and makes a context for them. Then it is entered,
if there is room for one more call.
-/
namespace TreeScript

namespace Callee

open Eval

/-- The whole call. -/
def call (callee : Callee) (ev : Evaluator) (args : List Arg) (span : Span) : Run Value :=
  match callee with
  | .func f => callFunc ev f args span
  | .closure cl => callClosure ev cl args span
  | .class decl world => instantiate ev decl world args span

/-- Checks the number of arguments, and that the owner of the code is still there. -/
def check (callee : Callee) (args : List Arg) : Run Unit :=
  match callee with
  | .func f => do
    checkArity f.decl.name f.decl.params args
    Run.holding (args.flatMap Arg.holds) (Run.letGo fun _ => f.owner)
    if !(← Run.graph).isLive f.owner then Run.raise (.functionOutlived f.decl.name)
  | .closure cl => do
    checkArity "closure" cl.params args
    Run.holding (.value (.closure cl) :: args.flatMap Arg.holds) do
      Run.letGo fun _ => cl.captured
    if ((← Run.graph).follow cl.captured).isNone then Run.raise .closureOutlived
  | .class decl _ => checkArity decl.name decl.params args

/-- Binds the parameters, and declares the methods of an instance. -/
def setUp (callee : Callee) (c : CtxId) (args : List Arg) : Run Unit :=
  match callee with
  | .func f => bindParams (Run.bindCell c) f.decl.params args
  | .closure cl => bindParams (Run.bindCell c) cl.params args
  | .class decl _ => do
    bindParams (fun name i => Run.declare (.ofArgument c name i)) decl.params args
    declareMethods c decl.methods

/-- The first part: checks the arguments and sets up the context of the call. -/
def prepare (callee : Callee) (args : List Arg) : Run CtxId := do
  callee.check args
  let c ← Run.newContext (callee.kind args)
  callee.setUp c args
  return c

/-- The second part: runs the code in its context. -/
def enter (callee : Callee) (ev : Evaluator) (c : CtxId) (span : Span) : Run Value :=
  match callee with
  | .func f => do
    let v ← Run.holding [.context f.owner, .context c] do
      Run.inCall f.decl.name span (body ev c f.decl.body)
    Run.locating span do Run.ofExcept (v.annotate (← Run.handles) f.decl.result)
  | .closure cl =>
    Run.holding [.context cl.captured, .context c] do
      Run.inCall "<closure>" span (body ev c cl.body)
  | .class decl world => do
    Run.ensuring
      (Run.holding [.context world, .context c] do
        Run.inCall decl.name span (construct ev c decl span))
      (Run.clearArguments c)
    return .object c

end Callee

namespace Run

variable {α β : Type} {m m' : Machine}

theorem bind_eq_ok {x : Run α} {k : α → Run β} {b : β} (h : (x >>= k) m = .ok b m') :
    ∃ a m₁, x m = .ok a m₁ ∧ k a m₁ = .ok b m' := by
  rw [bind_apply] at h
  cases hx : x m with
  | ok a m₁ => exact ⟨a, m₁, rfl, by rw [hx] at h; exact h⟩
  | error stop m₁ => rw [hx] at h; cases h

theorem bind_of_ok {x : Run α} {a : α} (k : α → Run β) (h : x m = .ok a m') :
    (x >>= k) m = k a m' := by
  rw [bind_apply, h]

end Run

namespace Callee

open Eval

variable {m m₁ : Machine} {c : CtxId} {args : List Arg}

theorem call_func (f : Func) (args : List Arg) (ev : Evaluator) (span : Span) :
    (func f).call ev args span =
      (func f).prepare args >>= fun c => (func f).enter ev c span := by
  simp only [call, callFunc, prepare, check, setUp, kind, params, enter, bind_assoc, pure_bind]
  refine bind_congr fun _ => bind_congr fun _ => bind_congr fun g => ?_
  split
  · rfl
  · rw [pure_bind]

theorem call_closure (cl : Closure) (args : List Arg) (ev : Evaluator) (span : Span) :
    (closure cl).call ev args span =
      (closure cl).prepare args >>= fun c => (closure cl).enter ev c span := by
  simp only [call, callClosure, prepare, check, setUp, kind, params, enter, bind_assoc, pure_bind]
  refine bind_congr fun _ => bind_congr fun _ => bind_congr fun g => ?_
  cases ho : g.follow cl.captured with
  | none => rfl
  | some owner =>
    obtain rfl : cl.captured = owner := Graph.eq_of_follow ho
    simp

/-- What the first part has done when it succeeds. -/
theorem prepare_eq_ok {callee : Callee} (h : callee.prepare args m = .ok c m₁) :
    ∃ m₂ m₃, callee.check args m = .ok () m₂ ∧ Run.newContext (callee.kind args) m₂ = .ok c m₃ ∧
      callee.setUp c args m₃ = .ok () m₁ := by
  rw [prepare] at h
  obtain ⟨_, m₂, checked, h⟩ := Run.bind_eq_ok h
  obtain ⟨c', m₃, added, h⟩ := Run.bind_eq_ok h
  obtain ⟨_, m₄, set, h⟩ := Run.bind_eq_ok h
  cases h
  exact ⟨m₂, m₃, checked, added, set⟩

/-- A call that has been prepared is entered. -/
theorem call_of_prepare {callee : Callee} (h : callee.prepare args m = .ok c m₁) (ev : Evaluator)
    (span : Span) : callee.call ev args span m = callee.enter ev c span m₁ := by
  cases callee with
  | func f => rw [call_func, Run.bind_of_ok _ h]
  | closure cl => rw [call_closure, Run.bind_of_ok _ h]
  | «class» decl world =>
    -- the constructor arguments are dropped even if the set-up fails, which it does not here
    obtain ⟨m₂, m₃, checked, added, set⟩ := prepare_eq_ok h
    obtain ⟨_, m₄, bound, declared⟩ := Run.bind_eq_ok set
    rw [check] at checked
    rw [kind, params] at added
    rw [call, instantiate, Run.bind_of_ok _ checked, Run.bind_of_ok _ added, enter, Run.bind_apply,
      Run.bind_apply, Run.ensuring, Run.ensuring, Run.bind_of_ok _ bound, Run.bind_of_ok _ declared]
    rfl

variable {L : Run.Logic} {ev₁ ev₂ : Evaluator}

open Run.Logic in
theorem check_keeps (callee : Callee) (args : List Arg) : L.Keeps .clean (callee.check args) := by
  cases callee with
  | func f =>
    refine L.bind (Run.Logic.checkArity _ _ _) fun _ => ?_
    refine L.bind (L.holding _ (L.letGo _)) fun _ => L.bind graph fun g => ?_
    split
    · exact fault _
    · exact ret ()
  | closure cl =>
    refine L.bind (Run.Logic.checkArity _ _ _) fun _ => ?_
    refine L.bind (L.holding _ (L.letGo _)) fun _ => L.bind graph fun g => ?_
    split
    · exact fault _
    · exact ret ()
  | «class» decl world => exact Run.Logic.checkArity _ _ _

theorem setUp_keeps (callee : Callee) (args : List Arg) :
    L.Keeps (.setup c) (callee.setUp c args) := by
  cases callee with
  | func f => exact Run.Logic.bindParams L.bindCell _ _
  | closure cl => exact Run.Logic.bindParams L.bindCell _ _
  | «class» decl world =>
    refine L.bind (Run.Logic.bindParams L.declareArgument _ _) fun _ => ?_
    exact L.setup_of_names (Run.Logic.declareMethods _)

theorem prepare_keeps (callee : Callee) (args : List Arg) :
    L.Keeps .clean (callee.prepare args) := by
  refine L.bind (check_keeps callee args) fun _ => L.newContext _ fun c => ?_
  exact L.bind (setUp_keeps callee args) fun _ => Run.Logic.ret c

open Run.Logic in
theorem enter_rel (h : L.Relates ev₁ ev₂) (callee : Callee) (span : Span) :
    L.Rel (.setup c) (callee.enter ev₁ c span) (callee.enter ev₂ c span) := by
  cases callee with
  | func f =>
    refine L.bind (L.holding _ (L.inCall _ _ (L.setup_of_names (Run.Logic.body h _)))) fun v => ?_
    exact L.locating _ (ofHandles fun h => v.annotate h f.decl.result)
  | closure cl => exact L.holding _ (L.inCall _ _ (L.setup_of_names (Run.Logic.body h _)))
  | «class» decl world =>
    refine L.bind (L.clearingArguments ?_) fun _ => ret _
    exact L.holding _ (L.inCall _ _ (L.setup_of_names (Run.Logic.construct h decl span)))

/-- A call is prepared: it has a new context, in which its parameters are bound, and nothing else
has changed that names can tell. -/
structure Prepared (callee : Callee) (args : List Arg) (m m₁ : Machine) (c : CtxId) : Prop where
  later : m.Later m.store.graph.size m₁
  kept : m.Kept .clean m₁
  new : c = m.store.graph.size
  there : c < m₁.store.graph.size
  skeleton : m₁.store.graph.skeleton? c = some (callee.kind args).skeleton

theorem of_checkArity {name : String} {params : List Param} {u : Unit}
    (h : checkArity name params args m = .ok u m₁) : m₁ = m := by
  unfold checkArity at h
  split at h
  · cases h
    rfl
  · cases h

/-- Only contexts may have been let go, and none as long as it is not known what is held from
outside. -/
structure Released (m m₁ : Machine) : Prop where
  size : m₁.store.graph.size = m.store.graph.size
  cells : m₁.store.cells = m.store.cells
  unchanged : m.outside = none → m₁ = m

theorem of_letGo {holds : List Hold} {sought : Graph → CtxId} {u : Unit}
    (h : Run.holding holds (Run.letGo sought) m = .ok u m₁) : Released m m₁ := by
  rw [Run.holding, Run.ensuring] at h
  rcases Run.letGo_apply sought { m with held := holds ++ m.held } with e | ⟨outside, known, e⟩
  · rw [e] at h
    cases h
    exact ⟨rfl, rfl, fun _ => rfl⟩
  · rw [e] at h
    cases h
    exact ⟨Store.size_release _ _, rfl, fun ho => by cases ho.symm.trans known⟩

/-- The owner of the code is there, as far as that is checked. -/
def OwnerThere (callee : Callee) (g : Graph) : Prop :=
  match callee with
  | .func f => g.isLive f.owner = true
  | .closure cl => g.follow cl.captured = some cl.captured
  | .class .. => True

/-- A check at the end of a run. -/
theorem of_raiseIf {b : Graph → Bool} {fault : Fault} {u : Unit}
    (h : (do if b (← Run.graph) then Run.raise fault : Run Unit) m = .ok u m₁) :
    m₁ = m ∧ b m.store.graph = false := by
  obtain ⟨g, m₂, seen, h⟩ := Run.bind_eq_ok h
  cases seen
  split at h
  · cases h
  · rename_i passed
    cases h
    exact ⟨rfl, by simpa using passed⟩

theorem of_check {callee : Callee} {u : Unit} (h : callee.check args m = .ok u m₁) :
    Released m m₁ ∧ callee.OwnerThere m₁.store.graph := by
  cases callee with
  | func f =>
    obtain ⟨_, m₂, arity, rest⟩ := Run.bind_eq_ok h
    cases of_checkArity arity
    obtain ⟨_, m₃, released, check⟩ := Run.bind_eq_ok rest
    obtain ⟨rfl, there⟩ := of_raiseIf check
    exact ⟨of_letGo released, by simpa [OwnerThere] using there⟩
  | closure cl =>
    obtain ⟨_, m₂, arity, rest⟩ := Run.bind_eq_ok h
    cases of_checkArity arity
    obtain ⟨_, m₃, released, check⟩ := Run.bind_eq_ok rest
    obtain ⟨rfl, there⟩ := of_raiseIf check
    refine ⟨of_letGo released, ?_⟩
    cases hf : m₁.store.graph.follow cl.captured with
    | none =>
      rw [hf] at there
      cases there
    | some owner => exact hf.trans (congrArg some (Graph.eq_of_follow hf).symm)
  | «class» decl world =>
    cases of_checkArity h
    exact ⟨⟨rfl, rfl, fun _ => rfl⟩, trivial⟩

theorem prepared {callee : Callee} (h : callee.prepare args m = .ok c m₁) :
    callee.Prepared args m m₁ c := by
  have agree := (prepare_keeps (L := Run.Logic.after m.store.graph.size m (Nat.le_refl _)) callee
    args) m .refl Footprint.within_clean
  have later := agree.later
  have kept := agree.kept
  rw [Run.after, h] at later kept
  obtain ⟨m₂, m₃, checked, added, set⟩ := prepare_eq_ok h
  have hc : c = m₂.store.graph.size := (EStateM.Result.ok.inj added).1.symm
  have hm : m₃.store.graph = (m₂.store.graph.add (callee.kind args)).2 :=
    congrArg (·.store.graph) (EStateM.Result.ok.inj added).2.symm
  have there : c < m₃.store.graph.size := by
    rw [hm, Graph.size_add, hc]
    exact Nat.lt_succ_self _
  -- the context keeps its skeleton while it is set up
  have grown := (Run.agree_of_rel (setUp_keeps (L := Run.Logic.after 0 m₃ (Nat.zero_le _)) callee
    args) (by rintro _ ⟨⟩; exact there)).later.extends
  rw [Run.after, set] at grown
  constructor
  · exact later
  · exact kept
  · exact hc.trans (of_check checked).1.size
  · exact Nat.lt_of_lt_of_le there grown.contexts
  · rw [grown.skeletons c there, hm, hc]
    exact Graph.skeleton?_add_self _

end Callee

end TreeScript
