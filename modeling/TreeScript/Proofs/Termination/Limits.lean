import Mathlib
import TreeScript.Proofs.Run.Work
import TreeScript.Proofs.Termination.Evaluation

/-!
# Limited recursion terminates

Where the number of calls is limited and only finitely many modules can be imported, whatever begins
with bounded code and gets at no other comes to an end.
-/
namespace TreeScript

open Filter

/-- With enough fuel the run always ends in the same way, and for good: with a result, with a failure,
which may be an exit, or in the midst of writing to a file a value whose text names that file. -/
def Run.Terminates {α : Type} (x : Nat → Run α) (m : Machine) : Prop :=
  ∃ result, (∀ stop m', result = .error stop m' → stop.Final) ∧ ∃ n, ∀ fuel ≥ n, x fuel m = result

theorem Run.Settles.terminates {α : Type} {r : Standing} {Q : α → Prop} {x : Nat → Run α}
    {m : Machine} (h : Run.Settles r Q x) (hm : m.Stands r) : Run.Terminates x m := by
  obtain ⟨result, ended, always⟩ := h m hm
  refine ⟨result, ?_, eventually_atTop.mp always⟩
  rintro stop m' rfl
  exact ended.1

/-- All code that can be got at from the contexts is bounded: they are in some part of the store that
nothing leads out of, and that has no other code in it. -/
def Store.BoundedFrom (s : Store) (contexts : List CtxId) : Prop :=
  ∃ p : Part, p.Bounded s ∧ ∀ c ∈ contexts, p.Ctx c

/-- Nothing can be got at from the World of a new session. -/
theorem Store.boundedFrom_addWorld (contexts : List CtxId) :
    Store.empty.addWorld.2.BoundedFrom contexts := by
  let p : Part := ⟨fun _ => True, fun _ => True⟩
  have none : p.Open .empty := by
    refine ⟨⟨fun c ctx _ hctx => ?_, fun _ _ => Value.Hereditary.unit⟩, fun _ _ => trivial,
      fun _ _ => trivial⟩
    cases hctx
  have world : p.Open Store.empty.addWorld.2 :=
    none.addContext (fun _ _ => trivial) ⟨rfl, rfl, rfl⟩
  exact ⟨p, world.toBounded, fun _ _ => trivial⟩

/-- Programs that are given from the start have finitely many paths. -/
theorem Loader.loadsBounded_ofList (args : List String) {programs : List (String × Program)}
    (bounded : ∀ entry ∈ programs, blockBounded entry.2 = true) :
    Config.LoadsBounded ⟨args, some (.ofList programs)⟩ (programs.map Prod.fst).toFinset := by
  rintro loader ⟨⟩ tree path code loaded
  unfold Loader.ofList at loaded
  cases found : programs.lookup path with
  | none =>
    rw [found] at loaded
    cases loaded
  | some program =>
    rw [found] at loaded
    cases loaded
    obtain ⟨before, after, rfl, -⟩ := List.lookup_eq_some_iff.mp found
    have mem : (path, code) ∈ before ++ (path, code) :: after := by simp
    exact ⟨List.mem_toFinset.mpr (List.mem_map.mpr ⟨_, mem, rfl⟩), bounded _ mem⟩

/-- The code that the work begins with is bounded. -/
def Work.Bounded : Work → Prop
  | expr e _ => e.isBounded = true
  | stmt s _ | line s _ => s.isBounded = true
  | batch p _ => blockBounded p = true
  | callback closure args _ => blockBounded closure.body = true ∧ ∀ v ∈ args, v.Bounded

/-- **Limited recursion terminates.** If the number of calls is limited, and the modules that can be
loaded have finitely many paths, then whatever work is done with a machine, in whatever state it is,
comes to an end, unless there is a `while` loop or a call of `copy` in the code that it begins with, in
that of the modules or in what it can get at in the store. It ends with a value, a failure or an exit,
or else it was writing to a file a value whose text names that file. -/
theorem limited_recursion_terminates (config : Config) (paths : Finset String)
    (loads : config.LoadsBounded paths) (m : Machine) (limited : m.calls.limit.isSome) (work : Work)
    (bounded : work.Bounded) (store : m.store.BoundedFrom work.contexts) :
    Run.Terminates (fun fuel => work.run (evaluator config fuel)) m := by
  obtain ⟨p, closed, contexts⟩ := store
  let r : Standing := ⟨m.calls, m.importing, p.grow m.store⟩
  have stands : m.Stands r := ⟨rfl, rfl, closed.grow⟩
  have calm (k : Nat) : Calm (evaluator config) r k := evaluator_calm loads r limited k
  have below : CalmBelow (evaluator config) paths r :=
    ⟨limited, fun r' hr k => evaluator_calm loads r' (hr.limit ▸ limited) k⟩
  obtain ⟨places, values⟩ := Work.forall_contexts.mp contexts
  have place {c : CtxId} (hc : c ∈ work.places) : r.part.Ctx c := .inl (places c hc)
  have value {v : Value} (hv : v ∈ work.values) (bounded : v.Bounded) : r.part.Val v :=
    ⟨(values v hv).mono fun _ => .inl, bounded⟩
  have done : Run.Settles.Done r fun fuel => work.run (evaluator config fuel) := by
    cases work with
    | expr e c =>
      exact .bind ((calm _).expr e c (place List.mem_cons_self) (Nat.lt_succ_self _) bounded)
        fun _ _ => .pure trivial
    | stmt s c =>
      exact .bind ((calm _).stmt s c (place List.mem_cons_self) (Nat.lt_succ_self _) bounded)
        fun _ _ => .pure trivial
    | batch p world =>
      exact .holding _ (.program (calm _) (place List.mem_cons_self) p (Nat.le_refl _) bounded)
    | line s world =>
      have ran := (calm _).stmt s world (place List.mem_cons_self) (Nat.lt_succ_self _) bounded
      exact .bind (ran.holding _) fun _ _ => .pure trivial
    | callback closure args span =>
      refine .bind (.callback below span closure args ?_ fun v hv => ?_) fun _ _ => .pure trivial
      · exact value List.mem_cons_self (Value.bounded_closure.mpr bounded.1)
      · exact value (List.mem_cons_of_mem _ hv) (bounded.2 v hv)
  exact done.terminates stands

/-- Two modules import each other, and a function imports one of them and calls itself. -/
theorem limited_recursion_terminates_mutual :
    let span : Span := ⟨0, 1⟩
    let programs : List (String × Program) :=
      [("a", [⟨.importPath "b", span⟩]), ("b", [⟨.importPath "a", span⟩])]
    let config : Config := ⟨[], some (.ofList programs)⟩
    let call : Stmt := ⟨.expr ⟨.call "f" [], span⟩, span⟩
    let s := Session.start config 0 (.start .empty .silent [] (some 100))
    let code : Program :=
      [⟨.defFunc ⟨"f", [], none, [call, ⟨.importPath "a", span⟩], .none⟩, span⟩, call]
    s.machine.calls.limit.isSome = true ∧ blockBounded code = true ∧
      Run.Terminates (fun fuel => (Work.batch code s.world).run (evaluator config fuel)) s.machine :=
  ⟨rfl, rfl, limited_recursion_terminates _ _ (Loader.loadsBounded_ofList [] (by decide)) _ rfl _ rfl
    (Store.boundedFrom_addWorld _)⟩

/-- `let f = open("x", "w"); f.write(f);` -/
def selfWritten : Program :=
  let span : Span := ⟨0, 1⟩
  let expr (node : ExprNode) : Expr := ⟨node, span⟩
  [⟨.letVar "f" none (expr (.call "open" [expr (.str "x"), expr (.str "w")])) .none, span⟩,
    ⟨.expr (expr (.member (expr (.name "f")) (expr (.call "write" [expr (.name "f")])))), span⟩]

/-- A file that is written to itself. Calls are limited, there is nothing to import and all code is
bounded, but however much fuel there is, that is no failure and no exit, and it gives no value. -/
theorem selfWritten_panics :
    let config : Config := ⟨[], none⟩
    let s := Session.start config 0 (.start .empty .silent [] (some 8))
    let work : Work := .batch selfWritten s.world
    config.LoadsBounded ∅ ∧ s.machine.calls.limit.isSome ∧ work.Bounded ∧
      s.machine.store.BoundedFrom work.contexts ∧
      ∀ fuel, ∃ m, work.run (evaluator config (fuel + 3)) s.machine =
        .error (.panicked 0 (.file 0)) m := by
  refine ⟨nofun, rfl, rfl, Store.boundedFrom_addWorld _, fun fuel => ⟨?left, ?panics⟩⟩
  case panics =>
    cbv
    rfl

end TreeScript
