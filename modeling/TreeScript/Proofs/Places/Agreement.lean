import TreeScript.Proofs.Calls.Callee
import TreeScript.Proofs.Imports.Isolation
import TreeScript.Proofs.Lifetime.Survival
import TreeScript.Proofs.Privacy.Access

/-!
# Four ways to a place

An expression is looked at in four ways: as a value, as the place that a member works on, as the
target of an assignment, and as an argument that may be passed by reference. Each of them resolves
names by itself. They agree: what is a target is a place of the same variable, its value is what
stands there, and an argument passes a variable just when its name is a target.
-/
namespace TreeScript

variable {ev : Evaluator} {c : CtxId} {e : Expr} {m m' : Machine} {p : Place} {name : String}

/-- The machine as names are looked up in it from a context on: what nothing holds is let go. -/
def Machine.seenFrom (m : Machine) (c : CtxId) : Machine := (Run.letGo (·.origin c)).after m

namespace Run

theorem letGo_ok (c : CtxId) (m : Machine) : letGo (·.origin c) m = .ok () (m.seenFrom c) := by
  rw [Machine.seenFrom, after]
  rcases letGo_apply (·.origin c) m with h | ⟨outside, -, h⟩ <;> rw [h]

theorem storeFrom_ok (c : CtxId) (m : Machine) :
    storeFrom c m = .ok (m.seenFrom c).store (m.seenFrom c) := by
  rw [storeFrom, bind_of_ok _ (letGo_ok c m)]
  rfl

theorem graphFrom_ok (c : CtxId) (m : Machine) :
    graphFrom c m = .ok (m.seenFrom c).store.graph (m.seenFrom c) := by
  rw [graphFrom, bind_of_ok _ (storeFrom_ok c m)]
  rfl

end Run

namespace Machine

/-- Whether the World of the code is held itself, so that nothing has to be let go before names are
looked up. -/
def HoldsOrigin (m : Machine) (c : CtxId) (outside : List Hold) : Prop :=
  ∃ hold ∈ m.held ++ outside, hold.isOf (m.store.graph.origin c) = true

theorem seenFrom_of_none (nothing : m.outside = none) : m.seenFrom c = m := by
  rw [seenFrom, Run.after, Run.letGo, nothing]

theorem seenFrom_of_some {outside : List Hold} (known : m.outside = some outside) :
    (m.HoldsOrigin c outside ∧ m.seenFrom c = m) ∨
      (¬ m.HoldsOrigin c outside ∧
        m.seenFrom c = { m with store := m.store.release (m.held ++ outside) }) := by
  have held : m.HoldsOrigin c outside ↔ (m.held.any (·.isOf (m.store.graph.origin c)) ||
      outside.any (·.isOf (m.store.graph.origin c))) = true := by
    rw [← List.any_append, List.any_eq_true, HoldsOrigin]
  rw [seenFrom, Run.after, Run.letGo, known]
  dsimp only
  by_cases h : m.HoldsOrigin c outside
  · exact .inl ⟨h, by rw [if_pos (held.mp h)]⟩
  · exact .inr ⟨h, by rw [if_neg (mt held.mpr h)]⟩

/-- Looking names up a second time lets nothing go, even if more is held than the first time. -/
theorem seenFrom_again (m : Machine) (c : CtxId) (more : List Hold) :
    { m.seenFrom c with held := more ++ m.held }.seenFrom c =
      { m.seenFrom c with held := more ++ m.held } := by
  cases known : m.outside with
  | none =>
    rw [seenFrom_of_none known]
    exact seenFrom_of_none known
  | some outside =>
    rcases seenFrom_of_some (c := c) known with ⟨⟨hold, mem, is⟩, first⟩ | ⟨-, first⟩
    · -- what held the World of the code the first time still does
      rw [first]
      have still : HoldsOrigin { m with held := more ++ m.held } c outside := by
        refine ⟨hold, ?_, is⟩
        rw [List.append_assoc]
        exact List.mem_append_right more mem
      exact ((seenFrom_of_some (m := { m with held := more ++ m.held }) known).resolve_right
        fun h => h.1 still).2
    · rw [first]
      let m₁ : Machine :=
        { m with store := m.store.release (m.held ++ outside), held := more ++ m.held }
      rcases seenFrom_of_some (m := m₁) (c := c) known with ⟨-, second⟩ | ⟨-, second⟩
      · exact second
      · refine second.trans ?_
        show { m₁ with store := m₁.store.release (more ++ m.held ++ outside) } = m₁
        rw [List.append_assoc, Store.release_again]

theorem held_seenFrom (m : Machine) (c : CtxId) : (m.seenFrom c).held = m.held := by
  cases known : m.outside with
  | none => rw [seenFrom_of_none known]
  | some outside =>
    rcases seenFrom_of_some (c := c) known with ⟨-, h⟩ | ⟨-, h⟩ <;> rw [h]

/-- Looking names up twice is looking them up once. -/
theorem seenFrom_seenFrom (m : Machine) (c : CtxId) :
    (m.seenFrom c).seenFrom c = m.seenFrom c := by
  have again := seenFrom_again m c []
  rw [List.nil_append, ← held_seenFrom m c] at again
  exact again

/-- The graph as it is seen once names have been looked up is the one that is seen while more is
held. -/
theorem holding_graphFrom (m : Machine) (c : CtxId) (more : List Hold) :
    Run.holding more (Run.graphFrom c) (m.seenFrom c) =
      .ok (m.seenFrom c).store.graph (m.seenFrom c) := by
  rw [Run.holding, Run.ensuring, Run.graphFrom_ok, held_seenFrom, seenFrom_again]
  rw [← held_seenFrom m c]

end Machine

namespace Place

/-- The place is a variable or lies inside one. -/
def OfVariable (p : Place) : Prop := p.root.isLeft = true

theorem ofVariable_ofCell (i : CellId) : (ofCell i).OfVariable := rfl

theorem not_ofVariable_ofValue (v : Value) : ¬ (ofValue v).OfVariable := Bool.false_ne_true

/-- Reading leaves the machine as it is. -/
theorem after_read (p : Place) (m : Machine) : p.read.after m = m := by
  obtain ⟨root, path⟩ := p
  cases root with
  | inl i =>
    show (Run.ofExcept (Value.read m.handles path (m.store.cell i).value)).after m = m
    cases Value.read m.handles path (m.store.cell i).value <;> rfl
  | inr v =>
    show (Run.ofExcept (Value.read m.handles path v)).after m = m
    cases Value.read m.handles path v <;> rfl

end Place

namespace Eval

open Run (bind_eq_ok bind_of_ok)

/-- A value that is given a place makes no place of a variable. -/
theorem not_ofVariable_of_ofValue {x : Run Value}
    (h : (do return Place.ofValue (← x)) m = .ok p m') : ¬ p.OfVariable := by
  obtain ⟨v, m₁, -, h⟩ := bind_eq_ok h
  cases h
  exact Place.not_ofVariable_ofValue v

/-- The place of a name: its variable, unless a module of that name is known. -/
theorem place_name_eq (ev : Evaluator) (name : String) (span : Span) (c : CtxId) (m : Machine) :
    place ev c ⟨.name name, span⟩ m =
      (match (m.seenFrom c).store.graph.import? c name, (m.seenFrom c).store.graph.var? c name with
        | none, some i => pure (.ofCell i)
        | _, _ => do return .ofValue (← nameValue name c) : Run Place) (m.seenFrom c) := by
  rw [place]
  exact bind_of_ok _ (Run.graphFrom_ok c m)

theorem target_name_eq (ev : Evaluator) (name : String) (span : Span) (c : CtxId) (m : Machine) :
    target ev c ⟨.name name, span⟩ m =
      (match (m.seenFrom c).store.graph.import? c name, (m.seenFrom c).store.graph.var? c name with
        | some _, _ => Run.raise (.notAssignable ("module `" ++ name ++ "`"))
        | none, some i => pure (.ofCell i)
        | none, none =>
          if name = "this" && ((m.seenFrom c).store.graph.enclosingObject? c).isSome then
            Run.raise (.notAssignable "`this`")
          else Run.raise (.undeclared "variable" name) : Run Place) (m.seenFrom c) := by
  rw [target]
  exact bind_of_ok _ (Run.graphFrom_ok c m)

/-- **Targets.** What can be assigned to is exactly what has a place in a variable, and it is that
place. -/
theorem target_eq_ok_iff (ev : Evaluator) (c : CtxId) (e : Expr) (m m' : Machine) (p : Place) :
    target ev c e m = .ok p m' ↔ place ev c e m = .ok p m' ∧ p.OfVariable := by
  fun_induction target ev c e generalizing m m' p with
  | case1 name span =>
    rw [bind_of_ok _ (Run.graphFrom_ok c m), place_name_eq]
    cases (m.seenFrom c).store.graph.import? c name with
    | some world =>
      refine iff_of_false (fun h => ?_) fun h => not_ofVariable_of_ofValue h.1 h.2
      cases h
    | none =>
      cases (m.seenFrom c).store.graph.var? c name with
      | some i =>
        refine (and_iff_left_of_imp fun h => ?_).symm
        cases h
        exact Place.ofVariable_ofCell i
      | none =>
        refine iff_of_false (fun h => ?_) fun h => not_ofVariable_of_ofValue h.1 h.2
        dsimp only at h
        split at h <;> cases h
  | case2 left index span ih =>
    rw [place]
    constructor
    · intro h
      obtain ⟨q, m₁, found, rest⟩ := bind_eq_ok h
      obtain ⟨found, inside⟩ := (ih m m₁ q).mp found
      refine ⟨(bind_of_ok _ found).trans rest, ?_⟩
      obtain ⟨v, m₂, -, rest⟩ := bind_eq_ok rest
      cases rest
      exact inside
    · rintro ⟨h, inside⟩
      obtain ⟨q, m₁, found, rest⟩ := bind_eq_ok h
      have inside : q.OfVariable := by
        obtain ⟨v, m₂, -, rest⟩ := bind_eq_ok rest
        cases rest
        exact inside
      exact (bind_of_ok _ ((ih m m₁ q).mpr ⟨found, inside⟩)).trans rest
  | case3 left field span₁ span₂ =>
    rw [place]
    refine (and_iff_left_of_imp fun h => ?_).symm
    obtain ⟨v, m₁, -, found⟩ := bind_eq_ok h
    obtain ⟨i, rfl, -⟩ := eq_ofCell_of_fieldOf found
    exact Place.ofVariable_ofCell i
  | case4 e name index member =>
    rw [place.eq_4 ev c e name index member]
    refine iff_of_false (fun h => ?_) fun h => not_ofVariable_of_ofValue h.1 h.2
    cases h

theorem nameValue_eq (name : String) (c : CtxId) (m : Machine) :
    nameValue name c m =
      (match (m.seenFrom c).store.graph.import? c name with
        | some world => pure (.module world)
        | none =>
          match (m.seenFrom c).store.graph.var? c name with
          | some i => pure ((m.seenFrom c).store.cell i).value
          | none =>
            match (if name = "this" then (m.seenFrom c).store.graph.enclosingObject? c
              else none) with
            | some object => pure (.object object)
            | none => Run.raise (.undeclared "variable" name) : Run Value) (m.seenFrom c) := by
  rw [nameValue]
  exact bind_of_ok _ (Run.storeFrom_ok c m)

/-- The value of what can be assigned to is what is read there. -/
theorem node_of_target {config : Config} (h : target ev c e m = .ok p m') :
    node config ev e c m = p.read m' := by
  fun_cases target ev c e with
  | case1 name span =>
    rw [target_name_eq] at h
    show nameValue name c m = _
    rw [nameValue_eq]
    cases hi : (m.seenFrom c).store.graph.import? c name with
    | some world =>
      rw [hi] at h
      cases h
    | none =>
      rw [hi] at h
      cases hv : (m.seenFrom c).store.graph.var? c name with
      | some i =>
        rw [hv] at h
        cases h
        rfl
      | none =>
        rw [hv] at h
        dsimp only at h
        split at h <;> cases h
  | case2 left index span =>
    exact bind_of_ok _ ((target_eq_ok_iff ev c _ m m' p).mp h).1
  | case3 left field span₁ span₂ =>
    rw [target] at h
    show (do (← fieldOf (← ev.expr left c) field c).read) m = _
    rw [← bind_assoc, bind_of_ok _ h]
  | case4 e name index member =>
    rw [target.eq_4 ev c e name index member] at h
    cases h

theorem expr_of_target {config : Config} (h : target ev c e m = .ok p m') :
    Eval.expr config ev e c m = Run.locating e.span p.read m' := by
  rw [Eval.expr, Run.locating, Run.mapFailure, node_of_target h, Run.locating, Run.mapFailure]

theorem after_expr_of_target {config : Config} (h : target ev c e m = .ok p m') :
    (Eval.expr config ev e c).after m = m' := by
  rw [Run.after, expr_of_target h]
  exact (Run.after_mapFailure _ p.read m').trans (p.after_read m')

end Eval

/-- In a context a bare name stands for a module or for the instance that the code belongs to. A
module comes before any variable, the instance only where no variable is called `this`. The label is
what messages call it. -/
inductive Graph.StandsFor (g : Graph) (c : CtxId) (name : String) : Value → String → Prop
  | module {world : CtxId} (known : g.import? c name = some world) :
    StandsFor g c name (.module world) ("module `" ++ name ++ "`")
  | this {object : CtxId} (is : name = "this") (noModule : g.import? c name = none)
    (noVariable : g.var? c name = none) (inside : g.enclosingObject? c = some object) :
    StandsFor g c name (.object object) "`this`"

namespace Eval

open Run (bind_eq_ok bind_of_ok)

variable {v : Value} {label : String} {span : Span}

theorem nameValue_of_standsFor (h : (m.seenFrom c).store.graph.StandsFor c name v label) :
    nameValue name c m = .ok v (m.seenFrom c) := by
  rw [nameValue_eq]
  cases h with
  | module known =>
    rw [known]
    rfl
  | this is noModule noVariable inside =>
    rw [noModule, noVariable, if_pos is, inside]
    rfl

theorem target_of_standsFor (ev : Evaluator) (span : Span)
    (h : (m.seenFrom c).store.graph.StandsFor c name v label) :
    target ev c ⟨.name name, span⟩ m =
      .error ((m.seenFrom c).raised (.notAssignable label)) (m.seenFrom c) := by
  rw [target_name_eq]
  cases h with
  | module known =>
    rw [known]
    rfl
  | this is noModule noVariable inside =>
    rw [noModule, noVariable, inside, is]
    rfl

theorem place_of_standsFor (ev : Evaluator) (span : Span)
    (h : (m.seenFrom c).store.graph.StandsFor c name v label) :
    place ev c ⟨.name name, span⟩ m = .ok (.ofValue v) (m.seenFrom c) := by
  have value : nameValue name c (m.seenFrom c) = .ok v (m.seenFrom c) := by
    have again := nameValue_of_standsFor (m := m.seenFrom c)
      (by rw [Machine.seenFrom_seenFrom]; exact h)
    rwa [Machine.seenFrom_seenFrom] at again
  have given : (do return Place.ofValue (← nameValue name c)) (m.seenFrom c) =
      .ok (.ofValue v) (m.seenFrom c) := bind_of_ok _ value
  rw [place_name_eq]
  cases h with
  | module known =>
    rw [known]
    exact given
  | this is noModule noVariable inside =>
    rw [noModule, noVariable]
    exact given

/-- The variable that an argument passes if it is the one that its name is a target for. -/
def targetCell? (ev : Evaluator) (c : CtxId) (e : Expr) (m : Machine) : Option CellId :=
  match e.name?, target ev c e m with
  | some _, .ok ⟨.inl i, []⟩ _ => some i
  | _, _ => none

/-- An argument passes a variable just when it is a bare name that is a target, with that variable
for its place. -/
theorem targetCell?_eq_some_iff {i : CellId} :
    targetCell? ev c e m = some i ↔
      e.name?.isSome ∧ ∃ m', target ev c e m = .ok (.ofCell i) m' := by
  rw [targetCell?]
  constructor
  · intro h
    split at h
    · rename_i name j m' named found
      cases h
      exact ⟨by rw [named]; rfl, m', found⟩
    · cases h
  · rintro ⟨named, m', found⟩
    obtain ⟨name, named⟩ := Option.isSome_iff_exists.mp named
    rw [named, found]
    rfl

theorem targetCell?_name (ev : Evaluator) (name : String) (span : Span) (c : CtxId) (m : Machine) :
    targetCell? ev c ⟨.name name, span⟩ m =
      if ((m.seenFrom c).store.graph.import? c name).isNone then
        (m.seenFrom c).store.graph.var? c name
      else none := by
  rw [targetCell?, target_name_eq]
  cases (m.seenFrom c).store.graph.import? c name with
  | some world => rfl
  | none =>
    cases (m.seenFrom c).store.graph.var? c name with
    | some i => rfl
    | none =>
      dsimp only
      split
      · rename_i found
        split at found <;> cases found
      · rfl

theorem targetCell?_of_not_name (h : e.name? = none) : targetCell? ev c e m = none := by
  rw [targetCell?, h]

theorem after_nameValue (name : String) (c : CtxId) (m : Machine) :
    (nameValue name c).after m = m.seenFrom c := by
  rw [Run.after, nameValue_eq]
  cases (m.seenFrom c).store.graph.import? c name with
  | some world => rfl
  | none =>
    cases (m.seenFrom c).store.graph.var? c name with
    | some i => rfl
    | none =>
      cases (if name = "this" then (m.seenFrom c).store.graph.enclosingObject? c else none) <;> rfl

/-- The value of a name is found on the machine as names are looked up in it. -/
theorem machine_of_expr_name {config : Config} {n : Nat} {span : Span} {v : Value}
    (h : (evaluator config n).expr ⟨.name name, span⟩ c m = .ok v m') : m' = m.seenFrom c := by
  cases n with
  | zero => cases h
  | succ n =>
    have same : ((evaluator config (n + 1)).expr ⟨.name name, span⟩ c).after m =
        (nameValue name c).after m := Run.after_mapFailure ..
    rw [after_nameValue, Run.after, h] at same
    exact same

/-- Arguments whose variables are told by `targetCell?`, before each of them is evaluated. -/
def argsByTarget (ev : Evaluator) (c : CtxId) : List Expr → Run (List Arg)
  | [] => pure []
  | e :: rest => do
    let cell ← Run.peek (targetCell? ev c e)
    let value ← ev.expr e c
    let arg : Arg := ⟨value, cell⟩
    return arg :: (← Run.holding arg.holds (argsByTarget ev c rest))

/-- **Arguments.** Arguments pass the variables that their names are targets for. -/
theorem args_eq_argsByTarget (config : Config) (n : Nat) (c : CtxId) (es : List Expr) :
    args (evaluator config n) c es = argsByTarget (evaluator config n) c es := by
  induction es with
  | nil => rfl
  | cons e rest ih =>
    funext m
    rw [argsByTarget, ← ih]
    show _ = ((evaluator config n).expr e c >>= _) m
    cases he : (evaluator config n).expr e c m with
    | error stop m₁ =>
      rw [args, Run.bind_apply, Run.bind_apply, he]
    | ok v m₁ =>
      rw [args, bind_of_ok _ he, bind_of_ok _ he]
      cases hn : e.name? with
      | none =>
        rw [targetCell?_of_not_name hn]
        rfl
      | some name =>
        obtain ⟨node, span⟩ := e
        obtain rfl : node = .name name := by
          cases node with
          | name other => exact congrArg _ (Option.some.inj hn)
          | _ => cases hn
        obtain rfl := machine_of_expr_name he
        rw [targetCell?_name]
        dsimp only
        rw [bind_of_ok _ (Machine.holding_graphFrom m c _)]
        rfl

end Eval

/-- What has been told of the four ways of looking at an expression, with evaluators of one fuel for
its parts. -/
structure WaysAgree (config : Config) (n : Nat) (c : CtxId) (e : Expr) (m : Machine) : Prop where
  /-- A target is a place in a variable, found on the same machine, and the other way round. -/
  target : ∀ p m', Eval.target (evaluator config n) c e m = .ok p m' ↔
    Eval.place (evaluator config n) c e m = .ok p m' ∧ p.OfVariable
  /-- The value of a target is what is read at its place, on the machine that finding it leaves. -/
  value : ∀ p m', Eval.target (evaluator config n) c e m = .ok p m' →
    (evaluator config (n + 1)).expr e c m = Run.locating e.span p.read m' ∧
      ((evaluator config (n + 1)).expr e c).after m = m'
  /-- An argument passes a variable just when it is a bare name and a target that is this
  variable. -/
  passed : ∀ i, Eval.targetCell? (evaluator config n) c e m = some i ↔
    e.name?.isSome ∧ ∃ m', Eval.target (evaluator config n) c e m = .ok (.ofCell i) m'
  /-- A name that stands for a module or an instance has that value, is no target, has no place in a
  variable, and passes none. -/
  shadowed : ∀ name span v label, e = ⟨.name name, span⟩ →
    (m.seenFrom c).store.graph.StandsFor c name v label →
      Eval.target (evaluator config n) c e m =
        .error ((m.seenFrom c).raised (.notAssignable label)) (m.seenFrom c) ∧
      Eval.place (evaluator config n) c e m = .ok (.ofValue v) (m.seenFrom c) ∧
      (evaluator config (n + 1)).expr e c m = .ok v (m.seenFrom c) ∧
      Eval.targetCell? (evaluator config n) c e m = none

/-- **Places.** The ways of finding a location agree on every expression, in every context and on
every machine: targets, places and values do, and arguments pass the variables that their names are
targets for. -/
theorem ways_agree (config : Config) (n : Nat) (c : CtxId) :
    (∀ e m, WaysAgree config n c e m) ∧
      ∀ es, Eval.args (evaluator config n) c es = Eval.argsByTarget (evaluator config n) c es := by
  refine ⟨fun e m => ⟨?_, ?_, ?_, ?_⟩, Eval.args_eq_argsByTarget config n c⟩
  · exact fun p m' => Eval.target_eq_ok_iff _ c e m m' p
  · exact fun p m' h => ⟨Eval.expr_of_target h, Eval.after_expr_of_target h⟩
  · exact fun i => Eval.targetCell?_eq_some_iff
  · rintro name span v label rfl h
    refine ⟨Eval.target_of_standsFor _ span h, Eval.place_of_standsFor _ span h, ?_, ?_⟩
    · show Run.locating span (Eval.nameValue name c) m = _
      rw [Run.locating, Run.mapFailure, Eval.nameValue_of_standsFor h]
    · rw [Eval.targetCell?, Eval.target_of_standsFor _ span h]
      rfl

end TreeScript
