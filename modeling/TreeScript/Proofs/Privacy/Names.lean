import TreeScript.Proofs.Cells.References
import TreeScript.Proofs.Privacy.Access
import TreeScript.Proofs.Run.Invariants

/-!
# Privacy

What an instance or a module declares is in reach of code outside only through a member access, which
fails unless it is public. Bare names lead to what the contexts around the code declare, and beyond
that only by a parameter that is a reference.
-/
namespace TreeScript

variable {config : Config} {fuel : Nat} {s : Store} {c : CtxId} {i : CellId} {name : String}
  {v : Value}

/-- If a bare name leads to a variable of a value from outside, it is bound to it as a reference, in
the context of a call that the code runs in. -/
def Store.NamesWithin (s : Store) : Prop :=
  ∀ c name i v field, s.graph.Foreign c v → s.graph.var? c name = some i →
    s.field? field v = some i →
    ∃ e, s.graph.cellAt? e = some i ∧ e.name = name ∧ s.graph.IsReference e i ∧
      s.graph.isWithin c e.ctx = true

/-- A bare name leads to no function of a value from outside, and to classes of the World of the code
only. -/
def Store.CallsWithin (s : Store) : Prop :=
  ∀ c name, (∀ v field f, s.graph.Foreign c v → s.target? field v = some (.func f) →
    ∀ f', s.graph.func? c name = some f' → f' ≠ f) ∧
    s.graph.class? c name = s.graph.class? (s.graph.root c) name

namespace Store

/-- A variable of a value from outside is bound there, in a context that is none of the contexts that
the code runs in. -/
theorem own_of_field? {field : String} (foreign : s.graph.Foreign c v)
    (found : s.field? field v = some i) :
    ∃ e, s.graph.cellAt? e = some i ∧ s.graph.IsOwn e ∧ e.ctx ∉ s.graph.chain c := by
  cases foreign with
  | @object o out =>
    obtain ⟨height, base, bound⟩ := Graph.cellAt?_of_localVar? (Graph.localVar?_of_member? found)
    refine ⟨_, bound, .inr ⟨?_, base⟩, Graph.isWithin_eq_false_iff.mp out⟩
    rw [field?, Graph.member?] at found
    split at found
    · assumption
    · cases found
  | @module w world out =>
    obtain ⟨height, -, bound⟩ := Graph.cellAt?_of_localVar? found
    exact ⟨_, bound, .inl world, fun mem => out ((Graph.mem_chain_iff_root world).mp mem)⟩

theorem Accounted.namesWithin (h : s.Accounted) : s.NamesWithin := by
  intro c name i v field foreign means found
  obtain ⟨e', bound', own, out⟩ := own_of_field? foreign found
  obtain ⟨d, hd, height, bound⟩ := Graph.entry_of_var? means
  rcases h _ e' i ⟨bound, bound'⟩ with rfl | refers | refers
  · exact absurd hd out
  · exact ⟨_, bound, rfl, refers, Graph.isWithin_iff.mpr hd⟩
  · exact (own.not_isReference refers).elim

/-- A function that a call of a value from outside finds belongs to none of the contexts that the code
runs in. -/
theorem Belongs.owner_of_target? (h : s.Belongs) {field : String} {f : Func}
    (foreign : s.graph.Foreign c v) (found : s.target? field v = some (.func f)) :
    f.owner ∉ s.graph.chain c := by
  have declared {d : CtxId} (hd : s.graph.localFunc? d field = some f)
      (out : d ∉ s.graph.chain c) : f.owner ∉ s.graph.chain c := h.localFunc? hd ▸ out
  cases foreign with
  | @object o out =>
    refine declared (d := o) ?_ (Graph.isWithin_eq_false_iff.mp out)
    rw [target?] at found
    cases hf : s.graph.localFunc? o field with
    | some f' =>
      rw [hf] at found
      cases found
      rfl
    | none =>
      rw [hf] at found
      cases hi : s.graph.member? o field <;>
      · rw [hi] at found
        cases found
  | @module w world out =>
    refine declared (d := w) ?_ fun mem => out ((Graph.mem_chain_iff_root world).mp mem)
    rw [target?] at found
    cases hf : s.graph.localFunc? w field with
    | some f' =>
      rw [hf] at found
      cases found
      rfl
    | none =>
      rw [hf] at found
      cases hd : s.graph.class? w field <;> cases hi : s.graph.localVar? w field <;>
      · rw [hd, hi] at found
        cases found

theorem Belongs.callsWithin (h : s.Belongs) : s.CallsWithin := by
  refine fun c name => ⟨fun v field f foreign found f' means same => ?_, ?_⟩
  · obtain ⟨d, hd, declared⟩ := Graph.declared_of_func? means
    refine h.owner_of_target? foreign found ?_
    rw [← same, h.localFunc? declared]
    exact hd
  · rw [Graph.class?, Graph.class?, Graph.root_root]

end Store

/-- **Privacy.** Once the value of an expression is an instance or a module that the code does not run
inside, a field access by it fails in all its forms, unless the field is public: with that as the
reason if there is one that is not, and otherwise for want of such a field, even if there is such a
method, function or class. A call by it fails in all its forms if what it finds is not public. What
such accesses give or call is public. In every session, and at every moment of all that is done in it,
a bare name leads to a variable of such a value only by a parameter that is a reference, of a call that
the code runs in, and to none of its functions and classes. -/
theorem private_from_outside (config : Config) (fuel : Nat) :
    (∀ (m m₁ : Machine) (c : CtxId) (left : Expr) (name : String) (v : Value),
      (evaluator config fuel).expr left c m = .ok v m₁ → m₁.store.graph.Foreign c v →
      (∀ i, m₁.store.field? name v = some i → m₁.store.isPub i = false →
        Eval.FieldFails config fuel left name c m m₁ (Fault.IsPrivate name)) ∧
      (m₁.store.field? name v = none →
        Eval.FieldFails config fuel left name c m m₁ (Fault.IsMissing name))) ∧
    (∀ (m m₁ m₂ : Machine) (c : CtxId) (left : Expr) (name : String) (arguments : List Expr)
      (s₁ s₂ : Span) (p : Place) (args : List Arg) (v : Value) (target : Store.Target),
      Eval.place (evaluator config fuel) c left m = .ok p m₁ →
      Eval.args (evaluator config fuel) c arguments { m₁ with held := p.holds ++ m₁.held } =
        .ok args m₂ →
      p.read m₂ = .ok v m₂ → m₂.store.graph.Foreign c v →
      m₂.store.target? name v = some target → target.isPub m₂.store = false →
      Eval.CallFails config fuel ⟨.member left ⟨.call name arguments, s₁⟩, s₂⟩ c m m₂
        (Fault.IsPrivate name)) ∧
    (∀ (m : Machine) (c : CtxId) (v : Value) (name : String), m.store.graph.Foreign c v →
      Run.Ends (Eval.fieldOf v name c) m
        (fun p _ => ∃ i, p = .ofCell i ∧ m.store.field? name v = some i ∧ m.store.isPub i = true)
        (fun _ => True) ∧
      ∀ (ev : Evaluator) (p : Place) (args : List Arg) (span : Span), p.read m = .ok v m →
        Run.Ends (Eval.callMember ev p name args c span) m
          (fun _ _ => ∃ target, m.store.target? name v = some target ∧
            target.isPub m.store = true)
          fun _ => True) ∧
    ∀ (m : Machine) (s : Session), Region.all.Closed m.store → m.store.Unaliased →
      m.store.Belongs → Session.GroundedReachable config fuel m s →
      s.machine.store.NamesWithin ∧ s.machine.store.CallsWithin ∧
      ∀ work : Work, work.Grounded s.machine →
        Throughout s.config s.fuel (fun _ m' => m'.store.NamesWithin) work.run s.machine ∧
        Throughout s.config s.fuel (fun _ m' => m'.store.CallsWithin) work.run s.machine := by
  refine ⟨fun m m₁ c left name v read foreign => ⟨fun i found hidden => ?_, fun missing => ?_⟩,
    fun m m₁ m₂ c left name arguments s₁ s₂ p args v target receiver given read foreign found
      hidden => ?_,
    fun m c v name foreign => ⟨Eval.ends_fieldOf foreign name,
      fun ev p args span read => Eval.ends_callMember foreign read name args span⟩,
    fun m s closed fresh belongs reached => ?_⟩
  · exact .of_fieldOf read (Eval.stopped_fieldOf_private foreign found hidden)
  · exact .of_fieldOf read (Eval.stopped_fieldOf_missing foreign missing)
  · exact .of_callMember receiver given (Eval.stopped_callMember foreign read found hidden)
  · obtain ⟨⟨w, same⟩, there⟩ := reached.ledger closed
    have used : Relation.ReflTransGen (Session.StepIf fun _ _ => True) (.start config fuel m) s :=
      Relation.ReflTransGen.mono (fun _ _ step => step.stepIf.mono fun _ _ => trivial) _ _ reached
    have belongs : s.machine.store.Belongs :=
      (Session.keeps (I := Store.belongs) used (fun _ _ _ => trivial)
        (fun _ _ _ _ _ _ => trivial) (belongs.addContext .emptyWorld)).1
    refine ⟨same ▸ (w.accounted fresh).namesWithin, belongs.callsWithin,
      fun work grounded => ⟨?_, ?_⟩⟩
    · refine Work.throughout_of_ledgers grounded same fun _ m₁ w₁ _ _ _ hm₁ _ => ?_
      exact hm₁ ▸ (w₁.accounted fresh).namesWithin
    · have always : Throughout s.config s.fuel (fun _ m' => m'.store.Belongs) work.run s.machine :=
        Store.Invariant.throughout (I := Store.belongs) work.tracked belongs fun _ _ => trivial
      exact always.mono fun _ m' h => h.callsWithin

section Names

variable {m : Machine} {ev : Evaluator} {span : Span}

theorem Run.storeFrom_apply (kept : m.outside = none) (c : CtxId) :
    Run.storeFrom c m = .ok m.store m := by
  rw [storeFrom, bind_apply, letGo, kept]
  rfl

/-- The value of a variable, where nothing is let go. -/
theorem Eval.expr_name_apply (kept : m.outside = none)
    (noModule : m.store.graph.import? c name = none) (means : m.store.graph.var? c name = some i) :
    (evaluator config (fuel + 1)).expr ⟨.name name, span⟩ c m = .ok (m.store.cell i).value m := by
  have value : nameValue name c m = .ok (m.store.cell i).value m := by
    rw [nameValue, Run.bind_apply, Run.storeFrom_apply kept]
    dsimp only
    rw [noModule]
    dsimp only
    rw [means]
    rfl
  show Run.locating span (nameValue name c) m = _
  rw [Run.locating, Run.mapFailure, value]

theorem Eval.place_name_apply (kept : m.outside = none)
    (noModule : m.store.graph.import? c name = none) (means : m.store.graph.var? c name = some i) :
    place ev c ⟨.name name, span⟩ m = .ok (.ofCell i) m := by
  rw [place, Run.graphFrom, bind_assoc, Run.bind_apply, Run.storeFrom_apply kept]
  simp only [pure_bind, noModule, means]
  rfl

end Names

/-- An instance with a member and a method that are not public. Code of its World can neither read
the member nor call the method, and a bare name does not lead to them. -/
theorem private_from_outside_instance :
    let span : Span := ⟨0, 1⟩
    let expr (node : ExprNode) : Expr := ⟨node, span⟩
    let classDecl : ClassDecl := ⟨"P", [], [⟨"n", none, expr (.int 1), .none, span⟩],
      [⟨"secret", [], none, [], .none⟩], .none⟩
    let program : Program := [⟨.defClass classDecl, span⟩,
      ⟨.letVar "p" none (expr (.call "P" [])) .none, span⟩]
    let config : Config := ⟨[], none⟩
    let start := Session.start config 8 (.start .empty .silent [] none)
    let m := (start.runProgram program).2.machine
    let m' : Machine := { m with held := [.cell 1] ++ m.held }
    Eval.FieldFails config 8 (expr (.name "p")) "n" 0 m m (Fault.IsPrivate "n") ∧
      Eval.FieldFails config 8 (expr (.name "p")) "secret" 0 m m (Fault.IsMissing "secret") ∧
      Eval.CallFails config 8 (expr (.member (expr (.name "p")) (expr (.call "secret" [])))) 0 m m'
        (Fault.IsPrivate "secret") ∧
      m.store.NamesWithin ∧ m.store.CallsWithin := by
  intro span expr classDecl program config start m m'
  obtain ⟨fields, calls, -, sessions⟩ := private_from_outside config 8
  have used : Session.GroundedReachable config 8 (.start .empty .silent [] none)
      (start.runProgram program).2 := .single (.batch start program)
  obtain ⟨names, functions, -⟩ :=
    sessions _ _ Region.closed_empty Store.unaliased_empty Store.Belongs.empty used
  have within : m.store.NamesWithin ∧ m.store.CallsWithin := ⟨names, functions⟩
  clear names functions
  have kind : (m.store.cell 1).value.kind = .object := by decide +kernel
  have named : (m.store.cell 1).value.contexts = [1] := by decide +kernel
  have foreign : m.store.graph.Foreign 0 (.object 1) := .object (by decide +kernel)
  have kept : m.outside = none := by decide +kernel
  have noModule : m.store.graph.import? 0 "p" = none := by decide +kernel
  have means : m.store.graph.var? 0 "p" = some 1 := by decide +kernel
  have member : m.store.field? "n" (.object 1) = some 0 := by decide +kernel
  have hidden : m.store.isPub 0 = false := by decide +kernel
  have noField : m.store.field? "secret" (.object 1) = none := by decide +kernel
  have method : (m.store.graph.localFunc? 1 "secret").any (!·.decl.attrs.isPub) = true := by
    decide +kernel
  -- from here on only these facts are needed, not the run that the machine comes from
  clear_value m
  have object : (m.store.cell 1).value = .object 1 := by
    generalize (m.store.cell 1).value = v at kind named
    cases v <;> cases kind
    cases named
    rfl
  obtain ⟨f, hf, hides⟩ := (Option.any_eq_true ..).mp method
  have found : m'.store.target? "secret" (.object 1) = some (.func f) := by
    show ((m.store.graph.localFunc? 1 "secret").map Store.Target.func).or _ = _
    rw [hf]
    rfl
  have read : (evaluator config 8).expr (expr (.name "p")) 0 m = .ok (.object 1) m :=
    object ▸ Eval.expr_name_apply kept noModule means
  refine ⟨(fields m m 0 _ "n" _ read foreign).1 0 member hidden,
    (fields m m 0 _ "secret" _ read foreign).2 noField,
    calls m m m' 0 _ _ [] span span (.ofCell 1) [] (.object 1) _ ?_ rfl ?_ foreign found ?_, within⟩
  · exact Eval.place_name_apply kept noModule means
  · exact object ▸ rfl
  · exact (Bool.not_eq_true' _).mp hides

/-- A field access does not even look for the method, so it has another reason to fail than that the
method is not public. -/
theorem method_is_no_field :
    let span : Span := ⟨0, 1⟩
    let expr (node : ExprNode) : Expr := ⟨node, span⟩
    let secret : FuncDecl := ⟨"secret", [], none, [], .none⟩
    let program : Program := [⟨.defClass ⟨"P", [], [], [secret], .none⟩, span⟩,
      ⟨.letVar "p" none (expr (.call "P" [])) .none, span⟩]
    let access (node : ExprNode) : Program :=
      [⟨.expr (expr (.member (expr (.name "p")) (expr node))), span⟩]
    let start := Session.start ⟨[], none⟩ 8 (.start .empty .silent [] none)
    let s := (start.runProgram program).2
    (start.runProgram program).1 = .completed ∧
      s.machine.store.graph.isWithin s.world 1 = false ∧
      (s.machine.store.graph.localFunc? 1 "secret").any (!·.decl.attrs.isPub) = true ∧
      (s.runProgram (access (.name "secret"))).1 =
        .failed ⟨.noSuchMember "secret" "P", some span, none⟩ ∧
      (s.runProgram (access (.call "secret" []))).1 =
        .failed ⟨.privateMember "secret" "P", some span, none⟩ := by
  decide +kernel

end TreeScript
