import TreeScript.Proofs.Calls.Callee
import TreeScript.Proofs.Context.Chains
import TreeScript.Proofs.Run.Moment

/-!
# Access from outside

Code that does not run inside an instance or a module gets at what that declares only by a member
access. Such an access looks for a field or for something to call, and what it finds is public or the
access fails, before anything is read, written or called.
-/
namespace TreeScript

variable {m m₁ m₂ m' : Machine} {c d : CtxId} {i : CellId} {name : String} {v : Value} {α β : Type}

namespace Store

/-- What a field access on a value finds: a member of an instance, or a variable of a module. -/
def field? (s : Store) (name : String) : Value → Option CellId
  | .object o => s.graph.member? o name
  | .module w => s.graph.localVar? w name
  | _ => none

/-- What a call on a value finds: a method or else a member of an instance, and of a module a
function or else a class or else a variable. -/
inductive Target where
  | func (f : Func)
  | class (decl : ClassDecl) (world : CtxId)
  | cell (i : CellId)

def target? (s : Store) (name : String) : Value → Option Target
  | .object o =>
    ((s.graph.localFunc? o name).map .func).or ((s.graph.member? o name).map .cell)
  | .module w =>
    ((s.graph.localFunc? w name).map .func).or
      (((s.graph.class? w name).map (.class · w)).or ((s.graph.localVar? w name).map .cell))
  | _ => none

def isPub (s : Store) (i : CellId) : Bool := (s.cell i).attrs.isPub

def Target.isPub (s : Store) : Target → Bool
  | .func f => f.decl.attrs.isPub
  | .class decl _ => decl.attrs.isPub
  | .cell i => s.isPub i

end Store

/-- The value is an instance or a module, and code in the context does not run inside it. -/
inductive Graph.Foreign (g : Graph) (c : CtxId) : Value → Prop where
  | object {o : CtxId} (out : g.isWithin c o = false) : g.Foreign c (.object o)
  | module {w : CtxId} (world : g.isWorld w = true) (out : g.root c ≠ w) : g.Foreign c (.module w)

namespace Store

variable {s t : Store}

/-- The one store is the other, or what a release leaves of it. -/
def Pruned (s t : Store) : Prop := t = s ∨ ∃ holds, t = s.release holds

namespace Pruned

theorem context? (h : s.Pruned t) (c : CtxId) : ∃ live : Context → Bool,
    t.graph.context? c = (s.graph.context? c).map fun ctx => { ctx with live := live ctx } := by
  rcases h with rfl | ⟨holds, rfl⟩
  · exact ⟨Context.live, Option.map_id'.symm⟩
  · exact context?_release s holds c

theorem cells (h : s.Pruned t) : t.cells = s.cells := by
  rcases h with rfl | ⟨holds, rfl⟩ <;> rfl

theorem kind? (h : s.Pruned t) (c : CtxId) : t.graph.kind? c = s.graph.kind? c := by
  rcases h with rfl | ⟨holds, rfl⟩
  · rfl
  · exact kind?_release s holds c

theorem mem_chain (h : s.Pruned t) (mem : d ∈ t.graph.chain c) : d ∈ s.graph.chain c := by
  rcases h with rfl | ⟨holds, rfl⟩
  · exact mem
  · exact mem_chain_of_release mem

theorem localVar? (h : s.Pruned t) (c : CtxId) (name : String) :
    t.graph.localVar? c name = s.graph.localVar? c name := by
  obtain ⟨live, same⟩ := h.context? c
  rw [Graph.localVar?, same, Graph.localVar?]
  cases s.graph.context? c <;> rfl

theorem localFunc? (h : s.Pruned t) (c : CtxId) (name : String) :
    t.graph.localFunc? c name = s.graph.localFunc? c name := by
  obtain ⟨live, same⟩ := h.context? c
  rw [Graph.localFunc?, same, Graph.localFunc?]
  cases s.graph.context? c <;> rfl

theorem member? (h : s.Pruned t) (c : CtxId) (name : String) :
    t.graph.member? c name = s.graph.member? c name := by
  rw [Graph.member?, Graph.isObject, h.kind?, h.localVar?, Graph.member?, Graph.isObject]

theorem isWorld (h : s.Pruned t) (c : CtxId) : t.graph.isWorld c = s.graph.isWorld c := by
  rw [Graph.isWorld, h.kind?, Graph.isWorld]

theorem class?_of_isWorld (h : s.Pruned t) (world : s.graph.isWorld c = true) (name : String) :
    t.graph.class? c name = s.graph.class? c name := by
  have root {g : Graph} (world : g.isWorld c = true) : g.root c = c :=
    Graph.root_of_none (Graph.owner?_of_isWorld world)
  rw [Graph.class?, root ((h.isWorld c).trans world), h.kind?, Graph.class?, root world]

theorem isPub (h : s.Pruned t) (i : CellId) : t.isPub i = s.isPub i := by
  rw [Store.isPub, Store.isPub, Store.cell, Store.cell, Store.cell?, Store.cell?, h.cells]

theorem isPub_target (h : s.Pruned t) (target : Target) : target.isPub t = target.isPub s := by
  cases target with
  | cell i => exact h.isPub i
  | func | «class» => rfl

/-- Code that does not run inside a value does not do so later either. -/
theorem foreign (h : s.Pruned t) (foreign : s.graph.Foreign c v) : t.graph.Foreign c v := by
  cases foreign with
  | object out =>
    rw [Graph.isWithin_eq_false_iff] at out
    exact .object (Graph.isWithin_eq_false_iff.mpr (out ∘ h.mem_chain))
  | module world out =>
    have world' := (h.isWorld _).trans world
    refine .module world' fun same => out ?_
    exact (Graph.mem_chain_iff_root world).mp (h.mem_chain ((Graph.mem_chain_iff_root world').mpr same))

theorem field? (h : s.Pruned t) (name : String) (v : Value) : t.field? name v = s.field? name v := by
  cases v with
  | object o => exact h.member? o name
  | module w => exact h.localVar? w name
  | _ => rfl

theorem target? (h : s.Pruned t) (name : String) (foreign : s.graph.Foreign c v) :
    t.target? name v = s.target? name v := by
  cases foreign with
  | object => rw [Store.target?, h.localFunc?, h.member?, Store.target?]
  | module world => rw [Store.target?, h.localFunc?, h.class?_of_isWorld world, h.localVar?, Store.target?]

end Pruned

end Store

namespace Machine

/-- Nothing has been done to the machine but that what nothing holds may have been let go. -/
def Idles (m m' : Machine) : Prop := ∃ store held, m.store.Pruned store ∧ m' = { m with store, held }

theorem Idles.held {held : List Hold} (h : m.Idles m') : m.Idles { m' with held } := by
  obtain ⟨store, _, released, rfl⟩ := h
  exact ⟨store, held, released, rfl⟩

end Machine

namespace Run

/-- The run fails with such a fault. Once it was at `m₁`, it has done nothing. -/
def Stopped (x : Run α) (m m₁ : Machine) (P : Fault → Prop) : Prop :=
  ∃ failure raised m', x m = .error (.failed failure raised) m' ∧ m₁.Idles m' ∧ P failure.fault

namespace Stopped

variable {x : Run α} {k : α → Run β} {holds : List Hold} {P : Fault → Prop}

theorem bind (h : Stopped x m m₁ P) (k : α → Run β) : Stopped (x >>= k) m m₁ P := by
  obtain ⟨failure, raised, m', run, idle, fault⟩ := h
  refine ⟨failure, raised, m', ?_, idle, fault⟩
  rw [bind_apply, run]

/-- A run that fails after its first part. -/
theorem after {a : α} (first : x m = .ok a m') (h : Stopped (k a) m' m₁ P) :
    Stopped (x >>= k) m m₁ P := by
  obtain ⟨failure, raised, m'', run, idle, fault⟩ := h
  refine ⟨failure, raised, m'', ?_, idle, fault⟩
  rw [bind_apply, first]
  exact run

theorem holding (h : Stopped x { m with held := holds ++ m.held } m₁ P) :
    Stopped (Run.holding holds x) m m₁ P := by
  obtain ⟨failure, raised, m', run, idle, fault⟩ := h
  refine ⟨failure, raised, { m' with held := m.held }, ?_, idle.held, fault⟩
  rw [Run.holding, ensuring, run]

theorem locating (span : Span) (h : Stopped x m m₁ P) : Stopped (Run.locating span x) m m₁ P := by
  obtain ⟨failure, raised, m', run, idle, fault⟩ := h
  refine ⟨failure.locate span, raised, m', ?_, idle, ?_⟩
  · rw [Run.locating, mapFailure, run]
    rfl
  · have same : (failure.locate span).fault = failure.fault := by
      rw [Failure.locate]
      split
      · rfl
      · split <;> rfl
    rwa [same]

end Stopped

/-- What code finds that looks names up while something is held. -/
theorem holding_storeFrom_apply (holds : List Hold) (c : CtxId) (m : Machine) :
    ∃ t, m.store.Pruned t ∧ Run.holding holds (storeFrom c) m = .ok t { m with store := t } := by
  rw [Run.holding, ensuring, storeFrom, bind_apply]
  rcases letGo_apply (·.origin c) { m with held := holds ++ m.held } with h | ⟨outside, -, h⟩
  · exact ⟨m.store, .inl rfl, by rw [h]; rfl⟩
  · exact ⟨_, .inr ⟨holds ++ m.held ++ outside, rfl⟩, by rw [h]; rfl⟩

theorem holding_congr {x y : Run α} {holds : List Hold} (held : m'.held = m.held)
    (same : x { m with held := holds ++ m.held } = y { m' with held := holds ++ m'.held }) :
    holding holds x m = holding holds y m' := by
  rw [holding, holding, ensuring, ensuring, same, held]

end Run

namespace Eval

variable {ev : Evaluator} {config : Config} {args : List Arg} {span : Span} {p : Place}

theorem checkAccess_apply (isPub inside : Bool) (name owner : String) (m : Machine) :
    checkAccess isPub inside name owner m =
      if isPub || inside then .ok () m
      else .error (m.raised (.privateMember name owner)) m := by
  rw [checkAccess]
  split <;> rfl

/-- A field or a global is the variable that was looked up. -/
theorem eq_ofCell_of_fieldOf {field : String} (ok : fieldOf v field c m = .ok p m') :
    ∃ i, p = .ofCell i ∧ m.store.field? field v = some i := by
  obtain ⟨t, pruned, seen⟩ := Run.holding_storeFrom_apply [.value v] c m
  rw [fieldOf, Run.bind_of_ok _ seen] at ok
  obtain ⟨h, m₁, -, ok⟩ := Run.bind_eq_ok ok
  rw [← pruned.field?]
  have allowed {isPub inside : Bool} {owner : String} {i : CellId}
      (ok : (do checkAccess isPub inside field owner; return Place.ofCell i) m₁ = .ok p m') :
      p = .ofCell i := by
    obtain ⟨_, m₂, -, ok⟩ := Run.bind_eq_ok ok
    cases ok
    rfl
  cases v with
  | object o =>
    dsimp only at ok
    rw [Store.field?]
    cases found : t.graph.member? o field with
    | none =>
      rw [found] at ok
      cases ok
    | some i =>
      rw [found] at ok
      exact ⟨i, allowed ok, rfl⟩
  | module w =>
    dsimp only at ok
    rw [Store.field?]
    cases found : t.graph.localVar? w field with
    | none =>
      rw [found] at ok
      cases ok
    | some i =>
      rw [found] at ok
      exact ⟨i, allowed ok, rfl⟩
  | _ => cases ok

/-- What messages call the owner of a member. -/
def ownerLabel (m : Machine) : Value → String
  | .object o => m.handles.className o
  | .module w => moduleLabel m.store.graph w
  | v => v.typeName m.handles

/-- Calls what was found. -/
def callTarget (ev : Evaluator) (name : String) (args : List Arg) (span : Span) :
    Store.Target → Run Value
  | .func f => callFunc ev f args span
  | .class decl world => instantiate ev decl world args span
  | .cell i => callCell ev i name args span

/-- A field access from outside gives a public field or fails. -/
theorem fieldOf_apply (foreign : m.store.graph.Foreign c v) (name : String) :
    ∃ t, m.store.Pruned t ∧ let m' := { m with store := t }
      fieldOf v name c m = match m.store.field? name v with
      | none => .error (m'.raised (.noSuchMember name (ownerLabel m' v))) m'
      | some i =>
        if m.store.isPub i then .ok (.ofCell i) m'
        else .error (m'.raised (.privateMember name (ownerLabel m' v))) m' := by
  obtain ⟨t, pruned, run⟩ := Run.holding_storeFrom_apply [.value v] c m
  have outside := pruned.foreign foreign
  refine ⟨t, pruned, ?_⟩
  rw [fieldOf, Run.bind_apply, run, ← pruned.field? name v]
  have checked (i : CellId) (inside : Bool) (out : inside = false) :
      (do checkAccess (t.isPub i) inside name (ownerLabel { m with store := t } v)
          return Place.ofCell i : Run Place) { m with store := t } =
        if m.store.isPub i then .ok (.ofCell i) { m with store := t }
        else .error (m.raised (.privateMember name (ownerLabel { m with store := t } v)))
          { m with store := t } := by
    rw [Run.bind_apply, checkAccess_apply, out, Bool.or_false, pruned.isPub]
    cases m.store.isPub i <;> rfl
  cases outside with
  | @object o out =>
    show (match t.graph.member? o name with
      | none => _
      | some i => _ : Run Place) _ = _
    rw [Store.field?]
    cases t.graph.member? o name with
    | none => rfl
    | some i => exact checked i _ out
  | @module w world out =>
    show (match t.graph.localVar? w name with
      | none => _
      | some i => _ : Run Place) _ = _
    rw [Store.field?]
    cases t.graph.localVar? w name with
    | none => rfl
    | some i => exact checked i _ (beq_false_of_ne out)

/-- A call from outside calls something public or fails. -/
theorem callMember_apply (ev : Evaluator) (foreign : m.store.graph.Foreign c v) (read : p.read m = .ok v m)
    (name : String) (args : List Arg) (span : Span) :
    ∃ t, m.store.Pruned t ∧ let m' := { m with store := t }
      callMember ev p name args c span m = Run.holding [.value v]
        (match m.store.target? name v with
        | none => Run.raise (.noSuchMember name (ownerLabel m' v))
        | some target =>
          if target.isPub m.store then callTarget ev name args span target
          else Run.raise (.privateMember name (ownerLabel m' v))) m' := by
  let held : Machine := { m with held := [.value v] ++ m.held }
  obtain ⟨t, pruned, run⟩ := Run.holding_storeFrom_apply (args.flatMap Arg.holds) c held
  have pruned : m.store.Pruned t := pruned
  have outside := pruned.foreign foreign
  refine ⟨t, pruned, ?_⟩
  have checked (target : Store.Target) (inside : Bool) (out : inside = false) (m' : Machine) :
      (do checkAccess (target.isPub t) inside name (ownerLabel { m with store := t } v)
          callTarget ev name args span target : Run Value) m' =
        (if target.isPub m.store then callTarget ev name args span target
          else Run.raise (.privateMember name (ownerLabel { m with store := t } v)) : Run Value) m' := by
    rw [Run.bind_apply, checkAccess_apply, out, Bool.or_false, pruned.isPub_target]
    cases target.isPub m.store <;> rfl
  rw [callMember, Run.bind_apply, read, ← pruned.target? name foreign]
  cases outside with
  | @object o out =>
    refine Run.holding_congr rfl ?_
    rw [callMethod, Run.bind_apply, run]
    dsimp only
    rw [Store.target?]
    cases t.graph.localFunc? o name with
    | some func => exact checked (.func func) _ out _
    | none =>
      cases t.graph.member? o name with
      | some i => exact checked (.cell i) _ out _
      | none => rfl
  | @module w world out =>
    refine Run.holding_congr rfl ?_
    rw [callModuleMember, Run.bind_apply, run]
    dsimp only
    have out : (t.graph.root c == w) = false := beq_false_of_ne out
    rw [Store.target?]
    cases t.graph.localFunc? w name with
    | some func => exact checked (.func func) _ out _
    | none =>
      cases t.graph.class? w name with
      | some decl => exact checked (.class decl w) _ out _
      | none =>
        cases t.graph.localVar? w name with
        | some i => exact checked (.cell i) _ out _
        | none => rfl

end Eval

/-- The member is not public. -/
def Fault.IsPrivate (name : String) (fault : Fault) : Prop :=
  ∃ owner, fault = .privateMember name owner

/-- There is no such member. -/
def Fault.IsMissing (name : String) (fault : Fault) : Prop :=
  ∃ owner, fault = .noSuchMember name owner

/-- The expression, with any number of indices. -/
inductive Expr.Indexed (e : Expr) : Expr → Prop where
  | plain : e.Indexed e
  | index {left : Expr} (h : e.Indexed left) (index : Expr) (span : Span) :
      e.Indexed ⟨.index left index, span⟩

namespace Eval

variable {ev : Evaluator} {config : Config} {args : List Arg} {span s₁ s₂ : Span} {p : Place}
  {e e' left : Expr} {P : Fault → Prop}

theorem stopped_place (h : Run.Stopped (place ev c e) m m₁ P) (indexed : e.Indexed e') :
    Run.Stopped (place ev c e') m m₁ P := by
  induction indexed with
  | plain => exact h
  | index _ index span ih =>
    rw [place]
    exact ih.bind _

theorem stopped_target (h : Run.Stopped (target ev c e) m m₁ P) (indexed : e.Indexed e') :
    Run.Stopped (target ev c e') m m₁ P := by
  induction indexed with
  | plain => exact h
  | index _ index span ih =>
    rw [target]
    exact ih.bind _

/-- The value of an indexed expression is what stands at its place. -/
theorem stopped_index {index : Expr} (h : Run.Stopped (place ev c ⟨.index left index, span⟩) m m₁ P) :
    Run.Stopped (expr config ev ⟨.index left index, span⟩ c) m m₁ P :=
  .locating span (h.bind _)

theorem stopped_assign {right : Expr} {op : AssignOp} {v : Value} {m₀ m₂ : Machine}
    (value : ev.expr right c m₀ = .ok v m₂)
    (h : Run.Stopped (target ev c e) { m₂ with held := [.value v] ++ m₂.held } m₁ P) :
    Run.Stopped (stmt config ev ⟨.assign e op right, span⟩ c) m₀ m₁ P := by
  refine .locating span ?_
  have assign : Run.Stopped (do (← Run.holding [.value v] (target ev c e)).assign op v) m₂ m₁ P :=
    (Run.Stopped.holding h).bind _
  have whole : Run.Stopped (do
      let v ← ev.expr right c
      (← Run.holding [.value v] (target ev c e)).assign op v) m₀ m₁ P := .after value assign
  exact whole.bind _

/-- A member cannot be called of what cannot be got at. -/
theorem stopped_receiver {method : String} {arguments : List Expr}
    (h : Run.Stopped (place ev c left) m m₁ P) :
    Run.Stopped (expr config ev ⟨.member left ⟨.call method arguments, s₁⟩, s₂⟩ c) m m₁ P :=
  .locating s₂ (h.bind _)

/-- What a field access from outside gives is public. -/
theorem ends_fieldOf (foreign : m.store.graph.Foreign c v) (name : String) :
    Run.Ends (fieldOf v name c) m
      (fun p _ => ∃ i, p = .ofCell i ∧ m.store.field? name v = some i ∧ m.store.isPub i = true)
      fun _ => True := by
  obtain ⟨t, -, run⟩ := fieldOf_apply foreign name
  rw [Run.Ends, run]
  cases m.store.field? name v with
  | none => trivial
  | some i =>
    dsimp only
    cases hi : m.store.isPub i with
    | true => exact ⟨i, rfl, rfl, hi⟩
    | false => trivial

/-- What a call from outside calls is public. -/
theorem ends_callMember (foreign : m.store.graph.Foreign c v) (read : p.read m = .ok v m)
    (name : String) (args : List Arg) (span : Span) :
    Run.Ends (callMember ev p name args c span) m
      (fun _ _ => ∃ target, m.store.target? name v = some target ∧ target.isPub m.store = true)
      fun _ => True := by
  obtain ⟨t, -, run⟩ := callMember_apply ev foreign read name args span
  rw [Run.Ends, run, ← Run.Ends]
  refine .holding ?_
  cases m.store.target? name v with
  | none => trivial
  | some target =>
    dsimp only
    cases ht : target.isPub m.store with
    | true => exact .of_after (fun _ => ⟨target, rfl, ht⟩) trivial
    | false => trivial

theorem stopped_fieldOf_missing (foreign : m.store.graph.Foreign c v)
    (missing : m.store.field? name v = none) :
    Run.Stopped (fieldOf v name c) m m (Fault.IsMissing name) := by
  obtain ⟨t, pruned, run⟩ := fieldOf_apply foreign name
  rw [missing] at run
  exact ⟨_, _, _, run, ⟨t, m.held, pruned, rfl⟩, _, rfl⟩

theorem stopped_fieldOf_private (foreign : m.store.graph.Foreign c v)
    (found : m.store.field? name v = some i) (hidden : m.store.isPub i = false) :
    Run.Stopped (fieldOf v name c) m m (Fault.IsPrivate name) := by
  obtain ⟨t, pruned, run⟩ := fieldOf_apply foreign name
  rw [found] at run
  dsimp only at run
  rw [hidden] at run
  exact ⟨_, _, _, run, ⟨t, m.held, pruned, rfl⟩, _, rfl⟩

theorem stopped_callMember {target : Store.Target} (foreign : m.store.graph.Foreign c v)
    (read : p.read m = .ok v m) (found : m.store.target? name v = some target)
    (hidden : target.isPub m.store = false) :
    Run.Stopped (callMember ev p name args c span) m m (Fault.IsPrivate name) := by
  obtain ⟨t, pruned, run⟩ := callMember_apply ev foreign read name args span
  rw [found] at run
  dsimp only at run
  rw [hidden] at run
  exact ⟨_, _, _, run, ⟨t, m.held, pruned, rfl⟩, _, rfl⟩

/-- However the field is used, be it read, assigned to or called a member of, with any number of
indices, that fails so. -/
structure FieldFails (config : Config) (fuel : Nat) (left : Expr) (name : String) (c : CtxId)
    (m m₁ : Machine) (P : Fault → Prop) : Prop where
  value {s₁ s₂ : Span} {e : Expr} (indexed : Expr.Indexed ⟨.member left ⟨.name name, s₁⟩, s₂⟩ e) :
    Run.Stopped ((evaluator config (fuel + 1)).expr e c) m m₁ P
  receiver {s₁ s₂ s₃ s₄ : Span} {e : Expr} (method : String) (arguments : List Expr)
    (indexed : Expr.Indexed ⟨.member left ⟨.name name, s₁⟩, s₂⟩ e) :
    Run.Stopped
      ((evaluator config (fuel + 1)).expr ⟨.member e ⟨.call method arguments, s₃⟩, s₄⟩ c) m m₁ P
  assign {s₁ s₂ s₃ : Span} {e right : Expr} {v : Value} {m₀ m₂ : Machine} (op : AssignOp)
    (indexed : Expr.Indexed ⟨.member left ⟨.name name, s₁⟩, s₂⟩ e)
    (value : (evaluator config fuel).expr right c m₀ = .ok v m₂)
    (meanwhile : m = { m₂ with held := [.value v] ++ m₂.held }) :
    Run.Stopped ((evaluator config (fuel + 1)).stmt ⟨.assign e op right, s₃⟩ c) m₀ m₁ P

/-- A field access that fails once its value is there fails in all its forms. -/
theorem FieldFails.of_fieldOf {fuel : Nat} (read : (evaluator config fuel).expr left c m = .ok v m₁)
    (h : Run.Stopped (fieldOf v name c) m₁ m₁ P) : FieldFails config fuel left name c m m₁ P := by
  let ev := evaluator config fuel
  have field : Run.Stopped (do fieldOf (← ev.expr left c) name c) m m₁ P := .after read h
  have atPlace {s₁ s₂ : Span} {e : Expr}
      (indexed : Expr.Indexed ⟨.member left ⟨.name name, s₁⟩, s₂⟩ e) :
      Run.Stopped (place ev c e) m m₁ P := stopped_place (by rw [place]; exact field) indexed
  refine ⟨fun indexed => ?_, fun method arguments indexed => stopped_receiver (atPlace indexed),
    fun op indexed value meanwhile => stopped_assign value ?_⟩
  · cases indexed with
    | plain => exact .locating _ (.after read (h.bind _))
    | index h index span => exact stopped_index (atPlace (.index h index span))
  · rw [← meanwhile]
    exact stopped_target (by rw [target]; exact field) indexed

/-- However the call of the member is used, with any number of indices, that fails so. -/
structure CallFails (config : Config) (fuel : Nat) (call : Expr) (c : CtxId) (m m₁ : Machine)
    (P : Fault → Prop) : Prop where
  value : Run.Stopped ((evaluator config (fuel + 1)).expr call c) m m₁ P
  indexed {e index : Expr} {span : Span} (indexed : call.Indexed e) :
    Run.Stopped ((evaluator config (fuel + 2)).expr ⟨.index e index, span⟩ c) m m₁ P

/-- A call that fails once its arguments are there fails in all its forms. -/
theorem CallFails.of_callMember {fuel : Nat} {arguments : List Expr} {m₂ : Machine}
    (receiver : place (evaluator config fuel) c left m = .ok p m₁)
    (given : Eval.args (evaluator config fuel) c arguments
      { m₁ with held := p.holds ++ m₁.held } = .ok args m₂)
    (h : Run.Stopped (callMember (evaluator config fuel) p name args c s₁) m₂ m₂ P) :
    CallFails config fuel ⟨.member left ⟨.call name arguments, s₁⟩, s₂⟩ c m m₂ P := by
  have value : Run.Stopped ((evaluator config (fuel + 1)).expr
      ⟨.member left ⟨.call name arguments, s₁⟩, s₂⟩ c) m m₂ P :=
    .locating s₂ (.after receiver (.holding (.after given h)))
  refine ⟨value, fun {e index span} indexed => ?_⟩
  have atPlace : Run.Stopped
      (place (evaluator config (fuel + 1)) c ⟨.index e index, span⟩) m m₂ P := by
    rw [place]
    exact (stopped_place (value.bind _) indexed).bind _
  exact stopped_index atPlace

end Eval

end TreeScript
