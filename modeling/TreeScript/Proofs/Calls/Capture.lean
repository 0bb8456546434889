import TreeScript.Proofs.Calls.Resolution
import TreeScript.Proofs.Machine.BaseFrame
import TreeScript.Session

/-!
# What a closure captures

A closure keeps the context that it was created in, not the scope in it. A name in its code means
what it means in that context whenever the closure is called. That is the variable that it meant
when the closure was created, as long as the frame of this variable is open and no frame that
look-up comes to earlier binds the name.
-/
namespace TreeScript

namespace Graph

variable {g : Graph} {c : CtxId} {name : String} {β : Binding}

/-- A variable is still what its own context means by the name. -/
def InPlace (g : Graph) (name : String) (β : Binding) : Prop :=
  g.localBinding? β.ctx name = some β

/-- From a context on, no site binds the name before look-up comes to the variable. -/
def Unshadowed (g : Graph) (c : CtxId) (name : String) (β : Binding) : Prop :=
  ∀ s ∈ (g.sites c).takeWhile (· ≠ .frames β.ctx), g.bindingAt? name s = none

theorem findSome?_eq_some_iff_takeWhile {α γ : Type} [DecidableEq α] {f : α → Option γ} {a : α}
    {b : γ} {l : List α} (hin : a ∈ l) (only : ∀ a' ∈ l, f a' = some b → a' = a) :
    l.findSome? f = some b ↔ f a = some b ∧ ∀ a' ∈ l.takeWhile (· ≠ a), f a' = none := by
  induction l with
  | nil => cases hin
  | cons x l ih =>
    rw [List.findSome?_cons]
    by_cases hx : x = a
    · subst hx
      rw [List.takeWhile_cons_of_neg (by simp)]
      cases hf : f x with
      | some b' => simp
      | none =>
        simp only [reduceCtorEq, List.not_mem_nil, false_imp_iff, implies_true, and_true, iff_false]
        intro found
        obtain ⟨a', hin', ha'⟩ := List.exists_of_findSome?_eq_some found
        have same := only a' (List.mem_cons_of_mem x hin') ha'
        rw [same, hf] at ha'
        cases ha'
    · have hin' : a ∈ l := (List.mem_cons.mp hin).resolve_left (Ne.symm hx)
      rw [List.takeWhile_cons_of_pos (by simpa using hx), List.forall_mem_cons]
      cases hf : f x with
      | none => simpa using ih hin' fun a' ha' => only a' (List.mem_cons_of_mem x ha')
      | some b' =>
        simp only [reduceCtorEq, false_and, and_false, iff_false]
        rintro ⟨⟩
        exact hx (only x List.mem_cons_self hf)

/-- The site at which a variable in a frame is found. -/
theorem site_of_bindingAt? {s : Site} (framed : β.height ≠ 0)
    (h : g.bindingAt? name s = some β) : s = .frames β.ctx := by
  cases s with
  | frames d => rw [ctx_of_bindingAt? h, Site.ctx]
  | arguments d =>
    obtain ⟨i, -, rfl⟩ := Option.map_eq_some_iff.mp h
    exact absurd rfl framed

theorem mem_sites_of_binding? (framed : β.height ≠ 0) (h : g.binding? c name = some β) :
    .frames β.ctx ∈ g.sites c := by
  obtain ⟨s, hs, hβ⟩ := List.exists_of_findSome?_eq_some h
  exact site_of_bindingAt? framed hβ ▸ hs

/-- A name means a variable exactly when the variable is in place and nothing shadows it. -/
theorem binding?_eq_some_iff (framed : β.height ≠ 0) (hin : .frames β.ctx ∈ g.sites c) :
    g.binding? c name = some β ↔ g.InPlace name β ∧ g.Unshadowed c name β :=
  findSome?_eq_some_iff_takeWhile hin fun _ _ => site_of_bindingAt? framed

theorem lt_of_binding? (h : g.binding? c name = some β) : c < g.size := by
  cases hctx : g.context? c with
  | some ctx => exact lt_of_context? hctx
  | none =>
    rw [binding?, sites, chain_eq_cons, sitesAlong, skeleton?, kind?, hctx] at h
    cases h

end Graph

variable {m m₀ m₁ : Machine} {c : CtxId} {name : String} {β : Binding}

/-- The value of a closure literal: it captures the context, and nothing else happens. -/
theorem eval_closure {config : Config} {fuel : Nat} {params : List Param} {body : Block}
    {span : Span} {cl : Closure}
    (h : (evaluator config fuel).expr ⟨.closure params body, span⟩ c m₀ = .ok (.closure cl) m₁) :
    cl.captured = c ∧ m₀.Later 0 m₁ := by
  cases fuel with
  | zero => cases h
  | succ fuel =>
    cases h
    exact ⟨rfl, .single ⟨.clean, Footprint.above_clean, .store .closureMade⟩⟩

/-- **Captured variables.** A closure is created where a name means a variable in some frame. All the
time that a later call of it lasts, a name that the call does not bind itself means what it means,
when the call begins, in the context that the closure was created in. That is the same variable
exactly when the variable is still in place and nothing that look-up comes to earlier shadows it. A
variable in a base frame is in place unless a frame above it binds the name. -/
theorem captured_iff (config : Config) (fuel fuel' : Nat) (params : List Param) (body : Block)
    (span span' : Span) (args : List Arg) (cl : Closure) (ho : m₀.outside = none)
    (bound : m₀.store.graph.binding? c name = some β) (framed : β.height ≠ 0)
    (made : (evaluator config fuel).expr ⟨.closure params body, span⟩ c m₀ = .ok (.closure cl) m₁)
    (later : m₁.Later 0 m) :
    Throughout config fuel'
      (fun k m' => k = m.store.graph.size → m'.store.graph.localVar? k name = none →
        m'.store.graph.var? k name = m.store.graph.var? c name ∧
        (m'.store.graph.binding? k name = some β ↔
          m.store.graph.InPlace name β ∧ m.store.graph.Unshadowed c name β))
      (fun ev => Eval.callClosure ev cl args span') m ∧
    (β.height = 1 → (m.store.graph.InPlace name β ↔ ¬m.store.graph.BindsAbove β.ctx 1 name)) := by
  obtain ⟨rfl, creation⟩ := eval_closure made
  have since : m₀.Later 0 m := creation.trans later
  have hc : cl.captured < m₀.store.graph.size := Graph.lt_of_binding? bound
  have hin : .frames β.ctx ∈ m.store.graph.sites cl.captured := by
    rw [(since.sameUpTo ho hc).sites_eq]
    exact Graph.mem_sites_of_binding? framed bound
  refine ⟨Callee.throughout_call (.closure cl) trivial ?_, ?_⟩
  · intro m₂ m' h later hlocal
    have still : m.outside = none := since.outside_eq.trans ho
    have there : cl.captured < m.store.graph.size := Nat.lt_of_lt_of_le hc since.extends.contexts
    have same := (Callee.prepared h).binding?_eq trivial still there
      (Callee.follow_of_prepare trivial still h) later (Graph.localBinding?_eq_none hlocal) rfl
    rw [Callee.owner] at same
    constructor
    · rw [Graph.var?_eq, Graph.var?_eq, same]
    · rw [same]
      exact Graph.binding?_eq_some_iff framed hin
  · intro base
    obtain ⟨o, h, i⟩ := β
    obtain rfl : h = 1 := base
    have kept := since.inBase (Graph.inBase_of_localBinding?
      ((Graph.binding?_eq_some_iff framed (Graph.mem_sites_of_binding? framed bound)).mp bound).1)
    exact kept.localBinding?_iff

/-- `let k = 5;  closure() { return k; }` in the World of a new session, called from a block that
binds another name: nothing hides the variable, so the call sees it. -/
theorem captured_iff_base :
    let start := (Session.start ⟨[], none⟩ 4 (.start .empty .silent [] none)).machine
    let m₀ := { start with store := start.store.bindNew 0 ⟨"k", .int 5, .none⟩ }
    let m₁ := { m₀ with store := { m₀.store with nextClosure := 1 } }
    let opened := m₁.store.modifyGraph (·.pushScope 0)
    let m := { m₁ with store := opened.bindNew 0 ⟨"j", .int 6, .none⟩ }
    let body : Block := [⟨.ret (some ⟨.name "k", ⟨40, 41⟩⟩), ⟨33, 42⟩⟩]
    let cl : Closure := ⟨0, [], body, 0⟩
    m₀.store.graph.binding? 0 "k" = some ⟨0, 1, 0⟩ ∧
      (evaluator ⟨[], none⟩ 4).expr ⟨.closure [] body, ⟨20, 44⟩⟩ 0 m₀ = .ok (.closure cl) m₁ ∧
      m₁.Later 0 m ∧
      Throughout ⟨[], none⟩ 4
        (fun k m' => k = 1 → m'.store.graph.localVar? k "k" = none →
          m'.store.graph.var? k "k" = some 0)
        (fun ev => Eval.callClosure ev cl [] ⟨46, 49⟩) m := by
  intro start m₀ m₁ opened m body cl
  have bound : m₀.store.graph.binding? 0 "k" = some ⟨0, 1, 0⟩ := rfl
  have made : (evaluator ⟨[], none⟩ 4).expr ⟨.closure [] body, ⟨20, 44⟩⟩ 0 m₀ =
      .ok (.closure cl) m₁ := rfl
  have opening : Machine.Step (.blocks 0) m₁ { m₁ with store := opened } := .store (.scopeOpened 0)
  have declaring : Machine.Step (.names 0) { m₁ with store := opened } m :=
    .store (.varDeclared rfl)
  have later : m₁.Later 0 m := .step (.single ⟨_, fun c _ => Nat.zero_le c, opening⟩)
    (fun c _ => Nat.zero_le c) declaring
  refine ⟨bound, made, later, ?_⟩
  refine (captured_iff ⟨[], none⟩ 4 4 [] body ⟨20, 44⟩ ⟨46, 49⟩ [] cl rfl bound Nat.one_ne_zero made
    later).1.mono ?_
  intro k m' h hk hlocal
  exact (h hk hlocal).1

/-- Whether a context is that of a call of a closure that was created in another. -/
def Graph.isCallOf (g : Graph) (k c : CtxId) : Bool :=
  match g.kind? k with
  | some (.closure owner _) => owner == c
  | _ => false

/-- `def make() { if true { let k = 5; return closure() { return k; }; } }  let f = make();  f();` -/
def escapingClosure : Program :=
  [⟨.defFunc ⟨"make", [], none,
      [⟨.ifElse ⟨.bool true, ⟨16, 20⟩⟩
        [⟨.letVar "k" none ⟨.int 5, ⟨31, 32⟩⟩ .none, ⟨23, 33⟩⟩,
          ⟨.ret (some ⟨.closure [] [⟨.ret (some ⟨.name "k", ⟨60, 61⟩⟩), ⟨53, 62⟩⟩], ⟨41, 64⟩⟩),
            ⟨34, 65⟩⟩] none, ⟨13, 67⟩⟩], .none⟩, ⟨0, 69⟩⟩,
    ⟨.letVar "f" none ⟨.call "make" [], ⟨79, 85⟩⟩ .none, ⟨71, 86⟩⟩,
    ⟨.expr ⟨.call "f" [], ⟨88, 91⟩⟩, ⟨88, 92⟩⟩]

/-- Right after the closure is created in the call of `make`, the name means the first cell there;
when it is called, the name does not mean that cell any more, since the block was closed. -/
theorem lost_with_block :
    let start := (Session.start ⟨[], none⟩ 9 (.start .empty .silent [] none)).machine
    Sometime ⟨[], none⟩ 9
        (fun c m => c = 1 ∧ m.store.nextClosure = 1 ∧ m.store.graph.var? 1 "k" = some 0)
        (fun ev => Eval.program ev 0 escapingClosure) start ∧
      Sometime ⟨[], none⟩ 9
        (fun c m => c = 2 ∧ m.store.graph.isCallOf 2 1 = true ∧
          m.store.graph.localVar? 2 "k" = none ∧ m.store.graph.var? 2 "k" ≠ some 0)
        (fun ev => Eval.program ev 0 escapingClosure) start := by
  intro start
  constructor
  · refine .of_alarm (fun c m => decide (c = 1 ∧ m.store.nextClosure = 1 ∧
      m.store.graph.var? 1 "k" = some 0)) (fun _ _ => of_decide_eq_true) (by decide +kernel)
  · refine .of_alarm (fun c m => decide (c = 2 ∧ m.store.graph.isCallOf 2 1 = true ∧
      m.store.graph.localVar? 2 "k" = none ∧ m.store.graph.var? 2 "k" ≠ some 0))
      (fun _ _ => of_decide_eq_true) (by decide +kernel)

end TreeScript
