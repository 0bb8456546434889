import TreeScript.Proofs.Run.Balance
import TreeScript.Session

/-!
# Binding frames

Evaluation leaves the frames of all contexts as it found them. Only a `let` that succeeds adds a
variable, and only a `def` that succeeds adds a function, each in the innermost frame of the context
that it runs in.
-/
namespace TreeScript

namespace Machine

/-- All contexts that were there have the scopes that they had. -/
def SameScopes (m m' : Machine) : Prop :=
  ∀ d < m.store.graph.size, m'.store.graph.scopes? d = m.store.graph.scopes? d

/-- Of the contexts that were there only one has other scopes now. -/
structure ScopesChanged (m m' : Machine) (c : CtxId) (change : Scopes → Scopes) : Prop where
  here : m'.store.graph.scopes? c = (m.store.graph.scopes? c).map change
  elsewhere : ∀ d < m.store.graph.size, d ≠ c →
    m'.store.graph.scopes? d = m.store.graph.scopes? d

/-- A new name in the innermost variable frame of a context, for a cell that was not there. -/
def NewVariable (m m' : Machine) (c : CtxId) (name : String) (attrs : Attrs) : Prop :=
  ∃ i v, m.store.cells.size ≤ i ∧ m'.store.cells.size = i + 1 ∧
    m'.store.cells[i]? = some ⟨name, v, attrs⟩ ∧
    (∀ scopes ∈ m.store.graph.scopes? c, scopes.vars.bindsOnTop name = false) ∧
    ScopesChanged m m' c (·.bindVar name i)

/-- A new name in the innermost function frame of a context. -/
def NewFunction (m m' : Machine) (c : CtxId) (func : Func) : Prop :=
  (∀ scopes ∈ m.store.graph.scopes? c, scopes.funcs.bindsOnTop func.decl.name = false) ∧
    ScopesChanged m m' c (·.bindFunc func)

end Machine

/-- What a statement that runs in a context does to the scopes when it succeeds. -/
def StmtNode.Declares (s : StmtNode) (c : CtxId) (m m' : Machine) : Prop :=
  match s with
  | .letVar name _ _ attrs => m.NewVariable m' c name attrs
  | .defFunc decl => m.NewFunction m' c ⟨decl, c⟩
  | _ => m.SameScopes m'

variable {f : Footprint} {n : Nat} {m m' m'' : Machine} {c : CtxId} {α : Type}

namespace Machine

theorem Kept.sameScopes (h : m.Kept f m') (hf : f.named? = none) : m.SameScopes m' :=
  fun d hd => h.store.scopes d hd (by simp [hf])

/-- A step that changes one context, after a run that changed none. -/
theorem ScopesChanged.of_step {g : Scopes → Scopes} (h : m.SameScopes m')
    (he : m.store.Extends m'.store) (hc : c < m.store.graph.size)
    (step : Store.Step (.names c) m'.store m''.store)
    (change : m''.store.graph.scopes? c = (m'.store.graph.scopes? c).map g) :
    ScopesChanged m m'' c g := by
  constructor
  · rw [← h c hc]
    exact change
  · intro d hd hdc
    have out : (Footprint.names c).context? ≠ some d := fun e => hdc (Option.some.inj e).symm
    exact (step.scopes?_eq (Nat.lt_of_lt_of_le hd he.contexts) out).trans (h d hd)

end Machine

namespace Run

/-- A declaration of a variable with a new cell, run where the scopes are those of `m`. -/
theorem declareVar_ends (hc : c < m.store.graph.size) (same : m.SameScopes m')
    (he : m.store.Extends m'.store) (cell : Cell) :
    Ends (declareVar c cell) m' (fun _ m'' => m.NewVariable m'' c cell.name cell.attrs)
      m.SameScopes := by
  let d := Declaration.ofVar c cell.name cell.name m'.store.cells.size
  have run : declareVar c cell m' = declare d { m' with store := (m'.store.addCell cell).2 } := rfl
  rw [Ends, run, declare_apply]
  cases hd : d.obstacle? m'.store.graph with
  | some fault =>
    rw [show d.obstacle? (m'.store.addCell cell).2.graph = some fault from hd]
    exact same
  | none =>
    rw [show d.obstacle? (m'.store.addCell cell).2.graph = none from hd]
    have step : Store.Step (.names c) m'.store (m'.store.bindNew c cell) := .varDeclared hd
    refine ⟨m'.store.cells.size, cell.value, he.cells, ?_, ?_, ?_, ?_⟩
    · exact Array.size_push _
    · exact Array.getElem?_push_size
    · rw [← same c hc]
      exact Graph.ofVar_free_iff.mp hd
    · exact .of_step same he hc step (Graph.scopes?_ofVar cell.name cell.name _)

theorem declareFunc_ends (hc : c < m.store.graph.size) (func : Func) :
    Ends (declare (.ofFunc c func)) m (fun _ m' => m.NewFunction m' c func) m.SameScopes := by
  rw [Ends, declare_apply]
  cases hd : (Declaration.ofFunc c func).obstacle? m.store.graph with
  | some fault => exact fun _ _ => rfl
  | none =>
    refine ⟨Graph.ofFunc_free_iff.mp hd, ?_⟩
    exact .of_step (fun _ _ => rfl) (.refl _) hc (.funcDeclared hd) (Graph.scopes?_ofFunc func)

end Run

namespace Eval

open Run (Ends)

variable {config : Config} {fuel : Nat}

theorem letVar_ends (name : String) (type : Option TypeAnn) (value : Expr) (attrs : Attrs)
    (hc : c < m.store.graph.size) :
    Ends (letVar (evaluator config fuel) name type value attrs c) m
      (fun _ m' => m.NewVariable m' c name attrs) m.SameScopes := by
  have kept : m.Kept .clean (((evaluator config fuel).expr value c).after m) :=
    (Run.agree_expr value c).kept
  have same := kept.sameScopes rfl
  refine .bind (P := fun _ m' => m.SameScopes m' ∧ m.store.Extends m'.store) ?_ ?_
  · exact .of_after (fun _ => ⟨same, kept.store.toExtends⟩) same
  · rintro v m' ⟨same, he⟩
    refine .bind (P := fun _ m'' => m' = m'') rfl ?_
    rintro h _ rfl
    refine .bind (P := fun _ m'' => m' = m'') ?_ ?_
    · cases v.annotate h type with
      | ok w => exact rfl
      | error fault => exact same
    · rintro w _ rfl
      exact Run.declareVar_ends hc same he ⟨name, w, attrs⟩

theorem silently_ends {x : Run Unit} {P E : Machine → Prop} (h : Ends x m (fun _ => P) E) :
    Ends (silently x) m (fun _ => P) E := .bind h fun _ _ hP => hP

theorem stmt_ends (s : Stmt) (hc : c < m.store.graph.size) :
    Ends ((evaluator config fuel).stmt s c) m (fun _ m' => s.node.Declares c m m')
      m.SameScopes := by
  cases fuel with
  | zero => exact fun _ _ => rfl
  | succ fuel =>
    have kept : m.Kept (Run.Logic.footprint c s.node)
        (((evaluator config (fuel + 1)).stmt s c).after m) := (Run.agree_stmt s hc).kept
    have whole : (evaluator config (fuel + 1)).stmt s c =
        Run.locating s.span (stmtNode config (evaluator config fuel) s.node c) := rfl
    cases hs : s.node with
    | letVar name type value attrs =>
      rw [whole, hs]
      exact .mapFailure _ (silently_ends (letVar_ends name type value attrs hc))
    | defFunc decl =>
      rw [whole, hs]
      exact .mapFailure _ (silently_ends (Run.declareFunc_ends hc ⟨decl, c⟩))
    | _ =>
      rw [hs] at kept
      exact .of_after (fun _ => kept.sameScopes rfl) (kept.sameScopes rfl)

/-- **Binding frames.** However a statement ends, the frames of every context are afterwards what
they were, except that a `let` that succeeds adds one variable with a cell of its own, and a `def`
that succeeds adds one function, each in the innermost frame of the context of the statement.
Expressions, and closures that are called back, change no frame at all. -/
theorem binding_frames (config : Config) (fuel : Nat) (m : Machine) :
    (∀ s c, c < m.store.graph.size →
      Ends ((evaluator config fuel).stmt s c) m (fun _ m' => s.node.Declares c m m')
        m.SameScopes) ∧
    (∀ e c, m.SameScopes (((evaluator config fuel).expr e c).after m)) ∧
    ∀ closure args span, m.SameScopes ((Run.closure config fuel closure args span).after m) := by
  refine ⟨?_, ?_, ?_⟩
  · intro s c hc
    exact stmt_ends s hc
  · intro e c
    exact (Run.agree_expr e c).kept.sameScopes rfl
  · intro closure args span
    exact (Run.agree_closure closure args span).kept.sameScopes rfl

/-- `let x = 1` in the World of a new session. -/
theorem binding_frames_let :
    let m := (Session.start ⟨[], none⟩ 2 (.start .empty .silent [] none)).machine
    let s : Stmt := ⟨.letVar "x" none ⟨.int 1, ⟨8, 9⟩⟩ .none, ⟨0, 9⟩⟩
    0 < m.store.graph.size ∧
      Ends ((evaluator ⟨[], none⟩ 2).stmt s 0) m (fun _ m' => m.NewVariable m' 0 "x" .none)
        m.SameScopes :=
  ⟨by decide, (binding_frames ⟨[], none⟩ 2 _).1 _ 0 (by decide)⟩

end Eval

end TreeScript
