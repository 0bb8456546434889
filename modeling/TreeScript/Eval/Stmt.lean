import TreeScript.Eval.Expr
import TreeScript.Eval.Import

/-!
# Statements
-/
namespace TreeScript.Eval

/-- Declares a variable with the value of an expression. -/
def letVar (ev : Evaluator) (name : String) (type : Option TypeAnn) (value : Expr)
    (attrs : Attrs) (c : CtxId) : Run Unit := do
  let v ← ev.expr value c
  let v ← Run.ofExcept (v.annotate (← Run.handles) type)
  Run.declareVar c ⟨name, v, attrs⟩

/-- Runs the body as long as the condition is true, for at most so many rounds. -/
def whileLoop (ev : Evaluator) (condition : Expr) (body : Block) (c : CtxId) : Nat → Run Flow
  | 0 => Run.outOfFuel
  | rounds + 1 => do
    let v ← ev.expr condition c
    if v.truthy (← Run.handles) then
      match ← scopedBlock ev c body with
      | .ret v => return .ret v
      | .normal _ => whileLoop ev condition body c rounds
    else return .normal .unit

/-- Runs the body so many times, with the counter one higher each time. -/
def countLoop (ev : Evaluator) (cell : CellId) (body : Block) (c : CtxId) :
    Nat → Int64 → Run Flow
  | 0, _ => pure (.normal .unit)
  | rounds + 1, n => do
    Run.editCell cell fun _ => .replace fun _ => .ok (.int n)
    match ← scopedBlock ev c body with
    | .ret v => return .ret v
    | .normal _ => countLoop ev cell body c rounds (n + 1)

/-- The bounds of a counting loop, which are integers. -/
def bounds (h : Handles) : Value → Value → Except Fault (Int64 × Int64)
  | .int first, .int last => .ok (first, last)
  | .int _, last => .error (.typeMismatch "int range bound" (last.typeName h))
  | first, _ => .error (.typeMismatch "int range bound" (first.typeName h))

/-- Counts a variable from the first bound up to, but not including, the last. Both bounds are
evaluated once. -/
def forRange (ev : Evaluator) (name : String) (first last : Expr) (body : Block) (c : CtxId) :
    Run Flow := do
  let v ← ev.expr first c
  let w ← Run.holding [.value v] (ev.expr last c)
  let (first, last) ← Run.ofExcept (bounds (← Run.handles) v w)
  Run.inScope c do
    let cell ← Run.newCell ⟨name, .int first, .none⟩
    Run.declare (.ofVar c name name cell)
    countLoop ev cell body c (last.toInt - first.toInt).toNat first

def ifElse (ev : Evaluator) (condition : Expr) (body : Block) (otherwise : Option Block)
    (c : CtxId) : Run Flow := do
  let v ← ev.expr condition c
  if v.truthy (← Run.handles) then scopedBlock ev c body
  else
    match otherwise with
    | some body => scopedBlock ev c body
    | none => return .normal .unit

/-- A statement that gives no value. -/
def silently (x : Run Unit) : Run Flow := do
  x
  return .normal .unit

def stmtNode (config : Config) (ev : Evaluator) (s : StmtNode) (c : CtxId) : Run Flow :=
  match s with
  | .letVar name type value attrs => silently (letVar ev name type value attrs c)
  | .assign left op right => silently do
    let v ← ev.expr right c
    (← Run.holding [.value v] (target ev c left)).assign op v
  | .defFunc decl => silently (Run.declare (.ofFunc c ⟨decl, c⟩))
  | .defClass decl => silently (Run.declareFrom c (.ofClass c decl))
  | .ifElse condition body otherwise => ifElse ev condition body otherwise c
  | .whileLoop condition body => whileLoop ev condition body c ev.fuel
  | .forRange name first last body => forRange ev name first last body c
  | .ret none => pure (.ret .unit)
  | .ret (some e) => return .ret (← ev.expr e c)
  | .expr e => return .normal (← ev.expr e c)
  | .importPath path => silently (importPath config ev path c)
  | .nameModule name => silently do
    Run.letGo (·.origin c)
    Run.modifyGraph (·.nameModule c name)
  | .block body => scopedBlock ev c body

/-- Runs a statement. A failure in it is placed there unless it is placed already. -/
def stmt (config : Config) (ev : Evaluator) (s : Stmt) (c : CtxId) : Run Flow :=
  Run.locating s.span (stmtNode config ev s.node c)

end TreeScript.Eval
