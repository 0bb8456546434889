import TreeScript.Intrinsic
import TreeScript.Member.Table

/-!
# Evaluators

Evaluation is written against an evaluator for the parts of a tree, so that each form of the
language stands for itself. An evaluator of fuel `n` gives its parts to one of less fuel; `Eval.Run`
ties the knot.
-/
namespace TreeScript

/-- How a statement ends: by falling through, with the value of an expression, or by `return`. -/
inductive Flow where
  | normal (v : Value)
  | ret (v : Value)

def Flow.value : Flow → Value
  | normal v => v
  | ret v => v

structure Evaluator where
  /-- Bounds the rounds of a loop. -/
  fuel : Nat
  expr : Expr → CtxId → Run Value
  stmt : Stmt → CtxId → Run Flow

def Arg.holds (arg : Arg) : List Hold := .value arg.value :: arg.cell.toList.map .cell

/-- A location: a variable, or a value that nothing names, and a path into it. -/
structure Place where
  root : CellId ⊕ Value
  path : List Value

namespace Place

def ofCell (i : CellId) : Place := ⟨.inl i, []⟩

def ofValue (v : Value) : Place := ⟨.inr v, []⟩

/-- The place at an index of this one. -/
def item (p : Place) (index : Value) : Place := { p with path := p.path ++ [index] }

def holds (p : Place) : List Hold :=
  (match p.root with
    | .inl i => .cell i
    | .inr v => .value v) :: p.path.map .value

/-- The value at the root of the place. -/
def rootValue (p : Place) : Run Value :=
  match p.root with
  | .inl i => Run.readCell i
  | .inr v => pure v

/-- What stands at the place. -/
def read (p : Place) : Run Value := do
  Run.ofExcept (Value.read (← Run.handles) p.path (← p.rootValue))

/-- Edits what the path leads to in the variable. A value that nothing names is edited in vain. -/
def editRoot {α : Type} (p : Place) (f : Handles → Edit α) : Run α :=
  match p.root with
  | .inl i => Run.editCell i f
  | .inr v => do
    match f (← Run.handles) v with
    | .ok a _ => return a
    | .error fault _ => Run.raise fault

def edit {α : Type} (p : Place) (f : Handles → Edit α) : Run α :=
  p.editRoot fun h => Value.edit h p.path (f h)

def assign (p : Place) (op : AssignOp) (operand : Value) : Run Unit :=
  p.editRoot fun h => Value.assignAt h op p.path operand

end Place

namespace Eval

/-- What a name means as an expression: a module, a variable, or in a class the instance itself. -/
def nameValue (name : String) (c : CtxId) : Run Value := do
  let s ← Run.storeFrom c
  match s.graph.import? c name with
  | some world => return .module world
  | none =>
    match s.graph.var? c name with
    | some i => return (s.cell i).value
    | none =>
      match (if name = "this" then s.graph.enclosingObject? c else none) with
      | some object => return .object object
      | none => Run.raise (.undeclared "variable" name)

/-- The statements of a block in the scope that is open, up to the first `return`. -/
def block (ev : Evaluator) (c : CtxId) : Block → Run Flow
  | [] => pure (.normal .unit)
  | stmt :: rest => do
    match ← ev.stmt stmt c with
    | .ret v => return .ret v
    | .normal _ => block ev c rest

/-- The statements of a block in a scope of their own. -/
def scopedBlock (ev : Evaluator) (c : CtxId) (body : Block) : Run Flow :=
  Run.inScope c (block ev c body)

/-- A whole program: every statement in turn, with no regard to `return`. -/
def program (ev : Evaluator) (world : CtxId) : Program → Run Unit
  | [] => pure ()
  | stmt :: rest => do
    let _ ← ev.stmt stmt world
    program ev world rest

/-- The values of expressions, from left to right. -/
def exprs (ev : Evaluator) (c : CtxId) : List Expr → Run (List Value)
  | [] => pure []
  | e :: rest => do
    let v ← ev.expr e c
    return v :: (← Run.holding [.value v] (exprs ev c rest))

/-- The arguments of a call, from left to right. -/
def args (ev : Evaluator) (c : CtxId) : List Expr → Run (List Arg)
  | [] => pure []
  | e :: rest => do
    let value ← ev.expr e c
    let cell ← match e.name? with
      | some name => do
        let g ← Run.holding [.value value] (Run.graphFrom c)
        pure (if (g.import? c name).isNone then g.var? c name else none)
      | none => pure none
    let arg : Arg := ⟨value, cell⟩
    return arg :: (← Run.holding arg.holds (args ev c rest))

end Eval

end TreeScript
