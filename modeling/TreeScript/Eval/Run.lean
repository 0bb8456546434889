import TreeScript.Eval.Stmt

/-!
# Running programs

An evaluator of fuel `n + 1` hands the parts of a tree to the evaluator of fuel `n`, and one without
fuel stops at once. More fuel never changes a run that ends.
-/
namespace TreeScript

/-- The evaluator of the language with so much fuel. -/
def evaluator (config : Config) : Nat → Evaluator
  | 0 => ⟨0, fun _ _ => Run.outOfFuel, fun _ _ => Run.outOfFuel⟩
  | n + 1 =>
    ⟨n + 1, fun e c => Eval.expr config (evaluator config n) e c,
      fun s c => Eval.stmt config (evaluator config n) s c⟩

/-- A machine before the first run. Nothing is let go on it until it is known what is held from
outside. -/
def Machine.start (disk : Files.Disk) (output : Output) (input : List String)
    (limit : Option Nat) : Machine :=
  ⟨.empty, disk, output, input, .empty limit, [], [], none⟩

namespace Run

/-- Runs a program in a World. -/
def program (config : Config) (fuel : Nat) (p : Program) (world : CtxId) : Run Unit :=
  holding [.context world] (Eval.program (evaluator config fuel) world p)

/-- Runs a statement and gives the value that it ends with. -/
def statement (config : Config) (fuel : Nat) (s : Stmt) (c : CtxId) : Run Value := do
  return (← holding [.context c] ((evaluator config fuel).stmt s c)).value

/-- Calls a closure with values. -/
def closure (config : Config) (fuel : Nat) (f : Closure) (args : List Value) (span : Span) :
    Run Value :=
  Eval.callback (evaluator config fuel) span f args

/-- Runs a program in a World of its own. -/
def interpret (config : Config) (fuel : Nat) (p : Program) : Run CtxId := do
  let world ← newContext .emptyWorld
  program config fuel p world
  return world

end Run

end TreeScript
