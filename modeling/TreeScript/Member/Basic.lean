import TreeScript.Machine

/-!
# Members of built-in values

A member of a built-in value reads its receiver, edits it where it is, calls back into the program
with a snapshot of it, or works on the file that it names. Every member checks the number of its
arguments first.
-/
namespace TreeScript

/-- Calls a closure with values. -/
abbrev Callback := Closure → List Value → Run Value

inductive Member where
  | read (f : Handles → Value → List Value → Except Fault Value)
  | edit (f : Handles → List Value → Edit Value)
  | apply (f : Callback → Value → List Value → Run Value)
  | file (f : Value → List Value → Run Value)

namespace Member

/-- How a member treats its receiver. A file is not changed by work on what it names. -/
def shape : Member → String
  | read _ => "read"
  | edit _ => "mutate"
  | apply _ => "apply"
  | file _ => "read"

/-- The fault of a wrong number of arguments. -/
def arity {α : Type} (name : String) (expected : Nat) (args : List Value) : Except Fault α :=
  .error (.arity name expected args.length)

def intArg (name : String) : Value → Except Fault Int64
  | .int n => .ok n
  | _ => .error (.invalidArgument name "an int argument")

def strArg (name : String) : Value → Except Fault String
  | .str s => .ok s
  | _ => .error (.invalidArgument name "a str argument")

def closureArg (name : String) : Value → Except Fault Closure
  | .closure c => .ok c
  | _ => .error (.invalidArgument name "a closure argument")

end Member

end TreeScript
