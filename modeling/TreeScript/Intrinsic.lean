import TreeScript.Member.Basic
import TreeScript.Number.Decimal
import TreeScript.Text.Blank

/-!
# Intrinsics

The functions that every program can call by name. A program cannot declare others in their place.
-/
namespace TreeScript

abbrev Intrinsic := Config → List Value → Run Value

namespace Intrinsic

open Member (arity intArg strArg)

/-- An intrinsic that needs nothing but its arguments. -/
def pureOf (f : Handles → List Value → Except Fault Value) : Intrinsic := fun _ args => do
  Run.ofExcept (f (← Run.handles) args)

/-- Prints the arguments back to back and ends the line. -/
def print : Intrinsic := fun _ args => do
  Run.printLine (Value.textAll (← Run.handles) args)
  return .unit

/-- The first argument that counts as false, with its number. -/
def firstFalse (h : Handles) : Nat → List Value → Option (Nat × Value)
  | _, [] => none
  | n, v :: rest => if v.truthy h then firstFalse h (n + 1) rest else some (n, v)

/-- Fails unless every argument counts as true. -/
def assert (h : Handles) (args : List Value) : Except Fault Value :=
  match firstFalse h 1 args with
  | none => .ok .unit
  | some (n, v) =>
    .error (.assertionFailed
      ("argument " ++ toString n ++ " (" ++ v.typeName h ++ ") is falsy"))

def len (_ : Handles) : List Value → Except Fault Value
  | [.str s] => .ok (.ofLength s.length)
  | [.list items] => .ok (.ofLength items.length)
  | [.tuple items] => .ok (.ofLength items.length)
  | [.dict d] => .ok (.ofLength d.size)
  | [_] => .error (.invalidArgument "len" "a str, list, tuple or dict")
  | args => arity "len" 1 args

def argv : Intrinsic := fun config args =>
  match args with
  | [] => return .list (config.argv.map .str)
  | args => Run.ofExcept (arity "argv" 0 args)

/-- Converts to an integer: a fraction is cut off, and what is out of range becomes the nearest
integer. -/
def toInt (_ : Handles) : List Value → Except Fault Value
  | [.int n] => .ok (.int n)
  | [.float x] => .ok (.int x.toInt64)
  | [.bool b] => .ok (.int (if b then 1 else 0))
  | [.char c] => .ok (.int (Int64.ofNat c.toNat))
  | [.str s] =>
    match Integer.read? (Text.trim s.toList) with
    | some n => .ok (.int n)
    | none => .error (.invalidArgument "int" "a str holding an integer")
  | [_] => .error (.invalidArgument "int" "an int, float, bool, char or str")
  | args => arity "int" 1 args

def toFloat (_ : Handles) : List Value → Except Fault Value
  | [.int n] => .ok (.float n.toFloat)
  | [.float x] => .ok (.float x)
  | [.str s] =>
    match Decimal.read? (Text.trim s.toList) with
    | some x => .ok (.float x)
    | none => .error (.invalidArgument "float" "a str holding a number")
  | [_] => .error (.invalidArgument "float" "an int, float or str")
  | args => arity "float" 1 args

def toStr (h : Handles) : List Value → Except Fault Value
  | [v] => .ok (.str (v.text h))
  | args => arity "str" 1 args

def toBool (h : Handles) : List Value → Except Fault Value
  | [v] => .ok (.bool (v.truthy h))
  | args => arity "bool" 1 args

/-- The character of a number, if there is one. -/
def charOf? (n : Int64) : Option Char :=
  match Integer.natural? n with
  | some n => if n.isValidChar then some (Char.ofNat n) else none
  | none => none

def toChar (_ : Handles) : List Value → Except Fault Value
  | [.char c] => .ok (.char c)
  | [.int n] =>
    match charOf? n with
    | some c => .ok (.char c)
    | none => .error (.invalidArgument "char" "an int that is a valid code point")
  | [.str s] =>
    match s.toList with
    | [c] => .ok (.char c)
    | _ => .error (.invalidArgument "char" "a str of exactly one character")
  | [_] => .error (.invalidArgument "char" "a char, int or str")
  | args => arity "char" 1 args

def wrap (_ : Handles) : List Value → Except Fault Value
  | [v] => .ok (.some v)
  | args => arity "some" 1 args

def typeOf (h : Handles) : List Value → Except Fault Value
  | [v] => .ok (.str (v.typeName h))
  | args => arity "type" 1 args

/-- Copies a value with all instances in it. -/
def copy : Intrinsic := fun _ args =>
  match args with
  | [v] => Run.copy v
  | args => Run.ofExcept (arity "copy" 1 args)

/-- Ends the program with a code of 32 bits. -/
def exit (_ : Handles) : List Value → Except Fault Value
  | [code] => do
    let code ← intArg "exit" code
    if Int32.minValue.toInt ≤ code.toInt ∧ code.toInt ≤ Int32.maxValue.toInt then
      .error (.exit code.toInt32)
    else .error (.invalidArgument "exit" "a 32-bit exit code")
  | args => arity "exit" 1 args

/-- Prints a prompt, if there is one, and reads a line. At the end of the input it is empty. -/
def input : Intrinsic := fun _ args => do
  if !args.isEmpty then Run.print (Value.textAll (← Run.handles) args)
  return .str ((← Run.nextLine).getD "")

def unimplemented (h : Handles) (args : List Value) : Except Fault Value :=
  .error (.unimplemented (Value.textAll h args))

def openFile : Intrinsic := fun _ args =>
  match args with
  | [path, mode] => do
    let path ← Run.ofExcept (strArg "open" path)
    let mode ← Run.ofExcept (strArg "open" mode)
    Run.onDisk fun d =>
      match d.openFile path mode with
      | .ok (f, d) => (.ok (.file f), d)
      | .error fault => (.error fault, d)
  | args => Run.ofExcept (arity "open" 2 args)

/-- The paths in a directory. -/
def ls : Intrinsic := fun _ args =>
  match args with
  | [path] => do
    let path ← Run.ofExcept (strArg "ls" path)
    Run.onDisk fun d => ((d.list path).map fun paths => .list (paths.map .str), d)
  | args => Run.ofExcept (arity "ls" 1 args)

def mkdir : Intrinsic := fun _ args =>
  match args with
  | [path] => do
    let path ← Run.ofExcept (strArg "mkdir" path)
    Run.changeDisk (·.makeDirectory path)
    return .unit
  | args => Run.ofExcept (arity "mkdir" 1 args)

def move : Intrinsic := fun _ args =>
  match args with
  | [source, target] => do
    let source ← Run.ofExcept (strArg "move" source)
    let target ← Run.ofExcept (strArg "move" target)
    Run.changeDisk (·.move source target)
    return .unit
  | args => Run.ofExcept (arity "move" 2 args)

/-- All intrinsics with their names. -/
def table : List (String × Intrinsic) :=
  [("print", print), ("assert", pureOf assert), ("len", pureOf len), ("argv", argv),
    ("int", pureOf toInt), ("float", pureOf toFloat), ("str", pureOf toStr),
    ("bool", pureOf toBool), ("char", pureOf toChar), ("some", pureOf wrap),
    ("type", pureOf typeOf), ("copy", copy), ("exit", pureOf exit), ("input", input),
    ("unimplemented", pureOf unimplemented), ("open", openFile), ("ls", ls), ("mkdir", mkdir),
    ("move", move)]

def find? (name : String) : Option Intrinsic := table.lookup name

/-- The names of the intrinsics, in order. -/
def names : List String := (table.map Prod.fst).mergeSort (· ≤ ·)

end Intrinsic

end TreeScript
