import TreeScript.Syntax.Tree
import TreeScript.Number.Integer
import TreeScript.Value.Dict

/-!
# Values

The values of running programs. Scalars, text and collections are what they look like; closures,
files, instances and modules are handles, and copying a handle names the same thing again.
-/
namespace TreeScript

/-- A context of the store: a World, a call, an instance or a closure invocation. -/
abbrev CtxId := Nat

/-- A variable cell of the store. -/
abbrev CellId := Nat

/-- An open or closed file. -/
abbrev FileId := Nat

/-- A closure: its code and the context it was created in. Two evaluations of one literal give
closures of different identity. -/
structure Closure where
  id : Nat
  params : List Param
  body : Block
  captured : CtxId

inductive Value where
  | int (n : Int64)
  | float (x : Float)
  | bool (b : Bool)
  | char (c : Char)
  | str (s : String)
  | list (items : List Value)
  /-- A sequence whose items are never replaced. -/
  | tuple (items : List Value)
  | dict (d : Dict Value)
  | none
  | some (v : Value)
  | file (id : FileId)
  | closure (c : Closure)
  /-- An instance of a class: the context that holds its members. -/
  | object (ctx : CtxId)
  /-- An imported module: the World that holds its globals. -/
  | module (world : CtxId)
  | unit
  deriving Inhabited

/-- What kinds of value there are. -/
inductive Kind where
  | int | float | bool | char | str | list | tuple | dict | option | file | closure | object
  | module | unit
  deriving DecidableEq, Repr

namespace Kind

def name : Kind → String
  | int => "int"
  | float => "float"
  | bool => "bool"
  | char => "char"
  | str => "str"
  | list => "list"
  | tuple => "tuple"
  | dict => "dict"
  | option => "option"
  | file => "file"
  | closure => "closure"
  | object => "class"
  | module => "module"
  | unit => "unit"

def all : List Kind :=
  [int, float, bool, char, str, list, tuple, dict, option, file, closure, object, module, unit]

def ofName? (name : String) : Option Kind := all.find? (·.name == name)

def isNumeric : Kind → Bool
  | int | float => true
  | _ => false

end Kind

/-- What is known of the things that values name by handle. -/
structure Handles where
  className : CtxId → String
  moduleName : CtxId → Option String
  filePath : FileId → String
  fileIsOpen : FileId → Bool

namespace Value

def kind : Value → Kind
  | int _ => .int
  | float _ => .float
  | bool _ => .bool
  | char _ => .char
  | str _ => .str
  | list _ => .list
  | tuple _ => .tuple
  | dict _ => .dict
  | none => .option
  | some _ => .option
  | file _ => .file
  | closure _ => .closure
  | object _ => .object
  | module _ => .module
  | unit => .unit

/-- The name of the value's type; an instance has its class for a type. -/
def typeName (h : Handles) : Value → String
  | object c => h.className c
  | v => v.kind.name

/-- Whether a condition counts the value as true. -/
def truthy (h : Handles) : Value → Bool
  | int n => n != 0
  | float x => x != 0
  | bool b => b
  | char c => c.toNat != 0
  | str _ => true
  | list items => !items.isEmpty
  | tuple items => !items.isEmpty
  | dict d => !d.isEmpty
  | none => false
  | some _ => true
  | file f => h.fileIsOpen f
  | closure _ => true
  | object _ => true
  | module _ => true
  | unit => false

def ofChars (cs : List Char) : Value := .str (String.ofList cs)

def ofOption : Option Value → Value
  | .none => none
  | .some v => some v

def ofLength (n : Nat) : Value := int (Integer.ofLength n)

def asInt? : Value → Option Int64
  | int n => .some n
  | _ => .none

def asStr? : Value → Option String
  | str s => .some s
  | _ => .none

/-- The value as a key of a dictionary. -/
def asKey? : Value → Option Key
  | int n => .some (.int n)
  | bool b => .some (.bool b)
  | char c => .some (.char c)
  | str s => .some (.str s)
  | _ => .none

def ofKey : Key → Value
  | .int n => int n
  | .bool b => bool b
  | .char c => char c
  | .str s => str s

/-- Whether an operator or an assignment may bring the two values together: numbers with numbers,
text with characters, and else like with like. -/
def compatible (v w : Value) : Bool :=
  (v.kind.isNumeric && w.kind.isNumeric) || v.kind == w.kind
    || (v.kind == .str && w.kind == .char) || (v.kind == .char && w.kind == .str)

/-- Whether the value satisfies an annotation as it is. -/
def hasType (h : Handles) : TypeAnn → Value → Bool
  | .any, _ => true
  | .class name, object c => h.className c == name
  | .class _, _ => false
  | .int, v => v.kind == .int
  | .float, v => v.kind == .float
  | .bool, v => v.kind == .bool
  | .char, v => v.kind == .char
  | .str, v => v.kind == .str
  | .list, v => v.kind == .list
  | .tuple, v => v.kind == .tuple
  | .dict, v => v.kind == .dict
  | .option, v => v.kind == .option
  | .file, v => v.kind == .file
  | .closure, v => v.kind == .closure
  | .unit, v => v.kind == .unit

end Value

end TreeScript
