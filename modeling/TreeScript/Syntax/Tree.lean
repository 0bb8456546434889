import TreeScript.Source.Span
import TreeScript.Syntax.Operator

/-!
# Syntax trees

The trees that the evaluator walks. Every expression and statement carries the span it was read
from.
-/
namespace TreeScript

/-- Attributes of a declaration. -/
structure Attrs where
  /-- Reachable from outside the instance or module that declares it. -/
  isPub : Bool
  /-- Never written after its declaration. -/
  isConst : Bool
  /-- As a parameter: another name for the caller's variable. -/
  isRef : Bool
  deriving DecidableEq, Repr, Inhabited

namespace Attrs

def none : Attrs := ⟨false, false, false⟩

/-- What is left of a parameter's attributes on the variable that it binds. -/
def withoutRef (a : Attrs) : Attrs := { a with isRef := false }

/-- The names of the set attributes, joined by bars. -/
def text (a : Attrs) : String :=
  let names := (if a.isPub then ["PUB"] else []) ++ (if a.isConst then ["CONST"] else [])
    ++ (if a.isRef then ["REF"] else [])
  if names.isEmpty then "0x0" else String.intercalate " | " names

end Attrs

/-- A type annotation. Annotations are checked when a value is bound. -/
inductive TypeAnn where
  | int | float | bool | char | str | list | tuple | dict | option | file | closure | unit
  | any
  | class (name : String)
  deriving DecidableEq, Repr

namespace TypeAnn

/-- Reads a type name; one that is not built in names a class. -/
def ofName : String → TypeAnn
  | "int" => .int
  | "float" => .float
  | "bool" => .bool
  | "char" => .char
  | "str" => .str
  | "list" => .list
  | "tuple" => .tuple
  | "dict" => .dict
  | "option" => .option
  | "file" => .file
  | "closure" => .closure
  | "unit" => .unit
  | "void" => .unit
  | "any" => .any
  | name => .class name

def text : TypeAnn → String
  | .int => "int"
  | .float => "float"
  | .bool => "bool"
  | .char => "char"
  | .str => "str"
  | .list => "list"
  | .tuple => "tuple"
  | .dict => "dict"
  | .option => "option"
  | .file => "file"
  | .closure => "closure"
  | .unit => "unit"
  | .any => "any"
  | .class name => name

end TypeAnn

/-- A parameter of a function, a constructor or a closure. -/
structure Param where
  name : String
  type : Option TypeAnn
  attrs : Attrs
  deriving DecidableEq, Repr

mutual

structure Expr where
  node : ExprNode
  span : Span

inductive ExprNode where
  | name (name : String)
  | int (n : Int64)
  | float (x : Float)
  | str (s : String)
  | char (c : Char)
  | bool (b : Bool)
  | none
  | binary (op : BinaryOp) (left right : Expr)
  | unary (op : UnaryOp) (operand : Expr)
  /-- A call by name: an intrinsic, a class, a function or a variable that holds a closure. -/
  | call (name : String) (args : List Expr)
  /-- Member access; the right side is a name or a call. -/
  | member (left right : Expr)
  | index (left index : Expr)
  | list (items : List Expr)
  | tuple (items : List Expr)
  | dict (keyType : Option TypeAnn) (entries : List (Expr × Expr))
  | closure (params : List Param) (body : List Stmt)

structure Stmt where
  node : StmtNode
  span : Span

inductive StmtNode where
  | letVar (name : String) (type : Option TypeAnn) (value : Expr) (attrs : Attrs)
  | assign (target : Expr) (op : AssignOp) (value : Expr)
  | defFunc (decl : FuncDecl)
  | defClass (decl : ClassDecl)
  | ifElse (condition : Expr) (body : List Stmt) (otherwise : Option (List Stmt))
  | whileLoop (condition : Expr) (body : List Stmt)
  /-- Counts `name` from `first` up to, but not including, `last`. -/
  | forRange (name : String) (first last : Expr) (body : List Stmt)
  | ret (value : Option Expr)
  | expr (e : Expr)
  | importPath (path : String)
  /-- Names the module that the program defines. -/
  | nameModule (name : String)
  | block (body : List Stmt)

structure FuncDecl where
  name : String
  params : List Param
  result : Option TypeAnn
  body : List Stmt
  attrs : Attrs

structure MemberDecl where
  name : String
  type : Option TypeAnn
  value : Expr
  attrs : Attrs
  span : Span

/-- A class: the parameters are in reach while the members are initialised, and a method named
`constructor` runs once the members exist. -/
structure ClassDecl where
  name : String
  params : List Param
  members : List MemberDecl
  methods : List FuncDecl
  attrs : Attrs

end

abbrev Block := List Stmt
abbrev Program := List Stmt

/-- The name, if the expression is a bare name. -/
def Expr.name? : Expr → Option String
  | ⟨.name name, _⟩ => some name
  | _ => none

end TreeScript
