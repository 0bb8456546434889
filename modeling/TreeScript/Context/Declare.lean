import TreeScript.Context.Lookup
import TreeScript.Failure

/-!
# Declarations

Declaring names in a context. A name is declared once in a frame, and frames further out may
declare it as well.
-/
namespace TreeScript

/-- A declaration: what stands against it, and what it does when nothing does. -/
structure Declaration where
  obstacle? : Graph → Option Fault
  apply : Graph → Graph

namespace Declaration

/-- Makes the declaration unless something stands against it. -/
def run (d : Declaration) (g : Graph) : Except Fault Graph :=
  match d.obstacle? g with
  | some fault => .error fault
  | none => .ok (d.apply g)

/-- An instance remembers the order of its members. -/
def recordMember (name : String) : ContextKind → ContextKind
  | .object owner decl given arguments members =>
    .object owner decl given arguments (members ++ [name])
  | kind => kind

/-- A name bound to a cell in the innermost frame of a context. The cell's own name is what a
message gives. -/
def ofVar (c : CtxId) (name cellName : String) (cell : CellId) : Declaration where
  obstacle? g :=
    if (g.context? c).any (·.vars.bindsOnTop name) then some (.redeclared "variable" cellName)
    else none
  apply g := g.update c fun ctx =>
    { ctx with kind := recordMember name ctx.kind, vars := ctx.vars.bind name cell }

/-- A function in the innermost frame of a context. -/
def ofFunc (c : CtxId) (func : Func) : Declaration where
  obstacle? g :=
    if (g.context? c).any (·.funcs.bindsOnTop func.decl.name) then
      some (.redeclared "function" func.decl.name)
    else none
  apply g := g.update c fun ctx => { ctx with funcs := ctx.funcs.bind func.decl.name func }

def addArgument (name : String) (cell : CellId) : ContextKind → ContextKind
  | .object owner decl given arguments members =>
    .object owner decl given ((name, cell) :: arguments) members
  | kind => kind

/-- A constructor argument of an instance that is being built. -/
def ofArgument (c : CtxId) (name : String) (cell : CellId) : Declaration where
  obstacle? g :=
    if g.isObject c then
      (g.argument? c name).map fun _ => .redeclared "parameter" name
    else some .argumentsOutsideClass
  apply g := g.update c fun ctx => { ctx with kind := addArgument name cell ctx.kind }

def addClass (decl : ClassDecl) : ContextKind → ContextKind
  | .world module classes imports => .world module ((decl.name, decl) :: classes) imports
  | kind => kind

/-- A class, declared in the World of the code. -/
def ofClass (c : CtxId) (decl : ClassDecl) : Declaration where
  obstacle? g :=
    if g.isWorld (g.root c) then
      (g.class? c decl.name).map fun _ => .redeclared "class" decl.name
    else some .classOutsideWorld
  apply g := g.update (g.root c) fun ctx => { ctx with kind := addClass decl ctx.kind }

def addModule (name : String) (world : CtxId) : ContextKind → ContextKind
  | .world module classes imports => .world module classes ((name, world) :: imports)
  | kind => kind

/-- A module, made known in the World of the code. -/
def ofModule (c : CtxId) (name : String) (world : CtxId) : Declaration where
  obstacle? g :=
    if g.isWorld (g.root c) then
      (g.import? c name).map fun _ => .redeclared "module" name
    else some .importOutsideWorld
  apply g := g.update (g.root c) fun ctx => { ctx with kind := addModule name world ctx.kind }

end Declaration

namespace Graph

/-- Opens a frame for variables and one for functions. -/
def pushScope (g : Graph) (c : CtxId) : Graph :=
  g.update c fun ctx => { ctx with vars := ctx.vars.push, funcs := ctx.funcs.push }

/-- Closes the innermost frames. -/
def popScope (g : Graph) (c : CtxId) : Graph :=
  g.update c fun ctx => { ctx with vars := ctx.vars.pop, funcs := ctx.funcs.pop }

def scopeDepth (g : Graph) (c : CtxId) : Nat :=
  match g.context? c with
  | some ctx => ctx.vars.depth
  | none => 0

/-- Removes the innermost binding of a name in the context itself. -/
def removeVar? (g : Graph) (c : CtxId) (name : String) : Option (CellId × Graph) :=
  ((g.context? c).bind (·.vars.remove? name)).map fun (cell, vars) =>
    (cell, g.update c fun ctx => { ctx with vars })

def dropArguments : ContextKind → ContextKind
  | .object owner decl given _ members => .object owner decl given [] members
  | kind => kind

/-- Ends the building of an instance: its constructor arguments are gone. -/
def clearArguments (g : Graph) (c : CtxId) : Graph :=
  g.update c fun ctx => { ctx with kind := dropArguments ctx.kind }

def setModuleName (name : String) : ContextKind → ContextKind
  | .world _ classes imports => .world (some name) classes imports
  | kind => kind

/-- Names the module of the code. Code without a World has none to name. -/
def nameModule (g : Graph) (c : CtxId) (name : String) : Graph :=
  g.update (g.root c) fun ctx => { ctx with kind := setModuleName name ctx.kind }

end Graph

end TreeScript
