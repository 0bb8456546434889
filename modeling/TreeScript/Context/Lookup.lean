import TreeScript.Context.Graph

/-!
# Name resolution

Variables are looked for from the inside out, except that code of a class sees the members of the
instance before the locals of its own calls. Functions are looked for from the outside in, except
that an instance sees its own methods first.
-/
namespace TreeScript.Graph

/-- A variable bound in the context itself. -/
def localVar? (g : Graph) (c : CtxId) (name : String) : Option CellId :=
  (g.context? c).bind (·.vars.get? name)

/-- A function declared in the context itself. -/
def localFunc? (g : Graph) (c : CtxId) (name : String) : Option Func :=
  (g.context? c).bind (·.funcs.get? name)

/-- A member of an instance. -/
def member? (g : Graph) (c : CtxId) (name : String) : Option CellId :=
  if g.isObject c then g.localVar? c name else none

/-- A constructor argument of an instance that is being built. -/
def argument? (g : Graph) (c : CtxId) (name : String) : Option CellId :=
  match g.kind? c with
  | some (.object _ _ _ arguments _) => arguments.lookup name
  | _ => none

/-- What a name means in the first context of a chain. -/
def varAlong? (g : Graph) (name : String) : List CtxId → Option CellId
  | [] => none
  | c :: outer =>
    match g.kind? c with
    | none => none
    | some (.world ..) => g.localVar? c name
    | some (.call ..) =>
      ((outer.find? g.isObject).bind (g.member? · name)).or
        ((g.localVar? c name).or (varAlong? g name outer))
    | some (.object ..) =>
      (g.localVar? c name).or ((g.argument? c name).or (varAlong? g name outer))
    | some (.closure ..) => (g.localVar? c name).or (varAlong? g name outer)

/-- The variable that a name means in a context. -/
def var? (g : Graph) (c : CtxId) (name : String) : Option CellId := g.varAlong? name (g.chain c)

/-- What a function name means in the first context of a chain. -/
def funcAlong? (g : Graph) (name : String) : List CtxId → Option Func
  | [] => none
  | c :: outer =>
    match g.kind? c with
    | none => none
    | some (.world ..) => g.localFunc? c name
    | some (.call ..) => (funcAlong? g name outer).or (g.localFunc? c name)
    | some (.closure ..) => (funcAlong? g name outer).or (g.localFunc? c name)
    | some (.object ..) => (g.localFunc? c name).or (funcAlong? g name outer)

/-- The function that a name means in a context. -/
def func? (g : Graph) (c : CtxId) (name : String) : Option Func :=
  g.funcAlong? name (g.chain c)

/-- The class of a name, which all code of a World shares. -/
def class? (g : Graph) (c : CtxId) (name : String) : Option ClassDecl :=
  match g.kind? (g.root c) with
  | some (.world _ classes _) => classes.lookup name
  | _ => none

/-- The imported module of a name, which all code of a World shares. -/
def import? (g : Graph) (c : CtxId) (name : String) : Option CtxId :=
  match g.kind? (g.root c) with
  | some (.world _ _ imports) => imports.lookup name
  | _ => none

end TreeScript.Graph
