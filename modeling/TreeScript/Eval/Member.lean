import TreeScript.Eval.Call

/-!
# Access to members

Fields and methods of instances, globals of modules, and the members of built-in values. What is
not public is in reach only of code that runs inside the instance or module.
-/
namespace TreeScript.Eval

/-- What messages call a module. -/
def moduleLabel (g : Graph) (world : CtxId) : String :=
  match g.moduleName? world with
  | some name => "module " ++ name
  | none => "module"

/-- Fails unless a member may be used. -/
def checkAccess (isPub inside : Bool) (name owner : String) : Run Unit :=
  if isPub || inside then pure () else Run.raise (.privateMember name owner)

/-- The field of an instance, or the global of a module. -/
def fieldOf (v : Value) (field : String) (c : CtxId) : Run Place := do
  let s ← Run.holding [.value v] (Run.storeFrom c)
  let h ← Run.handles
  match v with
  | .object object =>
    let className := h.className object
    match s.graph.member? object field with
    | none => Run.raise (.noSuchMember field className)
    | some i =>
      checkAccess (s.cell i).attrs.isPub (s.graph.isWithin c object) field className
      return .ofCell i
  | .module world =>
    let label := moduleLabel s.graph world
    match s.graph.localVar? world field with
    | none => Run.raise (.noSuchMember field label)
    | some i =>
      checkAccess (s.cell i).attrs.isPub (s.graph.root c == world) field label
      return .ofCell i
  | v => Run.raise (.noSuchMember field (v.typeName h))

/-- Calls the closure that a member holds. -/
def callCell (ev : Evaluator) (i : CellId) (name : String) (args : List Arg) (span : Span) :
    Run Value := do
  match ← Run.readCell i with
  | .closure closure => callClosure ev closure args span
  | v => Run.raise (.notCallable name (v.typeName (← Run.handles)))

/-- Calls a method of an instance, or a member that holds a closure. -/
def callMethod (ev : Evaluator) (object : CtxId) (name : String) (args : List Arg) (c : CtxId)
    (span : Span) : Run Value := do
  let s ← Run.holding (args.flatMap Arg.holds) (Run.storeFrom c)
  let className := (← Run.handles).className object
  let inside := s.graph.isWithin c object
  match s.graph.localFunc? object name with
  | some func =>
    checkAccess func.decl.attrs.isPub inside name className
    callFunc ev func args span
  | none =>
    match s.graph.member? object name with
    | some i =>
      checkAccess (s.cell i).attrs.isPub inside name className
      callCell ev i name args span
    | none => Run.raise (.noSuchMember name className)

/-- Calls a function or a class of a module, or a global that holds a closure. -/
def callModuleMember (ev : Evaluator) (world : CtxId) (name : String) (args : List Arg)
    (c : CtxId) (span : Span) : Run Value := do
  let s ← Run.holding (args.flatMap Arg.holds) (Run.storeFrom c)
  let label := moduleLabel s.graph world
  let inside := s.graph.root c == world
  match s.graph.localFunc? world name with
  | some func =>
    checkAccess func.decl.attrs.isPub inside name label
    callFunc ev func args span
  | none =>
    match s.graph.class? world name with
    | some decl =>
      checkAccess decl.attrs.isPub inside name label
      instantiate ev decl world args span
    | none =>
      match s.graph.localVar? world name with
      | some i =>
        checkAccess (s.cell i).attrs.isPub inside name label
        callCell ev i name args span
      | none => Run.raise (.noSuchMember name label)

/-- Uses a member on what stands at a place. -/
def useMember (ev : Evaluator) (receiver : Place) (args : List Value) (span : Span) :
    Member → Run Value
  | .read f => do Run.ofExcept (f (← Run.handles) (← receiver.read) args)
  | .edit f => receiver.edit (f · args)
  | .apply f => do
    let v ← receiver.read
    Run.holding (.value v :: args.map .value) (f (callback ev span) v args)
  | .file f => do f (← receiver.read) args

/-- Calls a member of a built-in kind of value. -/
def callBuiltin (ev : Evaluator) (receiver : Place) (kind : Kind) (name : String)
    (args : List Value) (span : Span) : Run Value :=
  match Member.find? kind name with
  | none => Run.raise (.noSuchMember name kind.name)
  | some member => useMember ev receiver args span member

/-- Calls a member of whatever the receiver turns out to be. An instance or a module is held as
long as the call lasts. -/
def callMember (ev : Evaluator) (receiver : Place) (name : String) (args : List Arg) (c : CtxId)
    (span : Span) : Run Value := do
  match ← receiver.read with
  | .object object =>
    Run.holding [.value (.object object)] (callMethod ev object name args c span)
  | .module world =>
    Run.holding [.value (.module world)] (callModuleMember ev world name args c span)
  | v => callBuiltin ev receiver v.kind name (args.map (·.value)) span

end TreeScript.Eval
