import TreeScript.Eval.Basic

/-!
# Calls

Functions, closures and classes. Every call gets a context of its own, owned by the context that
the code was declared in; it is live until it ends, and a failure inside it tells of it.
-/
namespace TreeScript.Eval

/-- The cell that a parameter is bound to. A reference takes the caller's variable if the argument
is a bare name; any other parameter gets a cell of its own. -/
def paramCell (param : Param) (arg : Arg) : Run CellId := do
  match (if param.attrs.isRef then arg.cell else none) with
  | some i =>
    let _ ← Run.ofExcept ((← Run.readCell i).annotate (← Run.handles) param.type)
    return i
  | none =>
    let value ← Run.ofExcept (arg.value.annotate (← Run.handles) param.type)
    Run.newCell ⟨param.name, value, param.attrs.withoutRef⟩

/-- Binds parameters to arguments in turn. -/
def bindParams (bind : String → CellId → Run Unit) : List Param → List Arg → Run Unit
  | param :: params, arg :: args => do
    bind param.name (← paramCell param arg)
    bindParams bind params args
  | _, _ => pure ()

def checkArity (name : String) (params : List Param) (args : List Arg) : Run Unit :=
  if params.length = args.length then pure ()
  else Run.raise (.arity name params.length args.length)

/-- The body of a call: a block whose value is what it returns. -/
def body (ev : Evaluator) (c : CtxId) (b : Block) : Run Value := do
  match ← block ev c b with
  | .ret v => return v
  | .normal _ => return .unit

/-- Calls a function or a method. Its owner is held as long as the call lasts. -/
def callFunc (ev : Evaluator) (func : Func) (args : List Arg) (span : Span) : Run Value := do
  let decl := func.decl
  checkArity decl.name decl.params args
  Run.holding (args.flatMap Arg.holds) (Run.letGo fun _ => func.owner)
  if !(← Run.graph).isLive func.owner then Run.raise (.functionOutlived decl.name)
  let c ← Run.newContext (.call func.owner decl.name (decl.params.zip args))
  bindParams (Run.bindCell c) decl.params args
  let v ← Run.holding [.context func.owner, .context c] do
    Run.inCall decl.name span (body ev c decl.body)
  Run.locating span do Run.ofExcept (v.annotate (← Run.handles) decl.result)

/-- Calls a closure. Its code sees what it saw where it was created. -/
def callClosure (ev : Evaluator) (closure : Closure) (args : List Arg) (span : Span) :
    Run Value := do
  checkArity "closure" closure.params args
  Run.holding (.value (.closure closure) :: args.flatMap Arg.holds) do
    Run.letGo fun _ => closure.captured
  match (← Run.graph).follow closure.captured with
  | none => Run.raise .closureOutlived
  | some owner =>
    let c ← Run.newContext (.closure owner (closure.params.zip args))
    bindParams (Run.bindCell c) closure.params args
    Run.holding [.context owner, .context c] do
      Run.inCall "<closure>" span (body ev c closure.body)

/-- Calls a closure with values. -/
def callback (ev : Evaluator) (span : Span) : Callback := fun closure vs =>
  callClosure ev closure (vs.map Arg.ofValue) span

/-- Declares the methods of an instance. -/
def declareMethods (c : CtxId) : List FuncDecl → Run Unit
  | [] => pure ()
  | decl :: rest => do
    Run.declare (.ofFunc c ⟨decl, c⟩)
    declareMethods c rest

/-- Initialises the members of an instance in the order of their declaration. -/
def initMembers (ev : Evaluator) (c : CtxId) : List MemberDecl → Run Unit
  | [] => pure ()
  | member :: rest => do
    let v ← ev.expr member.value c
    let v ← Run.locating member.span do
      Run.ofExcept (v.annotate (← Run.handles) member.type)
    Run.declareVar c ⟨member.name, v, member.attrs⟩
    initMembers ev c rest

/-- Makes the members of an instance and runs its constructor. -/
def construct (ev : Evaluator) (c : CtxId) (decl : ClassDecl) (span : Span) : Run Unit := do
  initMembers ev c decl.members
  match (← Run.graph).localFunc? c "constructor" with
  | some func => discard (callFunc ev func [] span)
  | none => pure ()

/-- Makes an instance of a class. The constructor arguments are in reach until it is built, or
building it fails. -/
def instantiate (ev : Evaluator) (decl : ClassDecl) (world : CtxId) (args : List Arg)
    (span : Span) : Run Value := do
  checkArity decl.name decl.params args
  let c ← Run.newContext (.object world decl (decl.params.zip args) [] [])
  Run.ensuring
    (do
      bindParams (fun name i => Run.declare (.ofArgument c name i)) decl.params args
      declareMethods c decl.methods
      Run.holding [.context world, .context c] do
        Run.inCall decl.name span (construct ev c decl span))
    fun m => { m with store := { m.store with graph := m.store.graph.clearArguments c } }
  return .object c

/-- Calls what a name means: an intrinsic, a class, a function, or a variable that holds a
closure. -/
def callName (config : Config) (ev : Evaluator) (name : String) (args : List Arg) (c : CtxId)
    (span : Span) : Run Value := do
  match Intrinsic.find? name with
  | some f => f config (args.map (·.value))
  | none =>
    let s ← Run.holding (args.flatMap Arg.holds) (Run.storeFrom c)
    match s.graph.class? c name with
    | some decl => instantiate ev decl (s.graph.root c) args span
    | none =>
      match s.graph.func? c name with
      | some func => callFunc ev func args span
      | none =>
        match s.graph.var? c name with
        | none => Run.raise (.undeclared "function" name)
        | some i =>
          match (s.cell i).value with
          | .closure closure => callClosure ev closure args span
          | v => Run.raise (.notCallable name (v.typeName (← Run.handles)))

end TreeScript.Eval
