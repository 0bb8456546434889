import TreeScript.Eval.Member

/-!
# Expressions

The value of an expression, and the place that it names if it names one.
-/
namespace TreeScript.Eval

/-- The entries of a dictionary, key before value, from left to right. -/
def entries (ev : Evaluator) (c : CtxId) : Dict Value → List (Expr × Expr) → Run (Dict Value)
  | d, [] => pure d
  | d, (key, value) :: rest => do
    let key ← Run.holding [.value (.dict d)] (ev.expr key c)
    let value ← Run.holding [.value (.dict d), .value key] (ev.expr value c)
    let k ← Run.ofExcept (Value.keyOf (← Run.handles) d key)
    entries ev c (d.insert k value) rest

/-- The kind of key that an annotation asks for; `any` leaves it open. -/
def keyKind : Option TypeAnn → Except Fault (Option KeyKind)
  | none => .ok none
  | some .any => .ok none
  | some .int => .ok (some .int)
  | some .bool => .ok (some .bool)
  | some .char => .ok (some .char)
  | some .str => .ok (some .str)
  | some other => .error (.typeMismatch "a hashable key type" other.text)

/-- Binary operators: `&&` and `||` look at the right side only if they have to. -/
def binary (ev : Evaluator) (op : BinaryOp) (left right : Expr) (c : CtxId) : Run Value := do
  let v ← ev.expr left c
  match op with
  | .and =>
    if v.truthy (← Run.handles) then
      let w ← Run.holding [.value v] (ev.expr right c)
      return .bool (w.truthy (← Run.handles))
    else return .bool false
  | .or =>
    if v.truthy (← Run.handles) then return .bool true
    else
      let w ← Run.holding [.value v] (ev.expr right c)
      return .bool (w.truthy (← Run.handles))
  | op =>
    let w ← Run.holding [.value v] (ev.expr right c)
    Run.ofExcept (Value.binary (← Run.handles) op v w)

/-- The place that an expression names. Any other expression gives its value a place that nothing
names. -/
def place (ev : Evaluator) (c : CtxId) : Expr → Run Place
  | ⟨.name name, _⟩ => do
    let g ← Run.graphFrom c
    match g.import? c name, g.var? c name with
    | none, some i => return .ofCell i
    | _, _ => return .ofValue (← nameValue name c)
  | ⟨.index left index, _⟩ => do
    let p ← place ev c left
    let i ← Run.holding p.holds (ev.expr index c)
    return p.item i
  | ⟨.member left ⟨.name field, _⟩, _⟩ => do fieldOf (← ev.expr left c) field c
  | e => return .ofValue (← ev.expr e c)

/-- What a message calls an expression that names no place. -/
def notPlaceLabel : ExprNode → String
  | .call .. => "a call"
  | .member .. => "a method call"
  | .binary .. => "an operator expression"
  | .unary .. => "an operator expression"
  | .closure .. => "a closure"
  | _ => "a literal"

/-- The place that the left side of an assignment names. -/
def target (ev : Evaluator) (c : CtxId) : Expr → Run Place
  | ⟨.name name, _⟩ => do
    let g ← Run.graphFrom c
    match g.import? c name, g.var? c name with
    | some _, _ => Run.raise (.notAssignable ("module `" ++ name ++ "`"))
    | none, some i => return .ofCell i
    | none, none =>
      if name = "this" && (g.enclosingObject? c).isSome then
        Run.raise (.notAssignable "`this`")
      else Run.raise (.undeclared "variable" name)
  | ⟨.index left index, _⟩ => do
    let p ← target ev c left
    let i ← Run.holding p.holds (ev.expr index c)
    return p.item i
  | ⟨.member left ⟨.name field, _⟩, _⟩ => do fieldOf (← ev.expr left c) field c
  | e => Run.raise (.notAssignable (notPlaceLabel e.node))

/-- A closure of its own identity. -/
def newClosure (params : List Param) (body : Block) (c : CtxId) : Run Value := fun m =>
  .ok (.closure ⟨m.store.nextClosure, params, body, c⟩)
    { m with store := { m.store with nextClosure := m.store.nextClosure + 1 } }

/-- The value of a node that stands in an expression of the given span. -/
def node (config : Config) (ev : Evaluator) (e : Expr) (c : CtxId) : Run Value :=
  match e.node with
  | .name name => nameValue name c
  | .int n => pure (.int n)
  | .float x => pure (.float x)
  | .str s => pure (.str s)
  | .char ch => pure (.char ch)
  | .bool b => pure (.bool b)
  | .none => pure .none
  | .binary op left right => binary ev op left right c
  | .unary op operand => do
    let v ← ev.expr operand c
    Run.ofExcept (Value.unary (← Run.handles) op v)
  | .call name arguments => do callName config ev name (← args ev c arguments) c e.span
  | .member left right =>
    match right.node with
    | .name field => do (← fieldOf (← ev.expr left c) field c).read
    | .call name arguments => do
      let receiver ← place ev c left
      Run.holding receiver.holds do
        callMember ev receiver name (← args ev c arguments) c right.span
    | _ => Run.raise .badMember
  | .index .. => do (← place ev c e).read
  | .list items => return .list (← exprs ev c items)
  | .tuple items => return .tuple (← exprs ev c items)
  | .dict keyType items => do
    let kind ← Run.ofExcept (keyKind keyType)
    return .dict (← entries ev c (.empty kind) items)
  | .closure params body => newClosure params body c

/-- The value of an expression. A failure in it is placed there unless it is placed already. -/
def expr (config : Config) (ev : Evaluator) (e : Expr) (c : CtxId) : Run Value :=
  Run.locating e.span (node config ev e c)

end TreeScript.Eval
