import TreeScript.Member.Basic

/-!
# Members of lists and tuples
-/
namespace TreeScript.Member.Items

open Value (checkIndex)

/-- The items of a list or a tuple. -/
def itemsOf (h : Handles) : Value → Except Fault (List Value)
  | .list items => .ok items
  | .tuple items => .ok items
  | v => .error (.typeMismatch "list or tuple" (v.typeName h))

def len (h : Handles) (recv : Value) : List Value → Except Fault Value
  | [] => return .ofLength (← itemsOf h recv).length
  | args => arity "len" 0 args

def nth (h : Handles) (recv : Value) : List Value → Except Fault Value
  | [index] => do
    let items ← itemsOf h recv
    let i ← checkIndex (← intArg "nth" index) items.length
    return items.getD i .unit
  | args => arity "nth" 1 args

/-- The last item, or `none`. -/
def back (h : Handles) (recv : Value) : List Value → Except Fault Value
  | [] => return (← itemsOf h recv).getLastD .none
  | args => arity "back" 0 args

/-- The items in reverse, as a value of the same kind. -/
def rev (h : Handles) (recv : Value) : List Value → Except Fault Value
  | [] => do
    let items := (← itemsOf h recv).reverse
    match recv with
    | .tuple _ => return .tuple items
    | _ => return .list items
  | args => arity "rev" 0 args

/-- Adds any number of items at the end of a list. -/
def append (h : Handles) (args : List Value) : Edit Value := fun v =>
  match v with
  | .list items => .ok .unit (.list (items ++ args))
  | v => .error (.typeMismatch "list" (v.typeName h)) v

/-- Takes the item at an index out of a list. -/
def popAt (h : Handles) (index : Value) : Value → Except Fault Value
  | .list items => do
    let i ← checkIndex (← intArg "pop" index) items.length
    return .list (items.eraseIdx i)
  | v => .error (.typeMismatch "list" (v.typeName h))

def pop (h : Handles) : List Value → Edit Value
  | [index] => do
    Edit.replace (popAt h index)
    return .unit
  | args => Edit.fail (.arity "pop" 1 args.length)

def contains (h : Handles) (recv : Value) : List Value → Except Fault Value
  | [wanted] => return .bool ((← itemsOf h recv).any (·.equals wanted))
  | args => arity "contains" 1 args

/-- Adds a number to a sum; the sum is an integer until a floating-point number comes. -/
def addTo : Value → Value → Except Fault Value
  | .int a, .int b => .ok (.int (a + b))
  | .int a, .float b => .ok (.float (a.toFloat + b))
  | .float a, .int b => .ok (.float (a + b.toFloat))
  | .float a, .float b => .ok (.float (a + b))
  | _, _ => .error (.invalidArgument "sum" "a list of numbers")

/-- The sum of numbers from a first one on. -/
def sumFrom : Value → List Value → Except Fault Value
  | total, [] => .ok total
  | total, v :: rest =>
    match addTo total v with
    | .ok total => sumFrom total rest
    | .error fault => .error fault

def sum (h : Handles) (recv : Value) : List Value → Except Fault Value
  | [] => do sumFrom (.int 0) (← itemsOf h recv)
  | args => arity "sum" 0 args

/-- The items whose call gives a true value. -/
def filterItems (call : Value → Run Value) : List Value → Run (List Value)
  | [] => pure []
  | v :: rest => do
    let keep := (← call v).truthy (← Run.handles)
    let kept ← filterItems call rest
    return if keep then v :: kept else kept

def filter (call : Callback) (recv : Value) : List Value → Run Value
  | [f] => do
    let f ← Run.ofExcept (closureArg "filter" f)
    let items ← Run.ofExcept (itemsOf (← Run.handles) recv)
    return .list (← filterItems (fun v => call f [v]) items)
  | args => Run.ofExcept (arity "filter" 1 args)

/-- The results of the calls for the items. -/
def mapItems (call : Value → Run Value) : List Value → Run (List Value)
  | [] => pure []
  | v :: rest => do
    let new ← call v
    return new :: (← Run.holding [.value new] (mapItems call rest))

def map (call : Callback) (recv : Value) : List Value → Run Value
  | [f] => do
    let f ← Run.ofExcept (closureArg "map" f)
    let items ← Run.ofExcept (itemsOf (← Run.handles) recv)
    return .list (← mapItems (fun v => call f [v]) items)
  | args => Run.ofExcept (arity "map" 1 args)

def forItems (call : Value → Run Value) : List Value → Run Unit
  | [] => pure ()
  | v :: rest => do
    let _ ← call v
    forItems call rest

def foreach (call : Callback) (recv : Value) : List Value → Run Value
  | [f] => do
    let f ← Run.ofExcept (closureArg "foreach" f)
    let items ← Run.ofExcept (itemsOf (← Run.handles) recv)
    forItems (fun v => call f [v]) items
    return .unit
  | args => Run.ofExcept (arity "foreach" 1 args)

def foldItems (call : Value → Value → Run Value) : Value → List Value → Run Value
  | acc, [] => pure acc
  | acc, v :: rest => do foldItems call (← call acc v) rest

/-- Goes through the items with a value that each call replaces. -/
def fold (call : Callback) (recv : Value) : List Value → Run Value
  | [f, first] => do
    let f ← Run.ofExcept (closureArg "fold" f)
    let items ← Run.ofExcept (itemsOf (← Run.handles) recv)
    foldItems (fun acc v => call f [acc, v]) first items
  | args => Run.ofExcept (arity "fold" 2 args)

/-- What lists and tuples have in common. -/
def shared : List (String × Member) :=
  [("len", .read len), ("nth", .read nth), ("back", .read back), ("rev", .read rev)]

def ofList : List (String × Member) :=
  shared ++ [("append", .edit append), ("pop", .edit pop), ("contains", .read contains),
    ("sum", .read sum), ("filter", .apply filter), ("map", .apply map),
    ("foreach", .apply foreach), ("fold", .apply fold)]

end TreeScript.Member.Items
