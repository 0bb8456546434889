import TreeScript.Member.Basic

/-!
# Members of dictionaries and options
-/
namespace TreeScript.Member.Entries

open Value (keyOf)

def dictOf (h : Handles) : Value → Except Fault (Dict Value)
  | .dict d => .ok d
  | v => .error (.typeMismatch "dict" (v.typeName h))

def len (h : Handles) (recv : Value) : List Value → Except Fault Value
  | [] => return .ofLength (← dictOf h recv).size
  | args => arity "len" 0 args

def hasKey (h : Handles) (recv : Value) : List Value → Except Fault Value
  | [key] => do
    let d ← dictOf h recv
    return .bool (d.contains (← keyOf h d key))
  | args => arity "has_key" 1 args

/-- The value at a key as an option. -/
def get (h : Handles) (recv : Value) : List Value → Except Fault Value
  | [key] => do
    let d ← dictOf h recv
    return .ofOption (d.get? (← keyOf h d key))
  | args => arity "get" 1 args

def keys (h : Handles) (recv : Value) : List Value → Except Fault Value
  | [] => return .list ((← dictOf h recv).keys.map Value.ofKey)
  | args => arity "keys" 0 args

def values (h : Handles) (recv : Value) : List Value → Except Fault Value
  | [] => return .list (← dictOf h recv).values
  | args => arity "values" 0 args

def insertAt (h : Handles) (key new recv : Value) : Except Fault Value := do
  let d ← dictOf h recv
  return .dict (d.insert (← keyOf h d key) new)

def insert (h : Handles) : List Value → Edit Value
  | [key, new] => do
    Edit.replace (insertAt h key new)
    return .unit
  | args => Edit.fail (.arity "insert" 2 args.length)

/-- Takes the entry at a key away, which has to be there. -/
def removeAt (h : Handles) (key recv : Value) : Except Fault Value := do
  let d ← dictOf h recv
  let k ← keyOf h d key
  if d.contains k then return .dict (d.erase k) else .error (.keyNotFound (key.quoted h))

def remove (h : Handles) : List Value → Edit Value
  | [key] => do
    Edit.replace (removeAt h key)
    return .unit
  | args => Edit.fail (.arity "remove" 1 args.length)

/-- What an option holds. -/
def optionOf (h : Handles) : Value → Except Fault (Option Value)
  | .some v => .ok (some v)
  | .none => .ok none
  | v => .error (.typeMismatch "option" (v.typeName h))

def isSome (h : Handles) (recv : Value) : List Value → Except Fault Value
  | [] => return .bool (← optionOf h recv).isSome
  | args => arity "is_some" 0 args

def isNone (h : Handles) (recv : Value) : List Value → Except Fault Value
  | [] => return .bool (← optionOf h recv).isNone
  | args => arity "is_none" 0 args

def unwrap (h : Handles) (recv : Value) : List Value → Except Fault Value
  | [] => do
    match ← optionOf h recv with
    | some v => return v
    | none => .error .unwrapNone
  | args => arity "unwrap" 0 args

def unwrapOr (h : Handles) (recv : Value) : List Value → Except Fault Value
  | [other] => return (← optionOf h recv).getD other
  | args => arity "unwrap_or" 1 args

def ofDict : List (String × Member) :=
  [("len", .read len), ("has_key", .read hasKey), ("get", .read get), ("keys", .read keys),
    ("values", .read values), ("insert", .edit insert), ("remove", .edit remove)]

def ofOption : List (String × Member) :=
  [("is_some", .read isSome), ("is_none", .read isNone), ("unwrap", .read unwrap),
    ("unwrap_or", .read unwrapOr)]

end TreeScript.Member.Entries
