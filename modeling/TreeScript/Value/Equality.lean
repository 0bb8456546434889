import TreeScript.Value.Basic

/-!
# Equality of values

Equality looks into collections and compares handles by what they name. An integer equals a
floating-point number when its conversion does, and a character equals the text that holds just
it.
-/
namespace TreeScript.Value

mutual

/-- Whether two values are equal, as `==` and searches in collections see it. -/
def equals : Value → Value → Bool
  | .int a, .int b => a == b
  | .float a, .float b => a == b
  | .int a, .float b => a.toFloat == b
  | .float a, .int b => a == b.toFloat
  | .bool a, .bool b => a == b
  | .char a, .char b => a == b
  | .str a, .str b => a == b
  | .str s, .char c => s.toList == [c]
  | .char c, .str s => s.toList == [c]
  | .list as, .list bs => equalItems as bs
  | .tuple as, .tuple bs => equalItems as bs
  | .dict .undetermined, .dict e => e.keyKind.isNone
  | .dict (.ofKind kind as), .dict e =>
    Option.some kind == e.keyKind && as.length == e.entries.length && equalEntries as e
  | .none, .none => true
  | .some a, .some b => equals a b
  | .file a, .file b => a == b
  | .closure a, .closure b => a.id == b.id
  | .object a, .object b => a == b
  | .module a, .module b => a == b
  | .unit, .unit => true
  | _, _ => false

def equalItems : List Value → List Value → Bool
  | [], [] => true
  | a :: as, b :: bs => equals a b && equalItems as bs
  | _, _ => false

/-- Whether the dictionary holds an equal value at the key of each entry. -/
def equalEntries : List (Key × Value) → Dict Value → Bool
  | [], _ => true
  | (k, a) :: rest, e =>
    (match e.get? k with
      | Option.some b => equals a b
      | Option.none => false) && equalEntries rest e

end

end TreeScript.Value
