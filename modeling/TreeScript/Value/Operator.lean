import TreeScript.Number.Binary64
import TreeScript.Failure
import TreeScript.Value.Equality

/-!
# Operators on values

Binary operators want compatible operands, `&&` and `||` aside, which take any. Integer
arithmetic wraps; a zero divisor is a fault for integers and floating-point numbers alike; an
integer that meets a floating-point number is converted.
-/
namespace TreeScript.Value

/-- Operators on two integers. -/
def intBinary (a b : Int64) : BinaryOp → Except Fault Value
  | .add => .ok (int (a + b))
  | .sub => .ok (int (a - b))
  | .mul => .ok (int (a * b))
  | .div => if b = 0 then .error .divisionByZero else .ok (int (a / b))
  | .rem => if b = 0 then .error .moduloByZero else .ok (int (a % b))
  | .pow =>
    if 0 ≤ b.toInt ∧ b.toInt < UInt32.size then .ok (int (Integer.power a b.toInt.toNat))
    else .error (.exponentRange b)
  | .eq => .ok (bool (a == b))
  | .ne => .ok (bool (a != b))
  | .lt => .ok (bool (a < b))
  | .le => .ok (bool (a ≤ b))
  | .gt => .ok (bool (b < a))
  | .ge => .ok (bool (b ≤ a))
  | .bitAnd => .ok (int (a &&& b))
  | .bitOr => .ok (int (a ||| b))
  | .bitXor => .ok (int (a ^^^ b))
  | .shl =>
    if 0 ≤ b.toInt ∧ b.toInt < 64 then .ok (int (a <<< b)) else .error (.shiftRange b)
  | .shr =>
    if 0 ≤ b.toInt ∧ b.toInt < 64 then .ok (int (a >>> b)) else .error (.shiftRange b)
  | op => .error (.invalidBinary op "int")

/-- Operators on two floating-point numbers. -/
def floatBinary (a b : Float) : BinaryOp → Except Fault Value
  | .add => .ok (float (a + b))
  | .sub => .ok (float (a - b))
  | .mul => .ok (float (a * b))
  | .div => if b == 0 then .error .divisionByZero else .ok (float (a / b))
  | .rem => if b == 0 then .error .moduloByZero else .ok (float (Binary64.remainder a b))
  | .pow => .ok (float (Float.pow a b))
  | .eq => .ok (bool (a == b))
  | .ne => .ok (bool (a != b))
  | .lt => .ok (bool (a < b))
  | .le => .ok (bool (a ≤ b))
  | .gt => .ok (bool (b < a))
  | .ge => .ok (bool (b ≤ a))
  | op => .error (.invalidBinary op "float")

def boolBinary (a b : Bool) : BinaryOp → Except Fault Value
  | .eq => .ok (bool (a == b))
  | .ne => .ok (bool (a != b))
  | .bitAnd => .ok (bool (a && b))
  | .bitOr => .ok (bool (a || b))
  | .bitXor => .ok (bool (a ^^ b))
  | op => .error (.invalidBinary op "bool")

def charBinary (a b : Char) : BinaryOp → Except Fault Value
  | .add => .ok (ofChars [a, b])
  | .eq => .ok (bool (a == b))
  | .ne => .ok (bool (a != b))
  | .lt => .ok (bool (a < b))
  | .le => .ok (bool (a ≤ b))
  | .gt => .ok (bool (b < a))
  | .ge => .ok (bool (b ≤ a))
  | op => .error (.invalidBinary op "char")

/-- Operators on two texts, which are ordered by their code points. -/
def strBinary (a b : String) : BinaryOp → Except Fault Value
  | .add => .ok (str (a ++ b))
  | .eq => .ok (bool (a == b))
  | .ne => .ok (bool (a != b))
  | .lt => .ok (bool (a < b))
  | .le => .ok (bool (a ≤ b))
  | .gt => .ok (bool (b < a))
  | .ge => .ok (bool (b ≤ a))
  | op => .error (.invalidBinary op "str")

/-- Operators on a text and a character, whose sum is `joined`. -/
def mixedTextBinary (joined s : String) (c : Char) : BinaryOp → Except Fault Value
  | .add => .ok (str joined)
  | .eq => .ok (bool (equals (str s) (char c)))
  | .ne => .ok (bool !(equals (str s) (char c)))
  | op => .error (.invalidBinary op "str")

/-- Operators on two lists or two tuples. -/
def itemsBinary (kind : Kind) (wrap : List Value → Value) (as bs : List Value) :
    BinaryOp → Except Fault Value
  | .add => .ok (wrap (as ++ bs))
  | .eq => .ok (bool (equalItems as bs))
  | .ne => .ok (bool !(equalItems as bs))
  | op => .error (.invalidBinary op kind.name)

/-- Operators on what can be compared and nothing else. -/
def equalityBinary (h : Handles) (v w : Value) : BinaryOp → Except Fault Value
  | .eq => .ok (bool (equals v w))
  | .ne => .ok (bool !(equals v w))
  | op => .error (.invalidBinary op (v.typeName h))

/-- Operators on compatible values. -/
def compatibleBinary (h : Handles) (op : BinaryOp) : Value → Value → Except Fault Value
  | int a, int b => intBinary a b op
  | float a, float b => floatBinary a b op
  | int a, float b => floatBinary a.toFloat b op
  | float a, int b => floatBinary a b.toFloat op
  | bool a, bool b => boolBinary a b op
  | char a, char b => charBinary a b op
  | str a, str b => strBinary a b op
  | str a, char b => mixedTextBinary (a.push b) a b op
  | char a, str b => mixedTextBinary (String.ofList [a] ++ b) b a op
  | list as, list bs => itemsBinary .list list as bs op
  | tuple as, tuple bs => itemsBinary .tuple tuple as bs op
  | v, w => equalityBinary h v w op

/-- The value of `v op w`. -/
def binary (h : Handles) (op : BinaryOp) (v w : Value) : Except Fault Value :=
  match op with
  | .and => .ok (bool (v.truthy h && w.truthy h))
  | .or => .ok (bool (v.truthy h || w.truthy h))
  | op =>
    if v.compatible w then compatibleBinary h op v w
    else .error (.binaryMismatch op (v.typeName h) (w.typeName h))

/-- The value of `op v`. -/
def unary (h : Handles) (op : UnaryOp) (v : Value) : Except Fault Value :=
  match op, v with
  | .neg, int n => .ok (int (-n))
  | .neg, float x => .ok (float (-x))
  | .not, v => .ok (bool !(v.truthy h))
  | .bitNot, int n => .ok (int (~~~n))
  | op, v => .error (.invalidUnary op (v.typeName h))

end TreeScript.Value
