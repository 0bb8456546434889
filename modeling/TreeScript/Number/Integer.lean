import TreeScript.Number.Natural

/-!
# Integers

The integers of the language are words of 64 bits with a sign; arithmetic wraps. Here stand the
operations that the word type does not bring along, and reading and writing in decimal.
-/
namespace TreeScript.Integer

open TreeScript.Number

/-- The power by squaring: the exponent is halved until nothing is left of it. -/
def power (base : Int64) (exponent : Nat) : Int64 :=
  if exponent = 0 then 1
  else
    let root := power (base * base) (exponent / 2)
    if exponent % 2 = 1 then base * root else root

/-- The number as an index into something of the given length. -/
def index? (n : Int64) (length : Nat) : Option Nat :=
  if 0 ≤ n.toInt ∧ n.toInt < length then some n.toInt.toNat else none

/-- The number as a count, which is not negative. -/
def natural? (n : Int64) : Option Nat :=
  if 0 ≤ n.toInt then some n.toInt.toNat else none

/-- A length as an integer of the language; one too long is cut to the greatest integer. -/
def ofLength (length : Nat) : Int64 := Int64.ofInt (min (length : Int) Int64.maxValue.toInt)

def write (n : Int64) : List Char :=
  if n.toInt < 0 then '-' :: writeNat n.toInt.natAbs else writeNat n.toInt.natAbs

/-- Reads digits behind an optional sign. -/
def readSigned? : List Char → Option Int
  | '-' :: digits => (readNat? digits).map fun n => -(n : Int)
  | '+' :: digits => (readNat? digits).map Int.ofNat
  | digits => (readNat? digits).map Int.ofNat

/-- Reads a whole text as an integer that fits the word. -/
def read? (text : List Char) : Option Int64 :=
  (readSigned? text).bind fun n =>
    if Int64.minValue.toInt ≤ n ∧ n ≤ Int64.maxValue.toInt then some (Int64.ofInt n) else none

def text (n : Int64) : String := String.ofList (write n)

end TreeScript.Integer
