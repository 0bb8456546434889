/-!
# Decimal digits of natural numbers

Writing and reading natural numbers in decimal. Reading takes ASCII digits only, at least one, and
leading zeros are fine.
-/
namespace TreeScript.Number

def digitChar (d : Nat) : Char := Char.ofNat (48 + d)

/-- The decimal digits of a number, without leading zeros. -/
def writeNat (n : Nat) : List Char :=
  if n < 10 then [digitChar n] else writeNat (n / 10) ++ [digitChar (n % 10)]

def digit? (c : Char) : Option Nat :=
  if 48 ≤ c.toNat && c.toNat ≤ 57 then some (c.toNat - 48) else none

/-- Reads digits behind a number already read. -/
def readDigits? : Nat → List Char → Option Nat
  | n, [] => some n
  | n, c :: rest => (digit? c).bind fun d => readDigits? (10 * n + d) rest

/-- Reads a whole text as a natural number. -/
def readNat? : List Char → Option Nat
  | [] => none
  | digits => readDigits? 0 digits

end TreeScript.Number
