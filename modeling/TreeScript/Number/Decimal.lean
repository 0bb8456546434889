import TreeScript.Number.Natural
import TreeScript.Number.Binary64

/-!
# Floating-point numbers in decimal

A number is written with the fewest digits that read back as the same number, the nearest such
digits to it, and never with an exponent. An integral number below `10 ^ 16` gets a final `.0`.
-/
namespace TreeScript.Decimal

open TreeScript.Number TreeScript.Binary64

/-- The numbers that round to one floating-point number, with that number itself. All are counted
in units of `num / den`. -/
structure Interval where
  low : Nat
  value : Nat
  high : Nat
  /-- Whether the two ends round to the number as well. -/
  closed : Bool
  num : Nat
  den : Nat

/-- The interval of a number that is not zero. Below a power of two the next number is only half
as far. -/
def Interval.of (mantissa : Nat) (exponent : Int) : Interval where
  low := if mantissa = leastNormal ∧ -1074 < exponent then 4 * mantissa - 1 else 4 * mantissa - 2
  value := 4 * mantissa
  high := 4 * mantissa + 2
  closed := mantissa % 2 == 0
  num := Nat.pow 2 (exponent - 2).toNat
  den := Nat.pow 2 (2 - exponent).toNat

/-- Of the two neighbours of the value on the grid of the multiples of `10 ^ place`, the one that
lies in the interval; of two, the nearer, and the upper when both are equally near. -/
def Interval.pick? (i : Interval) (place : Int) : Option Nat :=
  let up := Nat.pow 10 place.toNat * i.den
  let down := Nat.pow 10 (-place).toNat * i.num
  let digits := i.value * down / up
  let inOrder (a b : Nat) : Bool := a < b || (i.closed && a == b)
  let lowerFits := digits ≠ 0 && inOrder (i.low * down) (digits * up)
  let upperFits := inOrder ((digits + 1) * up) (i.high * down)
  if lowerFits && upperFits then
    if i.value * down * 2 < (2 * digits + 1) * up then some digits else some (digits + 1)
  else if lowerFits then some digits
  else if upperFits then some (digits + 1)
  else none

/-- The coarsest grid, from `place` down, that has a point in the interval. -/
def Interval.search (i : Interval) : Nat → Int → Nat × Int
  | 0, place => (i.value, place)
  | tries + 1, place =>
    match i.pick? place with
    | some digits => (digits, place)
    | none => i.search tries (place - 1)

/-- Moves the zeros at the end of the digits into the place. -/
def stripZeros : Nat → Nat × Int → Nat × Int
  | 0, shown => shown
  | n + 1, (digits, place) =>
    if digits % 10 = 0 then stripZeros n (digits / 10, place + 1) else (digits, place)

/-- The fewest digits that read back as the number, with the place of the last of them. -/
def shortest (mantissa : Nat) (exponent : Int) : Nat × Int :=
  let top := (exponent + Nat.log2 mantissa) * 30103 / 100000 + 2
  stripZeros 20 ((Interval.of mantissa exponent).search 40 top)

/-- Digits with a decimal point where their place wants one. -/
def positional (digits : List Char) (place : Int) : List Char :=
  if 0 ≤ place then digits ++ List.replicate place.toNat '0'
  else
    let whole := (digits.length : Int) + place
    if 0 < whole then digits.take whole.toNat ++ '.' :: digits.drop whole.toNat
    else '0' :: '.' :: (List.replicate (-whole).toNat '0' ++ digits)

/-- The integral value of `mantissa · 2 ^ exponent`, if it has one. -/
def integral? (mantissa : Nat) (exponent : Int) : Option Nat :=
  if 0 ≤ exponent then some (mantissa * Nat.pow 2 exponent.toNat)
  else
    let unit := Nat.pow 2 (-exponent).toNat
    if mantissa % unit = 0 then some (mantissa / unit) else none

/-- A finite number without its sign. -/
def writeFinite (mantissa : Nat) (exponent : Int) : List Char :=
  let short :=
    let (digits, place) := shortest mantissa exponent
    positional (writeNat digits) place
  match integral? mantissa exponent with
  | some n => if n < Nat.pow 10 16 then writeNat n ++ ['.', '0'] else short
  | none => short

def write (x : Float) : List Char :=
  match parts x with
  | .nan => ['N', 'a', 'N']
  | .infinite negative => (if negative then ['-'] else []) ++ ['i', 'n', 'f']
  | .finite negative m e => (if negative then ['-'] else []) ++ writeFinite m e

/-- `digits · 10 ^ place`, rounded. Numbers far out of range are not computed. -/
def ofDigits (negative : Bool) (digits : Nat) (place : Int) : Float :=
  let order := (writeNat digits).length + place
  if digits = 0 ∨ order < -400 then withSign negative 0
  else if 400 < order then infinity negative
  else if 0 ≤ place then ofRatio negative (digits * Nat.pow 10 place.toNat) 1
  else ofRatio negative digits (Nat.pow 10 (-place).toNat)

/-- An exponent with an optional sign. -/
def readExponent? : List Char → Option Int
  | '-' :: digits => (readNat? digits).map fun n => -(n : Int)
  | '+' :: digits => (readNat? digits).map Int.ofNat
  | digits => (readNat? digits).map Int.ofNat

def isDigit (c : Char) : Bool := (digit? c).isSome

/-- Digits with at most one point among them, at least one digit, and an optional exponent. -/
def readMagnitude? (text : List Char) : Option (Nat × Int) :=
  let whole := text.takeWhile isDigit
  let (fraction, tail) :=
    match text.dropWhile isDigit with
    | '.' :: rest => (rest.takeWhile isDigit, rest.dropWhile isDigit)
    | rest => ([], rest)
  (readNat? (whole ++ fraction)).bind fun digits =>
    match tail with
    | [] => some (digits, -(fraction.length : Int))
    | 'e' :: rest => (readExponent? rest).map fun e => (digits, e - fraction.length)
    | 'E' :: rest => (readExponent? rest).map fun e => (digits, e - fraction.length)
    | _ => none

def readUnsigned? (negative : Bool) (text : List Char) : Option Float :=
  let lower := text.map Char.toLower
  if lower = ['i', 'n', 'f'] ∨ lower = ['i', 'n', 'f', 'i', 'n', 'i', 't', 'y'] then
    some (infinity negative)
  else if lower = ['n', 'a', 'n'] then some nan
  else (readMagnitude? text).map fun (digits, place) => ofDigits negative digits place

/-- Reads a whole text as a floating-point number. -/
def read? : List Char → Option Float
  | '-' :: rest => readUnsigned? true rest
  | '+' :: rest => readUnsigned? false rest
  | rest => readUnsigned? false rest

end TreeScript.Decimal
