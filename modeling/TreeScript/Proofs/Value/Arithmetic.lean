import TreeScript.Proofs.Number.Words
import TreeScript.Value.Operator

/-!
# Integer operators

The operators on integers give the result of the mathematical operation, reduced to the word.
Division, powers and shifts have operands for which there is no result, and an arithmetic fault
then; nothing else of two integers is a fault.
-/
namespace TreeScript

/-- The operator has no result on integers of which this is the second: a divisor that is zero, or
an exponent or an amount of a shift that is out of range. -/
def BinaryOp.Undefined (op : BinaryOp) (b : Int) : Prop :=
  match op with
  | .div | .rem => b = 0
  | .pow => ¬ (0 ≤ b ∧ b ≤ 2 ^ 32 - 1)
  | .shl | .shr => ¬ (0 ≤ b ∧ b ≤ 63)
  | _ => False

namespace Value

/-- The computation gives this integer. -/
def GivesInt (x : Except Fault Value) (n : Int) : Prop := ∃ r : Int64, x = .ok (int r) ∧ r.toInt = n

/-- The quotient is cut toward zero, and the remainder is what it leaves of the dividend. -/
structure Division (h : Handles) (a b q r : Int64) : Prop where
  div : binary h .div (int a) (int b) = .ok (int q)
  quotient : q.toInt = (a.toInt.tdiv b.toInt).bmod (2 ^ 64)
  rem : binary h .rem (int a) (int b) = .ok (int r)
  remainder : r.toInt = a.toInt - b.toInt * a.toInt.tdiv b.toInt
  sign : r.toInt = 0 ∨ r.toInt.sign = a.toInt.sign
  small : r.toInt.natAbs < b.toInt.natAbs
  /-- Multiplying and adding give the dividend back. -/
  whole : ∃ p, binary h .mul (int q) (int b) = .ok (int p) ∧
    binary h .add (int p) (int r) = .ok (int a)

variable {h : Handles} {a b : Int64}

@[simp] theorem binary_add (a b : Int64) : binary h .add (int a) (int b) = .ok (int (a + b)) := rfl

theorem givesInt_pow (low : 0 ≤ b.toInt) (high : b.toInt ≤ 2 ^ 32 - 1) :
    GivesInt (binary h .pow (int a) (int b)) ((a.toInt ^ b.toInt.toNat).bmod (2 ^ 64)) := by
  have inRange : 0 ≤ b.toInt ∧ b.toInt < UInt32.size := ⟨low, by simp only [UInt32.size]; omega⟩
  exact ⟨_, if_pos inRange, Integer.toInt_power a _⟩

theorem division (nonzero : b ≠ 0) : Division h a b (a / b) (a % b) := by
  have divides : b.toInt ≠ 0 := fun zero => nonzero (Int64.toInt_inj.mp zero)
  have product : a.toInt.tmod b.toInt = a.toInt - b.toInt * a.toInt.tdiv b.toInt := by
    have := Int.mul_tdiv_add_tmod a.toInt b.toInt
    omega
  exact {
    div := if_neg nonzero
    quotient := Int64.toInt_div a b
    rem := if_neg nonzero
    remainder := (Int64.toInt_mod a b).trans product
    sign := Integer.sign_mod a b
    small := Integer.natAbs_mod_lt a divides
    whole := ⟨a / b * b, rfl, by rw [binary_add, Integer.div_mul_add_mod]⟩ }

theorem givesInt_shl (low : 0 ≤ b.toInt) (high : b.toInt ≤ 63) :
    GivesInt (binary h .shl (int a) (int b))
      ((a.toInt * 2 ^ b.toInt.toNat).bmod (2 ^ 64)) := by
  have inRange : 0 ≤ b.toInt ∧ b.toInt < 64 := ⟨low, by omega⟩
  exact ⟨_, if_pos inRange, Integer.toInt_shiftLeft a inRange.1 inRange.2⟩

theorem givesInt_shr (low : 0 ≤ b.toInt) (high : b.toInt ≤ 63) :
    GivesInt (binary h .shr (int a) (int b)) (a.toInt.fdiv (2 ^ b.toInt.toNat)) := by
  have inRange : 0 ≤ b.toInt ∧ b.toInt < 64 := ⟨low, by omega⟩
  refine ⟨_, if_pos inRange, (Integer.toInt_shiftRight a inRange.1 inRange.2).trans ?_⟩
  exact (Int.fdiv_eq_ediv_of_nonneg _ (Int.le_of_lt (Int.pow_pos (by decide)))).symm

/-- On two integers an operator gives a value, unless it is undefined there, which is an arithmetic
fault. -/
theorem binary_int_cases (h : Handles) (op : BinaryOp) (a b : Int64) :
    op.Undefined b.toInt ∧
        (∃ fault, binary h op (int a) (int b) = .error fault ∧ fault.category = .arithmetic) ∨
      ¬ op.Undefined b.toInt ∧ ∃ v, binary h op (int a) (int b) = .ok v := by
  cases op with
  | div | rem =>
    by_cases zero : b = 0
    · exact .inl ⟨congrArg Int64.toInt zero, _, if_pos zero, rfl⟩
    · exact .inr ⟨fun none => zero (Int64.toInt_inj.mp none), _, if_neg zero⟩
  | pow =>
    by_cases range : 0 ≤ b.toInt ∧ b.toInt ≤ 2 ^ 32 - 1
    · obtain ⟨r, given, -⟩ := givesInt_pow (h := h) (a := a) range.1 range.2
      exact .inr ⟨not_not_intro range, _, given⟩
    · have out : ¬ (0 ≤ b.toInt ∧ b.toInt < UInt32.size) := by
        simp only [UInt32.size]
        omega
      exact .inl ⟨range, _, if_neg out, rfl⟩
  | shl | shr =>
    by_cases range : 0 ≤ b.toInt ∧ b.toInt ≤ 63
    · have inRange : 0 ≤ b.toInt ∧ b.toInt < 64 := by omega
      exact .inr ⟨not_not_intro range, _, if_pos inRange⟩
    · have out : ¬ (0 ≤ b.toInt ∧ b.toInt < 64) := by omega
      exact .inl ⟨range, _, if_neg out, rfl⟩
  | _ => exact .inr ⟨not_false, _, rfl⟩

/-- Comparisons of integers are those of the integers that the words stand for. -/
structure Comparisons (h : Handles) (a b : Int64) : Prop where
  eq : binary h .eq (int a) (int b) = .ok (bool (decide (a.toInt = b.toInt)))
  ne : binary h .ne (int a) (int b) = .ok (bool (decide (a.toInt ≠ b.toInt)))
  lt : binary h .lt (int a) (int b) = .ok (bool (decide (a.toInt < b.toInt)))
  le : binary h .le (int a) (int b) = .ok (bool (decide (a.toInt ≤ b.toInt)))
  gt : binary h .gt (int a) (int b) = .ok (bool (decide (a.toInt > b.toInt)))
  ge : binary h .ge (int a) (int b) = .ok (bool (decide (a.toInt ≥ b.toInt)))

theorem comparisons (h : Handles) (a b : Int64) : Comparisons h a b := by
  have given {p q : Bool} (same : p = q) :
      (Except.ok (bool p) : Except Fault Value) = .ok (bool q) := by rw [same]
  have lt (a b : Int64) : decide (a < b) = decide (a.toInt < b.toInt) :=
    decide_eq_decide.mpr Int64.lt_iff_toInt_lt
  have le (a b : Int64) : decide (a ≤ b) = decide (a.toInt ≤ b.toInt) :=
    decide_eq_decide.mpr Int64.le_iff_toInt_le
  exact {
    eq := given (Integer.beq_eq_decide a b)
    ne := given (Integer.bne_eq_decide a b)
    lt := given (lt a b)
    le := given (le a b)
    gt := given (lt b a)
    ge := given (le b a) }

/-- **Integer arithmetic.** Sums, differences, products, powers and shifts to the left are those of
the integers, reduced to the word. Quotients are cut toward zero, with the remainder that makes up
the dividend. Shifts to the right and the complement are exact, and comparisons are those of the
integers. Only division by zero and exponents and shifts out of range are faults. -/
theorem integer_arithmetic (h : Handles) (a b : Int64) :
    GivesInt (binary h .add (int a) (int b)) ((a.toInt + b.toInt).bmod (2 ^ 64)) ∧
    GivesInt (binary h .sub (int a) (int b)) ((a.toInt - b.toInt).bmod (2 ^ 64)) ∧
    GivesInt (binary h .mul (int a) (int b)) ((a.toInt * b.toInt).bmod (2 ^ 64)) ∧
    GivesInt (unary h .neg (int a)) ((-a.toInt).bmod (2 ^ 64)) ∧
    GivesInt (unary h .bitNot (int a)) (-a.toInt - 1) ∧
    (0 ≤ b.toInt → b.toInt ≤ 2 ^ 32 - 1 →
      GivesInt (binary h .pow (int a) (int b)) ((a.toInt ^ b.toInt.toNat).bmod (2 ^ 64))) ∧
    (b ≠ 0 → ∃ q r, Division h a b q r) ∧
    (0 ≤ b.toInt → b.toInt ≤ 63 →
      GivesInt (binary h .shl (int a) (int b)) ((a.toInt * 2 ^ b.toInt.toNat).bmod (2 ^ 64)) ∧
      GivesInt (binary h .shr (int a) (int b)) (a.toInt.fdiv (2 ^ b.toInt.toNat))) ∧
    Comparisons h a b ∧
    (∀ op, op.Undefined b.toInt ∧
        (∃ fault, binary h op (int a) (int b) = .error fault ∧ fault.category = .arithmetic) ∨
      ¬ op.Undefined b.toInt ∧ ∃ v, binary h op (int a) (int b) = .ok v) ∧
    ∀ op, ∃ v, unary h op (int a) = .ok v := by
  refine ⟨⟨_, rfl, Int64.toInt_add a b⟩, ⟨_, rfl, Int64.toInt_sub a b⟩,
    ⟨_, rfl, Int64.toInt_mul a b⟩, ⟨_, rfl, Int64.toInt_neg a⟩,
    ⟨_, rfl, Integer.toInt_complement a⟩, givesInt_pow, fun nonzero => ⟨_, _, division nonzero⟩,
    fun low high => ⟨givesInt_shl low high, givesInt_shr low high⟩, comparisons h a b,
    fun op => binary_int_cases h op a b, fun op => ?_⟩
  cases op <;> exact ⟨_, rfl⟩

/-- The least integer divided by `-1` is the least integer again, without a rest, and so is its
negative. Its halves go on down to `-1`. -/
theorem arithmetic_of_least (h : Handles) :
    let least := Int64.minValue
    GivesInt (binary h .div (int least) (int (-1))) least.toInt ∧
      GivesInt (binary h .rem (int least) (int (-1))) 0 ∧
      GivesInt (unary h .neg (int least)) least.toInt ∧
      GivesInt (binary h .pow (int (-2)) (int 63)) least.toInt ∧
      GivesInt (binary h .shr (int least) (int 63)) (-1) := by
  intro least
  obtain ⟨-, -, -, neg, -, -, divides, -⟩ := integer_arithmetic h least (-1)
  obtain ⟨-, -, -, -, -, pow, -⟩ := integer_arithmetic h (-2) 63
  obtain ⟨-, -, -, -, -, -, -, shift, -⟩ := integer_arithmetic h least 63
  obtain ⟨q, r, division⟩ := divides (by decide)
  exact ⟨⟨q, division.div, division.quotient⟩, ⟨r, division.rem, division.remainder⟩, neg,
    pow (by decide) (by decide), (shift (by decide) (by decide)).2⟩

end Value

end TreeScript
