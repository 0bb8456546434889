import Mathlib
import TreeScript.Number.Integer

/-!
# Words and the integers they stand for

A word of 64 bits stands for an integer. What the operations on words that the word type does not
explain itself come to on these integers: powers, shifts and the complement. The reduction of an
integer to a word is `Int.bmod _ (2 ^ 64)`.
-/
namespace TreeScript.Integer

/-- Squaring words gives the word of the power. -/
theorem power_ofInt (z : Int) (n : Nat) : power (Int64.ofInt z) n = Int64.ofInt (z ^ n) := by
  induction n using Nat.strongRecOn generalizing z with
  | ind n ih =>
    rw [power]
    by_cases zero : n = 0
    · rw [if_pos zero, zero, pow_zero]
      rfl
    · have halves : z ^ n = z ^ (n % 2) * (z * z) ^ (n / 2) := by
        rw [← sq, ← pow_mul, ← pow_add, Nat.mod_add_div]
      simp only [if_neg zero, ← Int64.ofInt_mul, ih (n / 2) (by omega), halves]
      rcases Nat.mod_two_eq_zero_or_one n with even | odd
      · simp [even]
      · simp [odd]

theorem toInt_power (a : Int64) (n : Nat) : (power a n).toInt = (a.toInt ^ n).bmod (2 ^ 64) := by
  have squared := power_ofInt a.toInt n
  rw [Int64.ofInt_toInt] at squared
  exact (congrArg Int64.toInt squared).trans Int64.toInt_ofInt

/-- Words are shifted by the amount modulo 64, which is the amount itself where it is in range. -/
theorem toNat_smod {b : Int64} (low : 0 ≤ b.toInt) (high : b.toInt < 64) :
    (b.toBitVec.smod 64#64).toNat = b.toInt.toNat := by
  have rest : (b.toBitVec.smod 64#64).toInt = b.toInt := by
    rw [BitVec.toInt_smod]
    exact Int.fmod_eq_of_lt low high
  have unsigned := BitVec.toInt_eq_toNat_cond (b.toBitVec.smod 64#64)
  have := (b.toBitVec.smod 64#64).isLt
  omega

theorem toInt_twoPow {n : Nat} (high : n < 64) :
    (BitVec.twoPow 64 n).toInt = (2 ^ n : Int).bmod (2 ^ 64) := by
  rw [BitVec.toInt_eq_toNat_bmod, BitVec.toNat_twoPow_of_lt high]
  norm_cast

theorem toInt_shiftLeft {b : Int64} (a : Int64) (low : 0 ≤ b.toInt) (high : b.toInt < 64) :
    (a <<< b).toInt = (a.toInt * 2 ^ b.toInt.toNat).bmod (2 ^ 64) := by
  have shifted : (a <<< b).toInt = (a.toBitVec <<< b.toInt.toNat).toInt := by
    rw [← Int64.toInt_toBitVec, Int64.toBitVec_shiftLeft, BitVec.shiftLeft_eq']
    exact congrArg (fun n => (a.toBitVec <<< n).toInt) (toNat_smod low high)
  rw [shifted, BitVec.shiftLeft_eq_mul_twoPow, BitVec.toInt_mul, toInt_twoPow (by omega),
    Int.mul_bmod_bmod, Int64.toInt_toBitVec]

/-- A shift to the right is exact: it needs no reduction. -/
theorem toInt_shiftRight {b : Int64} (a : Int64) (low : 0 ≤ b.toInt) (high : b.toInt < 64) :
    (a >>> b).toInt = a.toInt / 2 ^ b.toInt.toNat := by
  have shifted : (a >>> b).toInt = (a.toBitVec.sshiftRight b.toInt.toNat).toInt := by
    rw [← Int64.toInt_toBitVec, Int64.toBitVec_shiftRight, BitVec.sshiftRight_eq']
    exact congrArg (fun n => (a.toBitVec.sshiftRight n).toInt) (toNat_smod low high)
  rw [shifted, BitVec.toInt_sshiftRight, Int.shiftRight_eq_div_pow, Int64.toInt_toBitVec]
  norm_cast

theorem toInt_complement (a : Int64) : (~~~a).toInt = -a.toInt - 1 := by
  have := a.toInt_lt
  have := a.le_toInt
  rw [Int64.toInt_not, Int.bmod_eq_of_le (by omega) (by omega)]

/-- Quotient and remainder make up the dividend, also where the quotient does not fit a word. -/
theorem div_mul_add_mod (a b : Int64) : a / b * b + a % b = a := by
  apply Int64.toInt_inj.mp
  rw [Int64.toInt_add, Int64.toInt_mul, Int64.toInt_div, Int64.toInt_mod, Int.bmod_mul_bmod,
    Int.bmod_add_bmod, Int.mul_comm, Int.mul_tdiv_add_tmod]
  exact a.toInt_bmod

/-- A remainder takes the sign of the dividend. -/
theorem sign_mod (a b : Int64) : (a % b).toInt = 0 ∨ (a % b).toInt.sign = a.toInt.sign := by
  rw [Int64.toInt_mod, Int.sign_tmod]
  by_cases divides : b.toInt ∣ a.toInt
  · exact .inl (Int.tmod_eq_zero_of_dvd divides)
  · exact .inr (if_neg divides)

theorem natAbs_mod_lt (a : Int64) {b : Int64} (nonzero : b.toInt ≠ 0) :
    (a % b).toInt.natAbs < b.toInt.natAbs := by
  rw [Int64.toInt_mod, Int.natAbs_tmod]
  exact Nat.mod_lt _ (by omega)

theorem beq_eq_decide (a b : Int64) : (a == b) = decide (a.toInt = b.toInt) := by
  rw [Bool.eq_iff_iff, beq_iff_eq, decide_eq_true_iff, Int64.toInt_inj]

theorem bne_eq_decide (a b : Int64) : (a != b) = decide (a.toInt ≠ b.toInt) := by
  rw [bne, beq_eq_decide, decide_not]

end TreeScript.Integer
