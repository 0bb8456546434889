import TreeScript.Number.Integer

/-!
# Numerals

What is written for an integer and what is read as one. Decimal digits are written as the library
writes them; any row of digits is read, leading zeros or not, behind at most one sign. What is read
is the value of the numeral, if the word can hold it.
-/
namespace TreeScript

namespace Number

variable {c : Char} {digits : List Char} {d n start : Nat}

/-- Decimal digits, at least one, that have the value `n`. -/
structure Digits (digits : List Char) (n : Nat) : Prop where
  some : digits ≠ []
  all : ∀ c ∈ digits, c.isDigit = true
  value : Nat.ofDigitChars 10 digits 0 = n

theorem digit?_eq_some_iff : digit? c = some d ↔ c.isDigit = true ∧ c.toNat - 48 = d := by
  rw [Char.isDigit_iff_toNat, digit?]
  simp

theorem readDigits?_eq_some_iff : readDigits? start digits = some n ↔
    (∀ c ∈ digits, c.isDigit = true) ∧ Nat.ofDigitChars 10 digits start = n := by
  induction digits generalizing start with
  | nil => simp [readDigits?]
  | cons c digits ih =>
    rw [readDigits?, Option.bind_eq_some_iff, Nat.ofDigitChars_cons]
    simp only [digit?_eq_some_iff, ih, List.forall_mem_cons]
    constructor
    · rintro ⟨d, ⟨digit, rfl⟩, rest, value⟩
      exact ⟨⟨digit, rest⟩, value⟩
    · rintro ⟨⟨digit, rest⟩, value⟩
      exact ⟨_, ⟨digit, rfl⟩, rest, value⟩

theorem readNat?_eq_some_iff : readNat? digits = some n ↔ Digits digits n := by
  cases digits with
  | nil => exact iff_of_false (by simp [readNat?]) fun h => h.some rfl
  | cons c digits =>
    rw [readNat?, readDigits?_eq_some_iff]
    · exact ⟨fun h => ⟨by simp, h.1, h.2⟩, fun h => ⟨h.all, h.value⟩⟩
    · simp

theorem digitChar_eq (small : d < 10) : digitChar d = Nat.digitChar d := by
  revert d
  decide

/-- Digits are written as the library writes them. -/
theorem writeNat_eq (n : Nat) : writeNat n = Nat.toDigits 10 n := by
  fun_induction writeNat n with
  | case1 n small => rw [Nat.toDigits_of_lt_base small, digitChar_eq small]
  | case2 n large ih =>
    have last : n % 10 < 10 := Nat.mod_lt _ (by decide)
    rw [Nat.toDigits_eq_if (by decide), if_neg large, ih, digitChar_eq last]

theorem digits_writeNat (n : Nat) : Digits (writeNat n) n := by
  rw [writeNat_eq]
  exact ⟨Nat.toDigits_ne_nil, fun c => Nat.isDigit_of_mem_toDigits (by decide) (by decide),
    Nat.ofDigitChars_ten_toDigits⟩

theorem Digits.first (written : Digits digits n) (sign : ¬ c.isDigit = true) (rest : List Char) :
    digits ≠ c :: rest := by
  rintro rfl
  exact sign (written.all c List.mem_cons_self)

end Number

namespace Integer

open Number

variable {text : List Char} {z : Int} {n : Int64}

/-- Digits behind at most one sign, with their value. -/
inductive Numeral : List Char → Int → Prop
  | bare {digits : List Char} {n : Nat} (written : Digits digits n) : Numeral digits n
  | plus {digits : List Char} {n : Nat} (written : Digits digits n) : Numeral ('+' :: digits) n
  | minus {digits : List Char} {n : Nat} (written : Digits digits n) : Numeral ('-' :: digits) (-n)

theorem readSigned?_eq_some_iff : readSigned? text = some z ↔ Numeral text z := by
  constructor
  · intro read
    unfold readSigned? at read
    split at read <;> obtain ⟨n, found, rfl⟩ := Option.map_eq_some_iff.mp read
    · obtain ⟨magnitude, there, same⟩ := Option.bind_eq_some_iff.mp found
      cases same
      exact .minus (readNat?_eq_some_iff.mp there)
    · exact .plus (readNat?_eq_some_iff.mp found)
    · exact .bare (readNat?_eq_some_iff.mp found)
  · intro numeral
    cases numeral with
    | plus written | minus written => rw [readSigned?, readNat?_eq_some_iff.mpr written]; rfl
    | bare written =>
      -- Neither sign is a digit, so the text is read as it is.
      unfold readSigned?
      split
      · exact absurd rfl (written.first (by decide) _)
      · exact absurd rfl (written.first (by decide) _)
      · rw [readNat?_eq_some_iff.mpr written]; rfl

/-- A text is read as the word that its value is. -/
theorem read?_eq_some_iff : read? text = some n ↔ Numeral text n.toInt := by
  rw [read?, Option.bind_eq_some_iff, ← readSigned?_eq_some_iff]
  constructor
  · rintro ⟨z, read, fits⟩
    split at fits
    · rename_i range
      cases fits
      have least : Int64.minValue.toInt = -2 ^ 63 := by decide
      have greatest : Int64.maxValue.toInt = 2 ^ 63 - 1 := by decide
      rwa [Int64.toInt_ofInt_of_le (by omega) (by omega)]
    · cases fits
  · intro read
    refine ⟨_, read, ?_⟩
    rw [if_pos ⟨Int64.minValue_le_toInt n, Int64.toInt_le n⟩, Int64.ofInt_toInt]

/-- An integer is written as a numeral. -/
theorem numeral_write (n : Int64) : Numeral (write n) n.toInt := by
  have magnitude := digits_writeNat n.toInt.natAbs
  unfold write
  split
  · have value : n.toInt = -(n.toInt.natAbs : Int) := by omega
    have written := Numeral.minus magnitude
    rwa [← value] at written
  · have value : n.toInt = (n.toInt.natAbs : Int) := by omega
    have written := Numeral.bare magnitude
    rwa [← value] at written

theorem read?_write (n : Int64) : read? (write n) = some n :=
  read?_eq_some_iff.mpr (numeral_write n)

end Integer

end TreeScript
