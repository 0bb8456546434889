import TreeScript.Proofs.Number.Numerals
import TreeScript.Proofs.Text.Blanks
import TreeScript.Proofs.Value.Sequences

/-!
# Conversions of scalars

Integers, characters and texts are turned into each other by `int`, `str` and `char`. What comes of
a conversion gives back what it came from, and what is no numeral, no code point and no single
character is refused for its type.
-/
namespace TreeScript

namespace Integer

variable {n : Int64} {s : String} {core : List Char} {z : Int}

theorem isBlank_of_isDigit {c : Char} (digit : c.isDigit = true) : Text.isBlank c = false := by
  rw [Char.isDigit_iff_toNat] at digit
  obtain ⟨low, high⟩ := digit
  change 48 ≤ c.toNat at low
  change c.toNat ≤ 57 at high
  simp [Text.isBlank]
  omega

theorem Numeral.not_blank (numeral : Numeral core z) : ∀ c ∈ core, Text.isBlank c = false := by
  cases numeral with
  | bare written => exact fun c mem => isBlank_of_isDigit (written.all c mem)
  | plus written | minus written =>
    rw [List.forall_mem_cons]
    exact ⟨by decide, fun c mem => isBlank_of_isDigit (written.all c mem)⟩

/-- The text is a numeral of the integer, with blanks around it at most. -/
def SpelledBy (n : Int64) (s : String) : Prop :=
  ∃ core, Text.Stripped s.toList core ∧ Numeral core n.toInt

theorem spelledBy_text (n : Int64) : SpelledBy n (text n) := by
  refine ⟨write n, ?_, numeral_write n⟩
  rw [text, String.toList_ofList]
  exact Text.stripped_self (numeral_write n).not_blank

theorem read?_trim_iff : read? (Text.trim s.toList) = some n ↔ SpelledBy n s := by
  simp only [read?_eq_some_iff, SpelledBy, Text.stripped_iff, exists_eq_left]

end Integer

/-- The integers that are Unicode scalar values. -/
def Integer.IsScalar (z : Int) : Prop := (0 ≤ z ∧ z < 0xD800) ∨ (0xDFFF < z ∧ z ≤ 0x10FFFF)

namespace Intrinsic

variable {h : Handles} {n : Int64} {c : Char} {s : String}

theorem toInt_ofChar (c : Char) : (Int64.ofNat c.toNat).toInt = c.toNat := by
  have valid : c.toNat.isValidChar := c.valid
  exact Int64.toInt_ofNat_of_lt (by rcases valid with _ | _ <;> omega)

/-- A number is the code point of one character at most. -/
theorem charOf?_eq_some_iff : charOf? n = some c ↔ n.toInt = c.toNat := by
  constructor
  · intro found
    unfold charOf? at found
    split at found
    · rename_i k counted
      split at found
      · rename_i valid
        cases found
        rw [Integer.natural?_eq_some.mp counted, Char.ofNat, dif_pos valid]
        rfl
      · cases found
    · cases found
  · intro named
    have valid : c.toNat.isValidChar := c.valid
    rw [charOf?, Integer.natural?_eq_some.mpr named]
    simp only [if_pos valid, Char.ofNat_toNat]

theorem charOf?_isSome_iff : (∃ c, charOf? n = some c) ↔ Integer.IsScalar n.toInt := by
  simp only [charOf?_eq_some_iff, Integer.IsScalar]
  constructor
  · rintro ⟨c, named⟩
    have valid : c.toNat.isValidChar := c.valid
    rcases valid with _ | _ <;> omega
  · intro scalar
    have valid : n.toInt.toNat.isValidChar := by
      rw [Nat.isValidChar]
      omega
    refine ⟨Char.ofNat n.toInt.toNat, ?_⟩
    have point : (Char.ofNat n.toInt.toNat).toNat = n.toInt.toNat := by
      rw [Char.ofNat, dif_pos valid]
      rfl
    omega

theorem toInt_str_iff : toInt h [.str s] = .ok (.int n) ↔ Integer.SpelledBy n s := by
  rw [← Integer.read?_trim_iff, toInt]
  cases Integer.read? (Text.trim s.toList) <;> simp

theorem toInt_str_of_not (not : ∀ n, ¬ Integer.SpelledBy n s) :
    toInt h [.str s] = .error (.invalidArgument "int" "a str holding an integer") := by
  have unread : Integer.read? (Text.trim s.toList) = none := by
    rw [Option.eq_none_iff_forall_ne_some]
    intro n read
    exact not n (Integer.read?_trim_iff.mp read)
  rw [toInt, unread]

theorem toChar_int_iff : toChar h [.int n] = .ok (.char c) ↔ n.toInt = c.toNat := by
  rw [← charOf?_eq_some_iff, toChar]
  cases charOf? n <;> simp

theorem toChar_int_of_not (not : ¬ Integer.IsScalar n.toInt) :
    toChar h [.int n] = .error (.invalidArgument "char" "an int that is a valid code point") := by
  have none : charOf? n = none := by
    rw [Option.eq_none_iff_forall_ne_some]
    intro c found
    exact not (charOf?_isSome_iff.mp ⟨c, found⟩)
  rw [toChar, none]

theorem toChar_str_iff : toChar h [.str s] = .ok (.char c) ↔ s.toList = [c] := by
  rw [toChar]
  split
  · rename_i single
    simp [single]
  · rename_i not
    simp only [reduceCtorEq, false_iff]
    exact not c

theorem toChar_str_of_not (not : s.toList.length ≠ 1) :
    toChar h [.str s] = .error (.invalidArgument "char" "a str of exactly one character") := by
  rw [toChar]
  split
  · rename_i single
    exact absurd (congrArg List.length single) not
  · rfl

/-- **Conversions of scalars.** An integer is what its text is converted to. A text is converted to
the integer that it spells, which is digits behind at most one sign between blanks, in the range of
the word. A character is what its code point and its text are converted to, and its code point is
what `ascii` gives. An integer is converted to a character if it is a scalar value, and is the code
point of that character; a text is if it is just one character. All else is refused for its type. -/
theorem conversions_round_trip (h : Handles) :
    (∀ n : Int64, ∃ s, toStr h [.int n] = .ok (.str s) ∧ toInt h [.str s] = .ok (.int n)) ∧
    (∀ s : String, (∀ n, toInt h [.str s] = .ok (.int n) ↔ Integer.SpelledBy n s) ∧
      ((∀ n, ¬ Integer.SpelledBy n s) →
        ∃ fault, toInt h [.str s] = .error fault ∧ fault.category = .type)) ∧
    (∀ c : Char, ∃ n s, toInt h [.char c] = .ok (.int n) ∧ toChar h [.int n] = .ok (.char c) ∧
      (Value.char c).ask h "ascii" [] = .ok (.int n) ∧
      toStr h [.char c] = .ok (.str s) ∧ toChar h [.str s] = .ok (.char c)) ∧
    (∀ n : Int64,
      (Integer.IsScalar n.toInt →
        ∃ c, toChar h [.int n] = .ok (.char c) ∧ toInt h [.char c] = .ok (.int n)) ∧
      (¬ Integer.IsScalar n.toInt →
        ∃ fault, toChar h [.int n] = .error fault ∧ fault.category = .type)) ∧
    ∀ s : String, (∀ c, toChar h [.str s] = .ok (.char c) ↔ s.toList = [c]) ∧
      (s.toList.length ≠ 1 →
        ∃ fault, toChar h [.str s] = .error fault ∧ fault.category = .type) := by
  refine ⟨?integers, ?numerals, ?characters, ?points, ?single⟩
  case integers =>
    intro n
    exact ⟨_, rfl, toInt_str_iff.mpr (Integer.spelledBy_text n)⟩
  case numerals =>
    intro s
    exact ⟨fun n => toInt_str_iff, fun not => ⟨_, toInt_str_of_not not, rfl⟩⟩
  case characters =>
    intro c
    have text : (String.ofList [c]).toList = [c] := String.toList_ofList
    exact ⟨_, _, rfl, toChar_int_iff.mpr (toInt_ofChar c), rfl, rfl, toChar_str_iff.mpr text⟩
  case points =>
    intro n
    refine ⟨fun scalar => ?_, fun not => ⟨_, toChar_int_of_not not, rfl⟩⟩
    obtain ⟨c, found⟩ := charOf?_isSome_iff.mpr scalar
    have point := charOf?_eq_some_iff.mp found
    have same : Int64.ofNat c.toNat = n := Int64.toInt_inj.mp ((toInt_ofChar c).trans point.symm)
    refine ⟨c, toChar_int_iff.mpr point, ?_⟩
    rw [toInt, same]
  case single =>
    intro s
    exact ⟨fun c => toChar_str_iff, fun not => ⟨_, toChar_str_of_not not, rfl⟩⟩

end Intrinsic

end TreeScript
