import TreeScript.Proofs.Text.Blanks
import TreeScript.Text.Quoted

/-!
# Quoted text can be read back

Each character of quoted text is written in a way of its own, and where it ends can be seen. So what
stands between quotes tells the characters, whatever follows: a quote or a backslash among them is
never taken for the end.
-/
namespace TreeScript.Text

variable {quote c d : Char} {n : Nat} {rest rest' : List Char} {s t : List Char}

def hexValue (c : Char) : Nat := if c.isDigit then c.toNat - 48 else c.toNat - 87

/-- The number that hexadecimal digits stand for. -/
def hexNumber (digits : List Char) : Nat := digits.foldl (fun n c => 16 * n + hexValue c) 0

theorem hexValue_hexDigit : ∀ n < 16, hexValue (hexDigit n) = n := by decide

theorem hexDigit_ne_brace : ∀ n < 16, hexDigit n ≠ '\x7d' := by decide

theorem hexNumber_hexDigits (n : Nat) : hexNumber (hexDigits n) = n := by
  fun_induction hexDigits n with
  | case1 n small => simp [hexNumber, hexValue_hexDigit n small]
  | case2 n large ih =>
    have last := hexValue_hexDigit (n % 16) (Nat.mod_lt _ (by decide))
    rw [hexNumber] at ih ⊢
    rw [List.foldl_append, ih, List.foldl_cons, List.foldl_nil, last]
    omega

theorem brace_notMem_hexDigits (n : Nat) : ∀ c ∈ hexDigits n, (c != '\x7d') = true := by
  fun_induction hexDigits n with
  | case1 n small => simpa using hexDigit_ne_brace n small
  | case2 n large ih =>
    have last := hexDigit_ne_brace (n % 16) (Nat.mod_lt _ (by decide))
    intro c mem
    rcases List.mem_append.mp mem with mem | mem
    · exact ih c mem
    · simpa [List.mem_singleton.mp mem] using last

/-- What a character stands for behind a backslash. -/
def unescaped : Char → Char
  | 'n' => '\n'
  | 'r' => '\r'
  | 't' => '\t'
  | '0' => '\x00'
  | c => c

/-- Reads one character of quoted text, and gives what follows it. -/
def readChar? : List Char → Option (Char × List Char)
  | [] => none
  | '\\' :: 'u' :: rest =>
    let digits := rest.tail
    some (Char.ofNat (hexNumber (digits.takeWhile (· != '\x7d'))),
      (digits.dropWhile (· != '\x7d')).tail)
  | '\\' :: c :: rest => some (unescaped c, rest)
  | c :: rest => some (c, rest)

/-- The two characters that text is quoted with. -/
def IsQuote (quote : Char) : Prop := quote = '"' ∨ quote = '\''

/-- The ways to write a character: one character behind a backslash, its number, or as it is. -/
inductive Escaped (quote c : Char) : List Char → Prop
  | short {e : Char} (stands : unescaped e = c) (noNumber : e ≠ 'u') : Escaped quote c ['\\', e]
  | number : Escaped quote c ('\\' :: 'u' :: '\x7b' :: (hexDigits c.toNat ++ ['\x7d']))
  | plain (noQuote : c ≠ quote) (noBackslash : c ≠ '\\') : Escaped quote c [c]

theorem escaped (is : IsQuote quote) (c : Char) : Escaped quote c (escape quote c) := by
  unfold escape
  by_cases isQuote : c = quote
  · rw [if_pos isQuote, isQuote]
    rcases is with rfl | rfl <;> exact .short rfl (by decide)
  rw [if_neg isQuote]
  by_cases backslash : c = '\\'
  · rw [if_pos backslash]
    exact .short backslash.symm (by decide)
  rw [if_neg backslash]
  split
  · rename_i same; exact .short same.symm (by decide)
  split
  · rename_i same; exact .short same.symm (by decide)
  split
  · rename_i same; exact .short same.symm (by decide)
  split
  · rename_i zero
    exact .short (Char.toNat_inj.mp zero).symm (by decide)
  split
  · exact .number
  · exact .plain isQuote backslash

theorem readChar?_escape (is : IsQuote quote) (c : Char) (rest : List Char) :
    readChar? (escape quote c ++ rest) = some (c, rest) := by
  have written := escaped is c
  generalize escape quote c = text at written ⊢
  cases written with
  | short stands noNumber =>
    rw [List.cons_append, List.cons_append, List.nil_append, readChar?, stands]
    exact noNumber
  | number =>
    have digits := brace_notMem_hexDigits c.toNat
    have front : (hexDigits c.toNat ++ '\x7d' :: rest).takeWhile (· != '\x7d') =
        hexDigits c.toNat := by
      rw [List.takeWhile_append_of_pos digits]
      simp
    have back : (hexDigits c.toNat ++ '\x7d' :: rest).dropWhile (· != '\x7d') = '\x7d' :: rest :=
      dropWhile_append_stop digits (by simp)
    simp only [List.cons_append, List.append_assoc, List.nil_append, readChar?, List.tail_cons,
      front, back, hexNumber_hexDigits, Char.ofNat_toNat]
  | plain _ noBackslash =>
    rw [List.cons_append, List.nil_append, readChar?]
    · simp [noBackslash]
    · simp [noBackslash]

/-- What is written for a character does not begin with the quote. -/
theorem exists_escape (is : IsQuote quote) (c : Char) :
    ∃ first more, escape quote c = first :: more ∧ first ≠ quote := by
  have backslash : '\\' ≠ quote := by rcases is with rfl | rfl <;> decide
  have written := escaped is c
  generalize escape quote c = text at written ⊢
  cases written with
  | short => exact ⟨_, _, rfl, backslash⟩
  | number => exact ⟨_, _, rfl, backslash⟩
  | plain noQuote => exact ⟨_, _, rfl, noQuote⟩

theorem escape_append_inj (is : IsQuote quote)
    (same : escape quote c ++ rest = escape quote d ++ rest') : c = d ∧ rest = rest' := by
  have read := congrArg readChar? same
  rw [readChar?_escape is, readChar?_escape is] at read
  simpa using read

/-- The characters of a text end at the quote that is not theirs. -/
theorem escaped_append_inj (is : IsQuote quote)
    (same : s.flatMap (escape quote) ++ quote :: rest =
      t.flatMap (escape quote) ++ quote :: rest') : s = t ∧ rest = rest' := by
  induction s generalizing t with
  | nil =>
    cases t with
    | nil => simpa using same
    | cons d t =>
      obtain ⟨first, more, written, other⟩ := exists_escape is d
      simp only [List.flatMap_nil, List.flatMap_cons, written, List.nil_append,
        List.cons_append] at same
      exact absurd (List.cons.inj same).1.symm other
  | cons c s ih =>
    cases t with
    | nil =>
      obtain ⟨first, more, written, other⟩ := exists_escape is c
      simp only [List.flatMap_nil, List.flatMap_cons, written, List.nil_append,
        List.cons_append] at same
      exact absurd (List.cons.inj same).1 other
    | cons d t =>
      rw [List.flatMap_cons, List.flatMap_cons, List.append_assoc, List.append_assoc] at same
      obtain ⟨rfl, left⟩ := escape_append_inj is same
      obtain ⟨rfl, rests⟩ := ih left
      exact ⟨rfl, rests⟩

theorem quoteString_append_inj (same : quoteString s ++ rest = quoteString t ++ rest') :
    s = t ∧ rest = rest' := by
  simp only [quoteString, List.cons_append, List.append_assoc, List.nil_append] at same
  exact escaped_append_inj (.inl rfl) (List.cons.inj same).2

theorem quoteChar_append_inj (same : quoteChar c ++ rest = quoteChar d ++ rest') :
    c = d ∧ rest = rest' := by
  simp only [quoteChar, List.cons_append, List.append_assoc, List.nil_append] at same
  obtain ⟨rfl, left⟩ := escape_append_inj (.inr rfl) (List.cons.inj same).2
  exact ⟨rfl, (List.cons.inj left).2⟩

end TreeScript.Text
