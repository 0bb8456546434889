/-!
# File modes

What a mode text asks of a file: whether it is read or written, where writing starts, and what
becomes of a file that is missing or has content.
-/
namespace TreeScript.Files

structure Mode where
  read : Bool
  write : Bool
  /-- Writing always goes to the end. -/
  append : Bool
  /-- A missing file is made. -/
  create : Bool
  /-- The content is dropped. -/
  truncate : Bool
  deriving DecidableEq, Repr

namespace Mode

private def named? : List Char → Option Mode
  | ['r'] => some ⟨true, false, false, false, false⟩
  | ['r', 'w'] => some ⟨true, true, false, false, false⟩
  | ['r', '+'] => some ⟨true, true, false, false, false⟩
  | ['w'] => some ⟨false, true, false, true, true⟩
  | ['w', '+'] => some ⟨true, true, false, true, true⟩
  | ['a'] => some ⟨false, true, true, true, false⟩
  | ['a', '+'] => some ⟨true, true, true, true, false⟩
  | _ => none

/-- Reads a mode text. A `b` at the end means nothing. -/
def parse? (text : String) : Option Mode :=
  match text.toList.reverse with
  | 'b' :: rest => named? rest.reverse
  | _ => named? text.toList

/-- The mode as a number: reading, writing, appending, making and dropping count 1, 2, 4, 8 and
16. -/
def bits (m : Mode) : Nat :=
  m.read.toNat + 2 * m.write.toNat + 4 * m.append.toNat + 8 * m.create.toNat + 16 * m.truncate.toNat

end Mode

end TreeScript.Files
