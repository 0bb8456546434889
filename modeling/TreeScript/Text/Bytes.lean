/-!
# Text edited by byte offsets

A text is held as the bytes of its characters, of which each takes one to four. A character is found
by the byte offset at which it starts, and an edit puts bytes in the place of others. An offset inside
of a character is no place to cut a text.
-/
namespace TreeScript.Text

/-- The characters of a text, each with the byte offset at which it starts. -/
def charOffsets (s : String) : List (Nat × Char) := startingAt 0 s.toList
where
  startingAt (offset : Nat) : List Char → List (Nat × Char)
    | [] => []
    | c :: rest => (offset, c) :: startingAt (offset + c.utf8Size) rest

/-- The byte offset of the character at an index; where there is none, that of the end. -/
def byteOffset (s : String) (i : Nat) : Nat :=
  match (charOffsets s)[i]? with
  | some (offset, _) => offset
  | none => s.utf8ByteSize

/-- The text with the bytes from `start` up to `stop` replaced by those of `new`. Nothing when these
are no two places to cut it, one not before the other. -/
def replaceRange? (s : String) (start stop : Nat) (new : String) : Option String :=
  if places : String.Pos.Raw.IsValid s ⟨start⟩ ∧ String.Pos.Raw.IsValid s ⟨stop⟩ ∧ start ≤ stop then
    some ((s.sliceTo ⟨⟨start⟩, places.1⟩).copy ++ new ++ (s.sliceFrom ⟨⟨stop⟩, places.2.1⟩).copy)
  else none

/-- The text without the character that starts at a byte offset. Nothing when none does. -/
def removeAt? (s : String) (offset : Nat) : Option String :=
  if here : String.Pos.Raw.IsValid s ⟨offset⟩ then
    match (s.sliceFrom ⟨⟨offset⟩, here⟩).copy.toList with
    | c :: _ => replaceRange? s offset (offset + c.utf8Size) ""
    | [] => none
  else none

/-- Puts a character in the place of the one at an index, if there is one. -/
def replaceChar? (s : String) (i : Nat) (c : Char) : Option String :=
  match (charOffsets s)[i]? with
  | some (offset, old) => replaceRange? s offset (offset + old.utf8Size) (String.singleton c)
  | none => some s

end TreeScript.Text
