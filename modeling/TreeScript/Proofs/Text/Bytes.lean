import TreeScript.Text.Bytes

/-!
# What edits of bytes do to characters

The offset of a character is the size of what stands before it, so a text cut there and behind the
character falls apart between characters. An edit of the bytes at these offsets is then an edit of
the list of characters, however many bytes each of them takes.
-/
namespace TreeScript.Text

variable {s before part after : String} {i : Nat}

theorem isValid_of_append (text : s = before ++ after) :
    String.Pos.Raw.IsValid s ⟨before.utf8ByteSize⟩ :=
  String.Pos.Raw.isValid_iff_exists_append.mpr ⟨before, after, text, rfl⟩

theorem splits_of_append (text : s = before ++ after)
    (here : String.Pos.Raw.IsValid s ⟨before.utf8ByteSize⟩) :
    String.Pos.Splits ⟨⟨before.utf8ByteSize⟩, here⟩ before after :=
  ⟨text, rfl⟩

/-- The bytes of a part of a text are replaced. -/
theorem replaceRange?_of_append (text : s = before ++ part ++ after) (new : String) :
    replaceRange? s before.utf8ByteSize (before.utf8ByteSize + part.utf8ByteSize) new =
      some (before ++ new ++ after) := by
  have atStart : s = before ++ (part ++ after) := by rw [text, String.append_assoc]
  have start := isValid_of_append atStart
  have stop := isValid_of_append text
  have left := (String.Pos.splits _).eq_left (splits_of_append atStart start)
  have right := (String.Pos.splits _).eq_right (splits_of_append text stop)
  rw [← String.utf8ByteSize_append, replaceRange?, dif_pos ⟨start, stop, by simp⟩, left, right]

/-- The offset at which a character starts is the size of what stands before it. -/
theorem startingAt_append (offset : Nat) (front rest : List Char) (c : Char) :
    (charOffsets.startingAt offset (front ++ c :: rest))[front.length]? =
      some (offset + (String.ofList front).utf8ByteSize, c) := by
  induction front generalizing offset with
  | nil => simp [charOffsets.startingAt]
  | cons d front ih =>
    rw [List.cons_append, charOffsets.startingAt, List.length_cons, List.getElem?_cons_succ, ih,
      String.ofList_cons, String.utf8ByteSize_append, String.utf8ByteSize_singleton, Nat.add_assoc]

theorem charOffsets_append (front rest : List Char) (c : Char) :
    (charOffsets (String.ofList (front ++ c :: rest)))[front.length]? =
      some ((String.ofList front).utf8ByteSize, c) := by
  rw [charOffsets, String.toList_ofList, startingAt_append, Nat.zero_add]

theorem byteOffset_append (front rest : List Char) (c : Char) :
    byteOffset (String.ofList (front ++ c :: rest)) front.length =
      (String.ofList front).utf8ByteSize := by
  rw [byteOffset, charOffsets_append]

theorem ofList_parts (front rest : List Char) (c : Char) :
    String.ofList (front ++ c :: rest) =
      String.ofList front ++ String.singleton c ++ String.ofList rest := by
  rw [String.ofList_append, String.ofList_cons, String.append_assoc]

/-- The bytes of a character are replaced by those of a text. -/
theorem replaceRange?_char (front rest : List Char) (c : Char) (new : String) :
    replaceRange? (String.ofList (front ++ c :: rest)) (String.ofList front).utf8ByteSize
        ((String.ofList front).utf8ByteSize + c.utf8Size) new =
      some (String.ofList front ++ new ++ String.ofList rest) := by
  rw [← String.utf8ByteSize_singleton (c := c),
    replaceRange?_of_append (ofList_parts front rest c)]

/-- The bytes taken out at the offset of a character are that character. -/
theorem removeAt?_append (front rest : List Char) (c : Char) :
    removeAt? (String.ofList (front ++ c :: rest)) (String.ofList front).utf8ByteSize =
      some (String.ofList (front ++ rest)) := by
  have text : String.ofList (front ++ c :: rest) =
      String.ofList front ++ String.ofList (c :: rest) := String.ofList_append
  have here := isValid_of_append text
  have behind := (String.Pos.splits _).eq_right (splits_of_append text here)
  rw [removeAt?, dif_pos here, behind, String.toList_ofList]
  show replaceRange? _ _ _ "" = _
  rw [replaceRange?_char, String.append_empty, String.ofList_append]

/-- The bytes put in the place of those of a character are another character. -/
theorem replaceChar?_append (front rest : List Char) (c d : Char) :
    replaceChar? (String.ofList (front ++ c :: rest)) front.length d =
      some (String.ofList (front ++ d :: rest)) := by
  rw [replaceChar?, charOffsets_append]
  show replaceRange? _ _ _ _ = _
  rw [replaceRange?_char, ofList_parts]

theorem length_startingAt (offset : Nat) (cs : List Char) :
    (charOffsets.startingAt offset cs).length = cs.length := by
  induction cs generalizing offset with
  | nil => rfl
  | cons c rest ih => rw [charOffsets.startingAt, List.length_cons, ih, List.length_cons]

/-- Where there is an index, there is a character at it. -/
theorem exists_parts (inside : i < s.toList.length) :
    ∃ front c rest, s = String.ofList (front ++ c :: rest) ∧ front.length = i := by
  refine ⟨s.toList.take i, s.toList[i], s.toList.drop (i + 1), ?_, ?_⟩
  · rw [← List.drop_eq_getElem_cons inside, List.take_append_drop, String.ofList_toList]
  · rw [List.length_take]
    omega

/-- The bytes of the character at an index are taken out, and the characters are those without it. -/
theorem removeAt?_byteOffset (inside : i < s.toList.length) :
    removeAt? s (byteOffset s i) = some (String.ofList (s.toList.eraseIdx i)) := by
  obtain ⟨front, c, rest, rfl, rfl⟩ := exists_parts inside
  rw [byteOffset_append, removeAt?_append, String.toList_ofList,
    List.eraseIdx_append_of_length_le (Nat.le_refl _), Nat.sub_self, List.eraseIdx_cons_zero]

/-- The bytes of the character at an index are replaced, and the characters are those with another
in its place. -/
theorem replaceChar?_eq (s : String) (i : Nat) (d : Char) :
    replaceChar? s i d = some (String.ofList (s.toList.set i d)) := by
  by_cases inside : i < s.toList.length
  · obtain ⟨front, c, rest, rfl, rfl⟩ := exists_parts inside
    rw [replaceChar?_append, String.toList_ofList]
    simp
  · have none : (charOffsets s)[i]? = none := by
      rw [List.getElem?_eq_none_iff, charOffsets, length_startingAt]
      omega
    rw [replaceChar?, none, List.set_eq_of_length_le (by omega), String.ofList_toList]

end TreeScript.Text
