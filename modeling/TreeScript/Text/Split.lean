/-!
# Searching and cutting text

Text is a list of characters. A delimiter cuts it at each of its occurrences, found from the
left and never overlapping.
-/
namespace TreeScript.Text

/-- Whether `needle` occurs in the text. -/
def containsText (needle : List Char) : List Char → Bool
  | [] => needle.isEmpty
  | c :: rest => needle.isPrefixOf (c :: rest) || containsText needle rest

/-- What stands before the first occurrence of the delimiter, and what follows it. -/
def breakAt (delimiter : List Char) : List Char → Option (List Char × List Char)
  | [] => if delimiter.isEmpty then some ([], []) else none
  | c :: rest =>
    if delimiter.isPrefixOf (c :: rest) then some ([], (c :: rest).drop delimiter.length)
    else (breakAt delimiter rest).map fun (before, after) => (c :: before, after)

theorem breakAt_length {delimiter text before after : List Char} (h : delimiter ≠ [])
    (found : breakAt delimiter text = some (before, after)) : after.length < text.length := by
  induction text generalizing before after with
  | nil =>
    cases delimiter with
    | nil => exact absurd rfl h
    | cons d ds => simp [breakAt] at found
  | cons c rest ih =>
    simp only [breakAt] at found
    split at found
    · obtain ⟨-, rfl⟩ := by simpa using found
      have : 0 < delimiter.length := List.length_pos_iff.mpr h
      simp only [List.length_drop, List.length_cons]
      omega
    · cases hb : breakAt delimiter rest with
      | none => simp [hb] at found
      | some pair =>
        obtain ⟨b, a⟩ := pair
        simp only [hb, Option.map_some, Option.some.injEq, Prod.mk.injEq] at found
        obtain ⟨-, rfl⟩ := found
        have := ih hb
        simp only [List.length_cons]
        omega

/-- The pieces of the text between the occurrences of a delimiter, which is not empty. -/
def split (delimiter : List Char) (h : delimiter ≠ []) (text : List Char) : List (List Char) :=
  match _found : breakAt delimiter text with
  | none => [text]
  | some (before, after) => before :: split delimiter h after
termination_by text.length
decreasing_by exact breakAt_length h _found

end TreeScript.Text
