import Mathlib.Data.List.DropRight
import TreeScript.Text.Blank

/-!
# Text without the blanks around it

Every text has one core: what is left when the blanks before and after it are taken away, and it
neither begins nor ends with a blank. Trimming gives the core.
-/
namespace TreeScript.Text

/-- The text is the core with blanks before and after it. -/
structure Stripped (text core : List Char) : Prop where
  around : ∃ before after, text = before ++ (core ++ after) ∧
    (∀ c ∈ before, isBlank c = true) ∧ ∀ c ∈ after, isBlank c = true
  first : ∀ c ∈ core.head?, isBlank c = false
  last : ∀ c ∈ core.getLast?, isBlank c = false

variable {text core xs ys : List Char} {p : Char → Bool}

theorem stripped_self (none : ∀ c ∈ text, isBlank c = false) : Stripped text text where
  around := ⟨[], [], by simp⟩
  first c begins := none c (List.mem_of_mem_head? begins)
  last c ends := none c (List.mem_of_mem_getLast? ends)

theorem trim_eq (text : List Char) : trim text = (text.dropWhile isBlank).rdropWhile isBlank := rfl

theorem dropWhile_append_stop (all : ∀ c ∈ xs, p c = true) (stop : ∀ c ∈ ys.head?, p c = false) :
    (xs ++ ys).dropWhile p = ys := by
  rw [List.dropWhile_append_of_pos all]
  cases ys with
  | nil => rfl
  | cons c ys => exact List.dropWhile_cons_of_neg (by simp [stop c rfl])

/-- What is dropped from the end is found from the front of the reverse. -/
theorem rdropWhile_append_stop (all : ∀ c ∈ ys, p c = true)
    (stop : ∀ c ∈ xs.getLast?, p c = false) : (xs ++ ys).rdropWhile p = xs := by
  rw [List.rdropWhile, List.reverse_append, dropWhile_append_stop, List.reverse_reverse]
  · intro c mem
    exact all c (List.mem_reverse.mp mem)
  · rwa [List.head?_reverse]

theorem stripped_trim (text : List Char) : Stripped text (trim text) := by
  have front : text.takeWhile isBlank ++ text.dropWhile isBlank = text :=
    List.takeWhile_append_dropWhile
  have back : trim text ++ (text.dropWhile isBlank).rtakeWhile isBlank = text.dropWhile isBlank :=
    List.rdropWhile_append_rtakeWhile ..
  constructor
  · refine ⟨_, _, (front.symm.trans (congrArg _ back.symm)), ?_, ?_⟩
    · intro c mem
      exact List.mem_takeWhile_imp mem
    · intro c mem
      exact List.mem_rtakeWhile_imp mem
  · -- The core begins where the rest of the text begins, if it is not empty.
    intro c begins
    have begins' : c ∈ (text.dropWhile isBlank).head? := by
      rw [← back, List.head?_append, Option.mem_def.mp begins]
      rfl
    have := List.head?_dropWhile_not isBlank text
    rw [Option.mem_def.mp begins'] at this
    simpa using this
  · intro c ends
    obtain ⟨some, rfl⟩ := List.mem_getLast?_eq_getLast ends
    exact Bool.not_eq_true _ ▸ List.rdropWhile_last_not isBlank (text.dropWhile isBlank) some

theorem Stripped.eq_trim (stripped : Stripped text core) : core = trim text := by
  obtain ⟨before, after, rfl, blankBefore, blankAfter⟩ := stripped.around
  rw [trim_eq]
  cases core with
  | nil =>
    have blank : ∀ c ∈ before ++ after, isBlank c = true := by
      intro c mem
      rcases List.mem_append.mp mem with mem | mem
      · exact blankBefore c mem
      · exact blankAfter c mem
    rw [List.nil_append, ← List.append_nil (before ++ after),
      dropWhile_append_stop blank (by simp), List.rdropWhile_nil]
  | cons c core =>
    have begins : ∀ x ∈ (c :: core ++ after).head?, isBlank x = false := stripped.first
    rw [dropWhile_append_stop blankBefore begins, rdropWhile_append_stop blankAfter stripped.last]

/-- A text has one core, which is what trimming gives. -/
theorem stripped_iff : Stripped text core ↔ core = trim text := by
  constructor
  · exact Stripped.eq_trim
  · rintro rfl
    exact stripped_trim text

end TreeScript.Text
