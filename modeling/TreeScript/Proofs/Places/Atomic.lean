import TreeScript.Eval.Member
import TreeScript.Proofs.Places.Lenses

/-!
# Edits made in whole or not at all

A member that edits its receiver checks what it is given before it changes anything, and then no
failure can leave a change behind, however deep in a variable the receiver is. Only the `append` of
text adds its arguments one by one: what comes before one that is no text stays.
-/
namespace TreeScript

variable {α : Type} {h : Handles} {f : Edit α} {v new whole part : Value} {fault : Fault}

/-- When the edit fails it has changed nothing. -/
def Edit.Atomic (f : Edit α) : Prop := ∀ v fault new, f v = .error fault new → new = v

namespace Edit.Atomic

theorem fail (fault : Fault) : (Edit.fail fault : Edit α).Atomic := by
  rintro v _ _ ⟨⟩
  rfl

theorem replace_then (g : Value → Except Fault Value) (a : α) :
    (do Edit.replace g; return a : Edit α).Atomic := by
  intro v fault new failed
  rw [Edit.replace_then] at failed
  split at failed <;> cases failed
  rfl

theorem within (atomic : f.Atomic) {rebuild : Value → Value} (same : rebuild part = whole)
    (failed : f.within part rebuild whole = .error fault new) : new = whole := by
  unfold Edit.within at failed
  split at failed
  · cases failed
  · rename_i result
    cases failed
    rw [atomic _ _ _ result, same]

theorem editElement (atomic : f.Atomic) (index : Value) :
    (Value.editElement h index f).Atomic := by
  intro v fault new failed
  unfold Value.editElement at failed
  split at failed
  · split at failed
    · cases failed
      rfl
    · rename_i found
      exact atomic.within (Except.ok.inj (Value.Slot.item (h := h) found).put_part) failed
  · cases failed
    rfl
  · split at failed
    · cases failed
      rfl
    · rename_i named
      split at failed
      · rename_i there
        exact atomic.within (Except.ok.inj (Value.Slot.entry named there).put_part) failed
      · cases failed
        rfl
  · cases failed
    rfl

theorem editLast (atomic : f.Atomic) (index : Value) : (Value.editLast h index f).Atomic := by
  intro v fault new failed
  unfold Value.editLast at failed
  split at failed
  · unfold Value.editChar at failed
    split at failed
    · cases failed
      rfl
    · split at failed <;> cases failed <;> rfl
  · exact atomic.editElement index _ _ _ failed

theorem edit (atomic : f.Atomic) : ∀ path, (Value.edit h path f).Atomic
  | [] => atomic
  | [index] => atomic.editLast index
  | index :: next :: path => (atomic.edit (next :: path)).editElement index

end Edit.Atomic

namespace Place

variable {p : Place} {m m' : Machine} {stop : Stop}

/-- A failed edit of the root of a place leaves the machine as it was. -/
theorem editRoot_error_unchanged {f : Handles → Edit α} (atomic : ∀ h, (f h).Atomic)
    (failed : p.editRoot f m = .error stop m') : m' = m := by
  obtain ⟨root, path⟩ := p
  cases root with
  | inl i =>
    have failed : Run.editCell i f m = .error stop m' := failed
    unfold Run.editCell at failed
    split at failed
    · cases failed
      rfl
    · split at failed
      · cases failed
      · rename_i result
        cases failed
        rw [atomic m.handles _ _ _ result, Store.setValue_eq_self]
  | inr v =>
    simp only [Place.editRoot, Bind.bind, EStateM.bind, Run.handles] at failed
    cases result : f m.handles v with
    | ok a new =>
      rw [result] at failed
      cases failed
    | error fault new =>
      rw [result] at failed
      cases failed
      rfl

theorem edit_error {f : Handles → Edit α} (atomic : ∀ h, (f h).Atomic)
    (failed : p.edit f m = .error stop m') : m' = m :=
  editRoot_error_unchanged (fun h => (atomic h).edit p.path) failed

theorem assign_error {op : AssignOp} {v : Value} (failed : p.assign op v m = .error stop m') :
    m' = m :=
  editRoot_error_unchanged (fun _ _ _ _ => Value.assignAt_error) failed

end Place

namespace Member

/-- The members that edit their receivers. -/
inductive Edits : Kind → String → (Handles → List Value → Edit Value) → Prop
  | appendItems : Edits .list "append" Items.append
  | popItem : Edits .list "pop" Items.pop
  | popChar : Edits .str "pop" Chars.pop
  | appendText : Edits .str "append" Chars.append
  | insertEntry : Edits .dict "insert" Entries.insert
  | removeEntry : Edits .dict "remove" Entries.remove

variable {kind : Kind} {name : String} {f : Handles → List Value → Edit Value}

theorem edits_of_find? (found : find? kind name = some (.edit f)) : Edits kind name f := by
  obtain ⟨before, after, here, -⟩ := List.lookup_eq_some_iff.mp found
  have mem : (name, Member.edit f) ∈ table kind := by simp [here]
  cases kind <;> simp [table, Items.ofList, Items.shared, Chars.ofStr, Chars.ofChar,
    Entries.ofDict, Entries.ofOption, OpenFile.ofFile] at mem
  case list => rcases mem with ⟨rfl, rfl⟩ | ⟨rfl, rfl⟩ <;> constructor
  case str => rcases mem with ⟨rfl, rfl⟩ | ⟨rfl, rfl⟩ <;> constructor
  case dict => rcases mem with ⟨rfl, rfl⟩ | ⟨rfl, rfl⟩ <;> constructor

/-- All of them check first and change then, but for the `append` of text. -/
theorem Edits.atomic (edits : Edits kind name f) (other : ¬ (kind = .str ∧ name = "append"))
    (h : Handles) (args : List Value) : (f h args).Atomic := by
  cases edits with
  | appendItems =>
    intro v fault new failed
    unfold Items.append at failed
    split at failed <;> cases failed
    rfl
  | appendText => exact absurd ⟨rfl, rfl⟩ other
  | popItem =>
    unfold Items.pop
    split
    · exact .replace_then _ _
    · exact .fail _
  | popChar =>
    unfold Chars.pop
    split
    · exact .replace_then _ _
    · exact .fail _
  | insertEntry =>
    unfold Entries.insert
    split
    · exact .replace_then _ _
    · exact .fail _
  | removeEntry =>
    unfold Entries.remove
    split
    · exact .replace_then _ _
    · exact .fail _

namespace Chars

/-- The text that an argument adds, if it is text or a character. -/
def textOf? : Value → Option String
  | .str s => some s
  | .char c => some (String.singleton c)
  | _ => none

/-- The text of the arguments up to the first that is neither text nor a character. -/
def added : List Value → String
  | [] => ""
  | v :: rest =>
    match textOf? v with
    | some text => text ++ added rest
    | none => ""

/-- The first argument that is neither text nor a character. -/
def refused? (args : List Value) : Option Value := args.find? fun v => (textOf? v).isNone

theorem appendEach_cons (h : Handles) (v : Value) (rest : List Value) (s : String) :
    appendEach h (v :: rest) (.str s) =
      match textOf? v with
      | some text => appendEach h rest (.str (s ++ text))
      | none => .error (.typeMismatch "str or char" (v.typeName h)) (.str s) := by
  cases v with
  | char c =>
    show appendEach h rest (.str (s.push c)) = _
    rw [String.push_eq_append]
    rfl
  | _ => rfl

theorem appendEach_str (h : Handles) (args : List Value) (s : String) :
    appendEach h args (.str s) =
      match refused? args with
      | none => .ok .unit (.str (s ++ added args))
      | some v => .error (.typeMismatch "str or char" (v.typeName h)) (.str (s ++ added args)) := by
  induction args generalizing s with
  | nil =>
    rw [added, String.append_empty]
    rfl
  | cons v rest ih =>
    rw [appendEach_cons, added, refused?, List.find?_cons]
    cases textOf? v with
    | none => simp only [Option.isNone_none, String.append_empty]
    | some text =>
      simp only [Option.isNone_some, ← String.append_assoc]
      exact ih (s ++ text)

theorem append_str (h : Handles) (args : List Value) (s : String) :
    append h args (.str s) =
      match refused? args with
      | none => .ok .unit (.str (s ++ added args))
      | some v => .error (.typeMismatch "str or char" (v.typeName h)) (.str (s ++ added args)) :=
  appendEach_str h args s

theorem append_of_not_str (h : Handles) (args : List Value) {v : Value} (other : v.kind ≠ .str) :
    append h args v = .error (.typeMismatch "str" (v.typeName h)) v := by
  cases v with
  | str s => exact absurd rfl other
  | _ => rfl

theorem left_of_append {args : List Value} {s : String} {fault : Fault} {new : Value}
    (failed : append h args (.str s) = .error fault new) : new = .str (s ++ added args) := by
  rw [append_str] at failed
  split at failed <;> cases failed
  rfl

end Chars

/-- A member that edits and fails leaves its receiver as it was, unless it is the `append` of text
and has added something: then this stays. All other failed calls leave the whole machine alone,
wherever the receiver is. -/
theorem failed_edit (found : find? kind name = some (.edit f)) :
    (∀ h args recv fault new, f h args recv = .error fault new →
      (new ≠ recv ↔ kind = .str ∧ name = "append" ∧ recv.kind = .str ∧ Chars.added args ≠ "") ∧
      ∀ s, kind = .str → name = "append" → recv = .str s → new = .str (s ++ Chars.added args)) ∧
    (¬ (kind = .str ∧ name = "append") → ∀ ev p args span m stop m',
      Eval.callBuiltin ev p kind name args span m = .error stop m' → m' = m) := by
  have edits := edits_of_find? found
  refine ⟨fun h args recv fault new failed => ?_, fun other ev p args span m stop m' failed => ?_⟩
  · by_cases appends : kind = .str ∧ name = "append"
    · obtain ⟨rfl, rfl⟩ := appends
      have appendText : find? .str "append" = some (.edit Chars.append) := rfl
      rw [appendText] at found
      cases found
      by_cases text : recv.kind = .str
      · obtain ⟨s, rfl⟩ : ∃ s, recv = .str s := by
          cases recv <;> first | exact ⟨_, rfl⟩ | cases text
        obtain rfl := Chars.left_of_append failed
        refine ⟨?_, ?_⟩
        · simp [Value.kind]
        · rintro _ - - ⟨⟩
          rfl
      · rw [Chars.append_of_not_str h args text] at failed
        cases failed
        refine ⟨by simp [text], ?_⟩
        rintro s - - rfl
        exact absurd rfl text
    · rw [edits.atomic appends h args _ _ _ failed]
      refine ⟨⟨fun ne => absurd rfl ne, fun here => absurd ⟨here.1, here.2.1⟩ appends⟩, ?_⟩
      exact fun s str append => absurd ⟨str, append⟩ appends
  · unfold Eval.callBuiltin at failed
    rw [found] at failed
    exact Place.edit_error (fun h => edits.atomic other h args) failed

/-- The last argument is none for a text, but the first has been added before it is seen. -/
theorem failed_append_adds :
    let h : Handles := ⟨fun _ => "", fun _ => none, fun _ => "", fun _ => false⟩
    find? .str "append" = some (.edit Chars.append) ∧
      Chars.append h [.str "b", .int 1] (.str "a") =
        .error (.typeMismatch "str or char" "int") (.str "ab") ∧
      Value.str "ab" ≠ .str "a" :=
  ⟨rfl, rfl, by simp⟩

/-- A failed `append` of text leaves what it has added, and a failed `pop` of a list nothing. -/
theorem failed_edit_of_two :
    let h : Handles := ⟨fun _ => "", fun _ => none, fun _ => "", fun _ => false⟩
    Chars.append h [.str "b", .int 1] (.str "a") =
      .error (.typeMismatch "str or char" "int") (.str ("a" ++ Chars.added [.str "b", .int 1])) ∧
    Value.str "ab" ≠ .str "a" ∧
    ∃ fault new, Items.pop h [.int 3] (.list [.int 1]) = .error fault new ∧
      new = .list [.int 1] := by
  intro h
  have text : find? .str "append" = some (.edit Chars.append) := rfl
  have items : find? .list "pop" = some (.edit Items.pop) := rfl
  have fails : Chars.append h [.str "b", .int 1] (.str "a") =
      .error (.typeMismatch "str or char" "int") (.str "ab") := rfl
  obtain ⟨changed, left⟩ := (failed_edit text).1 h _ _ _ _ fails
  refine ⟨?_, changed.mpr ⟨rfl, rfl, rfl, by decide⟩, ?_⟩
  · rw [fails, left "a" rfl rfl rfl]
  · obtain ⟨fault, new, fails⟩ : ∃ fault new, Items.pop h [.int 3] (.list [.int 1]) =
        .error fault new := ⟨_, _, rfl⟩
    obtain ⟨changed, -⟩ := (failed_edit items).1 h _ _ fault new fails
    exact ⟨fault, new, fails, Classical.byContradiction fun ne => by cases (changed.mp ne).1⟩

end Member

end TreeScript
