import Mathlib.Data.List.Perm.Subperm
import TreeScript.Scope

/-!
# Frames

What the frames of a scope stack bind, and what removing a name does to them. A stack binds a name
as many times as it has frames that do, and removing the name takes the innermost of these bindings
away.
-/
namespace TreeScript.ScopeStack

variable {α : Type} {s t : ScopeStack α} {name other : String} {item : α} {frame : Frame α}
  {inner outer frames : List (Frame α)}

theorem ext_frames (same : t.frames = s.frames) : t = s := by
  obtain ⟨top, below⟩ := s
  obtain ⟨top', below'⟩ := t
  obtain ⟨rfl, rfl⟩ := List.cons.inj same
  rfl

theorem lookup_eq_none_iff_notMem : frame.lookup name = none ↔ name ∉ frame.map Prod.fst := by
  rw [List.lookup_eq_none_iff, List.mem_map]
  constructor
  · rintro unbound ⟨b, hb, rfl⟩
    exact bne_iff_ne.mp (unbound b hb) rfl
  · exact fun unbound b hb => bne_iff_ne.mpr fun same => unbound ⟨b, hb, same.symm⟩

theorem isSome_lookup_iff_mem : (frame.lookup name).isSome = true ↔ name ∈ frame.map Prod.fst := by
  rw [← not_iff_not, ← lookup_eq_none_iff_notMem, Option.not_isSome_iff_eq_none]

/-- The frame without its first binding of the name. -/
def eraseName (name : String) (frame : Frame α) : Frame α := frame.eraseP (·.1 == name)

theorem removeFrom_eq (name : String) (frame : Frame α) :
    removeFrom name frame = (frame.lookup name).map (·, eraseName name frame) := by
  induction frame with
  | nil => rfl
  | cons binding rest ih =>
    obtain ⟨n, item⟩ := binding
    rw [removeFrom, List.lookup_cons, eraseName, List.eraseP_cons]
    by_cases same : n = name
    · rw [if_pos same, same, beq_self_eq_true]
      rfl
    · rw [if_neg same, ih, beq_false_of_ne same, beq_false_of_ne (Ne.symm same), Option.map_map]
      rfl

theorem map_eraseName (name : String) (frame : Frame α) :
    (eraseName name frame).map Prod.fst = (frame.map Prod.fst).erase name := by
  rw [List.erase_eq_eraseP', List.eraseP_map]
  rfl

theorem lookup_eraseName_of_ne (h : other ≠ name) (frame : Frame α) :
    (eraseName name frame).lookup other = frame.lookup other := by
  induction frame with
  | nil => rfl
  | cons binding rest ih =>
    obtain ⟨n, item⟩ := binding
    rw [eraseName, List.eraseP_cons]
    by_cases same : n = name
    · rw [same, beq_self_eq_true, List.lookup_cons, beq_false_of_ne h]
      rfl
    · rw [beq_false_of_ne same]
      show ((n, item) :: eraseName name rest).lookup other = _
      rw [List.lookup_cons, List.lookup_cons, ih]

/-- A frame that binds each name once does not bind it when the binding is gone. -/
theorem lookup_eraseName_self (distinct : (frame.map Prod.fst).Nodup) :
    (eraseName name frame).lookup name = none := by
  rw [lookup_eq_none_iff_notMem]
  intro bound
  rw [map_eraseName] at bound
  exact distinct.not_mem_erase bound

theorem length_erased (name : String) (frame : Frame α) (inner outer : List (Frame α)) :
    (inner ++ eraseName name frame :: outer).length = (inner ++ frame :: outer).length := by
  rw [List.length_append, List.length_append]
  rfl

theorem removeInner_of_free (free : ∀ frame ∈ frames, frame.lookup name = none) :
    removeInner name frames = none := by
  induction frames with
  | nil => rfl
  | cons frame outer ih =>
    obtain ⟨here, further⟩ := List.forall_mem_cons.mp free
    rw [removeInner, removeFrom_eq, here, ih further]
    rfl

theorem removeInner_of_bound (free : ∀ frame ∈ inner, frame.lookup name = none)
    (bound : frame.lookup name = some item) :
    removeInner name (inner ++ frame :: outer) =
      some (item, inner ++ eraseName name frame :: outer) := by
  induction inner with
  | nil =>
    rw [List.nil_append, removeInner, removeFrom_eq, bound]
    rfl
  | cons first inner ih =>
    obtain ⟨here, further⟩ := List.forall_mem_cons.mp free
    rw [List.cons_append, removeInner, removeFrom_eq, here, ih further]
    rfl

theorem map_remove? (s : ScopeStack α) (name : String) :
    (s.remove? name).map (fun r => (r.1, r.2.frames)) = removeInner name s.frames := by
  rw [remove?, frames, removeInner]
  cases removeFrom name s.top with
  | some found => rfl
  | none =>
    rw [Option.map_map]
    rfl

theorem remove?_eq_none (free : s.get? name = none) : s.remove? name = none := by
  have unbound := List.findSome?_eq_none_iff.mp free
  exact Option.map_eq_none_iff.mp ((map_remove? s name).trans (removeInner_of_free unbound))

/-- Removing a name takes it from the innermost frame that binds it. -/
theorem exists_remove? (split : s.frames = inner ++ frame :: outer)
    (free : ∀ frame ∈ inner, frame.lookup name = none) (bound : frame.lookup name = some item) :
    ∃ t, s.remove? name = some (item, t) ∧ t.frames = inner ++ eraseName name frame :: outer := by
  have removed := map_remove? s name
  rw [split, removeInner_of_bound free bound] at removed
  obtain ⟨⟨found, t⟩, done, same⟩ := Option.map_eq_some_iff.mp removed
  obtain ⟨rfl, rest⟩ := Prod.mk.inj same
  exact ⟨t, done, rest⟩

/-- The frames from the inside out are searched in their order. -/
theorem findSome?_lookup_of_free (free : ∀ frame ∈ inner, frame.lookup name = none) :
    (inner ++ frames).findSome? (·.lookup name) = frames.findSome? (·.lookup name) := by
  rw [List.findSome?_append, List.findSome?_eq_none_iff.mpr free, Option.none_or]

/-- When a name has been removed it means what it means in the frames further out. -/
theorem get?_of_erased (split : t.frames = inner ++ eraseName name frame :: outer)
    (free : ∀ frame ∈ inner, frame.lookup name = none) (distinct : (frame.map Prod.fst).Nodup) :
    t.get? name = outer.findSome? (·.lookup name) := by
  rw [get?, split, findSome?_lookup_of_free free, List.findSome?_cons,
    lookup_eraseName_self distinct]

/-- The other names mean what they meant. -/
theorem get?_of_erased_of_ne (split : s.frames = inner ++ frame :: outer)
    (split' : t.frames = inner ++ eraseName name frame :: outer) (h : other ≠ name) :
    t.get? other = s.get? other := by
  rw [get?, get?, split, split', List.findSome?_append, List.findSome?_append, List.findSome?_cons,
    List.findSome?_cons, lookup_eraseName_of_ne h]

/-- What is bound is bound in one of the frames and in none further in. -/
theorem exists_innermost (found : s.get? name = some item) : ∃ inner frame outer,
    s.frames = inner ++ frame :: outer ∧ (∀ frame ∈ inner, frame.lookup name = none) ∧
      frame.lookup name = some item := by
  obtain ⟨inner, frame, outer, split, bound, free⟩ := List.findSome?_eq_some_iff.mp found
  exact ⟨inner, frame, outer, split, free, bound⟩

/-- All bindings, from the inside out. -/
def bindings (s : ScopeStack α) : List (String × α) := s.frames.flatten

/-- The names that are bound, each as often as there are frames that bind it. -/
def names (s : ScopeStack α) : List String := s.bindings.map Prod.fst

theorem isSome_get?_iff : (s.get? name).isSome = true ↔ name ∈ s.names := by
  rw [get?, List.findSome?_isSome_iff, names, bindings, List.map_flatten, List.mem_flatten]
  constructor
  · rintro ⟨frame, there, bound⟩
    exact ⟨_, List.mem_map_of_mem there, isSome_lookup_iff_mem.mp bound⟩
  · rintro ⟨_, mapped, bound⟩
    obtain ⟨frame, there, rfl⟩ := List.mem_map.mp mapped
    exact ⟨frame, there, isSome_lookup_iff_mem.mpr bound⟩

/-- Where only the base frame is open, the innermost frame binds all that is bound. -/
theorem bindsOnTop_iff_of_base (base : s.below = []) (name : String) :
    s.bindsOnTop name = true ↔ name ∈ s.names := by
  rw [bindsOnTop, isSome_lookup_iff_mem, names, bindings, frames, base, List.flatten_singleton]

theorem perm_eraseName (bound : frame.lookup name = some item) :
    frame.Perm ((name, item) :: eraseName name frame) := by
  induction frame with
  | nil => cases bound
  | cons binding rest ih =>
    obtain ⟨n, i⟩ := binding
    rw [List.lookup_cons] at bound
    rw [eraseName, List.eraseP_cons]
    by_cases same : n = name
    · subst same
      rw [beq_self_eq_true] at bound ⊢
      cases bound
      exact .rfl
    · rw [beq_false_of_ne (Ne.symm same)] at bound
      rw [beq_false_of_ne same]
      exact ((ih bound).cons _).trans (.swap ..)

theorem mem_bindings_of_get? (found : s.get? name = some item) : (name, item) ∈ s.bindings := by
  obtain ⟨inner, frame, outer, split, -, bound⟩ := exists_innermost found
  refine List.mem_flatten.mpr ⟨frame, by rw [split]; simp, ?_⟩
  exact (perm_eraseName bound).symm.subset List.mem_cons_self

/-- Closing the innermost frame takes its bindings away, also where the frame is the base. -/
theorem bindings_pop (s : ScopeStack α) : s.bindings = s.top ++ s.pop.bindings := by
  obtain ⟨top, below⟩ := s
  cases below <;> rfl

/-- Removing a name takes one binding away. -/
theorem exists_remove?_bindings (found : s.get? name = some item) :
    ∃ t, s.remove? name = some (item, t) ∧ s.bindings.Perm ((name, item) :: t.bindings) := by
  obtain ⟨inner, frame, outer, split, free, bound⟩ := exists_innermost found
  obtain ⟨t, removed, left⟩ := exists_remove? split free bound
  refine ⟨t, removed, ?_⟩
  rw [bindings, bindings, split, left, List.flatten_append, List.flatten_append, List.flatten_cons,
    List.flatten_cons]
  have moved := ((perm_eraseName bound).append_right outer.flatten).append_left inner.flatten
  exact moved.trans List.perm_middle

end TreeScript.ScopeStack
