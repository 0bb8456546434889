import TreeScript.Proofs.Scope.Frames

/-!
# The history of a scope stack

What has been asked of a scope stack tells all there is to it. An item that was accepted stands
until its frame is dropped or it is removed, and a name means the item that was accepted last among
those that stand. The frames of a stack are the items that stand, put together by the depth at
which they were accepted.
-/
namespace TreeScript.ScopeStack

variable {α : Type}

/-- What is asked of a stack. Histories have the latest request first. -/
inductive Request (α : Type) where
  | push
  | pop
  | insert (name : String) (item : α)
  | remove (name : String)
  | clear

/-- What a request gives. -/
inductive Answer (α : Type) where
  | done
  /-- The name was bound already, and the item is handed back. -/
  | rejected (item : α)
  /-- What the name was bound to, if it was bound. -/
  | removed (item? : Option α)

def Request.run : Request α → ScopeStack α → Answer α × ScopeStack α
  | push, s => (.done, s.push)
  | pop, s => (.done, s.pop)
  | insert name item, s =>
    match s.insert name item with
    | .ok t => (.done, t)
    | .error back => (.rejected back, s)
  | remove name, s =>
    match s.remove? name with
    | some (item, t) => (.removed (some item), t)
    | none => (.removed none, s)
  | clear, s => (.done, s.clear)

/-- The stack when all this has been asked of it. -/
def after (s : ScopeStack α) : List (Request α) → ScopeStack α
  | [] => s
  | r :: earlier => (r.run (s.after earlier)).2

/-- The number of frames that are open. The base frame always is. -/
def openFrames : List (Request α) → Nat
  | [] => 1
  | .push :: earlier => openFrames earlier + 1
  | .pop :: earlier => max 1 (openFrames earlier - 1)
  | .insert _ _ :: earlier => openFrames earlier
  | .remove _ :: earlier => openFrames earlier
  | .clear :: _ => 1

/-- An item that was accepted. The time is the number of requests before, the depth is that of the
frame that was the innermost one. -/
structure Accepted (α : Type) where
  time : Nat
  depth : Nat
  name : String
  item : α
  deriving DecidableEq

def Accepted.binding (e : Accepted α) : String × α := (e.name, e.item)

/-- The items that were accepted and have not been removed, nor dropped with their frame since. The
latest is the first. An item is accepted if none stands that has its name and its depth. -/
def standing : List (Request α) → List (Accepted α)
  | [] => []
  | .push :: earlier => standing earlier
  | .pop :: earlier => (standing earlier).filter (·.depth < openFrames earlier)
  | .insert name item :: earlier =>
    if (standing earlier).any (fun e => e.name = name ∧ e.depth = openFrames earlier) then
      standing earlier
    else ⟨earlier.length, openFrames earlier, name, item⟩ :: standing earlier
  | .remove name :: earlier => (standing earlier).eraseP (·.name == name)
  | .clear :: _ => []

/-- How many frames are open above those that were there before the requests, if these are all of
pushes, inserts and pops that close none of the frames that were there. -/
def rise? : List (Request α) → Option Nat
  | [] => some 0
  | .push :: earlier => (rise? earlier).map (· + 1)
  | .pop :: earlier =>
    match rise? earlier with
    | some (n + 1) => some n
    | _ => none
  | .insert _ _ :: earlier => rise? earlier
  | .remove _ :: _ => none
  | .clear :: _ => none

/-- The inserts that are made while no frame is open above those that were there before. -/
def ownInserts : List (Request α) → List (String × α)
  | [] => []
  | .insert name item :: earlier =>
    if rise? earlier = some 0 then (name, item) :: ownInserts earlier else ownInserts earlier
  | _ :: earlier => ownInserts earlier

/-- The stack when these have been inserted, the last one first. -/
def afterInserts (s : ScopeStack α) (items : List (String × α)) : ScopeStack α :=
  s.after (items.map fun b => .insert b.1 b.2)

variable {s : ScopeStack α} {history requests earlier : List (Request α)} {name other : String}
  {item : α} {frame : Frame α} {frames inner outer : List (Frame α)} {e : Accepted α}
  {entries own : List (Accepted α)}

namespace Request

theorem run_insert_of_bound (bound : s.bindsOnTop name = true) (item : α) :
    (insert name item).run s = (.rejected item, s) := by
  rw [run, insert_of_bindsOnTop bound]

theorem run_insert_of_free (free : s.bindsOnTop name = false) (item : α) :
    (insert name item).run s = (.done, s.bind name item) := by
  rw [run, insert_of_free free]

theorem run_remove_of_none (free : s.get? name = none) :
    (remove name).run s = (.removed none, s) := by
  rw [run, remove?_eq_none free]

theorem exists_run_remove (split : s.frames = inner ++ frame :: outer)
    (free : ∀ frame ∈ inner, frame.lookup name = none) (bound : frame.lookup name = some item) :
    ∃ t, (remove name).run s = (.removed (some item), t) ∧
      t.frames = inner ++ eraseName name frame :: outer := by
  obtain ⟨t, done, rest⟩ := exists_remove? split free bound
  exact ⟨t, by rw [run, done], rest⟩

end Request

/-- The frames, from the inside out, bind just the items of the entries, the latest first. -/
inductive Tells : List (Frame α) → List (Accepted α) → Prop
  | nil : Tells [] []
  | frame {frames : List (Frame α)} {entries : List (Accepted α)} (own : List (Accepted α))
    (outer : Tells frames entries) (depth : ∀ e ∈ own, e.depth = frames.length + 1)
    (distinct : (own.map Accepted.name).Nodup) :
    Tells (own.map Accepted.binding :: frames) (own ++ entries)

namespace Tells

theorem lookup_map (own : List (Accepted α)) (name : String) :
    (own.map Accepted.binding).lookup name = (own.find? (·.name == name)).map Accepted.item := by
  induction own with
  | nil => rfl
  | cons e own ih =>
    rw [List.map_cons, Accepted.binding, List.lookup_cons, List.find?_cons, ih, BEq.comm]
    cases e.name == name <;> rfl

theorem depth_le (h : Tells frames entries) : ∀ e ∈ entries, e.depth ≤ frames.length := by
  induction h with
  | nil => exact fun e he => nomatch he
  | @frame frames entries own outer depth distinct ih =>
    intro e he
    rw [List.length_cons]
    rcases List.mem_append.mp he with he | he
    · exact Nat.le_of_eq (depth e he)
    · exact Nat.le_succ_of_le (ih e he)

/-- A name means the latest entry with the name. -/
theorem findSome?_eq (h : Tells frames entries) (name : String) :
    frames.findSome? (·.lookup name) =
      (entries.find? (·.name == name)).map Accepted.item := by
  induction h with
  | nil => rfl
  | frame own outer depth distinct ih =>
    rw [List.findSome?_cons, lookup_map, ih, List.find?_append]
    cases own.find? (·.name == name) <;> rfl

/-- The innermost frame binds the names of the entries at its depth. -/
theorem isSome_lookup_iff (h : Tells (frame :: frames) entries) :
    (frame.lookup name).isSome = true ↔
      ∃ e ∈ entries, e.name = name ∧ e.depth = frames.length + 1 := by
  obtain _ | ⟨own, outer, depth, distinct⟩ := h
  rw [lookup_map, Option.isSome_map, List.find?_isSome]
  constructor
  · rintro ⟨e, he, same⟩
    exact ⟨e, List.mem_append_left _ he, beq_iff_eq.mp same, depth e he⟩
  · rintro ⟨e, he, same, here⟩
    rcases List.mem_append.mp he with he | he
    · exact ⟨e, he, beq_iff_eq.mpr same⟩
    · exact absurd (outer.depth_le e he) (by omega)

/-- A frame binds each name once. -/
theorem distinct (h : Tells frames entries) :
    ∀ frame ∈ frames, (frame.map Prod.fst).Nodup := by
  induction h with
  | nil => exact fun frame there => nomatch there
  | frame own outer depth distinct ih =>
    rw [List.forall_mem_cons, List.map_map]
    exact ⟨distinct, ih⟩

theorem push (h : Tells frames entries) : Tells ([] :: frames) entries :=
  .frame [] h (fun _ he => nomatch he) .nil

/-- Without the innermost frame the entries at its depth do not stand any more. -/
theorem pop (h : Tells (frame :: frames) entries) :
    Tells frames (entries.filter (·.depth < frames.length + 1)) := by
  obtain _ | ⟨own, outer, depth, distinct⟩ := h
  have gone : own.filter (·.depth < frames.length + 1) = [] := by
    refine List.filter_eq_nil_iff.mpr fun e he => ?_
    rw [depth e he, decide_eq_true_iff]
    exact Nat.lt_irrefl _
  rw [List.filter_append, gone, List.nil_append, List.filter_eq_self.mpr]
  · exact outer
  · exact fun e he => decide_eq_true (Nat.lt_succ_of_le (outer.depth_le e he))

theorem bind (h : Tells (frame :: frames) entries) (e : Accepted α)
    (here : e.depth = frames.length + 1) (free : frame.lookup e.name = none) :
    Tells ((e.binding :: frame) :: frames) (e :: entries) := by
  obtain _ | ⟨own, outer, depth, distinct⟩ := h
  rw [lookup_eq_none_iff_notMem, List.map_map] at free
  exact .frame (e :: own) outer (List.forall_mem_cons.mpr ⟨here, depth⟩)
    (List.nodup_cons.mpr ⟨free, distinct⟩)

/-- The frames without the innermost binding of a name, and the entries without the latest with that
name. -/
theorem remove (h : Tells (inner ++ frame :: outer) entries)
    (free : ∀ frame ∈ inner, frame.lookup name = none) (bound : (frame.lookup name).isSome = true) :
    Tells (inner ++ eraseName name frame :: outer) (entries.eraseP (·.name == name)) := by
  induction inner generalizing entries with
  | nil =>
    -- the latest entry with the name is one of those of the frame that binds it
    obtain _ | ⟨own, rest, depth, distinct⟩ := h
    rw [lookup_map, Option.isSome_map, List.find?_isSome] at bound
    obtain ⟨e, he, same⟩ := bound
    have sub : (own.eraseP (·.name == name)).Sublist own := List.eraseP_sublist
    rw [List.eraseP_append_left (p := fun e => e.name == name) same _ he, List.nil_append,
      eraseName, List.eraseP_map]
    exact .frame _ rest (fun e he => depth e (sub.subset he)) (distinct.sublist (sub.map _))
  | cons first inner ih =>
    obtain _ | ⟨own, rest, depth, distinct⟩ := h
    obtain ⟨here, further⟩ := List.forall_mem_cons.mp free
    rw [lookup_map, Option.map_eq_none_iff, List.find?_eq_none] at here
    rw [List.eraseP_append_right _ here]
    refine .frame own (ih rest further) (fun e he => ?_) distinct
    exact (depth e he).trans (congrArg (· + 1) (length_erased name frame inner outer).symm)

end Tells

/-- The stack is as its history tells. -/
structure Accords (history : List (Request α)) (s : ScopeStack α) : Prop where
  depth : s.depth = openFrames history
  tells : Tells s.frames (standing history)

namespace Accords

theorem bindsOnTop_iff (h : Accords history s) : s.bindsOnTop name = true ↔
    ∃ e ∈ standing history, e.name = name ∧ e.depth = openFrames history := by
  rw [← h.depth]
  exact h.tells.isSome_lookup_iff

theorem get?_eq (h : Accords history s) (name : String) :
    s.get? name = ((standing history).find? (·.name == name)).map Accepted.item :=
  h.tells.findSome?_eq name

theorem push (h : Accords history s) : Accords (.push :: history) s.push where
  depth := congrArg (· + 1) h.depth
  tells := h.tells.push

theorem clear (history : List (Request α)) (s : ScopeStack α) :
    Accords (.clear :: history) s.clear where
  depth := rfl
  tells := .push .nil

theorem pop (h : Accords history s) : Accords (.pop :: history) s.pop := by
  have opened := h.depth
  have left : Tells s.below (standing (.pop :: history)) := by
    rw [standing, ← opened]
    exact h.tells.pop
  obtain ⟨top, below⟩ := s
  cases below with
  | nil =>
    refine ⟨?_, left.push⟩
    rw [openFrames, ← opened]
    rfl
  | cons frame outer =>
    refine ⟨?_, left⟩
    rw [openFrames, ← opened]
    exact (Nat.max_eq_right (Nat.le_add_left 1 outer.length)).symm

/-- By the history an item is accepted just when the stack accepts it. -/
theorem standing_insert (h : Accords history s) (name : String) (item : α) :
    standing (.insert name item :: history) =
      if s.bindsOnTop name then standing history
      else ⟨history.length, openFrames history, name, item⟩ :: standing history := by
  have same : (standing history).any (fun e => e.name = name ∧ e.depth = openFrames history) =
      s.bindsOnTop name := by
    rw [Bool.eq_iff_iff, h.bindsOnTop_iff]
    simp only [List.any_eq_true, decide_eq_true_iff]
  rw [standing, same]

theorem insert (h : Accords history s) (name : String) (item : α) :
    Accords (.insert name item :: history) ((Request.insert name item).run s).2 := by
  have tells := h.standing_insert name item
  cases bound : s.bindsOnTop name with
  | true =>
    rw [bound, if_pos rfl] at tells
    rw [Request.run_insert_of_bound bound]
    exact ⟨h.depth, tells ▸ h.tells⟩
  | false =>
    rw [bound, if_neg Bool.false_ne_true] at tells
    rw [Request.run_insert_of_free bound]
    have free := Option.isNone_iff_eq_none.mp (Option.isSome_eq_false_iff.mp bound)
    exact ⟨h.depth, tells ▸ h.tells.bind ⟨_, _, name, item⟩ h.depth.symm free⟩

theorem remove (h : Accords history s) (name : String) :
    Accords (.remove name :: history) ((Request.remove name).run s).2 := by
  cases found : s.get? name with
  | none =>
    rw [Request.run_remove_of_none found]
    refine ⟨h.depth, ?_⟩
    rw [h.get?_eq, Option.map_eq_none_iff, List.find?_eq_none] at found
    rw [standing, List.eraseP_of_forall_not found]
    exact h.tells
  | some item =>
    obtain ⟨inner, frame, outer, split, free, bound⟩ := exists_innermost found
    obtain ⟨t, ran, rest⟩ := Request.exists_run_remove split free bound
    have tells := h.tells
    have depth := h.depth
    rw [ScopeStack.depth, split] at depth
    rw [split] at tells
    rw [ran]
    constructor
    · rw [ScopeStack.depth, rest, openFrames, ← depth, length_erased]
    · rw [rest]
      exact tells.remove free (by rw [bound]; rfl)

/-- Removing a name uncovers what the frames further out bind it to. -/
theorem exists_uncovered (h : Accords history s) (found : s.get? name = some item) :
    ∃ inner frame outer t, s.frames = inner ++ frame :: outer ∧
      (∀ frame ∈ inner, frame.lookup name = none) ∧ frame.lookup name = some item ∧
      (Request.remove name).run s = (.removed (some item), t) ∧
      t.frames = inner ++ eraseName name frame :: outer ∧
      t.get? name = outer.findSome? (·.lookup name) ∧
      ∀ other, other ≠ name → t.get? other = s.get? other := by
  obtain ⟨inner, frame, outer, split, free, bound⟩ := exists_innermost found
  obtain ⟨t, ran, left⟩ := Request.exists_run_remove split free bound
  have distinct := h.tells.distinct frame (by simp [split])
  exact ⟨inner, frame, outer, t, split, free, bound, ran, left, get?_of_erased left free distinct,
    fun other ne => get?_of_erased_of_ne split left ne⟩

theorem run (h : Accords history s) (r : Request α) : Accords (r :: history) (r.run s).2 := by
  cases r with
  | push => exact h.push
  | pop => exact h.pop
  | insert name item => exact h.insert name item
  | remove name => exact h.remove name
  | clear => exact .clear history s

end Accords

/-- A stack that began as the base frame is as its history tells. -/
theorem accords_after (history : List (Request α)) : Accords history (base.after history) := by
  induction history with
  | nil => exact ⟨rfl, .push .nil⟩
  | cons r earlier ih => exact ih.run r

theorem mem_standing_cons {r : Request α} (he : e ∈ standing (r :: earlier)) :
    e ∈ standing earlier ∨ r = .insert e.name e.item ∧ e.time = earlier.length ∧
      e.depth = openFrames earlier ∧ (r.run (base.after earlier)).1 = .done := by
  cases r with
  | push => exact .inl he
  | pop => exact .inl (List.mem_of_mem_filter he)
  | insert name item =>
    rw [(accords_after earlier).standing_insert] at he
    split at he
    case isTrue => exact .inl he
    case isFalse free =>
      rcases List.mem_cons.mp he with rfl | he
      · refine .inr ⟨rfl, rfl, rfl, ?_⟩
        rw [Request.run_insert_of_free (Bool.eq_false_iff.mpr free)]
      · exact .inl he
  | remove name => exact .inl (List.mem_of_mem_eraseP he)
  | clear => cases he

/-- What stands was inserted at its time in the frame at its depth, and the stack accepted it. -/
theorem exists_accepted (he : e ∈ standing history) : ∃ later earlier,
    history = later ++ .insert e.name e.item :: earlier ∧ e.time = earlier.length ∧
      e.depth = openFrames earlier ∧
      ((Request.insert e.name e.item).run (base.after earlier)).1 = .done := by
  induction history with
  | nil => cases he
  | cons r rest ih =>
    rcases mem_standing_cons he with he | ⟨rfl, accepted⟩
    · obtain ⟨later, earlier, rfl, accepted⟩ := ih he
      exact ⟨r :: later, earlier, rfl, accepted⟩
    · exact ⟨[], rest, rfl, accepted⟩

theorem time_lt (he : e ∈ standing history) : e.time < history.length := by
  obtain ⟨later, earlier, rfl, at_, -⟩ := exists_accepted he
  rw [at_, List.length_append, List.length_cons]
  omega

/-- The items that stand are in the order in which they were accepted, the latest first. -/
theorem pairwise_standing : ∀ history : List (Request α),
    (standing history).Pairwise fun e e' => e'.time < e.time
  | [] => .nil
  | .push :: earlier => pairwise_standing earlier
  | .pop :: earlier => (pairwise_standing earlier).filter _
  | .insert name item :: earlier => by
    rw [standing]
    split
    · exact pairwise_standing earlier
    · exact List.pairwise_cons.mpr ⟨fun e he => time_lt he, pairwise_standing earlier⟩
  | .remove name :: earlier => (pairwise_standing earlier).sublist List.eraseP_sublist
  | .clear :: _ => .nil

/-- What is found first in this order is the latest. -/
theorem find?_eq_some_iff_latest {p : Accepted α → Bool} {entries : List (Accepted α)}
    (order : entries.Pairwise fun e e' => e'.time < e.time) : entries.find? p = some e ↔
      e ∈ entries ∧ p e = true ∧ ∀ other ∈ entries, p other = true → other.time ≤ e.time := by
  induction entries with
  | nil => simp
  | cons first rest ih =>
    obtain ⟨before, order⟩ := List.pairwise_cons.mp order
    rw [List.find?_cons, List.forall_mem_cons, List.mem_cons]
    cases fits : p first with
    | true =>
      constructor
      · rintro ⟨⟩
        exact ⟨.inl rfl, fits, fun _ => Nat.le_refl _,
          fun other there _ => Nat.le_of_lt (before other there)⟩
      · rintro ⟨rfl | there, -, last, -⟩
        · rfl
        · exact absurd (last rfl) (Nat.not_le_of_lt (before e there))
    | false =>
      refine (ih order).trans ⟨?_, ?_⟩
      · rintro ⟨there, fit, last⟩
        exact ⟨.inr there, fit, Bool.noConfusion, last⟩
      · rintro ⟨rfl | there, fit, -, last⟩
        · cases fits.symm.trans fit
        · exact ⟨there, fit, last⟩

/-- The name means the item that was accepted last among those that stand. -/
theorem get?_after_eq_some_iff : (base.after history).get? name = some item ↔
    ∃ e ∈ standing history, e.name = name ∧ e.item = item ∧
      ∀ other ∈ standing history, other.name = name → other.time ≤ e.time := by
  rw [(accords_after history).get?_eq, Option.map_eq_some_iff]
  refine exists_congr fun e => ?_
  rw [find?_eq_some_iff_latest (pairwise_standing history)]
  simp only [beq_iff_eq]
  tauto

theorem frames_pop_of_cons (split : s.frames = frame :: frames) (others : frames ≠ []) :
    s.pop.frames = frames := by
  obtain ⟨top, below⟩ := s
  obtain ⟨rfl, rfl⟩ := List.cons.inj split
  cases below with
  | nil => exact absurd rfl others
  | cons frame outer => rfl

theorem exists_run_insert (s : ScopeStack α) (name : String) (item : α) :
    ∃ top, ((Request.insert name item).run s).2.frames = top :: s.below ∧
      (top = s.top ∨ top = (name, item) :: s.top) := by
  cases bound : s.bindsOnTop name with
  | true =>
    rw [Request.run_insert_of_bound bound]
    exact ⟨s.top, rfl, .inl rfl⟩
  | false =>
    rw [Request.run_insert_of_free bound]
    exact ⟨_, rfl, .inr rfl⟩

/-- Requests that close none of the frames that were there leave these as their own inserts leave
them. -/
theorem frames_after_of_rise {n : Nat} (risen : rise? requests = some n) :
    ∃ opened : List (Frame α), opened.length = n ∧
      (s.after requests).frames = opened ++ (s.afterInserts (ownInserts requests)).frames := by
  induction requests generalizing n with
  | nil =>
    cases risen
    exact ⟨[], rfl, rfl⟩
  | cons r earlier ih =>
    cases r with
    | push =>
      obtain ⟨m, before, rfl⟩ := Option.map_eq_some_iff.mp risen
      obtain ⟨opened, rfl, left⟩ := ih before
      exact ⟨[] :: opened, rfl, congrArg ([] :: ·) left⟩
    | pop =>
      rw [rise?] at risen
      split at risen
      case h_1 m before =>
        cases risen
        obtain ⟨opened, size, left⟩ := ih before
        obtain ⟨frame, opened, rfl⟩ := List.exists_cons_of_length_eq_add_one size
        exact ⟨opened, Nat.succ.inj size, frames_pop_of_cons left (by simp [frames])⟩
      case h_2 => cases risen
    | insert name item =>
      rw [rise?] at risen
      obtain ⟨opened, rfl, left⟩ := ih risen
      rw [ownInserts, risen]
      -- inside a frame that was opened since, an insert does not get to the frames that were there
      cases opened with
      | nil =>
        refine ⟨[], rfl, ?_⟩
        rw [List.length_nil, if_pos rfl, after, ext_frames left]
        rfl
      | cons frame opened =>
        obtain ⟨-, left⟩ := List.cons.inj left
        obtain ⟨top, ran, -⟩ := exists_run_insert (s.after earlier) name item
        refine ⟨top :: opened, rfl, ?_⟩
        rw [if_neg (by simp), after, ran, left]
        rfl
    | remove | clear => cases risen

/-- Balanced requests leave what their own inserts leave. -/
theorem after_of_balanced (level : rise? requests = some 0) :
    s.after requests = s.afterInserts (ownInserts requests) := by
  obtain ⟨opened, empty, left⟩ := frames_after_of_rise (s := s) level
  rw [List.length_eq_zero_iff.mp empty, List.nil_append] at left
  exact ext_frames left

/-- Inserts at one depth leave the frames around alone and only add to the innermost one. -/
theorem exists_afterInserts (s : ScopeStack α) (items : List (String × α)) :
    ∃ new : Frame α, new.Sublist items ∧
      (s.afterInserts items).frames = (new ++ s.top) :: s.below := by
  induction items with
  | nil => exact ⟨[], .slnil, rfl⟩
  | cons b items ih =>
    obtain ⟨new, sub, left⟩ := ih
    obtain ⟨sameTop, sameBelow⟩ := List.cons.inj left
    obtain ⟨top, ran, rfl | rfl⟩ := exists_run_insert (s.afterInserts items) b.1 b.2
    · exact ⟨new, sub.cons b, ran.trans left⟩
    · refine ⟨b :: new, sub.cons_cons b, ran.trans ?_⟩
      rw [sameTop, sameBelow]
      rfl

/-- **Scope stacks.** Whatever has been asked of a stack that began as the base frame, at least one
frame is open. An insert is rejected, with the item handed back and nothing changed, just when the
innermost frame binds the name, which is when an item that was accepted at this depth for the name
still stands. What stands was accepted by the stack, and a name means the item that was accepted
last for it among those that stand. Removing a name uncovers what the frames further out bind it to,
and other names mean what they meant. Requests that are balanced and close none of the frames that
are open change no more than their own inserts do, which only add to the innermost frame. -/
theorem scope_discipline (history : List (Request α)) :
    let s := base.after history
    (s.depth = openFrames history ∧ 1 ≤ s.depth) ∧
    (∀ name item, (Request.insert name item).run s =
      if s.bindsOnTop name then (.rejected item, s) else (.done, s.bind name item)) ∧
    (∀ e ∈ standing history, ∃ later earlier,
      history = later ++ .insert e.name e.item :: earlier ∧ e.time = earlier.length ∧
        e.depth = openFrames earlier ∧
        ((Request.insert e.name e.item).run (base.after earlier)).1 = .done) ∧
    (∀ name, s.bindsOnTop name = true ↔
      ∃ e ∈ standing history, e.name = name ∧ e.depth = s.depth) ∧
    (∀ name item, s.get? name = some item ↔
      ∃ e ∈ standing history, e.name = name ∧ e.item = item ∧
        ∀ other ∈ standing history, other.name = name → other.time ≤ e.time) ∧
    (∀ name, s.get? name = none → (Request.remove name).run s = (.removed none, s)) ∧
    (∀ name item, s.get? name = some item → ∃ inner frame outer t,
      s.frames = inner ++ frame :: outer ∧ (∀ frame ∈ inner, frame.lookup name = none) ∧
        frame.lookup name = some item ∧ (Request.remove name).run s = (.removed (some item), t) ∧
          t.frames = inner ++ eraseName name frame :: outer ∧
          t.get? name = outer.findSome? (·.lookup name) ∧
          ∀ other, other ≠ name → t.get? other = s.get? other) ∧
    ∀ requests : List (Request α), rise? requests = some 0 →
      s.after requests = s.afterInserts (ownInserts requests) ∧
        ∃ new : Frame α, new.Sublist (ownInserts requests) ∧
          (s.after requests).frames = (new ++ s.top) :: s.below := by
  intro s
  have accords : Accords history s := accords_after history
  refine ⟨⟨accords.depth, Nat.le_add_left 1 _⟩, ?inserts, fun _ => exists_accepted, ?bound,
    fun _ _ => get?_after_eq_some_iff, fun _ => Request.run_remove_of_none, ?removed, ?balanced⟩
  case inserts =>
    intro name item
    split
    case isTrue bound => exact Request.run_insert_of_bound bound item
    case isFalse free => exact Request.run_insert_of_free (Bool.eq_false_iff.mpr free) item
  case bound =>
    intro name
    rw [accords.depth]
    exact accords.bindsOnTop_iff
  case removed =>
    intro name item found
    exact accords.exists_uncovered found
  case balanced =>
    intro requests level
    rw [after_of_balanced level]
    exact ⟨rfl, exists_afterInserts s (ownInserts requests)⟩

/-- A name is bound in the base frame and again in the frame inside. It is rejected there, removing
it uncovers the outer binding, and a scope that is opened and closed leaves both frames alone. -/
theorem scope_discipline_shadowing :
    let s := base.after [.insert "x" 2, .push, .insert "x" 1]
    s.depth = 2 ∧ s.get? "x" = some 2 ∧
      (Request.insert "x" 3).run s = (.rejected 3, s) ∧
      (∃ t, (Request.remove "x").run s = (.removed (some 2), t) ∧ t.get? "x" = some 1) ∧
      s.after [.insert "y" 5, .pop, .insert "x" 4, .push] = s.bind "y" 5 := by
  intro s
  obtain ⟨⟨depth, -⟩, inserts, -, -, means, -, removed, balanced⟩ :=
    scope_discipline [.insert "x" 2, .push, .insert "x" 1]
  have found : s.get? "x" = some 2 :=
    (means "x" 2).mpr ⟨⟨2, 2, "x", 2⟩, by decide, rfl, rfl, by decide⟩
  refine ⟨depth, found, inserts "x" 3, ?_, ?_⟩
  · obtain ⟨-, -, -, t, -, -, -, ran, -⟩ := removed "x" 2 found
    obtain ⟨-, -, -, -, later, -⟩ :=
      scope_discipline [.remove "x", .insert "x" 2, .push, .insert "x" 1]
    have same : t = base.after [.remove "x", .insert "x" 2, .push, .insert "x" 1] :=
      (congrArg Prod.snd ran).symm
    refine ⟨t, ran, ?_⟩
    rw [same]
    exact (later "x" 1).mpr ⟨⟨0, 1, "x", 1⟩, by decide, rfl, rfl, by decide⟩
  · exact (balanced [.insert "y" 5, .pop, .insert "x" 4, .push] rfl).1

end TreeScript.ScopeStack
