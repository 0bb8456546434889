/-!
# Scopes

A stack of frames that bind names. A name means its innermost binding, and a frame binds a name
once. There is always a base frame.
-/
namespace TreeScript

/-- The bindings of one frame; no name occurs twice. -/
abbrev Frame (α : Type) := List (String × α)

structure ScopeStack (α : Type) where
  /-- The innermost frame. -/
  top : Frame α
  /-- The frames around it, from the inside out. -/
  below : List (Frame α)
  deriving Repr, Inhabited

namespace ScopeStack

variable {α : Type}

/-- Just the base frame, empty. -/
def base : ScopeStack α := ⟨[], []⟩

/-- All frames, from the inside out. -/
def frames (s : ScopeStack α) : List (Frame α) := s.top :: s.below

def depth (s : ScopeStack α) : Nat := s.frames.length

def push (s : ScopeStack α) : ScopeStack α := ⟨[], s.top :: s.below⟩

/-- Drops the innermost frame; the base frame is emptied and stays. -/
def pop (s : ScopeStack α) : ScopeStack α :=
  match s.below with
  | [] => base
  | frame :: rest => ⟨frame, rest⟩

/-- Whether the innermost frame binds the name. -/
def bindsOnTop (s : ScopeStack α) (name : String) : Bool := (s.top.lookup name).isSome

/-- Binds a name in the innermost frame. -/
def bind (s : ScopeStack α) (name : String) (item : α) : ScopeStack α :=
  { s with top := (name, item) :: s.top }

/-- Binds a name in the innermost frame. If the name is bound there already, the item is handed
back. -/
def insert (s : ScopeStack α) (name : String) (item : α) : Except α (ScopeStack α) :=
  if s.bindsOnTop name then .error item else .ok (s.bind name item)

/-- The innermost binding of a name. -/
def get? (s : ScopeStack α) (name : String) : Option α :=
  s.frames.findSome? (·.lookup name)

def contains (s : ScopeStack α) (name : String) : Bool := (s.get? name).isSome

/-- The frame without its binding of the name, and what was bound. -/
def removeFrom (name : String) : Frame α → Option (α × Frame α)
  | [] => none
  | (n, item) :: rest =>
    if n = name then some (item, rest)
    else (removeFrom name rest).map fun (found, rest) => (found, (n, item) :: rest)

/-- The frames without the innermost binding of the name, and what was bound. -/
def removeInner (name : String) : List (Frame α) → Option (α × List (Frame α))
  | [] => none
  | frame :: rest =>
    match removeFrom name frame with
    | some (found, frame) => some (found, frame :: rest)
    | none => (removeInner name rest).map fun (found, rest) => (found, frame :: rest)

/-- Removes the innermost binding of a name and gives what was bound. -/
def remove? (s : ScopeStack α) (name : String) : Option (α × ScopeStack α) :=
  match removeFrom name s.top with
  | some (found, top) => some (found, { s with top })
  | none => (removeInner name s.below).map fun (found, below) => (found, { s with below })

/-- Drops every frame but the base, and empties that. -/
def clear (_ : ScopeStack α) : ScopeStack α := base

@[simp] theorem pop_push (s : ScopeStack α) : s.push.pop = s := rfl

@[simp] theorem frames_push (s : ScopeStack α) : s.push.frames = [] :: s.frames := rfl

@[simp] theorem frames_bind (s : ScopeStack α) (name : String) (item : α) :
    (s.bind name item).frames = ((name, item) :: s.top) :: s.below := rfl

@[simp] theorem get?_base (name : String) : (base : ScopeStack α).get? name = none := rfl

@[simp] theorem get?_push (s : ScopeStack α) (name : String) : s.push.get? name = s.get? name := rfl

@[simp] theorem get?_bind_self (s : ScopeStack α) (name : String) (item : α) :
    (s.bind name item).get? name = some item := by
  simp [get?]

theorem get?_bind_of_ne (s : ScopeStack α) {name other : String} (item : α) (h : other ≠ name) :
    (s.bind name item).get? other = s.get? other := by
  simp [get?, frames, bind, List.findSome?_cons, List.lookup_cons, beq_false_of_ne h]

theorem insert_of_bindsOnTop {s : ScopeStack α} {name : String} (bound : s.bindsOnTop name = true)
    (item : α) : s.insert name item = .error item := if_pos bound

theorem insert_of_free {s : ScopeStack α} {name : String} (free : s.bindsOnTop name = false)
    (item : α) : s.insert name item = .ok (s.bind name item) :=
  if_neg (Bool.eq_false_iff.mp free)

end ScopeStack

end TreeScript
