import TreeScript.Proofs.Run.Logic

/-!
# Rounds of calls

A run that makes one call for each of some items goes in rounds. A round begins on the machine that
the one before left; only what is held may differ. The run comes out with what all rounds give, or
stops at the first call that fails.
-/
namespace TreeScript

/-- The machines are the same but for what work in progress holds. -/
def Machine.SameButHeld (m n : Machine) : Prop := ∃ held, n = { m with held }

namespace Machine.SameButHeld

variable {m n k : Machine}

theorem refl (m : Machine) : m.SameButHeld m := ⟨m.held, rfl⟩

theorem holds (m : Machine) (held : List Hold) : m.SameButHeld { m with held } := ⟨held, rfl⟩

theorem trans (h : m.SameButHeld n) (h' : n.SameButHeld k) : m.SameButHeld k := by
  obtain ⟨held, rfl⟩ := h
  obtain ⟨held', rfl⟩ := h'
  exact ⟨held', rfl⟩

end Machine.SameButHeld

/-- A call for an item: the machine that it ran on, what it gave, and the machine that it left. -/
structure Round where
  item : Value
  before : Machine
  result : Value
  after : Machine

namespace Round

/-- The call gave a true value. -/
def passes (r : Round) : Bool := r.result.truthy r.after.handles

/-- The items whose calls gave a true value, in order. -/
def kept (rounds : List Round) : List Value := (rounds.filter passes).map item

/-- What the last of the rounds gave, or something else before there was any. -/
def lastGiven : Value → List Round → Value
  | first, [] => first
  | _, r :: rounds => lastGiven r.result rounds

/-- The machine that the last of the rounds left. -/
def machineLeft : Machine → List Round → Machine
  | m, [] => m
  | _, r :: rounds => machineLeft r.after rounds

theorem kept_cons (r : Round) (rounds : List Round) :
    kept (r :: rounds) = if r.passes then r.item :: kept rounds else kept rounds := by
  rw [kept, List.filter_cons]
  split <;> rfl

theorem kept_sublist (rounds : List Round) : (kept rounds).Sublist (rounds.map item) :=
  List.filter_sublist.map item

end Round

/-- Rounds that went well, one after the other. Each call gets what the one before gave, and its
machine is the one that the call before left. -/
inductive Rounds (call : Value → Value → Run Value) : Value → Machine → List Round → Prop
  | none {last : Value} {m : Machine} : Rounds call last m []
  | next {last : Value} {m : Machine} {r : Round} {rounds : List Round}
    (same : m.SameButHeld r.before) (ran : call last r.item r.before = .ok r.result r.after)
    (rest : Rounds call r.result r.after rounds) : Rounds call last m (r :: rounds)

theorem Rounds.sameButHeld {call : Value → Value → Run Value} {last : Value} {m n : Machine}
    {rounds : List Round} (same : m.SameButHeld n) (h : Rounds call last n rounds) :
    Rounds call last m rounds := by
  cases h with
  | none => exact .none
  | next began ran rest => exact .next (same.trans began) ran rest

/-- How a run comes out that makes one call for each of the items. If all rounds went well, it gives
what they make up; otherwise it stops as the first call that fails. It leaves the machine that the
last call left. -/
inductive Visits {α : Type} (call : Value → Value → Run Value) (first : Value) (items : List Value)
    (gives : List Round → α → Prop) (m : Machine) : EStateM.Result Stop Machine α → Prop
  | finished {rounds : List Round} {a : α} {m' : Machine} (ran : Rounds call first m rounds)
    (all : rounds.map Round.item = items) (given : gives rounds a)
    (left : (Round.machineLeft m rounds).SameButHeld m') : Visits call first items gives m (.ok a m')
  | stopped {rounds : List Round} {item : Value} {rest : List Value} {stop : Stop}
    {m₁ m₂ m' : Machine} (ran : Rounds call first m rounds)
    (reached : rounds.map Round.item ++ item :: rest = items)
    (began : (Round.machineLeft m rounds).SameButHeld m₁)
    (stops : call (Round.lastGiven first rounds) item m₁ = .error stop m₂)
    (left : m₂.SameButHeld m') : Visits call first items gives m (.error stop m')

namespace Visits

variable {α β : Type} {call : Value → Value → Run Value} {first v : Value} {items : List Value}
  {gives : List Round → α → Prop} {m : Machine}

theorem nil {a : α} (given : gives [] a) : Visits call first [] gives m (.ok a m) :=
  .finished .none rfl given (.refl m)

/-- The first round, and what goes on with its result. -/
theorem cons {k : Value → Run α}
    (rest : ∀ result m₁, Visits call result items
      (fun rounds => gives (⟨v, m, result, m₁⟩ :: rounds)) m₁ (k result m₁)) :
    Visits call first (v :: items) gives m ((call first v >>= k) m) := by
  rw [Run.bind_apply]
  cases called : call first v m with
  | error stop m₁ =>
    exact .stopped .none rfl (.refl m) called (.refl m₁)
  | ok result m₁ =>
    show Visits _ _ _ _ _ (k result m₁)
    have others := rest result m₁
    generalize k result m₁ = out at others
    let r : Round := ⟨v, m, result, m₁⟩
    have onward {rounds : List Round} (ran : Rounds call result m₁ rounds) :
        Rounds call first m (r :: rounds) := .next (.refl m) called ran
    cases others with
    | finished ran all given left =>
      exact .finished (onward ran) (congrArg (v :: ·) all) given left
    | stopped ran reached began stops left =>
      exact .stopped (onward ran) (congrArg (v :: ·) reached) began stops left

/-- What the run makes of its result touches no machine. -/
theorem returns {x : Run α} {g : α → β} {gives' : List Round → β → Prop}
    (h : Visits call first items gives m (x m))
    (given : ∀ rounds a, rounds.map Round.item = items → gives rounds a → gives' rounds (g a)) :
    Visits call first items gives' m ((x >>= fun a => pure (g a)) m) := by
  rw [Run.bind_apply]
  generalize x m = out at h
  cases h with
  | finished ran all gave left => exact .finished ran all (given _ _ all gave) left
  | stopped ran reached began stops left => exact .stopped ran reached began stops left

theorem holding {holds : List Hold} {x : Run α}
    (h : Visits call first items gives { m with held := holds ++ m.held }
      (x { m with held := holds ++ m.held })) :
    Visits call first items gives m (Run.holding holds x m) := by
  have same : m.SameButHeld { m with held := holds ++ m.held } := .holds m _
  have back (rounds : List Round) : (Round.machineLeft m rounds).SameButHeld
      (Round.machineLeft { m with held := holds ++ m.held } rounds) := by
    cases rounds with
    | nil => exact same
    | cons r rounds => exact .refl _
  rw [Run.holding, Run.ensuring]
  generalize x { m with held := holds ++ m.held } = out at h
  cases h with
  | finished ran all given left =>
    exact .finished (ran.sameButHeld same) all given ((back _).trans (left.trans (.holds _ _)))
  | stopped ran reached began stops left =>
    exact .stopped (ran.sameButHeld same) reached ((back _).trans began) stops
      (left.trans (.holds _ _))

end Visits

end TreeScript
