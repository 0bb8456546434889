import TreeScript.Proofs.Calls.Bookkeeping

/-!
# How failures get out

A failure is raised bare, and what was live then is put on record with it. On its way out calls say
what is live, and expressions, statements and calls name their places. What is said once stays, so in
the end a failure tells of the point where it was raised.
-/
namespace TreeScript

/-- What is said of a failure stays, and more may be said. -/
structure Failure.Kept (e e' : Failure) : Prop where
  fault : e'.fault = e.fault
  span : ∀ s, e.span = some s → e'.span = some s
  backtrace : ∀ b, e.backtrace = some b → e'.backtrace = some b

namespace Failure

variable {e e' e'' : Failure}

theorem Kept.refl (e : Failure) : e.Kept e := ⟨rfl, fun _ h => h, fun _ h => h⟩

theorem Kept.trans (h : e.Kept e') (h' : e'.Kept e'') : e.Kept e'' where
  fault := h'.fault.trans h.fault
  span s hs := h'.span s (h.span s hs)
  backtrace b hb := h'.backtrace b (h.backtrace b hb)

theorem kept_locate (span : Span) (e : Failure) : e.Kept (e.locate span) := by
  obtain ⟨fault, place, calls⟩ := e
  cases place with
  | some s => exact .refl _
  | none =>
    rw [locate]
    dsimp only
    split
    · exact .refl _
    · exact ⟨rfl, nofun, fun _ h => h⟩

theorem kept_trace (calls : Backtrace) (e : Failure) : e.Kept (e.trace calls) := by
  obtain ⟨fault, place, recorded⟩ := e
  cases recorded with
  | some b => exact .refl _
  | none =>
    rw [trace]
    dsimp only
    split
    · exact .refl _
    · exact ⟨rfl, fun _ h => h, nofun⟩

/-- A tree without a source is no place. -/
theorem span_locate_ne (h : e.span ≠ some .synthetic) (span : Span) :
    (e.locate span).span ≠ some .synthetic := by
  rw [locate]
  split
  · exact h
  · split
    · exact h
    · rename_i real
      exact fun same => real (Option.some.inj same)

theorem span_trace (calls : Backtrace) (e : Failure) : (e.trace calls).span = e.span := by
  rw [trace]
  split
  · rfl
  · split <;> rfl

theorem backtrace_trace_of_none (h : e.backtrace = none) (frame : CallFrame) (calls : Backtrace) :
    (e.trace (frame :: calls)).backtrace = some (frame :: calls) := by
  rw [trace, h]
  rfl

end Failure

/-- To one who has these calls live, the failure tells of the point where it was raised. -/
structure Failure.Tells (e : Failure) (raised : Raised) (calls : CallStack) : Prop where
  fault : e.fault = raised.fault
  /-- What was live there are the calls and some inside them. Unless there were none inside them, the
  backtrace is all that was live, innermost first. -/
  traced : ∃ inner, raised.calls = inner ++ calls.frames ∧
    e.backtrace = if inner = [] then none else some raised.calls
  room : ∀ limit, calls.limit = some limit → calls.depth ≤ limit → raised.calls.length ≤ limit
  placed : e.span ≠ some .synthetic

namespace Failure.Tells

variable {e : Failure} {raised : Raised} {calls : CallStack}

/-- A failure that has just been raised says what went wrong, and nothing else. -/
theorem ofFault (fault : Fault) (calls : CallStack) :
    (Failure.ofFault fault).Tells ⟨fault, calls.frames⟩ calls where
  fault := rfl
  traced := ⟨[], rfl, rfl⟩
  room _ _ h := h
  placed := nofun

theorem locate (h : e.Tells raised calls) (span : Span) : (e.locate span).Tells raised calls where
  fault := (e.kept_locate span).fault.trans h.fault
  traced := by
    rw [e.backtrace_locate span]
    exact h.traced
  room := h.room
  placed := e.span_locate_ne h.placed span

/-- A call that a failure gets out of is named last among the calls inside the caller. -/
theorem called {name : String} {place : Option Span} {inside : CallStack}
    (pushed : calls.push ⟨name, place⟩ = .ok inside) (h : e.Tells raised inside) :
    (inside.attach e).Tells raised calls := by
  obtain ⟨rfl, free⟩ := CallStack.of_push pushed
  obtain ⟨inner, split, recorded⟩ := h.traced
  have last : inner ++ [⟨name, place⟩] ≠ [] := List.append_ne_nil_of_right_ne_nil _ nofun
  refine ⟨(e.kept_trace _).fault.trans h.fault, ?_,
    fun limit has _ => h.room limit has (free limit has), ?_⟩
  · refine ⟨inner ++ [⟨name, place⟩], by simpa using split, ?_⟩
    rw [if_neg last, CallStack.attach]
    by_cases none : inner = []
    · rw [if_pos none] at recorded
      rw [e.backtrace_trace_of_none recorded, split, none, List.nil_append]
    · rw [if_neg none] at recorded
      exact (e.kept_trace _).backtrace raised.calls recorded
  · rw [CallStack.attach, e.span_trace]
    exact h.placed

end Failure.Tells

/-- The failure that a run stops with, and how it was raised. -/
def Stop.failure? : Stop → Option (Failure × Raised)
  | failed e raised => some (e, raised)
  | panicked .. | outOfFuel => none

namespace Run

variable {α β : Type} {x : Run α}

/-- The failure that a run ends with, and how it was raised. -/
def failure? (x : Run α) (m : Machine) : Option (Failure × Raised) :=
  match x m with
  | .ok .. => none
  | .error stop _ => stop.failure?

theorem failure?_ensuring (x : Run α) (undo : Machine → Machine) (m : Machine) :
    (x.ensuring undo).failure? m = x.failure? m := by
  rw [failure?, failure?, ensuring]
  cases x m <;> rfl

theorem failure?_mapFailure (x : Run α) (g : Machine → Failure → Failure) (m : Machine) :
    (x.mapFailure g).failure? m =
      (x.failure? m).map fun (e, raised) => (g (x.after m) e, raised) := by
  rw [failure?, failure?, mapFailure, after]
  cases x m with
  | ok => rfl
  | error stop => cases stop <;> rfl

/-- The run leaves the calls as they were, and when it fails, its failure tells of the point where it
was raised. -/
def Reports (x : Run α) : Prop :=
  ∀ m, (x.after m).calls = m.calls ∧
    ∀ e raised, x.failure? m = some (e, raised) → e.Tells raised m.calls

namespace Reports

/-- A run that never fails. -/
theorem never (calls : ∀ m, (x.after m).calls = m.calls) (h : ∀ m, x.failure? m = none) :
    Reports x :=
  fun m => ⟨calls m, fun _ _ fails => nomatch (h m).symm.trans fails⟩

theorem quiet (h : ∀ m, ∃ a m', x m = .ok a m' ∧ m'.calls = m.calls) : Reports x := by
  refine never (fun m => ?_) fun m => ?_ <;> obtain ⟨a, m', ran, calls⟩ := h m
  · rw [after, ran]
    exact calls
  · rw [failure?, ran]

/-- An operation that leaves the calls alone, and can only fail on the machine that it begins on. -/
theorem operation (h : ∀ m, ∃ m', ((∃ a, x m = .ok a m') ∨
    ∃ fault, x m = .error (m.raised fault) m') ∧ m'.calls = m.calls) : Reports x := by
  intro m
  obtain ⟨m', ⟨a, ran⟩ | ⟨fault, ran⟩, calls⟩ := h m
  · rw [after, failure?, ran]
    refine ⟨calls, fun _ _ fails => ?_⟩
    cases fails
  · rw [after, failure?, ran]
    refine ⟨calls, fun e raised same => ?_⟩
    cases same
    exact .ofFault fault m.calls

theorem raise (fault : Fault) : Reports (Run.raise fault : Run α) :=
  operation fun m => ⟨m, .inr ⟨fault, rfl⟩, rfl⟩

/-- Changing something else than the calls. -/
theorem changing (f : Machine → Machine) (same : ∀ m, (f m).calls = m.calls) :
    Reports (modify f : Run Unit) :=
  quiet fun m => ⟨(), f m, rfl, same m⟩

theorem peek (g : Machine → α) : Reports (Run.peek g) := quiet fun m => ⟨g m, m, rfl, rfl⟩

/-- Going on with what a run gives. -/
theorem after_ran {k : α → Run β} (hx : Reports x)
    (hk : ∀ m a m', x m = .ok a m' → Reports (k a)) : Reports (x >>= k) := by
  intro m
  obtain ⟨calls, tells⟩ := hx m
  cases ran : x m with
  | ok a m₁ =>
    rw [after, ran] at calls
    obtain ⟨calls', tells'⟩ := hk m a m₁ ran m₁
    rw [after_bind_ok k ran, failure?, bind_apply, ran]
    exact ⟨calls'.trans calls, calls ▸ tells'⟩
  | error stop m₁ =>
    rw [after_bind_error k ran, failure?, bind_apply, ran]
    rw [after, ran] at calls
    rw [failure?, ran] at tells
    exact ⟨calls, tells⟩

theorem bind {k : α → Run β} (hx : Reports x) (hk : ∀ a, Reports (k a)) : Reports (x >>= k) :=
  hx.after_ran fun _ a _ _ => hk a

theorem locating (span : Span) (h : Reports x) : Reports (locating span x) := by
  intro m
  obtain ⟨calls, tells⟩ := h m
  rw [Run.locating, after_mapFailure, failure?_mapFailure]
  refine ⟨calls, fun e raised fails => ?_⟩
  obtain ⟨⟨e₀, raised₀⟩, fails, same⟩ := Option.map_eq_some_iff.mp fails
  cases same
  exact (tells e₀ raised fails).locate span

theorem ensuring (undo : Machine → Machine) (same : ∀ m, (undo m).calls = m.calls)
    (h : Reports x) : Reports (x.ensuring undo) := by
  intro m
  obtain ⟨calls, tells⟩ := h m
  rw [after_ensuring, failure?_ensuring]
  exact ⟨(same _).trans calls, tells⟩

theorem holding (holds : List Hold) (h : Reports x) : Reports (holding holds x) := by
  intro m
  exact h.ensuring (fun after => { after with held := m.held }) (fun _ => rfl)
    { m with held := holds ++ m.held }

theorem inCall (name : String) (span : Span) (h : Reports x) : Reports (inCall name span x) := by
  intro m
  rw [after, failure?, inCall_apply]
  cases pushed : m.calls.push ⟨name, some span⟩ with
  | error fault =>
    -- there is no room for the call, so it is the caller that fails
    refine ⟨rfl, fun e raised same => ?_⟩
    cases same
    exact .ofFault fault m.calls
  | ok inside =>
    obtain ⟨kept, tells⟩ := h { m with calls := inside }
    let named := x.mapFailure fun m e => (m.calls.attach e).locate span
    show ((named.ensuring _).after _).calls = _ ∧
      ∀ e raised, (named.ensuring _).failure? _ = some (e, raised) → _
    rw [after_ensuring, after_mapFailure, failure?_ensuring, failure?_mapFailure, kept]
    refine ⟨CallStack.pop_of_push pushed, fun e raised fails => ?_⟩
    obtain ⟨⟨e₀, raised₀⟩, fails, same⟩ := Option.map_eq_some_iff.mp fails
    cases same
    exact ((tells e₀ raised fails).called pushed).locate span

end Reports

end Run

end TreeScript
