import TreeScript.Proofs.Run.Balance

/-!
# The moments of a run

A run passes through many machines before it ends. They are observed at the beginning and at the
end of every expression and statement, however it ends. What holds at all these moments is what no
observer ever sees fail.
-/
namespace TreeScript

variable {f : Footprint} {n : Nat} {m m₀ : Machine} {α : Type}

namespace Run

/-- Runs something and goes on however it ended. -/
def attempt (x : Run α) : Run (Except Stop α) := fun m =>
  match x m with
  | .ok a m => .ok (.ok a) m
  | .error stop m => .ok (.error stop) m

/-- Ends the way that something ended. -/
def finish : Except Stop α → Run α
  | .ok a => pure a
  | .error stop => fun m => .error stop m

/-- Runs with an observer at the beginning and at the end. -/
def watching (watch : Run Unit) (x : Run α) : Run α := do
  watch
  let result ← attempt x
  watch
  finish result

theorem watching_apply {watch : Run Unit} {x : Run α} (before : watch m = .ok () m)
    (behind : watch (x.after m) = .ok () (x.after m)) : watching watch x m = x m := by
  rw [watching, bind_apply, before]
  dsimp only
  rw [bind_apply]
  cases hx : x m <;>
  · simp only [after, hx] at behind
    simp only [attempt, hx]
    rw [bind_apply, behind]
    rfl

/-- An observer who stops the run as soon as he sees something. -/
def alarm (sees : Machine → Bool) : Run Unit := fun m =>
  if sees m then .error .outOfFuel m else .ok () m

/-- The run stops for want of fuel. -/
def runsOut (x : Run α) (m : Machine) : Bool :=
  match x m with
  | .error .outOfFuel _ => true
  | _ => false

/-- What a run stops with, if it gives no result. -/
def stop? (x : Run α) (m : Machine) : Option Stop :=
  match x m with
  | .ok .. => none
  | .error stop _ => some stop

/-- What holds of a run that stops holds of the machine that it leaves. -/
theorem Ends.after_stop {x : Run α} {p : α → Machine → Prop} {q : Machine → Prop}
    (h : Ends x m p q) (stops : x.stop? m ≠ none) : q (x.after m) := by
  rw [Ends] at h
  rw [stop?] at stops
  rw [after]
  cases hx : x m with
  | ok a m' =>
    rw [hx] at stops
    exact absurd rfl stops
  | error stop m' =>
    rw [hx] at h
    exact h

/-- Observers that do nothing on the machines that a run passes through change nothing. -/
theorem AgreeAfter.watching {Q : Machine → Prop} {watch : Run Unit} {x y : Run α}
    (hw : ∀ m', Q m' → watch m' = .ok () m') (h : AgreeAfter Q n m₀ f x y) :
    AgreeAfter Q n m₀ f (watching watch x) y := by
  intro m hm hin
  have first := h m hm hin
  refine ⟨fun always => ?_, first.later, first.kept⟩
  have same := first.same always
  have hx : x.after m = y.after m := by simp only [Run.after, same]
  rw [watching_apply (hw m (always m .refl first.later)) (hw _ ?_), same]
  rw [hx]
  exact always _ first.later .refl

end Run

/-- The evaluator of the language with an observer, who is told the context. -/
def watched (config : Config) (watch : CtxId → Run Unit) : Nat → Evaluator
  | 0 => ⟨0, fun _ _ => Run.outOfFuel, fun _ _ => Run.outOfFuel⟩
  | n + 1 =>
    ⟨n + 1, fun e c => Run.watching (watch c) (Eval.expr config (watched config watch n) e c),
      fun s c => Run.watching (watch c) (Eval.stmt config (watched config watch n) s c)⟩

/-- At every moment of a run `P` holds of the context and the machine: no observer who does nothing
where `P` holds makes a difference. -/
def Throughout (config : Config) (fuel : Nat) (P : CtxId → Machine → Prop)
    (run : Evaluator → Run α) (m : Machine) : Prop :=
  ∀ watch : CtxId → Run Unit, (∀ c m, P c m → watch c m = .ok () m) →
    run (watched config watch fuel) m = run (evaluator config fuel) m

/-- At some moment of a run `P` holds of the context and the machine. -/
def Sometime (config : Config) (fuel : Nat) (P : CtxId → Machine → Prop)
    (run : Evaluator → Run α) (m : Machine) : Prop :=
  ¬Throughout config fuel (fun c m' => ¬P c m') run m

variable {config : Config} {fuel : Nat} {P Q : CtxId → Machine → Prop} {run : Evaluator → Run α}

namespace Throughout

theorem mono (h : Throughout config fuel P run m) (hPQ : ∀ c m, P c m → Q c m) :
    Throughout config fuel Q run m :=
  fun watch hw => h watch fun c m hP => hw c m (hPQ c m hP)

/-- What holds throughout a run that is observed at its beginning holds there. -/
theorem begins {c : CtxId} {x : (CtxId → Run Unit) → Run α}
    (observed : ∀ watch, run (watched config watch fuel) = Run.watching (watch c) (x watch))
    (h : Throughout config fuel P run m) : P c m := by
  classical
  refine Decidable.byContradiction fun hP => ?_
  -- an observer who stops the run here may choose how it ends
  have stopped (stop : Stop) : run (evaluator config fuel) m = .error stop m := by
    let watch (c' : CtxId) : Run Unit := fun m' => if P c' m' then .ok () m' else .error stop m'
    rw [← h watch fun c' m' hc => if_pos hc, observed, Run.watching, Run.bind_apply]
    simp only [watch, if_neg hP]
  cases (stopped .outOfFuel).symm.trans (stopped (.panicked 0 .unit))

theorem begins_expr {e : Expr} {c : CtxId} (h : Throughout config (fuel + 1) P (·.expr e c) m) :
    P c m := h.begins fun _ => rfl

theorem begins_stmt {s : Stmt} {c : CtxId} (h : Throughout config (fuel + 1) P (·.stmt s c) m) :
    P c m := h.begins fun _ => rfl

end Throughout

/-- An alarm that only `P` sets off, and that makes a difference. -/
theorem Sometime.of_alarm (sees : CtxId → Machine → Bool) (hP : ∀ c m, sees c m = true → P c m)
    (rings : (run (watched config (fun c => Run.alarm (sees c)) fuel)).runsOut m ≠
      (run (evaluator config fuel)).runsOut m) : Sometime config fuel P run m := by
  intro h
  refine rings ?_
  rw [Run.runsOut, Run.runsOut, h _ fun c m' hc => ?_]
  exact if_neg fun seen => hc (hP c m' seen)

/-- A tracking relates the evaluator with an observer to the evaluator, if it does not mind the
observer in the contexts that are kept. -/
theorem Run.Tracking.watched_relates {T : Tracking} (loads : T.Loads config)
    (watch : CtxId → Run Unit) (hw : ∀ {w : T.World} {f : Footprint} {c : CtxId} {α : Type}
      {ν : α → Names} {x y : Run α}, T.Kept w c → T.Rel w f ν x y →
        T.Rel w f ν (watching (watch c) x) y) :
    ∀ fuel, T.Relates (watched config watch fuel) (evaluator config fuel)
  | 0 => ⟨rfl, fun _ _ _ _ => T.outOfFuel, fun _ _ _ _ => of_clean T.outOfFuel⟩
  | fuel + 1 => by
    have parts := watched_relates loads watch hw fuel
    exact ⟨rfl, fun _ e _ hc => hw hc (expr parts config e hc),
      fun _ s _ hc => hw hc (names_of_footprint (stmt parts loads s hc))⟩

theorem Run.Logic.watched_relates {Q : Machine → Prop} (config : Config) {watch : CtxId → Run Unit}
    (hn : n ≤ m₀.store.graph.size) (hw : ∀ c m', Q m' → watch c m' = .ok () m') (fuel : Nat) :
    (Logic.afterIf Q n m₀ hn).Relates (watched config watch fuel) (evaluator config fuel) :=
  .of_tracked <| Tracking.watched_relates (T := (Logic.afterIf Q n m₀ hn).tracking) trivial watch
    (fun _ h => AgreeAfter.watching (hw _) h) fuel

/-- A run that every logic of runs respects, with the footprint. -/
def Run.Logical (f : Footprint) (run : Evaluator → Run α) : Prop :=
  ∀ (L : Run.Logic) {ev₁ ev₂ : Evaluator}, L.Relates ev₁ ev₂ → L.Rel f (run ev₁) (run ev₂)

/-- A run that every tracking respects, with the footprint, if it may begin: the contexts that its
code runs in are kept, and all that it names is in hand. What it gives names what `ν` says. -/
def Run.Tracked (f : Footprint) (kept : List CtxId) (names : Names) (ν : α → Names)
    (run : Evaluator → Run α) : Prop :=
  ∀ (T : Run.Tracking) (w : T.World) {ev₁ ev₂ : Evaluator}, T.Relates ev₁ ev₂ →
    (∀ c ∈ kept, T.Kept w c) → T.Fits w names → T.Rel w f ν (run ev₁) (run ev₂)

theorem Run.Tracked.logical {kept : List CtxId} {names : Names} {ν : α → Names}
    {run : Evaluator → Run α} (h : Run.Tracked f kept names ν run) : Run.Logical f run :=
  fun L _ _ related => h L.tracking () related.tracked (fun _ _ => trivial) (Names.fit_anything _)

/-- What holds of every machine on the way from one to the machine that a run leaves holds at every
moment of the run. -/
theorem Throughout.of_between {config : Config} {fuel : Nat} {P : CtxId → Machine → Prop}
    {run : Evaluator → Run α} (hn : n ≤ m.store.graph.size) (hf : f.Within n m)
    (hrun : Run.Logical f run)
    (hP : ∀ c, m.Always n (P c) ((run (evaluator config fuel)).after m)) :
    Throughout config fuel P run m := by
  intro watch hwatch
  have related := Run.Logic.watched_relates (Q := fun m' => ∀ c, P c m') config hn
    (fun c m' hQ => hwatch c m' (hQ c)) fuel
  exact (hrun _ related m .refl hf).same fun m' from_ to_ c => hP c m' from_ to_

/-- What holds of every machine that a run can get to holds at every moment of it. -/
theorem Throughout.of_later {config : Config} {fuel : Nat} {P : CtxId → Machine → Prop}
    {run : Evaluator → Run α} (hn : n ≤ m.store.graph.size) (hf : f.Within n m)
    (hrun : Run.Logical f run) (hP : ∀ c m', m.Later n m' → P c m') :
    Throughout config fuel P run m :=
  .of_between hn hf hrun fun c m' later _ => hP c m' later

end TreeScript
