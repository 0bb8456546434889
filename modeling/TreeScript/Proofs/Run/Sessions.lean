import TreeScript.Proofs.Run.Accounts
import TreeScript.Proofs.Run.Work

/-!
# Sessions under account

A session that is handed no value from elsewhere is followed by one ledger of all of its store.
-/
namespace TreeScript

variable {config : Config} {fuel : Nat} {start : Store} {w w' : Ledger .all start} {m : Machine}

namespace Work

variable {work : Work} {P : CtxId → Machine → Prop}

/-- The work names only contexts that are there. -/
def Grounded (work : Work) (m : Machine) : Prop := ∀ c ∈ work.contexts, c < m.store.graph.size

/-- A session's ledger knows all that the work begins with. -/
theorem Grounded.begins (h : work.Grounded m) (hm : m.store = w.store) :
    (∀ c ∈ work.places, Region.all.Ctx w.store c) ∧ w.Fits (.ofValues work.values) := by
  obtain ⟨places, values⟩ := Work.forall_contexts.mp fun c hc =>
    show Region.all.Ctx w.store c from ⟨Nat.zero_le c, hm ▸ h c hc⟩
  exact ⟨places, Names.fit_ofValues.mpr values⟩

theorem reaches (h : work.Grounded m) (hm : m.store = w.store) :
    w.Reaches (work.after config fuel m).store :=
  work.tracked.reaches hm (h.begins hm).1 (h.begins hm).2

/-- What holds of every machine that a ledger on the way through the work is for holds at every
moment of it. -/
theorem throughout_of_ledgers (h : work.Grounded m) (hm : m.store = w.store)
    (hP : ∀ c m₁ w₁ w', w.Next w₁ → w₁.Next w' → m₁.store = w₁.store →
      (work.after config fuel m).store = w'.store → P c m₁) :
    Throughout config fuel P work.run m :=
  work.tracked.throughout hm (h.begins hm).1 (h.begins hm).2 hP

end Work

theorem Region.closed_empty : Region.all.Closed Store.empty where
  contexts _ _ _ h := by cases h
  values i hi := absurd hi.2 (Nat.not_lt_zero i)

/-- A ledger for all of a store that nothing has been done to. -/
def Ledger.beginAll (closed : Region.all.Closed start) : Ledger .all start :=
  .begin _ _ (Nat.zero_le _) (Nat.zero_le _) closed

namespace Session

variable {s t : Session}

/-- A step of a session that is handed nothing from elsewhere: a closure that is called back, and
the values that it is called with, name only contexts that are there. -/
inductive GroundedStep : Session → Session → Prop where
  | source (s : Session) (text : String) : GroundedStep s (s.setSource text)
  | batch (s : Session) (p : Program) : GroundedStep s (s.runProgram p).2
  | file (s : Session) (parse : String → Except String Program) (path : String) :
      GroundedStep s (s.runFile parse path).2
  | line (s : Session) (stmt : Stmt) : GroundedStep s (s.runLine stmt).2
  | callback (s : Session) {closure : Closure} {args : List Value} (span : Span)
      (grounded : (Work.callback closure args span).Grounded s.machine) :
      GroundedStep s
        { s with machine := (Run.closure s.config s.fuel closure args span).after s.machine }

/-- A session that has been started, and used with nothing from elsewhere. -/
def GroundedReachable (config : Config) (fuel : Nat) (m : Machine) : Session → Prop :=
  Relation.ReflTransGen GroundedStep (Session.start config fuel m)

theorem GroundedStep.stepIf (step : GroundedStep s t) :
    StepIf (fun s work => work.Grounded s.machine) s t := by
  cases step with
  | source text => exact .source s text
  | batch p => exact .batch s p
  | file parse path => exact .file s parse path
  | line stmt => exact .line s stmt
  | callback span grounded => exact .callback s grounded

/-- What a session does by itself names its World alone. -/
theorem MayDo.grounded {work : Work} (may : s.MayDo work) (bare : work.values = [])
    (hw : s.WorldThere) : work.Grounded s.machine := by
  cases work with
  | expr | stmt => exact may.elim
  | batch | line =>
    intro c hc
    rw [List.mem_singleton.mp hc, show _ = s.world from may]
    exact hw
  | callback => cases bare

theorem GroundedStep.used (step : GroundedStep s t) (hw : s.WorldThere) :
    UsedFor (fun work => s.MayDo work ∧ work.Grounded s.machine) s t :=
  step.stepIf.used fun _ may bare => may.grounded bare hw

theorem GroundedStep.worldThere (step : GroundedStep s t) (hw : s.WorldThere) : t.WorldThere :=
  UsedFor.worldThere ((step.used hw).mono fun _ h => h.1) hw

theorem GroundedStep.reaches (step : GroundedStep s t) (hw : s.WorldThere)
    (hs : s.machine.store = w.store) : w.Reaches t.machine.store := by
  rcases (step.used hw).machine with same | ⟨work, ⟨-, grounded⟩, left⟩
  · rw [same, hs]
    exact .refl w
  · rw [left]
    exact Work.reaches grounded hs

/-- One ledger follows a session through all that it is used for. -/
theorem reaches_of_steps (h : Relation.ReflTransGen GroundedStep s t) (hw : s.WorldThere)
    (hs : s.machine.store = w.store) : w.Reaches t.machine.store ∧ t.WorldThere := by
  induction h with
  | refl => exact ⟨hs ▸ .refl w, hw⟩
  | tail _ step ih =>
    obtain ⟨reached, there⟩ := ih
    exact ⟨reached.andThen fun w' _ same => step.reaches there same.symm, step.worldThere there⟩

theorem GroundedReachable.ledger (h : GroundedReachable config fuel m s)
    (closed : Region.all.Closed m.store) :
    (∃ w : Ledger .all m.store, s.machine.store = w.store) ∧ s.WorldThere := by
  have started : (Ledger.beginAll closed).Reaches (Session.start config fuel m).machine.store :=
    (Ledger.beginAll closed).addContext (by rintro _ ⟨⟩) ⟨rfl, rfl⟩
  obtain ⟨w₁, -, same⟩ := started
  obtain ⟨⟨w₂, -, same⟩, there⟩ :=
    reaches_of_steps h (worldThere_start config fuel m) same.symm
  exact ⟨⟨w₂, same.symm⟩, there⟩

end Session

end TreeScript
