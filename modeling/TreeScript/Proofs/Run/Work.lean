import TreeScript.Proofs.Run.Moment
import TreeScript.Session

/-!
# Work

What is done with a machine from outside: an expression or a statement in a context, a batch or a
line of a session, a call of a closure. A session is used by one piece of work after another.
-/
namespace TreeScript

/-- A piece of work. -/
inductive Work where
  | expr (e : Expr) (c : CtxId)
  | stmt (s : Stmt) (c : CtxId)
  | batch (p : Program) (world : CtxId)
  | line (s : Stmt) (world : CtxId)
  | callback (closure : Closure) (args : List Value) (span : Span)

namespace Work

variable {config : Config} {fuel n : Nat} {m : Machine}

/-- Does the work, and drops its result. -/
def run (work : Work) (ev : Evaluator) : Run Unit :=
  match work with
  | expr e c => do let _ ← ev.expr e c
  | stmt s c => do let _ ← ev.stmt s c
  | batch p world => Run.holding [.context world] (Eval.program ev world p)
  | line s world => do let _ ← Run.holding [.context world] (ev.stmt s world)
  | callback closure args span => do let _ ← Eval.callback ev span closure args

/-- The machine that the work leaves. -/
def after (config : Config) (fuel : Nat) (work : Work) (m : Machine) : Machine :=
  (work.run (evaluator config fuel)).after m

/-- What the work may do to scopes. -/
def footprint : Work → Footprint
  | stmt _ c | batch _ c | line _ c => .names c
  | expr .. | callback .. => .clean

/-- The context that the work may declare names in is there. -/
def There (work : Work) (m : Machine) : Prop :=
  ∀ c, work.footprint.context? = some c → c < m.store.graph.size

theorem There.within {work : Work} (h : work.There m) : work.footprint.Within 0 m :=
  fun c hc => ⟨Nat.zero_le c, h c hc⟩

/-- The contexts that the work names. -/
def contexts : Work → List CtxId
  | expr _ c | stmt _ c | batch _ c | line _ c => [c]
  | callback closure args _ => closure.captured :: contextsOfItems args

/-- The contexts that the code of the work runs in. -/
def places : Work → List CtxId
  | expr _ c | stmt _ c | batch _ c | line _ c => [c]
  | callback .. => []

/-- The values that the work begins with. -/
def values : Work → List Value
  | callback closure args _ => .closure closure :: args
  | _ => []

theorem forall_contexts {work : Work} {P : CtxId → Prop} :
    (∀ c ∈ work.contexts, P c) ↔ (∀ c ∈ work.places, P c) ∧ ∀ v ∈ work.values, v.Within P := by
  cases work with
  | expr | stmt | batch | line => exact ⟨fun h => ⟨h, nofun⟩, fun h => h.1⟩
  | callback closure args span =>
    rw [contexts, List.forall_mem_cons, values, List.forall_mem_cons]
    exact ⟨fun h => ⟨nofun, Value.within_closure.mpr h.1, Value.within_list.mp h.2⟩,
      fun h => ⟨Value.within_closure.mp h.2.1, Value.within_list.mpr h.2.2⟩⟩

theorem tracked (work : Work) :
    Run.Tracked work.footprint work.places (.ofValues work.values) (fun _ => .none) work.run := by
  intro T w ev₁ ev₂ h kept fits
  cases work with
  | expr e c =>
    refine T.bind (h.expr w e c (kept c List.mem_cons_self)) fun _ _ _ _ => ?_
    exact T.pure _ Names.fit_none
  | stmt s c =>
    refine T.bind (h.stmt w s c (kept c List.mem_cons_self)) fun _ _ _ _ => ?_
    exact Run.Tracking.ret Names.fit_none
  | batch p world =>
    have hw := kept world List.mem_cons_self
    exact Run.Tracking.during (List.forall_mem_singleton.mpr hw)
      (Run.Tracking.program h p (Run.Tracking.kept_enter _ hw))
  | line s world =>
    have hw := kept world List.mem_cons_self
    have line := h.stmt _ s world (Run.Tracking.kept_enter [.context world] hw)
    refine T.bind (Run.Tracking.during (List.forall_mem_singleton.mpr hw) line) fun _ _ _ _ => ?_
    exact Run.Tracking.ret Names.fit_none
  | callback closure args span =>
    obtain ⟨hc, ha⟩ := List.forall_mem_cons.mp (Names.fit_ofValues.mp fits)
    refine T.bind (Run.Tracking.callback h span w closure args hc ha) fun _ _ _ _ => ?_
    exact Run.Tracking.ret Names.fit_none

theorem agree {work : Work} (h : work.There m) :
    Run.Agree work.footprint 0 (work.run (evaluator config fuel))
      (work.run (evaluator config fuel)) m :=
  Run.agree_of_rel (work.tracked.logical _ (Run.Logic.evaluator_relates _ config fuel)) h

theorem later {work : Work} (h : work.There m) : m.Later 0 (work.after config fuel m) :=
  (agree h).later

/-- What holds of every machine on the way through the work holds at every moment of it. -/
theorem throughout {work : Work} {P : CtxId → Machine → Prop} (h : work.There m)
    (hP : ∀ c m', m.Later 0 m' → m'.Later 0 (work.after config fuel m) → P c m') :
    Throughout config fuel P work.run m :=
  .of_between (Nat.zero_le _) h.within work.tracked.logical hP

end Work

namespace Session

/-- What can be done with a session. -/
inductive Step : Session → Session → Prop where
  | source (s : Session) (text : String) : Step s (s.setSource text)
  | batch (s : Session) (p : Program) : Step s (s.runProgram p).2
  | file (s : Session) (parse : String → Except String Program) (path : String) :
      Step s (s.runFile parse path).2
  | line (s : Session) (stmt : Stmt) : Step s (s.runLine stmt).2
  | callback (s : Session) (closure : Closure) (args : List Value) (span : Span) :
      Step s { s with machine := (Run.closure s.config s.fuel closure args span).after s.machine }

/-- A session that has been started and used in any way. -/
def Reachable (config : Config) (fuel : Nat) (m : Machine) : Session → Prop :=
  Relation.ReflTransGen Step (start config fuel m)

/-- A use of a session, in which only such closures are called back as may be. -/
inductive StepIf (may : Session → Work → Prop) : Session → Session → Prop where
  | source (s : Session) (text : String) : StepIf may s (s.setSource text)
  | batch (s : Session) (p : Program) : StepIf may s (s.runProgram p).2
  | file (s : Session) (parse : String → Except String Program) (path : String) :
      StepIf may s (s.runFile parse path).2
  | line (s : Session) (stmt : Stmt) : StepIf may s (s.runLine stmt).2
  | callback (s : Session) {closure : Closure} {args : List Value} {span : Span}
      (allowed : may s (.callback closure args span)) :
      StepIf may s
        { s with machine := (Run.closure s.config s.fuel closure args span).after s.machine }

variable {s t u : Session} {work : Work}

theorem machine_runProgram (s : Session) (p : Program) :
    (s.runProgram p).2 =
      { s with machine := (Run.program s.config s.fuel p s.world).after s.machine } := by
  rw [runProgram, Run.after]
  cases Run.program s.config s.fuel p s.world s.machine with
  | ok a m => rfl
  | error stop m =>
    cases stop with
    | outOfFuel | panicked => rfl
    | failed e =>
      dsimp only
      split <;> rfl

theorem machine_runLine (s : Session) (line : Stmt) :
    (s.runLine line).2.machine = (Work.line line s.world).after s.config s.fuel s.machine := by
  rw [runLine, Work.after, Run.after, Work.run, Run.statement, Run.bind_apply, Run.bind_apply]
  cases Run.holding [.context s.world] ((evaluator s.config s.fuel).stmt line s.world)
    s.machine with
  | ok a m => rfl
  | error stop m =>
    cases stop with
    | outOfFuel | panicked => rfl
    | failed e =>
      dsimp only
      split <;> rfl

/-- A line that ends with a value is a statement that gives it. -/
theorem statement_of_runLine {line : Stmt} {v : Value} (h : (s.runLine line).1 = .value v) :
    ∃ m', Run.statement s.config s.fuel line s.world s.machine = .ok v m' := by
  rw [runLine] at h
  cases he : Run.statement s.config s.fuel line s.world s.machine with
  | ok v' m' =>
    rw [he] at h
    cases h
    exact ⟨m', rfl⟩
  | error stop m' =>
    rw [he] at h
    cases stop with
    | outOfFuel | panicked => cases h
    | failed e =>
      dsimp only at h
      split at h <;> cases h

theorem machine_closure (s : Session) (closure : Closure) (args : List Value) (span : Span) :
    (Run.closure s.config s.fuel closure args span).after s.machine =
      (Work.callback closure args span).after s.config s.fuel s.machine := by
  rw [Work.after, Run.after, Run.after, Work.run, Run.bind_apply, ← Run.closure]
  cases Run.closure s.config s.fuel closure args span s.machine <;> rfl

/-- The session may be used for the work. -/
def MayDo (s : Session) : Work → Prop
  | .batch _ world | .line _ world => world = s.world
  | .callback .. => True
  | .expr .. | .stmt .. => False

/-- The World of the session is there. -/
def WorldThere (s : Session) : Prop := s.world < s.machine.store.graph.size

theorem MayDo.there (h : s.MayDo work) (hw : s.WorldThere) : work.There s.machine := by
  cases work with
  | expr | stmt => exact h.elim
  | batch | line =>
    obtain rfl := h
    rintro c ⟨⟩
    exact hw
  | callback => rintro c ⟨⟩

/-- What no use of a session changes. -/
structure SameSetting (s t : Session) : Prop where
  config : t.config = s.config
  fuel : t.fuel = s.fuel
  world : t.world = s.world

/-- One use does to a session what some work does that satisfies `p`, or no work at all. -/
structure UsedFor (p : Work → Prop) (s t : Session) : Prop where
  setting : s.SameSetting t
  machine : t.machine = s.machine ∨ ∃ work, p work ∧ t.machine = work.after s.config s.fuel s.machine

/-- What one use does to a session. -/
abbrev Used (s t : Session) : Prop := UsedFor s.MayDo s t

theorem UsedFor.mono {p q : Work → Prop} (h : UsedFor p s t) (hpq : ∀ work, p work → q work) :
    UsedFor q s t :=
  ⟨h.setting, h.machine.imp id fun ⟨work, hp, left⟩ => ⟨work, hpq work hp, left⟩⟩

theorem used_runProgram (s : Session) (p : Program) :
    UsedFor (· = .batch p s.world) s (s.runProgram p).2 := by
  rw [machine_runProgram]
  exact ⟨⟨rfl, rfl, rfl⟩, .inr ⟨_, rfl, rfl⟩⟩

/-- A file that is read is run like a program, any other is as if nothing were done. -/
theorem used_runFile (s : Session) (parse : String → Except String Program) (path : String) :
    UsedFor (∃ p, · = .batch p s.world) s (s.runFile parse path).2 := by
  unfold runFile
  split
  · exact ⟨⟨rfl, rfl, rfl⟩, .inl rfl⟩
  · split
    · exact ⟨⟨rfl, rfl, rfl⟩, .inl rfl⟩
    · rename_i text _ _ p _
      obtain ⟨setting, machine⟩ := used_runProgram (s.setSource text) p
      exact ⟨⟨setting.config, setting.fuel, setting.world⟩,
        machine.imp id fun ⟨work, is, left⟩ => ⟨work, ⟨p, is⟩, left⟩⟩

theorem setting_runLine (s : Session) (line : Stmt) : s.SameSetting (s.runLine line).2 := by
  rw [runLine]
  cases Run.statement s.config s.fuel line s.world s.machine with
  | ok a m => exact ⟨rfl, rfl, rfl⟩
  | error stop m =>
    cases stop with
    | outOfFuel | panicked => exact ⟨rfl, rfl, rfl⟩
    | failed e =>
      dsimp only
      split <;> exact ⟨rfl, rfl, rfl⟩

theorem used_runLine (s : Session) (line : Stmt) :
    UsedFor (· = .line line s.world) s (s.runLine line).2 :=
  ⟨setting_runLine s line, .inr ⟨_, rfl, machine_runLine s line⟩⟩

theorem used_callback (s : Session) (closure : Closure) (args : List Value) (span : Span) :
    UsedFor (· = .callback closure args span) s
      { s with machine := (Run.closure s.config s.fuel closure args span).after s.machine } :=
  ⟨⟨rfl, rfl, rfl⟩, .inr ⟨_, rfl, machine_closure ..⟩⟩

/-- What one use does to a session, if it is handed only what may be, and may have its own work
done, which is handed nothing. -/
theorem StepIf.used {may : Session → Work → Prop} (step : StepIf may s t)
    (own : ∀ work, s.MayDo work → work.values = [] → may s work) :
    UsedFor (fun work => s.MayDo work ∧ may s work) s t := by
  cases step with
  | source text => exact ⟨⟨rfl, rfl, rfl⟩, .inl rfl⟩
  | batch p => exact (used_runProgram s p).mono (by rintro _ rfl; exact ⟨rfl, own _ rfl rfl⟩)
  | file parse path =>
    exact (used_runFile s parse path).mono (by rintro _ ⟨p, rfl⟩; exact ⟨rfl, own _ rfl rfl⟩)
  | line stmt => exact (used_runLine s stmt).mono (by rintro _ rfl; exact ⟨rfl, own _ rfl rfl⟩)
  | callback allowed =>
    exact (used_callback s _ _ _).mono (by rintro _ rfl; exact ⟨trivial, allowed⟩)

theorem StepIf.mono {may may' : Session → Work → Prop} (step : StepIf may s t)
    (allows : ∀ work, may s work → may' s work) : StepIf may' s t := by
  cases step with
  | source text => exact .source s text
  | batch p => exact .batch s p
  | file parse path => exact .file s parse path
  | line stmt => exact .line s stmt
  | callback allowed => exact .callback s (allows _ allowed)

theorem Step.stepIf (step : Step s t) : StepIf (fun _ _ => True) s t := by
  cases step with
  | source text => exact .source s text
  | batch p => exact .batch s p
  | file parse path => exact .file s parse path
  | line stmt => exact .line s stmt
  | callback closure args span => exact .callback s trivial

theorem Step.used (step : Step s t) : s.Used t :=
  (step.stepIf.used fun _ _ _ => trivial).mono fun _ h => h.1

theorem UsedFor.worldThere (h : s.Used t) (hw : s.WorldThere) : t.WorldThere := by
  unfold WorldThere at hw ⊢
  rw [h.setting.world]
  rcases h.machine with same | ⟨work, may, left⟩
  · rwa [same]
  · rw [left]
    exact Nat.lt_of_lt_of_le hw (Work.later (may.there hw)).extends.contexts

theorem worldThere_start (config : Config) (fuel : Nat) (m : Machine) :
    (start config fuel m).WorldThere := by
  show m.store.graph.size < (m.store.graph.add .emptyWorld).2.size
  rw [Graph.size_add]
  exact Nat.lt_succ_self _

theorem Reachable.worldThere {config : Config} {fuel : Nat} {m : Machine}
    (h : Reachable config fuel m s) : s.WorldThere := by
  induction h with
  | refl => exact worldThere_start config fuel m
  | tail _ step ih => exact step.used.worldThere ih

end Session

end TreeScript
