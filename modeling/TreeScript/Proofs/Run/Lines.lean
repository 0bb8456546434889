import TreeScript.Proofs.Run.Invariants

/-!
# Batches and lines

To run a program is to run its statements one by one, each as a line of its own, up to the first
that does not end with a value. Both ways the session is the same afterwards, but for the report of
a line that failed. The log of a session is nothing but these reports.
-/
namespace TreeScript

namespace Run

variable {α β : Type} {config : Config} {fuel : Nat} {world : CtxId} {m : Machine}

/-- What is held through a sequence is held through each of its parts, if the first part leaves it
alone. -/
theorem holding_bind {holds : List Hold} {x : Run α} (k : α → Run β)
    (kept : (x.after { m with held := holds ++ m.held }).held = holds ++ m.held) :
    holding holds (x >>= k) m = (holding holds x >>= fun a => holding holds (k a)) m := by
  rw [bind_apply, holding, holding, ensuring, ensuring, bind_apply]
  rw [after] at kept
  cases hx : x { m with held := holds ++ m.held } with
  | error stop m' => rfl
  | ok a m' =>
    rw [hx] at kept
    have again : { m' with held := holds ++ m.held } = m' := by rw [← kept]
    show _ = (k a).ensuring (fun after => { after with held := m.held })
      { m' with held := holds ++ m.held }
    rw [again, ensuring]

theorem held_stmt (config : Config) (fuel : Nat) (stmt : Stmt) (world : CtxId) (m : Machine) :
    (((evaluator config fuel).stmt stmt world).after m).held = m.held := by
  have left : ((evaluator config fuel).stmt stmt world).after m =
      (Work.stmt stmt world).after config fuel m := by
    rw [Work.after, Work.run, after, after, bind_apply]
    cases (evaluator config fuel).stmt stmt world m <;> rfl
  rw [left, Work.held_after]

theorem program_nil : program config fuel [] world = pure () := rfl

theorem program_cons (stmt : Stmt) (rest : Program) :
    program config fuel (stmt :: rest) world =
      statement config fuel stmt world >>= fun _ => program config fuel rest world := by
  funext m
  rw [statement, bind_assoc]
  simp only [pure_bind]
  exact holding_bind _ (held_stmt config fuel stmt world _)

theorem program_append (p q : Program) :
    program config fuel (p ++ q) world =
      program config fuel p world >>= fun _ => program config fuel q world := by
  induction p with
  | nil => rw [List.nil_append, program_nil, pure_bind]
  | cons stmt rest ih => rw [List.cons_append, program_cons, program_cons, ih, bind_assoc]

end Run

namespace LineOutcome

/-- What of the outcome goes to the log. -/
def reports : LineOutcome → List String
  | report text => [text]
  | _ => []

end LineOutcome

namespace Session

variable {s t : Session} {config : Config} {fuel : Nat}

/-- Runs the statements of a program as lines, up to the first that does not end with a value. The
outcome is the one of that line, if there is one. -/
def feed (s : Session) : Program → Option LineOutcome × Session
  | [] => (none, s)
  | line :: rest =>
    match s.runLine line with
    | (.value _, t) => t.feed rest
    | (outcome, t) => (some outcome, t)

/-- What a batch run that ends in this way is to one who feeds lines. -/
def asLine (s : Session) : RunOutcome → Option LineOutcome
  | .completed => none
  | .exited code => some (.exited code)
  | .failed e => some (.report (s.report e))
  | .panicked f => some (.panicked f)
  | .outOfFuel => some .outOfFuel

/-- The session after a batch run, had the program been fed line by line. -/
def logging (s : Session) (ran : RunOutcome × Session) : Option LineOutcome × Session :=
  (s.asLine ran.1,
    { ran.2 with errors := s.errors ++ (s.asLine ran.1).toList.flatMap LineOutcome.reports })

theorem runProgram_nil (s : Session) : s.runProgram [] = (.completed, s) := rfl

theorem feed_eq (s : Session) (p : Program) : s.feed p = s.logging (s.runProgram p) := by
  induction p generalizing s with
  | nil =>
    rw [feed, runProgram_nil, logging, asLine, Option.toList_none, List.flatMap_nil,
      List.append_nil]
  | cons line rest ih =>
    rw [feed, runLine, runProgram, Run.program_cons, Run.bind_apply]
    cases Run.statement s.config s.fuel line s.world s.machine with
    | ok v m => exact ih { s with machine := m }
    | error stop m =>
      cases stop with
      | outOfFuel | panicked => simp [logging, asLine, LineOutcome.reports]
      | failed e =>
        dsimp only
        cases e.fault.exitCode? with
        | some code => simp [logging, asLine, LineOutcome.reports]
        | none => simp [logging, asLine, LineOutcome.reports]

/-- What runs as one program runs as two, if the first one is completed. -/
theorem runProgram_append (s : Session) (p q : Program) :
    s.runProgram (p ++ q) =
      if (s.runProgram p).1 = .completed then (s.runProgram p).2.runProgram q
      else s.runProgram p := by
  rw [runProgram, Run.program_append, Run.bind_apply]
  cases ran : Run.program s.config s.fuel p s.world s.machine with
  | ok _ m =>
    have first : s.runProgram p = (.completed, { s with machine := m }) := by rw [runProgram, ran]
    rw [first, if_pos rfl, runProgram]
  | error stop m =>
    have stopped : (s.runProgram p).1 ≠ .completed := by
      rw [runProgram, ran]
      cases stop with
      | outOfFuel | panicked => simp
      | failed e =>
        dsimp only
        cases e.fault.exitCode? <;> simp
    rw [if_neg stopped, runProgram, ran]

/-- Running a program and feeding its statements as lines come to the same. -/
structure AgreesWithLines (s : Session) (p : Program) : Prop where
  /-- All that is left is the same, but for the log. -/
  session : (s.feed p).2 = { (s.runProgram p).2 with errors := (s.feed p).2.errors }
  log : (s.feed p).2.errors = s.errors ++ (s.feed p).1.toList.flatMap LineOutcome.reports
  completed : (s.runProgram p).1 = .completed ↔ (s.feed p).1 = none
  exited : ∀ code, (s.runProgram p).1 = .exited code ↔ (s.feed p).1 = some (.exited code)
  failed : ∀ text, (∃ e, (s.runProgram p).1 = .failed e ∧ s.report e = text) ↔
    (s.feed p).1 = some (.report text)
  panicked : ∀ f, (s.runProgram p).1 = .panicked f ↔ (s.feed p).1 = some (.panicked f)
  outOfFuel : (s.runProgram p).1 = .outOfFuel ↔ (s.feed p).1 = some .outOfFuel

theorem agreesWithLines (s : Session) (p : Program) : s.AgreesWithLines p := by
  have fed := feed_eq s p
  have outcome : (s.feed p).1 = s.asLine (s.runProgram p).1 := by rw [fed, logging]
  refine ⟨by rw [fed, logging], by rw [fed, logging], ?_, fun code => ?_, fun text => ?_,
    fun f => ?_, ?_⟩ <;>
    rw [outcome] <;> cases (s.runProgram p).1 <;> simp [asLine]

/-- What a session may be asked to do. -/
inductive Request where
  | source (text : String)
  | batch (p : Program)
  | file (parse : String → Except String Program) (path : String)
  | line (stmt : Stmt)
  | callback (closure : Closure) (args : List Value) (span : Span)

/-- The session once the request is met. -/
def meet (s : Session) : Request → Session
  | .source text => s.setSource text
  | .batch p => (s.runProgram p).2
  | .file parse path => (s.runFile parse path).2
  | .line stmt => (s.runLine stmt).2
  | .callback closure args span =>
    { s with machine := (Run.closure s.config s.fuel closure args span).after s.machine }

def meetAll (s : Session) (requests : List Request) : Session := requests.foldl meet s

/-- The report of the line that the request is, if it fails. -/
def reports (s : Session) : Request → List String
  | .line stmt => (s.runLine stmt).1.reports
  | _ => []

/-- The reports of the lines that fail while requests are met one after the other. -/
def reportsOf (s : Session) : List Request → List String
  | [] => []
  | request :: rest => s.reports request ++ (s.meet request).reportsOf rest

theorem step_iff : Step s t ↔ ∃ request, s.meet request = t := by
  constructor
  · intro step
    cases step with
    | source text => exact ⟨.source text, rfl⟩
    | batch p => exact ⟨.batch p, rfl⟩
    | file parse path => exact ⟨.file parse path, rfl⟩
    | line stmt => exact ⟨.line stmt, rfl⟩
    | callback closure args span => exact ⟨.callback closure args span, rfl⟩
  · rintro ⟨request, rfl⟩
    cases request with
    | source text => exact .source s text
    | batch p => exact .batch s p
    | file parse path => exact .file s parse path
    | line stmt => exact .line s stmt
    | callback closure args span => exact .callback s closure args span

theorem steps_iff : Relation.ReflTransGen Step s t ↔ ∃ requests, s.meetAll requests = t := by
  constructor
  · intro steps
    induction steps with
    | refl => exact ⟨[], rfl⟩
    | tail _ step ih =>
      obtain ⟨requests, rfl⟩ := ih
      obtain ⟨request, rfl⟩ := step_iff.mp step
      exact ⟨requests ++ [request], List.foldl_append ..⟩
  · rintro ⟨requests, rfl⟩
    induction requests generalizing s with
    | nil => exact .refl
    | cons request rest ih => exact .head (step_iff.mpr ⟨request, rfl⟩) ih

theorem errors_runProgram (s : Session) (p : Program) : (s.runProgram p).2.errors = s.errors := by
  rw [machine_runProgram]

theorem errors_runLine (s : Session) (stmt : Stmt) :
    (s.runLine stmt).2.errors = s.errors ++ (s.runLine stmt).1.reports := by
  rw [runLine]
  cases Run.statement s.config s.fuel stmt s.world s.machine with
  | ok v m => exact (List.append_nil _).symm
  | error stop m =>
    cases stop with
    | outOfFuel | panicked => exact (List.append_nil _).symm
    | failed e =>
      dsimp only
      cases e.fault.exitCode? with
      | some code => exact (List.append_nil _).symm
      | none => rfl

theorem errors_meet (s : Session) (request : Request) :
    (s.meet request).errors = s.errors ++ s.reports request := by
  cases request with
  | source | callback => exact (List.append_nil _).symm
  | batch p => exact (errors_runProgram s p).trans (List.append_nil _).symm
  | file parse path =>
    refine Eq.trans ?_ (List.append_nil _).symm
    rw [meet, runFile]
    split
    · rfl
    · split
      · rfl
      · exact errors_runProgram _ _
  | line stmt => exact errors_runLine s stmt

/-- The log grows by the reports of the lines that fail, and by nothing else. -/
theorem errors_meetAll (s : Session) (requests : List Request) :
    (s.meetAll requests).errors = s.errors ++ s.reportsOf requests := by
  induction requests generalizing s with
  | nil => exact (List.append_nil _).symm
  | cons request rest ih =>
    rw [reportsOf, ← List.append_assoc, ← errors_meet]
    exact ih _

end Session

/-- **Batches and lines.** To run a program is to run its statements line by line up to the first
that fails or exits. A program that is the first part of another runs as the first part of it does.
The log of a session is made of the reports of its failed lines, in their order, whatever else the
session is used for. -/
theorem batch_and_lines_agree (s : Session) (p : Program) :
    s.AgreesWithLines p ∧
    (∀ q, s.runProgram (p ++ q) =
      if (s.runProgram p).1 = .completed then (s.runProgram p).2.runProgram q
      else s.runProgram p) ∧
    (∀ t, Relation.ReflTransGen Session.Step s t ↔ ∃ requests, s.meetAll requests = t) ∧
    ∀ requests, (s.meetAll requests).errors = s.errors ++ s.reportsOf requests :=
  ⟨s.agreesWithLines p, s.runProgram_append p, fun _ => Session.steps_iff, s.errors_meetAll⟩

end TreeScript
