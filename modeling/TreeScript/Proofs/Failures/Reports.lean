import TreeScript.Proofs.Failures.Unwinding

/-!
# What failures report

A failure that gets out of expressions, statements, calls and imports says what went wrong at the
point where it was raised, and its backtrace is what was live there. One who is told of it wherever
it gets out of an expression or a statement hears nothing that the failure does not say in the end.
-/
namespace TreeScript

namespace Run

variable {α β : Type}

namespace Reports

theorem declare (d : Declaration) : Reports (Run.declare d) := by
  refine bind (peek _) fun g => ?_
  cases d.obstacle? g with
  | some fault => exact raise fault
  | none => exact changing _ fun _ => rfl

theorem letGo (sought : Graph → CtxId) : Reports (Run.letGo sought) := by
  refine quiet fun m => ?_
  rcases letGo_apply sought m with h | ⟨outside, -, h⟩ <;> exact ⟨_, _, h, rfl⟩

theorem ofExcept (r : Except Fault α) : Reports (Run.ofExcept r) := by
  cases r with
  | ok a => exact quiet fun m => ⟨a, m, rfl, rfl⟩
  | error fault => exact raise fault

theorem newContext (kind : ContextKind) : Reports (Run.newContext kind) :=
  quiet fun _ => ⟨_, _, rfl, rfl⟩

theorem load (config : Config) (path : String) : Reports (Eval.load config path) := by
  unfold Eval.load
  cases config.loader with
  | none => exact raise _
  | some loader => exact bind (peek fun m => m) fun m => ofExcept _

theorem importWith (config : Config) (path : String) (c : CtxId)
    {run : Program → CtxId → Run Unit} (h : ∀ code world, Reports (run code world)) :
    Reports (Eval.importWith config path c run) := by
  refine bind (peek fun m => m) fun m => ?_
  have going : Reports (do
      let code ← Eval.load config path
      let world ← Run.newContext .emptyWorld
      modify fun m => { m with importing := path :: m.importing }
      Run.holding [.context world] do
        (run code world).ensuring fun m => { m with importing := m.importing.tail }
        let name := ((← Run.graph).moduleName? world).getD ((Files.stem? path).getD path)
        Run.declareFrom c (.ofModule c name world)) := by
    refine bind (load config path) fun code => bind (newContext _) fun world => ?_
    refine bind (changing _ fun _ => rfl) fun _ => holding _ ?_
    refine bind ((h code world).ensuring _ fun _ => rfl) fun _ => bind (peek _) fun g => ?_
    exact bind (letGo _) fun _ => declare _
  dsimp only
  split
  · exact bind (raise _) fun _ => going
  · exact going

theorem inScope {x : Run α} (c : CtxId) (h : Reports x) : Reports (Run.inScope c x) :=
  bind (changing _ fun _ => rfl) fun _ => h.ensuring _ fun _ => rfl

theorem newCell (cell : Cell) : Reports (Run.newCell cell) := quiet fun _ => ⟨_, _, rfl, rfl⟩

theorem declareNew (c : CtxId) (cell : Cell) {x : CellId → Run α} (h : ∀ i, Reports (x i)) :
    Reports (Run.declareNew c cell x) :=
  bind (newCell cell) fun i => bind (declare _) fun _ => h i

theorem editCell (i : CellId) (f : Handles → Edit α) : Reports (Run.editCell i f) := by
  refine operation fun m => ?_
  rw [Run.editCell]
  cases (m.store.cell i).checkWrite false with
  | error fault => exact ⟨m, .inr ⟨fault, rfl⟩, rfl⟩
  | ok _ =>
    cases f m.handles (m.store.cell i).value with
    | ok a v => exact ⟨_, .inl ⟨a, rfl⟩, rfl⟩
    | error fault v => exact ⟨_, .inr ⟨fault, rfl⟩, rfl⟩

theorem onDisk (f : Files.Disk → Except Fault α × Files.Disk) : Reports (Run.onDisk f) := by
  refine operation fun m => ?_
  rw [Run.onDisk]
  obtain ⟨result, disk⟩ := f m.disk
  cases result with
  | ok a => exact ⟨_, .inl ⟨a, rfl⟩, rfl⟩
  | error fault => exact ⟨_, .inr ⟨fault, rfl⟩, rfl⟩

theorem copy (v : Value) : Reports (Run.copy v) := by
  refine never (fun m => ?_) fun m => ?_
  · rw [after, Run.copy]
    cases m.store.copy (m.store.graph.contexts.size + 1) v <;> rfl
  · rw [failure?, Run.copy]
    cases m.store.copy (m.store.graph.contexts.size + 1) v <;> rfl

theorem nextLine : Reports Run.nextLine := by
  refine quiet fun m => ?_
  rw [Run.nextLine]
  cases m.input <;> exact ⟨_, _, rfl, rfl⟩

end Reports

/-- Every run tells of the point where its failure was raised. -/
def Logic.reports : Logic where
  Rel _ _ x _ := Reports x
  blocks_of_clean h := h
  names_of_blocks h := h
  setup_of_names h := h
  pure a := .quiet fun m => ⟨a, m, rfl, rfl⟩
  raise := .raise
  panic _ _ := .never (fun _ => rfl) fun _ => rfl
  outOfFuel := .never (fun _ => rfl) fun _ => rfl
  look g _ _ h := (Reports.peek g).after_ran fun m a m' ran => by
    cases ran
    exact h m
  bind := .bind
  locating := .locating
  holding := .holding
  inScope := .inScope _
  inCall := .inCall
  letGo := .letGo
  newContext kind _ _ _ h := (Reports.newContext kind).bind h
  newCell := .newCell
  editCell := .editCell
  newClosure _ _ _ := .quiet fun _ => ⟨_, _, rfl, rfl⟩
  copy := .copy
  declareNew cell _ _ h := .declareNew _ cell h
  declareFunc _ := .declare _
  bindCell _ _ := (Reports.peek _).bind fun _ => .declare _
  declareArgument _ _ := .declare _
  clearingArguments h := h.ensuring _ fun _ => rfl
  declareClass _ _ := .declare _
  nameModule _ _ := .changing _ fun _ => rfl
  importWith config path c _ _ h := .importWith config path c h
  onDisk := .onDisk
  modifyOutput _ := .changing _ fun _ => rfl
  nextLine := .nextLine

/-- Runs with someone who is told when it fails. -/
def telling (tell : Failure → Raised → Run Unit) (x : Run α) : Run α := fun m =>
  match x m with
  | .error (.failed e raised) m' =>
    match tell e raised m' with
    | .ok _ m'' => .error (.failed e raised) m''
    | .error stop m'' => .error stop m''
  | result => result

/-- One who does nothing when he is told less than a run fails with in the end makes no difference
to it. -/
def Unmoved (tell : Failure → Raised → Run Unit) (x y : Run α) : Prop :=
  ∀ m, (∀ e raised, y.failure? m = some (e, raised) →
    ∀ e' m', e'.Kept e → tell e' raised m' = .ok () m') → x m = y m

namespace Unmoved

variable {tell : Failure → Raised → Run Unit} {x y : Run α}

theorem refl (x : Run α) : Unmoved tell x x := fun _ _ => rfl

theorem bind {k l : α → Run β} (hx : Unmoved tell x y) (hk : ∀ a, Unmoved tell (k a) (l a)) :
    Unmoved tell (x >>= k) (y >>= l) := by
  intro m silent
  rw [failure?, bind_apply] at silent
  have first := hx m
  rw [failure?] at first
  rw [bind_apply, bind_apply]
  cases hy : y m with
  | ok a m' =>
    rw [hy] at silent first
    rw [first fun _ _ fails => by cases fails]
    exact hk a m' silent
  | error stop m' =>
    rw [hy] at silent first
    rw [first silent]

/-- What is said of a failure on its way out is more than what was told before. -/
theorem mapFailure {g : Machine → Failure → Failure} (kept : ∀ m (e : Failure), e.Kept (g m e))
    (h : Unmoved tell x y) : Unmoved tell (x.mapFailure g) (y.mapFailure g) := by
  intro m silent
  rw [failure?_mapFailure] at silent
  rw [Run.mapFailure, Run.mapFailure, h m fun e raised fails e' m' less => ?_]
  refine silent (g (y.after m) e) raised ?_ e' m' (less.trans (kept _ e))
  rw [fails]
  rfl

theorem ensuring (undo : Machine → Machine) (h : Unmoved tell x y) :
    Unmoved tell (x.ensuring undo) (y.ensuring undo) := by
  intro m silent
  rw [failure?_ensuring] at silent
  rw [Run.ensuring, Run.ensuring, h m silent]

theorem holding (holds : List Hold) (h : Unmoved tell x y) :
    Unmoved tell (holding holds x) (holding holds y) :=
  fun m => h.ensuring (fun after => { after with held := m.held })
    { m with held := holds ++ m.held }

theorem inCall (name : String) (span : Span) (h : Unmoved tell x y) :
    Unmoved tell (inCall name span x) (inCall name span y) := by
  refine (refl get).bind fun m => ?_
  cases m.calls.push ⟨name, some span⟩ with
  | error fault => exact refl _
  | ok calls =>
    refine (refl _).bind fun _ => ensuring _ (mapFailure (fun m e => ?_) h)
    exact (e.kept_trace _).trans (Failure.kept_locate span _)

theorem importWith (config : Config) (path : String) (c : CtxId) {x y : Program → CtxId → Run Unit}
    (h : ∀ code world, Unmoved tell (x code world) (y code world)) :
    Unmoved tell (Eval.importWith config path c x) (Eval.importWith config path c y) := by
  refine (refl get).bind fun m => ?_
  have loading : Unmoved tell (Eval.load config path) (Eval.load config path) := refl _
  have going := loading.bind fun code =>
    (refl (Run.newContext .emptyWorld)).bind fun world =>
      (refl (modify fun m => { m with importing := path :: m.importing })).bind fun _ =>
        holding [.context world] <|
          ((h code world).ensuring fun m => { m with importing := m.importing.tail }).bind fun _ =>
            refl (do
              let name := ((← Run.graph).moduleName? world).getD ((Files.stem? path).getD path)
              Run.declareFrom c (.ofModule c name world))
  dsimp only
  split
  · exact (refl _).bind fun _ => going
  · exact going

/-- Whoever is told what a run fails with is told no more than that. -/
theorem telling (h : Unmoved tell x y) : Unmoved tell (telling tell x) y := by
  intro m silent
  rw [Run.telling, h m silent]
  rw [failure?] at silent
  cases hy : y m with
  | ok => rfl
  | error stop m' =>
    rw [hy] at silent
    cases stop with
    | panicked | outOfFuel => rfl
    | failed e raised =>
      have told := silent e raised rfl e m' (.refl e)
      dsimp only
      rw [told]

end Unmoved

/-- No run minds one who does nothing when he is told less than it fails with. -/
def Logic.unmoved (tell : Failure → Raised → Run Unit) : Logic where
  Rel _ _ x y := Unmoved tell x y
  blocks_of_clean h := h
  names_of_blocks h := h
  setup_of_names h := h
  pure _ := .refl _
  raise _ := .refl _
  panic _ _ := .refl _
  outOfFuel := .refl _
  look _ _ _ h m := h m m
  bind := .bind
  locating span := .mapFailure fun _ => Failure.kept_locate span
  holding := .holding
  inScope h := (Unmoved.refl _).bind fun _ => h.ensuring _
  inCall := .inCall
  letGo _ := .refl _
  newContext _ _ _ _ h := (Unmoved.refl _).bind h
  newCell _ := .refl _
  editCell _ _ := .refl _
  newClosure _ _ _ := .refl _
  copy _ := .refl _
  declareNew _ _ _ h := (Unmoved.refl _).bind fun i => (Unmoved.refl _).bind fun _ => h i
  declareFunc _ := .refl _
  bindCell _ _ := .refl _
  declareArgument _ _ := .refl _
  clearingArguments h := h.ensuring _
  declareClass _ _ := .refl _
  nameModule _ _ := .refl _
  importWith config path c _ _ h := .importWith config path c h
  onDisk _ := .refl _
  modifyOutput _ := .refl _
  nextLine := .refl _

end Run

/-- The evaluator of the language with someone who is told of every failure of an expression or a
statement: what is said of it there, and how it was raised. -/
def informed (config : Config) (tell : Failure → Raised → Run Unit) : Nat → Evaluator
  | 0 => ⟨0, fun _ _ => Run.outOfFuel, fun _ _ => Run.outOfFuel⟩
  | n + 1 =>
    ⟨n + 1, fun e c => Run.telling tell (Eval.expr config (informed config tell n) e c),
      fun s c => Run.telling tell (Eval.stmt config (informed config tell n) s c)⟩

theorem Run.Logic.informed_relates (config : Config) (tell : Failure → Raised → Run Unit) :
    ∀ fuel, (unmoved tell).Relates (informed config tell fuel) (evaluator config fuel)
  | 0 => ⟨rfl, fun _ _ => .refl _, fun _ _ => .refl _⟩
  | fuel + 1 => by
    have parts := informed_relates config tell fuel
    exact ⟨rfl, fun e _ => (expr parts config e).telling,
      fun s _ => Unmoved.telling (names_of_footprint (stmt parts config s))⟩

/-- The failure of some work tells of the point where it was raised. -/
structure Work.Describes (config : Config) (fuel : Nat) (work : Work) (m : Machine) (e : Failure)
    (raised : Raised) : Prop where
  /-- What went wrong is what went wrong there. -/
  fault : e.fault = raised.fault
  /-- The calls that were live there are those of the whole and some inside it. Unless there were
  none inside it, the backtrace is all of them, innermost first. -/
  backtrace : ∃ inner, raised.calls = inner ++ m.calls.frames ∧
    e.backtrace = if inner = [] then none else some (inner ++ m.calls.frames)
  /-- Outside all calls there is no backtrace just when no call was live. -/
  atTop : m.calls.frames = [] → (e.backtrace = none ↔ raised.calls = [])
  room : ∀ limit, m.calls.limit = some limit → m.calls.depth ≤ limit →
    ∀ frames, e.backtrace = some frames → frames.length ≤ limit
  placed : e.span ≠ some .synthetic
  /-- All the way out it was the failure that was raised there, and nothing else was said of it than
  what it says in the end: whoever does nothing when he is told so makes no difference. -/
  kept : ∀ tell : Failure → Raised → Run Unit,
    (∀ e' m', e'.Kept e → tell e' raised m' = .ok () m') →
      work.run (informed config tell fuel) m = work.run (evaluator config fuel) m

/-- **Failures.** Whatever work fails, its failure tells of the point where it was raised. -/
theorem failures_describe_origin (config : Config) (fuel : Nat) (work : Work) (m : Machine)
    (e : Failure) (raised : Raised)
    (fails : (work.run (evaluator config fuel)).failure? m = some (e, raised)) :
    work.Describes config fuel m e raised := by
  have reports := work.tracked.logical _ (Run.Logic.reports.evaluator_relates config fuel)
  have tells := (reports m).2 e raised fails
  obtain ⟨inner, split, recorded⟩ := tells.traced
  refine ⟨tells.fault, ⟨inner, split, split ▸ recorded⟩, fun top => ?_,
    fun limit has room frames h => ?_, tells.placed, fun tell silent => ?_⟩
  · rw [recorded, split, top, List.append_nil]
    by_cases none : inner = []
    · exact iff_of_true (if_pos none) none
    · exact iff_of_false (by rw [if_neg none]; nofun) none
  · rw [recorded] at h
    by_cases none : inner = []
    · rw [if_pos none] at h
      cases h
    · rw [if_neg none] at h
      cases h
      exact tells.room limit has room
  · refine work.tracked.logical _ (Run.Logic.informed_relates config tell fuel) m ?_
    intro e₁ raised₁ fails₁
    cases fails.symm.trans fails₁
    exact silent

/-- A function divides by zero. The failure tells of the division and of the call. -/
theorem failures_describe_origin_division :
    let span : Span := ⟨0, 1⟩
    let expr (node : ExprNode) : Expr := ⟨node, span⟩
    let decl : FuncDecl := ⟨"f", [], none,
      [⟨.ret (some (expr (.binary .div (expr (.int 1)) (expr (.int 0))))), span⟩], .none⟩
    let program : Program := [⟨.defFunc decl, span⟩, ⟨.expr (expr (.call "f" [])), span⟩]
    let config : Config := ⟨[], none⟩
    let s := Session.start config 8 (.start .empty .silent [] (some 1))
    let work : Work := .batch program s.world
    let e : Failure := ⟨.divisionByZero, some span, some [⟨"f", some span⟩]⟩
    let raised : Raised := ⟨.divisionByZero, [⟨"f", some span⟩]⟩
    (work.run (evaluator config 8)).failure? s.machine = some (e, raised) ∧
      work.Describes config 8 s.machine e raised := by
  intro span expr decl program config s work e raised
  have fails : (work.run (evaluator config 8)).failure? s.machine = some (e, raised) := by
    decide +kernel
  exact ⟨fails, failures_describe_origin config 8 work s.machine e raised fails⟩

end TreeScript
