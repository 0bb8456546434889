import TreeScript.Eval.Run
import TreeScript.Proofs.Context.Scopes

/-!
# Logics of runs

A logic of runs is a relation between two runs that every way of putting runs together respects. It
relates the evaluation of a tree to the evaluation of the same tree with other evaluators for its
parts, and what it relates may hang on the contexts that the runs touch. `Proofs.Run.Evaluation`
walks through the language once for all logics.
-/
namespace TreeScript

/-- An import, with what runs the code of the module in its World. -/
def Eval.importWith (config : Config) (path : String) (c : CtxId)
    (run : Program → CtxId → Run Unit) : Run Unit := do
  let importing := (← get).importing
  if importing.contains path then
    Run.raise (.circularImport (importing.reverse ++ [path]))
  let code ← load config path
  let world ← Run.newContext .emptyWorld
  modify fun m => { m with importing := path :: m.importing }
  Run.holding [.context world] do
    (run code world).ensuring fun m => { m with importing := m.importing.tail }
    let name := ((← Run.graph).moduleName? world).getD ((Files.stem? path).getD path)
    Run.declareFrom c (.ofModule c name world)

theorem Eval.importPath_eq (config : Config) (ev : Evaluator) (path : String) (c : CtxId) :
    importPath config ev path c =
      importWith config path c fun code world => program ev world code := rfl

namespace Run

/-- What is seen of the machine. -/
def peek {α : Type} (g : Machine → α) : Run α := fun m => .ok (g m) m

theorem bind_apply {α β : Type} (x : Run α) (k : α → Run β) (m : Machine) :
    (x >>= k) m = match x m with
      | .ok a m' => k a m'
      | .error stop m' => .error stop m' := by
  show EStateM.bind x k m = _
  rw [EStateM.bind]
  cases x m <;> rfl

theorem letGo_apply (sought : Graph → CtxId) (m : Machine) :
    letGo sought m = .ok () m ∨ ∃ outside, m.outside = some outside ∧
      letGo sought m = .ok () { m with store := m.store.release (m.held ++ outside) } := by
  unfold letGo
  cases m.outside with
  | none => exact .inl rfl
  | some outside =>
    dsimp only
    split
    · exact .inl rfl
    · exact .inr ⟨outside, rfl, rfl⟩

theorem holding_map {α β : Type} (holds : List Hold) (x : Run α) (g : α → β) :
    holding holds (x >>= fun a => pure (g a)) = holding holds x >>= fun a => pure (g a) := by
  funext m
  rw [bind_apply, holding, holding, ensuring, ensuring, bind_apply]
  cases x { m with held := holds ++ m.held } <;> rfl

/-- What is held meanwhile makes no difference to what is seen. -/
theorem holding_storeFrom (holds : List Hold) (c : CtxId) :
    holding holds (storeFrom c) = holding holds (letGo (·.origin c)) >>= fun _ => store := by
  funext m
  rw [bind_apply, holding, holding, ensuring, ensuring, storeFrom, bind_apply]
  rcases letGo_apply (·.origin c) { m with held := holds ++ m.held } with h | ⟨outside, -, h⟩ <;>
  · rw [h]
    rfl

/-- Drops the constructor arguments of an instance. -/
def clearArguments (c : CtxId) (m : Machine) : Machine :=
  { m with store := { m.store with graph := m.store.graph.clearArguments c } }

/-- Declares a variable with a new cell and goes on with that cell. -/
def declareNew {α : Type} (c : CtxId) (cell : Cell) (rest : CellId → Run α) : Run α := do
  let i ← newCell cell
  declare (.ofVar c cell.name cell.name i)
  rest i

/-- A relation between runs with a footprint that is respected by all that runs are made of. -/
structure Logic where
  Rel : Footprint → {α : Type} → Run α → Run α → Prop
  blocks_of_clean {c : CtxId} {α : Type} {x y : Run α} : Rel .clean x y → Rel (.blocks c) x y
  names_of_blocks {c : CtxId} {α : Type} {x y : Run α} : Rel (.blocks c) x y → Rel (.names c) x y
  setup_of_names {c : CtxId} {α : Type} {x y : Run α} : Rel (.names c) x y → Rel (.setup c) x y
  pure {α : Type} (a : α) : Rel .clean (pure a) (pure a)
  raise {α : Type} (fault : Fault) : Rel .clean (raise fault : Run α) (raise fault)
  panic {α : Type} (f : FileId) (v : Value) : Rel .clean (panic f v : Run α) (panic f v)
  outOfFuel {α : Type} : Rel .clean (outOfFuel : Run α) outOfFuel
  look {f : Footprint} {α β : Type} (g : Machine → α) {k l : α → Run β} :
    (∀ m, Rel f (k (g m)) (l (g m))) → Rel f (peek g >>= k) (peek g >>= l)
  bind {f : Footprint} {α β : Type} {x y : Run α} {k l : α → Run β} :
    Rel f x y → (∀ a, Rel f (k a) (l a)) → Rel f (x >>= k) (y >>= l)
  locating {f : Footprint} {α : Type} {x y : Run α} (span : Span) :
    Rel f x y → Rel f (locating span x) (locating span y)
  holding {f : Footprint} {α : Type} {x y : Run α} (holds : List Hold) :
    Rel f x y → Rel f (holding holds x) (holding holds y)
  inScope {c : CtxId} {α : Type} {x y : Run α} :
    Rel (.names c) x y → Rel (.blocks c) (inScope c x) (inScope c y)
  inCall {f : Footprint} {α : Type} {x y : Run α} (name : String) (span : Span) :
    Rel f x y → Rel f (inCall name span x) (inCall name span y)
  letGo (sought : Graph → CtxId) : Rel .clean (letGo sought) (letGo sought)
  newContext (kind : ContextKind) {α : Type} {x y : CtxId → Run α} :
    (∀ c, Rel (.setup c) (x c) (y c)) → Rel .clean (newContext kind >>= x) (newContext kind >>= y)
  newCell (cell : Cell) : Rel .clean (newCell cell) (newCell cell)
  editCell {α : Type} (i : CellId) (f : Handles → Edit α) :
    Rel .clean (editCell i f) (editCell i f)
  newClosure (params : List Param) (body : Block) (c : CtxId) :
    Rel .clean (Eval.newClosure params body c) (Eval.newClosure params body c)
  copy (v : Value) : Rel .clean (copy v) (copy v)
  declareNew {c : CtxId} {α : Type} (cell : Cell) {x y : CellId → Run α} :
    (∀ i, Rel (.names c) (x i) (y i)) →
      Rel (.names c) (declareNew c cell x) (declareNew c cell y)
  declareFunc {c : CtxId} (func : Func) :
    Rel (.names c) (declare (.ofFunc c func)) (declare (.ofFunc c func))
  bindCell {c : CtxId} (name : String) (i : CellId) :
    Rel (.setup c) (bindCell c name i) (bindCell c name i)
  declareArgument {c : CtxId} (name : String) (i : CellId) :
    Rel (.setup c) (declare (.ofArgument c name i)) (declare (.ofArgument c name i))
  clearingArguments {c : CtxId} {α : Type} {x y : Run α} :
    Rel (.setup c) x y →
      Rel (.setup c) (x.ensuring (clearArguments c)) (y.ensuring (clearArguments c))
  declareClass (c : CtxId) (decl : ClassDecl) :
    Rel .clean (declare (.ofClass c decl)) (declare (.ofClass c decl))
  nameModule (c : CtxId) (name : String) :
    Rel .clean (modifyGraph (·.nameModule c name)) (modifyGraph (·.nameModule c name))
  importWith (config : Config) (path : String) (c : CtxId) {x y : Program → CtxId → Run Unit} :
    (∀ code world, Rel (.names world) (x code world) (y code world)) →
      Rel .clean (Eval.importWith config path c x) (Eval.importWith config path c y)
  onDisk {α : Type} (f : Files.Disk → Except Fault α × Files.Disk) :
    Rel .clean (onDisk f) (onDisk f)
  modifyOutput (f : Output → Output) :
    Rel .clean (modify fun m => { m with output := f m.output })
      (modify fun m => { m with output := f m.output })
  nextLine : Rel .clean nextLine nextLine

namespace Logic

variable {L : Logic} {f : Footprint} {c : CtxId} {α β : Type}

/-- The logic relates a run to itself. -/
abbrev Keeps (L : Logic) (f : Footprint) (x : Run α) : Prop := L.Rel f x x

theorem of_clean {x y : Run α} (h : L.Rel .clean x y) : L.Rel f x y := by
  cases f with
  | clean => exact h
  | blocks c => exact L.blocks_of_clean h
  | names c => exact L.names_of_blocks (L.blocks_of_clean h)
  | setup c => exact L.setup_of_names (L.names_of_blocks (L.blocks_of_clean h))

theorem ret (a : α) : L.Keeps f (Pure.pure a) := of_clean (L.pure a)

theorem fault (e : Fault) : L.Keeps f (Run.raise e : Run α) := of_clean (L.raise e)

theorem see (g : Machine → α) : L.Keeps f (peek g) := by
  rw [Keeps, ← bind_pure (peek g)]
  exact L.look g fun _ => ret _

theorem ofExcept (r : Except Fault α) : L.Keeps f (Run.ofExcept r) := by
  cases r with
  | ok a => exact ret a
  | error e => exact fault e

theorem handles : L.Keeps f Run.handles := see _

theorem graph : L.Keeps f Run.graph := see _

theorem readCell (i : CellId) : L.Keeps f (Run.readCell i) := see _

theorem paramCell (param : Param) (arg : Arg) : L.Keeps f (Eval.paramCell param arg) := by
  unfold Eval.paramCell
  split
  · refine L.bind (readCell _) fun v => ?_
    refine L.bind handles fun h => ?_
    exact L.bind (ofExcept _) fun _ => ret _
  · refine L.bind handles fun h => ?_
    exact L.bind (ofExcept _) fun v => of_clean (L.newCell _)

theorem bindParams {bind : String → CellId → Run Unit} (h : ∀ name i, L.Keeps f (bind name i)) :
    ∀ params args, L.Keeps f (Eval.bindParams bind params args)
  | [], _ => ret _
  | _ :: _, [] => ret _
  | param :: params, arg :: args => by
    refine L.bind (paramCell param arg) fun i => ?_
    exact L.bind (h param.name i) fun _ => bindParams h params args

theorem declareMethods : ∀ methods, L.Keeps (.names c) (Eval.declareMethods c methods)
  | [] => ret _
  | _ :: rest => L.bind (L.declareFunc _) fun _ => declareMethods rest

/-- Computing something from the handles as they are. -/
theorem ofHandles (g : Handles → Except Fault α) :
    L.Keeps f (do Run.ofExcept (g (← Run.handles))) :=
  L.bind handles fun _ => ofExcept _

end Logic

end Run

end TreeScript
