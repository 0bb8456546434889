import TreeScript.Proofs.Calls.Given
import TreeScript.Proofs.Context.Closed
import TreeScript.Proofs.Run.Logic
import TreeScript.Proofs.Value.Members

/-!
# Logics that keep track of what runs get hold of

A logic of runs says nothing about results. A tracking does: it relates runs in a world, which knows
what a run has got hold of, and what a run gives back is in hand in a later world. What is in hand
may be lost as soon as something else runs, unless it is held meanwhile; what lasts is the context
that the code runs in and whatever is held. `Proofs.Run.Evaluation` walks through the language once
for all trackings. A logic of runs is a tracking that keeps track of nothing.
-/
namespace TreeScript

/-- The values and cells that something names. -/
structure Names where
  values : List Value
  cells : List CellId

/-- What a run has got hold of. -/
structure Grasp where
  /-- A value in hand. -/
  Val : Value → Prop
  /-- A cell in hand. -/
  Cell : CellId → Prop
  /-- A value that is held. -/
  Held : Value → Prop
  /-- A cell that is held. -/
  HeldCell : CellId → Prop
  /-- A context that code runs in, or that is kept for it. -/
  Kept : CtxId → Prop
  /-- The cell holds an integer. -/
  Counter : CellId → Prop

namespace Grasp

/-- What a run always has got hold of, given what it has. -/
structure Lawful (G : Grasp) : Prop where
  val : Value.Hereditary G.Val
  held : Value.Hereditary G.Held
  val_of_held {v : Value} : G.Held v → G.Val v
  cell_of_held {i : CellId} : G.HeldCell i → G.Cell i
  kept_of_object {c : CtxId} : G.Held (.object c) → G.Kept c
  kept_of_module {c : CtxId} : G.Held (.module c) → G.Kept c

/-- What lasts of the one is there in the other. -/
structure Lasts (G G' : Grasp) : Prop where
  held {v : Value} : G.Held v → G'.Held v
  heldCell {i : CellId} : G.HeldCell i → G'.HeldCell i
  kept {c : CtxId} : G.Kept c → G'.Kept c
  counter {i : CellId} : G.Counter i → G'.Counter i

/-- All of the one is there in the other, and what is to be held is held. -/
structure Enters (holds : List Hold) (G G' : Grasp) : Prop extends Lasts G G' where
  val {v : Value} : G.Val v → G'.Val v
  cell {i : CellId} : G.Cell i → G'.Cell i
  held_of_mem {v : Value} : .value v ∈ holds → G.Val v → G'.Held v
  heldCell_of_mem {i : CellId} : .cell i ∈ holds → G.Cell i → G'.HeldCell i

/-- Something may be held: it is in hand. -/
def MayHold (G : Grasp) : Hold → Prop
  | .context c => G.Kept c
  | .cell i => G.Cell i
  | .value v => G.Val v

/-- The callee may be called: its code is kept, or it is a closure in hand. -/
def MayCall (G : Grasp) : Callee → Prop
  | .func f => G.Kept f.owner
  | .closure cl => G.Val (.closure cl)
  | .class _ world => G.Kept world

end Grasp

namespace Names

def none : Names := ⟨[], []⟩

def ofValues (vs : List Value) : Names := ⟨vs, []⟩

instance : Append Names := ⟨fun N N' => ⟨N.values ++ N'.values, N.cells ++ N'.cells⟩⟩

/-- All that is named is in hand. -/
structure Fit (G : Grasp) (N : Names) : Prop where
  values : ∀ v ∈ N.values, G.Val v
  cells : ∀ i ∈ N.cells, G.Cell i

/-- All that is named is held. -/
structure Held (G : Grasp) (N : Names) : Prop where
  values : ∀ v ∈ N.values, G.Held v
  cells : ∀ i ∈ N.cells, G.HeldCell i

/-- The holds are for all values and cells that are named. -/
structure HeldBy (holds : List Hold) (N : Names) : Prop where
  values : ∀ v ∈ N.values, .value v ∈ holds
  cells : ∀ i ∈ N.cells, .cell i ∈ holds

variable {G G' : Grasp} {N N' : Names} {holds : List Hold}

theorem fit_none : none.Fit G := ⟨nofun, nofun⟩

theorem heldBy_none : none.HeldBy holds := ⟨nofun, nofun⟩

theorem HeldBy.append (h : N.HeldBy holds) (h' : N'.HeldBy holds) : (N ++ N').HeldBy holds :=
  ⟨fun v hv => (List.mem_append.mp hv).elim (h.values v) (h'.values v),
    fun i hi => (List.mem_append.mp hi).elim (h.cells i) (h'.cells i)⟩

theorem HeldBy.mono {holds' : List Hold} (h : N.HeldBy holds) (sub : holds ⊆ holds') :
    N.HeldBy holds' :=
  ⟨fun v hv => sub (h.values v hv), fun i hi => sub (h.cells i hi)⟩

theorem Held.lasts (h : N.Held G) (lasts : G.Lasts G') : N.Held G' :=
  ⟨fun v hv => lasts.held (h.values v hv), fun i hi => lasts.heldCell (h.cells i hi)⟩

theorem Held.fit (h : N.Held G) (lawful : G.Lawful) : N.Fit G :=
  ⟨fun v hv => lawful.val_of_held (h.values v hv), fun i hi => lawful.cell_of_held (h.cells i hi)⟩

theorem Fit.held (h : N.Fit G) (held : N.HeldBy holds) (enters : G.Enters holds G') : N.Held G' :=
  ⟨fun v hv => enters.held_of_mem (held.values v hv) (h.values v hv),
    fun i hi => enters.heldCell_of_mem (held.cells i hi) (h.cells i hi)⟩

theorem fit_ofValues {vs : List Value} : (ofValues vs).Fit G ↔ ∀ v ∈ vs, G.Val v :=
  ⟨fun h => h.values, fun h => ⟨h, nofun⟩⟩

theorem fit_append : (N ++ N').Fit G ↔ N.Fit G ∧ N'.Fit G := by
  constructor
  · intro h
    exact ⟨⟨fun v hv => h.values v (List.mem_append_left _ hv),
        fun i hi => h.cells i (List.mem_append_left _ hi)⟩,
      ⟨fun v hv => h.values v (List.mem_append_right _ hv),
        fun i hi => h.cells i (List.mem_append_right _ hi)⟩⟩
  · rintro ⟨h, h'⟩
    exact ⟨fun v hv => (List.mem_append.mp hv).elim (h.values v) (h'.values v),
      fun i hi => (List.mem_append.mp hi).elim (h.cells i) (h'.cells i)⟩

theorem Fit.enters (h : N.Fit G) (enters : G.Enters holds G') : N.Fit G' :=
  ⟨fun v hv => enters.val (h.values v hv), fun i hi => enters.cell (h.cells i hi)⟩

end Names

def Value.names (v : Value) : Names := .ofValues [v]

def Flow.names (flow : Flow) : Names := flow.value.names

def Closure.names (cl : Closure) : Names := Value.names (.closure cl)

def Arg.names (arg : Arg) : Names := ⟨[arg.value], arg.cell.toList⟩

def argNames (args : List Arg) : Names := ⟨args.map (·.value), args.flatMap (·.cell.toList)⟩

def Place.names (p : Place) : Names :=
  match p.root with
  | .inl i => ⟨p.path, [i]⟩
  | .inr v => .ofValues (v :: p.path)

section Names

variable {G : Grasp} {v : Value} {arg : Arg} {args : List Arg} {p : Place}

theorem fit_value : v.names.Fit G ↔ G.Val v :=
  Names.fit_ofValues.trans List.forall_mem_singleton

theorem fit_argNames_cons :
    (argNames (arg :: args)).Fit G ↔ arg.names.Fit G ∧ (argNames args).Fit G := by
  rw [← Names.fit_append]
  rfl

theorem fit_argNames_nil : (argNames []).Fit G := ⟨nofun, nofun⟩

theorem heldBy_value {holds : List Hold} (h : .value v ∈ holds) : v.names.HeldBy holds where
  values _ hv := List.mem_singleton.mp hv ▸ h
  cells := nofun

theorem heldBy_arg : arg.names.HeldBy arg.holds where
  values _ hv := List.mem_singleton.mp hv ▸ List.mem_cons_self
  cells i hi := List.mem_cons_of_mem _ (List.mem_map.mpr ⟨i, hi, rfl⟩)

theorem heldBy_args : (argNames args).HeldBy (args.flatMap Arg.holds) where
  values v hv := by
    obtain ⟨arg, harg, rfl⟩ := List.mem_map.mp hv
    exact List.mem_flatMap.mpr ⟨arg, harg, List.mem_cons_self⟩
  cells i hi := by
    obtain ⟨arg, harg, hi⟩ := List.mem_flatMap.mp hi
    exact List.mem_flatMap.mpr ⟨arg, harg, heldBy_arg.cells i hi⟩

theorem heldBy_place : p.names.HeldBy p.holds := by
  obtain ⟨root, path⟩ := p
  have path {first : Hold} (v : Value) (hv : v ∈ path) : .value v ∈ first :: path.map .value :=
    List.mem_cons_of_mem _ (List.mem_map.mpr ⟨v, hv, rfl⟩)
  cases root with
  | inl i => exact ⟨path, fun j hj => List.mem_singleton.mp hj ▸ List.mem_cons_self⟩
  | inr v =>
    refine ⟨fun u hu => ?_, nofun⟩
    rcases List.mem_cons.mp hu with rfl | hu
    · exact List.mem_cons_self
    · exact path u hu

theorem mayHold_arg (h : arg.names.Fit G) : ∀ hold ∈ arg.holds, G.MayHold hold := by
  refine List.forall_mem_cons.mpr ⟨h.values _ List.mem_cons_self, fun hold hh => ?_⟩
  obtain ⟨i, hi, rfl⟩ := List.mem_map.mp hh
  exact h.cells i hi

theorem mayHold_args (h : (argNames args).Fit G) :
    ∀ hold ∈ args.flatMap Arg.holds, G.MayHold hold := by
  induction args with
  | nil => exact nofun
  | cons arg args ih =>
    obtain ⟨first, rest⟩ := fit_argNames_cons.mp h
    intro hold hh
    rw [List.flatMap_cons] at hh
    exact (List.mem_append.mp hh).elim (mayHold_arg first hold) (ih rest hold)

theorem mayHold_place (h : p.names.Fit G) : ∀ hold ∈ p.holds, G.MayHold hold := by
  obtain ⟨root, path⟩ := p
  have onPath (hv : ∀ v ∈ path, G.Val v) : ∀ hold ∈ path.map Hold.value, G.MayHold hold := by
    intro hold hh
    obtain ⟨v, hmem, rfl⟩ := List.mem_map.mp hh
    exact hv v hmem
  cases root with
  | inl i => exact List.forall_mem_cons.mpr ⟨h.cells i List.mem_cons_self, onPath h.values⟩
  | inr v =>
    obtain ⟨hv, hp⟩ := List.forall_mem_cons.mp h.values
    exact List.forall_mem_cons.mpr ⟨hv, onPath hp⟩

end Names

/-- What code finds in a machine: from the contexts that are kept look-up leads to what is in hand or
kept. Code that has lost its World is found only if the fault that tells of it may be raised. -/
structure Machine.Shows (G : Grasp) (May : Fault → Prop) (m : Machine) : Prop where
  value : ∀ i, G.Cell i → G.Val (m.store.cell i).value
  var : ∀ {c name i}, G.Kept c → m.store.graph.var? c name = some i → G.Cell i
  imported : ∀ {c name world}, G.Kept c → m.store.graph.import? c name = some world →
    G.Val (.module world)
  enclosing : ∀ {c object}, G.Kept c → m.store.graph.enclosingObject? c = some object →
    G.Val (.object object)
  root : ∀ {c}, G.Kept c → G.Kept (m.store.graph.root c)
  func : ∀ {c name f}, G.Kept c → m.store.graph.func? c name = some f → G.Kept f.owner
  localFunc : ∀ {c name f}, G.Kept c → m.store.graph.localFunc? c name = some f → G.Kept f.owner
  member : ∀ {object name i}, G.Val (.object object) →
    m.store.graph.member? object name = some i → G.Cell i
  global : ∀ {world name i}, G.Val (.module world) →
    m.store.graph.localVar? world name = some i → G.Cell i
  live : ∀ {c} name, G.Kept c → m.store.graph.isLive c = false → May (.functionOutlived name)
  followed : ∀ {cl}, G.Val (.closure cl) → m.store.graph.follow cl.captured = none →
    May .closureOutlived

namespace Eval

/-- A call of a function or a closure, with what runs in its context. -/
def callWith {α : Type} (callee : Callee) (args : List Arg) (run : CtxId → Run α) : Run α := do
  let c ← Run.newContext (callee.kind args)
  bindParams (Run.bindCell c) callee.params args
  Run.holding [.context callee.owner, .context c] (run c)

/-- The building of an instance, with what runs in it once it has its methods. -/
def instantiateWith (decl : ClassDecl) (world : CtxId) (args : List Arg)
    (run : CtxId → Run Unit) : Run Value := do
  let c ← Run.newContext ((Callee.class decl world).kind args)
  Run.ensuring
    (do
      bindParams (fun name i => Run.declare (.ofArgument c name i)) decl.params args
      declareMethods c decl.methods
      Run.holding [.context world, .context c] (run c))
    (Run.clearArguments c)
  return .object c

theorem instantiate_eq (ev : Evaluator) (decl : ClassDecl) (world : CtxId) (args : List Arg)
    (span : Span) : instantiate ev decl world args span = (do
      checkArity decl.name decl.params args
      instantiateWith decl world args fun c =>
        Run.inCall decl.name span (construct ev c decl span)) := rfl

end Eval

namespace Run

/-- A relation between runs that keeps track of what they get hold of, and is respected by all that
runs are made of. -/
structure Tracking where
  World : Type
  /-- The second world is the first one or later, with the same things held. -/
  Next : World → World → Prop
  /-- The world with more held. -/
  enter : List Hold → World → World
  grasp : World → Grasp
  /-- A fault that may be raised. -/
  May : Fault → Prop
  /-- Loading gives only faults that may be raised. -/
  Loads : Config → Prop
  next_refl (w : World) : Next w w
  next_trans {w w' w'' : World} : Next w w' → Next w' w'' → Next w w''
  lawful (w : World) : (grasp w).Lawful
  lasts {w w' : World} : Next w w' → (grasp w).Lasts (grasp w')
  enters (holds : List Hold) (w : World) : (grasp w).Enters holds (grasp (enter holds w))
  may_of_plain {fault : Fault} : fault.stray = false → May fault
  Rel : World → Footprint → {α : Type} → (α → Names) → Run α → Run α → Prop
  blocks_of_clean {w : World} {c : CtxId} {α : Type} {ν : α → Names} {x y : Run α} :
    Rel w .clean ν x y → Rel w (.blocks c) ν x y
  names_of_blocks {w : World} {c : CtxId} {α : Type} {ν : α → Names} {x y : Run α} :
    Rel w (.blocks c) ν x y → Rel w (.names c) ν x y
  setup_of_names {w : World} {c : CtxId} {α : Type} {ν : α → Names} {x y : Run α} :
    Rel w (.names c) ν x y → Rel w (.setup c) ν x y
  pure {w : World} {α : Type} {ν : α → Names} (a : α) :
    (ν a).Fit (grasp w) → Rel w .clean ν (pure a) (pure a)
  raise {w : World} {α : Type} {ν : α → Names} {fault : Fault} : May fault →
    Rel w .clean ν (raise fault : Run α) (raise fault)
  panic {w : World} {α : Type} {ν : α → Names} (f : FileId) (v : Value) :
    Rel w .clean ν (panic f v : Run α) (panic f v)
  outOfFuel {w : World} {α : Type} {ν : α → Names} : Rel w .clean ν (outOfFuel : Run α) outOfFuel
  look {w : World} {f : Footprint} {α β : Type} {ν : β → Names} (g : Machine → α)
    {k l : α → Run β} :
    (∀ m, m.Shows (grasp w) May → Rel w f ν (k (g m)) (l (g m))) →
      Rel w f ν (peek g >>= k) (peek g >>= l)
  bind {w : World} {f : Footprint} {α β : Type} {μ : α → Names} {ν : β → Names} {x y : Run α}
    {k l : α → Run β} : Rel w f μ x y →
    (∀ a w', Next w w' → (μ a).Fit (grasp w') → Rel w' f ν (k a) (l a)) →
      Rel w f ν (x >>= k) (y >>= l)
  locating {w : World} {f : Footprint} {α : Type} {ν : α → Names} {x y : Run α} (span : Span) :
    Rel w f ν x y → Rel w f ν (locating span x) (locating span y)
  /-- What is held meanwhile is still in hand afterwards. -/
  holding {w : World} {f : Footprint} {α : Type} {ν : α → Names} {x y : Run α} {holds : List Hold}
    {N : Names} : (∀ hold ∈ holds, (grasp w).MayHold hold) → N.HeldBy holds → N.Fit (grasp w) →
    Rel (enter holds w) f ν x y →
      Rel w f (fun a => ν a ++ N) (holding holds x) (holding holds y)
  inScope {w : World} {c : CtxId} {α : Type} {ν : α → Names} {x y : Run α} : (grasp w).Kept c →
    (∀ w', Next w w' → Rel w' (.names c) ν x y) → Rel w (.blocks c) ν (inScope c x) (inScope c y)
  inCall {w : World} {f : Footprint} {α : Type} {ν : α → Names} {x y : Run α} (name : String)
    (span : Span) : Rel w f ν x y → Rel w f ν (inCall name span x) (inCall name span y)
  letGo {w : World} (sought : Graph → CtxId) :
    Rel w .clean (fun _ => .none) (letGo sought) (letGo sought)
  callWith {w : World} {α : Type} {ν : α → Names} {callee : Callee} {args : List Arg}
    {x y : CtxId → Run α} : callee.IsCode → (grasp w).MayCall callee →
    (argNames args).Fit (grasp w) →
    (∀ c w', (grasp w').Kept c → Rel w' (.names c) ν (x c) (y c)) →
      Rel w .clean ν (Eval.callWith callee args x) (Eval.callWith callee args y)
  instantiateWith {w : World} {decl : ClassDecl} {world : CtxId} {args : List Arg}
    {x y : CtxId → Run Unit} : (grasp w).Kept world → (argNames args).Fit (grasp w) →
    (∀ c w', (grasp w').Kept c → Rel w' (.names c) (fun _ => .none) (x c) (y c)) →
      Rel w .clean Value.names (Eval.instantiateWith decl world args x)
        (Eval.instantiateWith decl world args y)
  /-- An edit whose results are what `κ` says. -/
  editCell {w : World} {α : Type} {κ : α → List Value} {i : CellId} {f : Handles → Edit α}
    {operands : List Value} : (grasp w).Cell i → (∀ v ∈ operands, (grasp w).Val v) →
    (∀ h (V : Value → Prop) [Value.Hereditary V], (∀ v ∈ operands, V v) →
      (f h).Sound h V fun a => ∀ v ∈ κ a, V v) →
      Rel w .clean (fun a => .ofValues (κ a)) (editCell i f) (editCell i f)
  count {w : World} {i : CellId} (n : Int64) : (grasp w).Counter i →
    Rel w .clean (fun _ => .none) (Run.editCell i fun _ => .replace fun _ => .ok (.int n))
      (Run.editCell i fun _ => .replace fun _ => .ok (.int n))
  newClosure {w : World} {c : CtxId} (params : List Param) (body : Block) : (grasp w).Kept c →
    Rel w .clean Value.names (Eval.newClosure params body c) (Eval.newClosure params body c)
  copy {w : World} {v : Value} : (grasp w).Val v → Rel w .clean Value.names (copy v) (copy v)
  declareNew {w : World} {c : CtxId} {α : Type} {ν : α → Names} (cell : TreeScript.Cell)
    {x y : CellId → Run α} : (grasp w).Kept c → (grasp w).Val cell.value →
    (∀ i w', Next w w' → (cell.value.kind = .int → (grasp w').Counter i) →
      Rel w' (.names c) ν (x i) (y i)) →
      Rel w (.names c) ν (declareNew c cell x) (declareNew c cell y)
  declareFunc {w : World} {c : CtxId} (decl : FuncDecl) : (grasp w).Kept c →
    Rel w (.names c) (fun _ => .none) (declare (.ofFunc c ⟨decl, c⟩)) (declare (.ofFunc c ⟨decl, c⟩))
  declareClass {w : World} {c : CtxId} (decl : ClassDecl) : (grasp w).Kept c →
    Rel w .clean (fun _ => .none) (declare (.ofClass c decl)) (declare (.ofClass c decl))
  nameModule {w : World} {c : CtxId} (name : String) : (grasp w).Kept c →
    Rel w .clean (fun _ => .none) (modifyGraph (·.nameModule c name))
      (modifyGraph (·.nameModule c name))
  importWith {w : World} {c : CtxId} {config : Config} (path : String)
    {x y : Program → CtxId → Run Unit} : Loads config → (grasp w).Kept c →
    (∀ code world w', (grasp w').Kept world →
      Rel w' (.names world) (fun _ => .none) (x code world) (y code world)) →
      Rel w .clean (fun _ => .none) (Eval.importWith config path c x)
        (Eval.importWith config path c y)
  onDisk {w : World} {α : Type} {κ : α → List Value}
    (g : Files.Disk → Except Fault α × Files.Disk) :
    (∀ d, Gives (fun a => ∀ v ∈ κ a, v.LeadsNowhere) (g d).1) →
      Rel w .clean (fun a => .ofValues (κ a)) (onDisk g) (onDisk g)
  modifyOutput {w : World} (g : Output → Output) :
    Rel w .clean (fun _ => .none) (modify fun m => { m with output := g m.output })
      (modify fun m => { m with output := g m.output })
  nextLine {w : World} : Rel w .clean (fun _ => .none) nextLine nextLine

namespace Tracking

/-- The value is in hand. -/
abbrev Val (T : Tracking) (w : T.World) : Value → Prop := (T.grasp w).Val

/-- The value is held. -/
abbrev Held (T : Tracking) (w : T.World) : Value → Prop := (T.grasp w).Held

/-- The context is kept. -/
abbrev Kept (T : Tracking) (w : T.World) : CtxId → Prop := (T.grasp w).Kept

/-- All that something names is in hand. -/
abbrev Fits (T : Tracking) (w : T.World) (N : Names) : Prop := N.Fit (T.grasp w)

/-- The tracking relates a run to itself. -/
abbrev Keeps (T : Tracking) (w : T.World) (f : Footprint) {α : Type} (μ : α → Names)
    (x : Run α) : Prop := T.Rel w f μ x x

/-- The machine shows only what there is to get hold of. -/
abbrev Shows (T : Tracking) (w : T.World) (m : Machine) : Prop := m.Shows (T.grasp w) T.May

instance (T : Tracking) (w : T.World) : Value.Hereditary (T.Val w) := (T.lawful w).val

instance (T : Tracking) (w : T.World) : Value.Hereditary (T.Held w) := (T.lawful w).held

variable {T : Tracking} {w w' : T.World} {f : Footprint} {c : CtxId} {α β γ : Type}
  {μ : α → Names} {ν : β → Names}

theorem fits_none : T.Fits w .none := Names.fit_none

theorem val_of_held {v : Value} (h : T.Held w v) : T.Val w v := (T.lawful w).val_of_held h

theorem of_clean {x y : Run α} (h : T.Rel w .clean μ x y) : T.Rel w f μ x y := by
  cases f with
  | clean => exact h
  | blocks c => exact T.blocks_of_clean h
  | names c => exact T.names_of_blocks (T.blocks_of_clean h)
  | setup c => exact T.setup_of_names (T.names_of_blocks (T.blocks_of_clean h))

theorem ret {a : α} (h : T.Fits w (μ a)) : T.Keeps w f μ (Pure.pure a) := of_clean (T.pure a h)

theorem fault {e : Fault} (h : T.May e) : T.Keeps w f μ (Run.raise e : Run α) :=
  of_clean (T.raise h)

theorem plainFault {e : Fault} (h : e.stray = false) : T.Keeps w f μ (Run.raise e : Run α) :=
  fault (T.may_of_plain h)

theorem ofExcept {r : Except Fault α} (h : Gives (fun a => T.Fits w (μ a)) r) :
    T.Keeps w f μ (Run.ofExcept r) := by
  cases r with
  | ok a => exact ret (h.result a rfl)
  | error e => exact plainFault (h.sound e rfl)

/-- Going on after a run whose result names nothing that matters. -/
theorem andThen {x y : Run α} {k l : α → Run β} (h : T.Rel w f μ x y)
    (hk : ∀ a w', T.Next w w' → T.Rel w' f ν (k a) (l a)) : T.Rel w f ν (x >>= k) (y >>= l) :=
  T.bind h fun a w' next _ => hk a w' next

/-- Saying less about the result. -/
theorem weaken {ν' : α → Names} {x y : Run α} (h : T.Rel w f μ x y)
    (hν : ∀ a w', T.Fits w' (μ a) → T.Fits w' (ν' a)) : T.Rel w f ν' x y := by
  have same := T.bind h (k := Pure.pure) (l := Pure.pure) fun a w' _ fits => ret (hν a w' fits)
  rwa [bind_pure, bind_pure] at same

theorem map {x y : Run α} (g : α → β) (h : T.Rel w f μ x y)
    (hg : ∀ a w', T.Fits w' (μ a) → T.Fits w' (ν (g a))) : T.Rel w f ν (g <$> x) (g <$> y) :=
  T.bind h fun a w' _ ha => ret (hg a w' ha)

theorem handles {k l : Handles → Run β} (h : ∀ hs, T.Rel w f ν (k hs) (l hs)) :
    T.Rel w f ν (Run.handles >>= k) (Run.handles >>= l) := T.look _ fun _ _ => h _

theorem graph {k l : Graph → Run β}
    (h : ∀ m, T.Shows w m → T.Rel w f ν (k m.store.graph) (l m.store.graph)) :
    T.Rel w f ν (Run.graph >>= k) (Run.graph >>= l) := T.look (·.store.graph) h

theorem store {k l : Store → Run β}
    (h : ∀ m, T.Shows w m → T.Rel w f ν (k m.store) (l m.store)) :
    T.Rel w f ν (Run.store >>= k) (Run.store >>= l) := T.look (·.store) h

/-- Going on with the result of a computation. -/
theorem given {P : α → Prop} {r : Except Fault α} {k l : α → Run β} (h : Gives P r)
    (hk : ∀ a, P a → T.Rel w f ν (k a) (l a)) :
    T.Rel w f ν (Run.ofExcept r >>= k) (Run.ofExcept r >>= l) := by
  cases r with
  | ok a => exact hk a (h.result a rfl)
  | error e => exact plainFault (h.sound e rfl)

/-- Computing something from the handles as they are. -/
theorem ofHandles {g : Handles → Except Fault α} (h : ∀ hs, Gives (fun a => T.Fits w (μ a)) (g hs)) :
    T.Keeps w f μ (do Run.ofExcept (g (← Run.handles))) :=
  handles fun hs => ofExcept (h hs)

/-- A check that raises a fault before the rest. -/
theorem raiseIf {p : Prop} [Decidable p] {e : Fault} {x y : Run α} (he : p → T.May e)
    (h : T.Rel w f μ x y) :
    T.Rel w f μ (if p then Run.raise e >>= fun (_ : Unit) => x else x)
      (if p then Run.raise e >>= fun (_ : Unit) => y else y) := by
  split
  · rename_i hp
    exact fault (he hp)
  · exact h

theorem readCell {i : CellId} (hi : (T.grasp w).Cell i) :
    T.Keeps w f Value.names (Run.readCell i) := by
  rw [Keeps, ← bind_pure (Run.readCell i)]
  exact T.look (fun m => (m.store.cell i).value) fun m shows => ret (fit_value.mpr (shows.value i hi))

/-- Holding a value meanwhile. -/
theorem holdingValue {v : Value} {x y : Run α} (hv : T.Val w v)
    (h : T.Rel (T.enter [.value v] w) f μ x y) :
    T.Rel w f (fun a => μ a ++ v.names) (Run.holding [.value v] x) (Run.holding [.value v] y) :=
  T.holding (List.forall_mem_singleton.mpr hv) (heldBy_value List.mem_cons_self)
    (fit_value.mpr hv) h

/-- Holding something whose values are not asked for afterwards. -/
theorem during {holds : List Hold} {x y : Run α} (hh : ∀ hold ∈ holds, (T.grasp w).MayHold hold)
    (h : T.Rel (T.enter holds w) f μ x y) :
    T.Rel w f μ (Run.holding holds x) (Run.holding holds y) :=
  weaken (T.holding hh Names.heldBy_none fits_none h) fun _ _ fits => (Names.fit_append.mp fits).1

theorem kept_enter (holds : List Hold) (hc : T.Kept w c) : T.Kept (T.enter holds w) c :=
  (T.enters holds w).kept hc

theorem fits_enter (holds : List Hold) {N : Names} (h : T.Fits w N) : T.Fits (T.enter holds w) N :=
  h.enters (T.enters holds w)

theorem held_enter {holds : List Hold} {v : Value} (hv : T.Val w v) (mem : .value v ∈ holds) :
    T.Held (T.enter holds w) v := (T.enters holds w).held_of_mem mem hv

theorem storeFrom {k l : Store → Run β}
    (h : ∀ w' m, T.Next w w' → T.Shows w' m → T.Rel w' f ν (k m.store) (l m.store)) :
    T.Rel w f ν (Run.storeFrom c >>= k) (Run.storeFrom c >>= l) := by
  rw [Run.storeFrom, bind_assoc, bind_assoc]
  exact andThen (of_clean (T.letGo _)) fun _ w' next => store fun m => h w' m next

theorem graphFrom {k l : Graph → Run β}
    (h : ∀ w' m, T.Next w w' → T.Shows w' m → T.Rel w' f ν (k m.store.graph) (l m.store.graph)) :
    T.Rel w f ν (Run.graphFrom c >>= k) (Run.graphFrom c >>= l) := by
  rw [Run.graphFrom, bind_assoc, bind_assoc]
  simp only [pure_bind]
  exact storeFrom h

/-- Something that is held while nothing is kept without being held is in hand afterwards. -/
theorem holdingLetGo {holds : List Hold} {N : Names} {sought : Graph → CtxId} {k l : Run β}
    (hh : ∀ hold ∈ holds, (T.grasp w).MayHold hold) (hN : N.HeldBy holds) (fits : T.Fits w N)
    (h : ∀ w', T.Next w w' → T.Fits w' N → T.Rel w' f ν k l) :
    T.Rel w f ν (Run.holding holds (Run.letGo sought) >>= fun _ => k)
      (Run.holding holds (Run.letGo sought) >>= fun _ => l) :=
  T.bind (of_clean (T.holding hh hN fits (T.letGo sought))) fun _ w' next after =>
    h w' next (Names.fit_append.mp after).2

theorem holdingStoreFrom {holds : List Hold} {N : Names} {k l : Store → Run β}
    (hh : ∀ hold ∈ holds, (T.grasp w).MayHold hold) (hN : N.HeldBy holds) (fits : T.Fits w N)
    (h : ∀ w' m, T.Next w w' → T.Fits w' N → T.Shows w' m → T.Rel w' f ν (k m.store) (l m.store)) :
    T.Rel w f ν (Run.holding holds (Run.storeFrom c) >>= k)
      (Run.holding holds (Run.storeFrom c) >>= l) := by
  rw [Run.holding_storeFrom, bind_assoc, bind_assoc]
  exact holdingLetGo hh hN fits fun w' next after => store fun m => h w' m next after

theorem holdingGraphFrom {holds : List Hold} {N : Names} {k l : Graph → Run β}
    (hh : ∀ hold ∈ holds, (T.grasp w).MayHold hold) (hN : N.HeldBy holds) (fits : T.Fits w N)
    (h : ∀ w' m, T.Next w w' → T.Fits w' N → T.Shows w' m →
      T.Rel w' f ν (k m.store.graph) (l m.store.graph)) :
    T.Rel w f ν (Run.holding holds (Run.graphFrom c) >>= k)
      (Run.holding holds (Run.graphFrom c) >>= l) := by
  rw [Run.graphFrom, Run.holding_map, bind_assoc, bind_assoc]
  simp only [pure_bind]
  exact holdingStoreFrom hh hN fits h

theorem declareFrom {d : Declaration}
    (h : ∀ w', T.Next w w' → T.Keeps w' .clean (fun _ => .none) (Run.declare d)) :
    T.Keeps w f (fun _ => .none) (Run.declareFrom c d) :=
  andThen (of_clean (T.letGo _)) fun _ w' next => of_clean (h w' next)

end Tracking

end Run

end TreeScript
