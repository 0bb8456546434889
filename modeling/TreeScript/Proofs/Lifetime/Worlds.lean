import TreeScript.Proofs.Imports.Isolation
import TreeScript.Proofs.Lifetime.Survival
import TreeScript.Proofs.Run.Invariants
import TreeScript.Proofs.Run.Sessions

/-!
# Finished Worlds

Instances, calls and closures link back to the World of their code without holding it, and only the
name of an imported module gives a value that holds a World. So a World that nobody has imported is
held by no value and no context, whatever its code has stored, and a release that finds it held by
nobody else lets it go.
-/
namespace TreeScript

variable {s t : Store} {w c d : CtxId} {m : Machine}

theorem holdsItems_eq (g : Graph) (items : List Value) :
    holdsItems g items = items.flatMap (·.holds g) := by
  induction items with
  | nil => rfl
  | cons v rest ih => rw [holdsItems, ih, List.flatMap_cons]

theorem holdsEntries_eq (g : Graph) (entries : List (Key × Value)) :
    holdsEntries g entries = entries.flatMap fun e => e.2.holds g := by
  induction entries with
  | nil => rfl
  | cons e rest ih => rw [holdsEntries, ih, List.flatMap_cons]

namespace Value

/-- Wherever the World is one, the value does not hold it. -/
def Untied (w : CtxId) (v : Value) : Prop := ∀ g : Graph, g.isWorld w = true → w ∉ v.holds g

theorem untied_object (h : c ≠ w) : (object c).Untied w :=
  fun _ _ mem => h (List.mem_singleton.mp mem).symm

theorem untied_module (h : c ≠ w) : (module c).Untied w :=
  fun _ _ mem => h (List.mem_singleton.mp mem).symm

/-- A closure holds no World. -/
theorem untied_closure (cl : Closure) : (closure cl).Untied w := by
  intro g world mem
  rw [holds] at mem
  split at mem
  · cases mem
  · rename_i inner
    rw [List.mem_singleton.mp mem] at world
    exact inner world

theorem untied_list {items : List Value} : (list items).Untied w ↔ ∀ v ∈ items, v.Untied w := by
  simp only [Untied, holds, holdsItems_eq, List.mem_flatMap]
  constructor
  · intro h v hv g world mem
    exact h g world ⟨v, hv, mem⟩
  · rintro h g world ⟨v, hv, mem⟩
    exact h v hv g world mem

theorem holds_dict (g : Graph) (d : Dict Value) :
    (dict d).holds g = d.entries.flatMap fun e => e.2.holds g := by
  cases d with
  | undetermined => rfl
  | ofKind kind entries => exact holdsEntries_eq g entries

theorem untied_dict {dict : Dict Value} :
    (Value.dict dict).Untied w ↔ ∀ e ∈ dict.entries, e.2.Untied w := by
  simp only [Untied, holds_dict, List.mem_flatMap]
  constructor
  · intro h e he g world mem
    exact h g world ⟨e, he, mem⟩
  · rintro h g world ⟨e, he, mem⟩
    exact h e he g world mem

mutual

/-- What a value holds it names. -/
theorem holds_subset (g : Graph) : ∀ v : Value, v.holds g ⊆ v.contexts
  | .list items | .tuple items => holdsItems_subset g items
  | .dict (.ofKind _ entries) => holdsEntries_subset g entries
  | .some v => holds_subset g v
  | .closure cl => by
    rw [holds]
    split
    · exact List.nil_subset _
    · exact List.Subset.refl _
  | .object _ | .module _ => List.Subset.refl _
  | .int _ | .float _ | .bool _ | .char _ | .str _ | .dict .undetermined | .none | .file _
  | .unit => List.nil_subset _

theorem holdsItems_subset (g : Graph) :
    ∀ items : List Value, holdsItems g items ⊆ contextsOfItems items
  | [] => List.nil_subset _
  | v :: rest => fun _ h => (List.mem_append.mp h).elim
      (fun h => List.mem_append_left _ (holds_subset g v h))
      (fun h => List.mem_append_right _ (holdsItems_subset g rest h))

theorem holdsEntries_subset (g : Graph) :
    ∀ entries : List (Key × Value), holdsEntries g entries ⊆ contextsOfEntries entries
  | [] => List.nil_subset _
  | (_, v) :: rest => fun _ h => (List.mem_append.mp h).elim
      (fun h => List.mem_append_left _ (holds_subset g v h))
      (fun h => List.mem_append_right _ (holdsEntries_subset g rest h))

end

theorem untied_of_eq_nil {v : Value} (none : v.contexts = []) : v.Untied w := by
  intro g _ mem
  have named := holds_subset g v mem
  rw [none] at named
  cases named

instance : Hereditary (Untied w) :=
  .of_contents untied_of_eq_nil untied_list untied_list untied_dict Iff.rfl

end Value

/-- Nothing in the store holds the World: no value of a cell, be it a variable, a member or a
constructor argument, and no context by its link to its owner or by what it has imported. -/
structure Store.Unheld (s : Store) (w : CtxId) : Prop where
  world : s.graph.isWorld w = true
  values : ∀ i, (s.cell i).value.Untied w
  kinds : ∀ c kind, s.graph.kind? c = some kind → w ∉ kind.holds s.graph

/-- A context holds a World only if it has imported it. -/
theorem ContextKind.mem_holds_of_isWorld {g : Graph} {kind : ContextKind}
    (world : g.isWorld w = true) : w ∈ kind.holds g ↔ w ∈ kind.imports.map Prod.snd := by
  have owned (o : CtxId) : w ∉ (if g.isWorld o then [] else [o]) := by
    intro mem
    split at mem
    · cases mem
    · rename_i inner
      rw [List.mem_singleton.mp mem] at world
      exact inner world
  cases kind with
  | world module classes imports => rfl
  | call o name => exact iff_of_false (owned o) List.not_mem_nil
  | object o decl arguments members => exact iff_of_false (owned o) List.not_mem_nil
  | closure o => exact iff_of_false (owned o) List.not_mem_nil

namespace Store.Unheld

variable {kind : ContextKind}

theorem imports (h : s.Unheld w) (hk : s.graph.kind? c = some kind) : ∀ e ∈ kind.imports, e.2 ≠ w := by
  rintro e he rfl
  exact h.kinds c kind hk
    ((ContextKind.mem_holds_of_isWorld h.world).mpr (List.mem_map_of_mem he))

theorem of_imports (world : s.graph.isWorld w = true) (values : ∀ i, (s.cell i).value.Untied w)
    (imports : ∀ c kind, s.graph.kind? c = some kind → ∀ e ∈ kind.imports, e.2 ≠ w) :
    s.Unheld w where
  world := world
  values := values
  kinds c kind hk mem := by
    obtain ⟨e, he, same⟩ := List.mem_map.mp ((ContextKind.mem_holds_of_isWorld world).mp mem)
    exact imports c kind hk e he same

theorem lt (h : s.Unheld w) : w < s.graph.size := Graph.lt_of_isWorld h.world

/-- A store that comes from another holds the World no more than that one if its values and its
imports do not. -/
theorem of_extends (h : s.Unheld w) (grown : s.Extends t)
    (values : ∀ i, (t.cell i).value.Untied w)
    (imports : ∀ c kind, t.graph.kind? c = some kind → ∀ e ∈ kind.imports, e.2 ≠ w) :
    t.Unheld w :=
  of_imports (by rw [Graph.isWorld_eq, grown.skeletons w h.lt, ← Graph.isWorld_eq, h.world])
    values imports

/-- A change of one context that imports nothing but what is untied. -/
theorem update (h : s.Unheld w) {f : Context → Context} (c : CtxId)
    (skeleton : ∀ ctx, (f ctx).kind.skeleton = ctx.kind.skeleton)
    (imports : ∀ ctx, (∀ e ∈ ctx.kind.imports, e.2 ≠ w) → ∀ e ∈ (f ctx).kind.imports, e.2 ≠ w) :
    (s.modifyGraph (·.update c f)).Unheld w := by
  refine h.of_extends (.update s c f skeleton) h.values fun d kind hk => ?_
  change (s.graph.update c f).kind? d = some kind at hk
  rw [Graph.kind?, Graph.context?_update] at hk
  split at hk
  · obtain ⟨ctx, hctx, rfl⟩ := Option.map_eq_some_iff.mp hk
    obtain ⟨old, hold, rfl⟩ := Option.map_eq_some_iff.mp hctx
    exact imports old (h.imports (c := d) (Option.map_eq_some_iff.mpr ⟨old, hold, rfl⟩))
  · exact h.imports hk

theorem addContext (h : s.Unheld w) (bare : kind.imports = []) : (s.addContext kind).2.Unheld w := by
  refine h.of_extends (.addContext s kind) h.values fun d kind' hk => ?_
  change (s.graph.add kind).2.kind? d = some kind' at hk
  rw [Graph.kind?_add] at hk
  split at hk
  · cases hk
    rw [bare]
    exact nofun
  · exact h.imports hk

theorem addCell (h : s.Unheld w) {cell : Cell} (hv : cell.value.Untied w) :
    (s.addCell cell).2.Unheld w :=
  have values := forall_values_addCell (Q := fun _ => True) (fun i _ => h.values i) hv
  h.of_extends (.addCell s cell) (fun i => values i trivial) fun _ _ => h.imports

theorem setValue (h : s.Unheld w) {v : Value} (i : CellId) (hv : v.Untied w) :
    (s.setValue i v).Unheld w :=
  have values := forall_values_setValue (Q := fun _ => True) (i := i) (fun j _ => h.values j) hv
  h.of_extends (.ofCells rfl (by simp [Store.setValue])) (fun j => values j trivial)
    fun _ _ => h.imports

theorem release (h : s.Unheld w) (holds : List Hold) : (s.release holds).Unheld w := by
  refine h.of_extends (.release s holds) h.values fun d kind hk => ?_
  rw [kind?_release] at hk
  exact h.imports hk

end Store.Unheld

/-- That nothing holds a World is an invariant. -/
def Store.unheld (w : CtxId) : Store.Invariant where
  Inv s := s.Unheld w
  Val := Value.Untied w
  hereditary := inferInstance
  closure := Value.untied_closure
  object {s c} h object := by
    refine Value.untied_object ?_
    rintro rfl
    cases h.world.symm.trans (Graph.isWorld_of_isObject object)
  imported {s c world name} h found := by
    refine Value.untied_module ?_
    rw [Graph.import?] at found
    split at found
    · rename_i module classes imports hk
      obtain ⟨before, after, he, -⟩ := List.lookup_eq_some_iff.mp found
      exact h.imports hk (name, world) (by simp [ContextKind.imports, he])
    · cases found
  value i h := h.values i
  contextAdded _ h bare := h.addContext bare
  cellAdded _ h hv := h.addCell hv
  cellWritten i h hv := h.setValue i hv
  closureMade h := ⟨h.world, h.values, h.kinds⟩
  released holds h := h.release holds
  updated c h mild := h.update c mild.skeleton fun ctx imports => mild.imports ctx ▸ imports
  funcDeclared c _ h := h.update c (fun _ => rfl) fun _ => id
  moduleDeclared {s t} c name hs ht := by
    refine ht.update _ (fun ctx => Declaration.skeleton_addModule name _ ctx.kind) ?_
    intro ctx
    cases hk : ctx.kind with
    | world module classes imports =>
      exact fun h => List.forall_mem_cons.mpr ⟨Nat.ne_of_gt hs.lt, h⟩
    | _ => exact id

/-- The hold is for something else than the World. -/
def Hold.Spares (w : CtxId) : Hold → Prop
  | .context c => c ≠ w
  | .cell _ => True
  | .value v => v.Untied w

/-- No link leads to the World any more. -/
structure Graph.Gone (g : Graph) (w : CtxId) : Prop where
  dead : g.isLive w = false
  followed : g.follow w = none
  owned : ∀ c, g.owner? c ≠ some w

namespace Store.Unheld

theorem heldBy (h : s.Unheld w) (c : CtxId) : w ∉ s.heldBy c := by
  intro mem
  obtain ⟨ctx, hctx, kind | ⟨i, -, value⟩⟩ := mem_heldBy.mp mem
  · exact h.kinds c ctx.kind (Option.map_eq_some_iff.mpr ⟨ctx, hctx, rfl⟩) kind
  · exact h.values i s.graph h.world value

/-- A World that the store does not hold is gone after a release, if nothing else holds it. -/
theorem gone (h : s.Unheld w) {holds : List Hold} (spared : ∀ hold ∈ holds, hold.Spares w) :
    (s.release holds).graph.Gone w := by
  have outside : ∀ hold ∈ holds, w ∉ hold.contexts s := by
    intro hold hh mem
    have spares := spared hold hh
    cases hold with
    | context c => exact spares (List.mem_singleton.mp mem).symm
    | cell i => exact h.values i s.graph h.world mem
    | value v => exact spares s.graph h.world mem
  have dead := isLive_release_of_unheld outside h.heldBy
  have followed : (s.release holds).graph.follow w = none := by
    rw [Graph.follow, (h.release holds).world, dead]
    rfl
  refine ⟨dead, followed, fun c owned => ?_⟩
  rw [Graph.owner?] at owned
  split at owned
  · cases owned
  · split at owned
    · obtain rfl := Graph.eq_of_follow owned
      cases followed.symm.trans owned
    · cases owned

/-- Nothing holds a World that has just come about. -/
theorem addWorld (closed : Region.all.Closed s) :
    (s.addContext .emptyWorld).2.Unheld s.graph.size := by
  refine of_imports (Graph.isWorld_add_self _) (fun i => ?_) fun d kind hk => ?_
  · rcases Nat.lt_or_ge i s.cells.size with lt | ge
    · intro g _ mem
      have named := closed.values i ⟨Nat.zero_le i, lt⟩ _ (Value.holds_subset g _ mem)
      exact Nat.lt_irrefl _ named.2
    · show (s.cell i).value.Untied _
      rw [value_cell_of_ge ge]
      exact Value.Hereditary.unit
  · change (s.graph.add .emptyWorld).2.kind? d = some kind at hk
    rw [Graph.kind?_add] at hk
    split at hk
    · cases hk
      exact nofun
    · have there := Graph.lt_of_kind? hk
      exact fun e he => Nat.ne_of_lt ((closed.of_kind? ⟨Nat.zero_le d, there⟩ hk).2 e he).2

end Store.Unheld

namespace Eval

theorem tracked_statement (line : Stmt) (c : CtxId) :
    Run.Tracked (.names c) [c] .none Value.names fun ev => do
      return (← Run.holding [.context c] (ev.stmt line c)).value := by
  intro T w ev₁ ev₂ h kept _
  have hc := kept c List.mem_cons_self
  have held := h.stmt _ line c (Run.Tracking.kept_enter [.context c] hc)
  exact T.bind (Run.Tracking.during (List.forall_mem_singleton.mpr hc) held)
    fun _ _ _ fits => Run.Tracking.ret fits

theorem tracked_callback (closure : Closure) (args : List Value) (span : Span) :
    Run.Tracked .clean [] (.ofValues (.closure closure :: args)) Value.names
      (callback · span closure args) := by
  intro T w ev₁ ev₂ h _ fits
  obtain ⟨hc, ha⟩ := List.forall_mem_cons.mp (Names.fit_ofValues.mp fits)
  exact Run.Tracking.callback h span w closure args hc ha

variable {config : Config} {fuel : Nat}

/-- A module whose import fails is held by nothing, if it has come about at all. -/
theorem ends_importPath_unheld (config : Config) (fuel : Nat) (path : String) (c : CtxId)
    (closed : Region.all.Closed m.store) :
    Run.Ends (importPath config (evaluator config fuel) path c) m (fun _ _ => True)
      fun m' => m'.store = m.store ∨ m'.store.Unheld m.store.graph.size := by
  rw [importPath_eq, Run.Ends]
  rcases importWith_cases config path c m with ⟨fault, stopped, -⟩ | ⟨code, there⟩
  · rw [stopped]
    exact .inl rfl
  · rw [there]
    have ran := (Store.unheld m.store.graph.size).ends (tracked_program code m.store.graph.size)
      config fuel (m := m.forModule path) (Store.Unheld.addWorld closed)
      (List.forall_mem_nil _)
    cases hr : program (evaluator config fuel) m.store.graph.size code (m.forModule path) with
    | error stop m' =>
      rw [Run.Ends, hr] at ran
      rw [importCode_error hr]
      exact .inr ran.1
    | ok _ m₂ =>
      rw [Run.Ends, hr] at ran
      obtain ⟨m₃, name, letsGo, named⟩ := nameImport_cases path c m.store.graph.size
        { m₂ with importing := m₂.importing.tail }
      have unheld : m₃.store.Unheld m.store.graph.size :=
        Store.Invariant.letsGo (w := ⟨m₂.scene, ran.1.1⟩) letsGo
      rw [importCode_ok hr, Run.ensuring, named, Run.declare_apply]
      cases (Declaration.ofModule c name m.store.graph.size).obstacle? m₃.store.graph with
      | none => trivial
      | some fault => exact .inr unheld

end Eval

/-- **Finished Worlds.** In every session that is handed nothing that holds its World, at every moment
of every use, nothing in the store holds the World, and nothing that a use gives does. The same goes
for any World that nothing holds at the beginning of some work, and for a module whose import fails.
A release that finds such a World held by nobody else lets it go, and no link leads to it then. -/
theorem finished_worlds_released (config : Config) (fuel : Nat) :
    (∀ (m : Machine) (s : Session), Region.all.Closed m.store →
      Relation.ReflTransGen (Session.StepIf fun s work => ∀ v ∈ work.values, v.Untied s.world)
        (Session.start config fuel m) s →
      s.machine.store.Unheld s.world ∧ s.machine.held = m.held ∧
      (∀ work, s.MayDo work → (∀ v ∈ work.values, v.Untied s.world) →
        Throughout s.config s.fuel (fun _ m' => m'.store.Unheld s.world) work.run s.machine) ∧
      (∀ line v, (s.runLine line).1 = .value v → v.Untied s.world) ∧
      ∀ closure args span v m', (∀ arg ∈ args, arg.Untied s.world) →
        Run.closure s.config s.fuel closure args span s.machine = .ok v m' → v.Untied s.world) ∧
    (∀ (work : Work) (m : Machine) (w : CtxId), m.store.Unheld w →
      (∀ v ∈ work.values, v.Untied w) →
      Throughout config fuel (fun _ m' => m'.store.Unheld w) work.run m ∧
      (work.after config fuel m).store.Unheld w ∧ (work.after config fuel m).held = m.held) ∧
    (∀ (m : Machine) (path : String) (c : CtxId), Region.all.Closed m.store →
      Run.Ends (Eval.importPath config (evaluator config fuel) path c) m (fun _ _ => True)
        fun m' => m'.store = m.store ∨ m'.store.Unheld m.store.graph.size) ∧
    ∀ (s : Store) (w : CtxId) (holds : List Hold), s.Unheld w → (∀ hold ∈ holds, hold.Spares w) →
      (s.release holds).graph.Gone w := by
  refine ⟨fun m s closed steps => ?_, fun work m w unheld untied => ?_, ?_, ?_⟩
  · have started : (Session.start config fuel m).machine.store.Unheld m.store.graph.size :=
      .addWorld closed
    obtain ⟨unheld, held, setting⟩ := Session.keeps (I := Store.unheld m.store.graph.size) steps
      (fun _ _ own v hv => by rw [own] at hv; cases hv)
      (fun _ _ same untied => by rw [same] at untied; exact untied) started
    have world : s.world = m.store.graph.size := setting.world
    rw [world]
    refine ⟨unheld, held, fun work _ untied => ?_, fun line v given => ?_,
      fun closure args span v m' untied ran => ?_⟩
    · exact (Store.unheld _).throughout work.tracked unheld untied
    · have ends := (Store.unheld m.store.graph.size).ends (Eval.tracked_statement line s.world)
        s.config s.fuel unheld nofun
      obtain ⟨m', ran⟩ := Session.statement_of_runLine given
      rw [Run.statement] at ran
      rw [Run.Ends, ran] at ends
      exact ends.2 v List.mem_cons_self
    · have ends := (Store.unheld m.store.graph.size).ends
        (Eval.tracked_callback closure args span) s.config s.fuel unheld
        (List.forall_mem_cons.mpr ⟨Value.untied_closure closure, untied⟩)
      rw [Run.closure] at ran
      rw [Run.Ends, ran] at ends
      exact ends.2 v List.mem_cons_self
  · obtain ⟨kept, held⟩ := Work.keeps (I := Store.unheld w) config fuel unheld untied
    exact ⟨(Store.unheld w).throughout work.tracked unheld untied, kept, held⟩
  · exact fun m path c closed => Eval.ends_importPath_unheld config fuel path c closed
  · exact fun s w holds unheld spared => unheld.gone spared

/-- A program keeps a closure that it creates itself, one that a function returns from its call, and
an instance with a closure in a member. Its World is there as long as it is held, and then it is
gone. A line that names a value of the program keeps nothing of the World either, and a module that
fails is held by nothing. -/
theorem finished_worlds_released_closures :
    let span : Span := ⟨0, 1⟩
    let expr (node : ExprNode) : Expr := ⟨node, span⟩
    let make (name : String) (value : ExprNode) : Stmt :=
      ⟨.letVar name none (expr value) .none, span⟩
    let closure : ExprNode := .closure [] [⟨.ret (some (expr (.name "f"))), span⟩]
    let outer : FuncDecl := ⟨"outer", [], none, [⟨.ret (some (expr closure)), span⟩], .none⟩
    let classDecl : ClassDecl := ⟨"P", [], [⟨"n", none, expr closure, .none, span⟩], [], .none⟩
    let program : Program := [make "f" closure, ⟨.defFunc outer, span⟩,
      make "g" (.call "outer" []), ⟨.defClass classDecl, span⟩, make "p" (.call "P" [])]
    let broken : Program := [make "f" closure, ⟨.expr (expr (.name "y")), span⟩]
    let config : Config := ⟨[], some (Loader.ofList [("m", broken)])⟩
    let start := Session.start config 8 (.start .empty .silent [] none)
    let s := (start.runProgram program).2
    let fails := (Eval.importPath config (evaluator config 8) "m" start.world).after start.machine
    (start.runProgram program).1 = .completed ∧
      (s.machine.store.release [.context s.world]).graph.isLive s.world = true ∧
      (s.machine.store.release []).graph.Gone s.world ∧
      ((Work.line ⟨.expr (expr (.name "g")), span⟩ s.world).after config 8 s.machine).store.Unheld
        s.world ∧
      (fails.store.release [.context start.world]).graph.Gone start.machine.store.graph.size := by
  intro span expr make closure outer classDecl program broken config start s fails
  obtain ⟨sessions, works, imports, released⟩ := finished_worlds_released config 8
  have steps : Relation.ReflTransGen
      (Session.StepIf fun s work => ∀ v ∈ work.values, v.Untied s.world) start s :=
    .single (.batch start program)
  obtain ⟨unheld, -⟩ := sessions _ s Region.closed_empty steps
  refine ⟨by decide +kernel, by decide +kernel, released _ _ _ unheld (List.forall_mem_nil _),
    (works (.line _ s.world) _ _ unheld (List.forall_mem_nil _)).2.1, ?_⟩
  have stops : (Eval.importPath config (evaluator config 8) "m" start.world).stop? start.machine ≠
      none := by decide +kernel
  have grown : fails.store.graph.size ≠ start.machine.store.graph.size := by decide +kernel
  have closed : Region.all.Closed start.machine.store := by
    have empty : Region.all.Closed Store.empty := Region.closed_empty
    exact empty.addContext (by rintro _ ⟨⟩) ⟨rfl, rfl⟩
  have left : fails.store = start.machine.store ∨
      fails.store.Unheld start.machine.store.graph.size :=
    Run.Ends.after_stop (imports start.machine "m" start.world closed) stops
  refine released _ _ _ (left.resolve_left fun same => grown (congrArg (·.graph.size) same)) ?_
  refine List.forall_mem_singleton.mpr ?_
  show start.world ≠ start.machine.store.graph.size
  decide

end TreeScript
