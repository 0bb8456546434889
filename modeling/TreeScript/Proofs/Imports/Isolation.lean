import TreeScript.Proofs.Run.Accounts
import TreeScript.Session

/-!
# Imports

A module runs in a World of its own, in a region that leads to nothing that was there before. So
whatever its code does and however it ends, all that was there stays as it was, until the World of
the importer comes to know the module.
-/
namespace TreeScript

variable {s t u : Store} {g g' : Graph} {c : CtxId} {m m' : Machine}

namespace Graph

/-- A chain that ends in a World ends in the one that the code was declared in. -/
theorem getLastD_chainUpTo (n : Nat) (c d : CtxId) :
    g.isWorld ((g.chainUpTo n c).getLastD d) → (g.chainUpTo n c).getLastD d = g.originUpTo n c := by
  induction n generalizing c d with
  | zero => exact fun _ => rfl
  | succ n ih =>
    rw [chainUpTo, originUpTo]
    cases ho : g.owner? c with
    | none =>
      intro world
      cases hk : g.kind? c with
      | none => rfl
      | some kind =>
        have world : kind.isWorld = true := by simpa [isWorld, hk] using world
        cases kind with
        | world => rfl
        | _ => cases world
    | some o =>
      rw [List.getLastD_cons]
      intro world
      have hlt := lt_of_owner? ho
      have owned : (g.kind? c).bind ContextKind.owner? = some o := by
        unfold owner? at ho
        split at ho
        · cases ho
        · rename_i p hp
          split at ho
          · exact hp.trans (congrArg some (eq_of_follow ho))
          · cases ho
      rw [owned]
      dsimp only
      rw [if_pos hlt]
      exact ih o c world

theorem root_eq_origin (world : g.isWorld (g.root c)) : g.root c = g.origin c :=
  getLastD_chainUpTo c c c world

theorem kind?_congr (same : g'.contents? c = g.contents? c) : g'.kind? c = g.kind? c := by
  have key (g : Graph) : g.kind? c = (g.contents? c).map (·.kind) := by
    rw [kind?, contents?, Option.map_map]
    rfl
  rw [key, key, same]

/-- Owners are older than what they own, so the origin hangs on old contexts only. -/
theorem origin_congr {n : Nat} (same : ∀ d < n, g'.contents? d = g.contents? d) (hc : c < n) :
    g'.origin c = g.origin c ∧ g.origin c < n := by
  have upTo : ∀ k c, c < n → g'.originUpTo k c = g.originUpTo k c ∧ g.originUpTo k c < n := by
    intro k
    induction k with
    | zero => exact fun c hc => ⟨rfl, hc⟩
    | succ k ih =>
      intro c hc
      rw [originUpTo, originUpTo, kind?_congr (same c hc)]
      cases (g.kind? c).bind ContextKind.owner? with
      | none => exact ⟨rfl, hc⟩
      | some o =>
        dsimp only
        split
        · rename_i hlt
          exact ih o (Nat.lt_trans hlt hc)
        · exact ⟨rfl, hc⟩
  exact upTo c c hc

end Graph

namespace Store

/-- All that was there is there as it was: every context with all that it holds, and every cell. -/
structure Untouched (s t : Store) : Prop where
  contexts : ∀ c < s.graph.size, t.graph.contents? c = s.graph.contents? c
  cells : ∀ i < s.cells.size, t.cell i = s.cell i

/-- A World comes to know a module under a name that it did not know. All else is there as it
was. -/
structure Gains (s t : Store) (root : CtxId) (name : String) (world : CtxId) : Prop where
  free : ∃ module classes imports,
    s.graph.kind? root = some (.world module classes imports) ∧ imports.lookup name = none
  gained : t.graph.contents? root = (s.graph.contents? root).map fun ctx =>
    { ctx with kind := Declaration.addModule name world ctx.kind }
  contexts : ∀ c < s.graph.size, c ≠ root → t.graph.contents? c = s.graph.contents? c
  cells : ∀ i < s.cells.size, t.cell i = s.cell i

theorem Untouched.refl (s : Store) : s.Untouched s := ⟨fun _ _ => rfl, fun _ _ => rfl⟩

theorem Untouched.addContext (s : Store) (kind : ContextKind) :
    s.Untouched (s.addContext kind).2 where
  contexts c hc := by
    show (s.graph.add kind).2.contents? c = _
    rw [Graph.contents?, Graph.context?_add_of_lt kind hc]
    rfl
  cells _ _ := rfl

theorem Untouched.release (h : s.Untouched t) (holds : List Hold) :
    s.Untouched (t.release holds) where
  contexts c hc := (Region.contents?_release t holds c).trans (h.contexts c hc)
  cells := h.cells

/-- The part of a store that begins with a new World. -/
def newRegion (s : Store) : Region := ⟨s.graph.size, s.cells.size⟩

/-- Nothing leads out of a new World. -/
theorem closed_newRegion (s : Store) : s.newRegion.Closed (s.addContext .emptyWorld).2 := by
  constructor
  · intro c ctx hc hctx
    have hlt : c < s.graph.size + 1 := by
      rw [← Graph.size_add (g := s.graph) .emptyWorld]
      exact hc.2
    obtain rfl : c = s.graph.size := Nat.le_antisymm (Nat.lt_succ_iff.mp hlt) hc.1
    obtain rfl : Context.fresh .emptyWorld = ctx :=
      Option.some.inj ((Graph.context?_add_self .emptyWorld).symm.trans hctx)
    exact ⟨nofun, nofun, nofun, List.forall_mem_cons.mpr ⟨nofun, nofun⟩,
      List.forall_mem_cons.mpr ⟨nofun, nofun⟩⟩
  · exact fun i hi => absurd hi.1 (Nat.not_le.mpr hi.2)

/-- The ledger of a module that begins to run. -/
def moduleLedger (s : Store) : Ledger s.newRegion (s.addContext .emptyWorld).2 :=
  .begin _ _ (Nat.le_of_lt (by rw [addContext, Graph.size_add]; exact Nat.lt_succ_self _))
    (Nat.le_refl _) (closed_newRegion s)

theorem ctx_moduleLedger (s : Store) :
    ∀ c ∈ [s.graph.size], s.newRegion.Ctx s.moduleLedger.store c := by
  refine List.forall_mem_singleton.mpr ⟨Nat.le_refl _, ?_⟩
  show s.graph.size < (s.graph.add .emptyWorld).2.size
  rw [Graph.size_add]
  exact Nat.lt_succ_self _

/-- What a module does leaves all that was there before it. -/
theorem untouched_of_next {w : Ledger s.newRegion (s.addContext .emptyWorld).2}
    (next : s.moduleLedger.Next w) : s.Untouched w.store where
  contexts c hc := by
    have hc' := Nat.lt_of_lt_of_le hc (Extends.addContext s .emptyWorld).contexts
    exact (next.keeps.outside c hc' hc).trans ((Untouched.addContext s .emptyWorld).contexts c hc)
  cells i hi := next.keeps.cellsOutside i hi hi

/-- Making a module known is refused, or the World of the code gains it. -/
theorem gains_of_free {name : String} {world : CtxId} (h : s.Untouched t) (hc : c < s.graph.size)
    (free : (Declaration.ofModule c name world).obstacle? t.graph = none) :
    s.Gains (t.modifyGraph (Declaration.ofModule c name world).apply) (s.graph.origin c) name
      world := by
  have isWorld : t.graph.isWorld (t.graph.root c) = true ∧ t.graph.import? c name = none := by
    change (if t.graph.isWorld (t.graph.root c) then _ else _) = none at free
    split at free
    · rename_i isWorld
      exact ⟨isWorld, Option.map_eq_none_iff.mp free⟩
    · cases free
  obtain ⟨origin, older⟩ := Graph.origin_congr h.contexts hc
  have root : t.graph.root c = s.graph.origin c :=
    (Graph.root_eq_origin isWorld.1).trans origin
  have applied : (t.modifyGraph (Declaration.ofModule c name world).apply).graph =
      t.graph.update (s.graph.origin c) fun ctx =>
        { ctx with kind := Declaration.addModule name world ctx.kind } := by
    rw [← root]
    rfl
  have kind := Graph.kind?_congr (h.contexts _ older)
  refine ⟨?_, ?_, fun d hd hne => ?_, h.cells⟩
  · obtain ⟨isWorld, unknown⟩ := isWorld
    rw [Graph.import?, root, kind] at unknown
    rw [Graph.isWorld, root, kind] at isWorld
    cases hk : s.graph.kind? (s.graph.origin c) with
    | none =>
      rw [hk] at isWorld
      cases isWorld
    | some k =>
      rw [hk] at isWorld unknown
      cases k with
      | world module classes imports => exact ⟨module, classes, imports, rfl, unknown⟩
      | _ => cases isWorld
  · rw [← h.contexts _ older, applied, Graph.contents?, Graph.contents?, Graph.context?_update,
      if_pos rfl, Option.map_map, Option.map_map]
    rfl
  · rw [← h.contexts d hd, applied, Graph.contents?_update_of_ne _ (Ne.symm hne)]

end Store

namespace Eval

theorem tracked_program (code : Program) (world : CtxId) :
    Run.Tracked (.names world) [world] .none (fun _ => .none) (program · world code) :=
  fun _ _ _ _ h kept _ => Run.Tracking.program h code (kept world List.mem_cons_self)

theorem ends_nameImport {s : Store} {path : String} {world : CtxId}
    (h : s.Untouched m.store) (hc : c < s.graph.size) :
    Run.Ends (nameImport path c world) m
      (fun _ m' => ∃ name, s.Gains m'.store (s.graph.origin c) name world)
      fun m' => s.Untouched m'.store := by
  let name := (m.store.graph.moduleName? world).getD ((Files.stem? path).getD path)
  have run : nameImport path c world m =
      (Run.letGo (·.origin c) >>= fun _ => Run.declare (.ofModule c name world)) m := rfl
  rw [Run.Ends, run]
  have released : Run.Ends (Run.letGo (·.origin c)) m (fun _ m' => s.Untouched m'.store)
      fun m' => s.Untouched m'.store := by
    rw [Run.Ends]
    rcases Run.letGo_apply (·.origin c) m with e | ⟨outside, -, e⟩
    · rw [e]
      exact h
    · rw [e]
      exact h.release _
  refine Run.Ends.bind released fun _ m₁ h₁ => ?_
  rw [Run.Ends, Run.declare_apply]
  cases free : (Declaration.ofModule c name world).obstacle? m₁.store.graph with
  | some fault => exact h₁
  | none => exact ⟨name, Store.gains_of_free h₁ hc free⟩

variable {config : Config} {fuel : Nat}

theorem ends_importPath (config : Config) (fuel : Nat) (path : String)
    (hc : c < m.store.graph.size) :
    Run.Ends (importPath config (evaluator config fuel) path c) m
      (fun _ m' => ∃ name,
        m.store.Gains m'.store (m.store.graph.origin c) name m.store.graph.size)
      fun m' => m.store.Untouched m'.store := by
  rw [importPath_eq, Run.Ends]
  rcases importWith_cases config path c m with ⟨fault, stopped, -⟩ | ⟨code, there⟩
  · rw [stopped]
    exact .refl m.store
  · rw [there]
    obtain ⟨w, next, ran⟩ := (tracked_program code m.store.graph.size).ends config fuel
      (m := m.forModule path) rfl m.store.ctx_moduleLedger Names.fit_none
    have untouched : m.store.Untouched
        ((Eval.program (evaluator config fuel) m.store.graph.size code).after
          (m.forModule path)).store := ran.store_after ▸ Store.untouched_of_next next
    have left : Run.Ends ((Eval.program (evaluator config fuel) m.store.graph.size code).ensuring
        fun m => { m with importing := m.importing.tail }) (m.forModule path)
        (fun _ m' => m.store.Untouched m'.store) fun m' => m.store.Untouched m'.store :=
      .ensuring (.of_after (fun _ => untouched) untouched)
    exact Run.Ends.ensuring (left.bind fun _ _ h => ends_nameImport h hc)

theorem throughout_importPath (path : String) :
    Throughout config fuel (fun _ m' => m.store.Untouched m'.store) (importPath config · path c)
      m := by
  intro watch hwatch
  dsimp only
  rw [importPath_eq, importPath_eq]
  rcases importWith_cases config path c m with ⟨fault, stopped, -⟩ | ⟨code, there⟩
  · rw [stopped, stopped]
  · have same : Throughout config fuel (fun _ m' => m.store.Untouched m'.store)
        (program · m.store.graph.size code) (m.forModule path) := by
      refine (tracked_program code _).throughout (w := m.store.moduleLedger) rfl
        m.store.ctx_moduleLedger Names.fit_none fun _ m₁ w₁ _ before _ hm₁ _ => ?_
      rw [hm₁]
      exact Store.untouched_of_next before
    rw [there, there]
    simp only [importCode, Run.ensuring, Run.bind_apply, same watch hwatch]

end Eval

/-- **Imports.** An import that fails, whatever the reason, leaves all that was there as it was. One
that succeeds adds the module to the World of the importer, under a name that was free, and leaves
all else. While the module runs nothing of what was there changes. As long as nothing is let go at
all, no import lets anything go. -/
theorem imports_isolated (config : Config) (fuel : Nat) (path : String) (span : Span) (m : Machine)
    (c : CtxId) (there : c < m.store.graph.size) :
    Run.Ends ((evaluator config fuel).stmt ⟨.importPath path, span⟩ c) m
      (fun _ m' => ∃ name,
        m.store.Gains m'.store (m.store.graph.origin c) name m.store.graph.size)
      (fun m' => m.store.Untouched m'.store) ∧
    Throughout config fuel (fun _ m' => m.store.Untouched m'.store)
      (Eval.importPath config · path c) m ∧
    (m.outside = none → ∀ d < m.store.graph.size,
      (((evaluator config fuel).stmt ⟨.importPath path, span⟩ c).after m).store.graph.isLive d =
        m.store.graph.isLive d) := by
  refine ⟨?_, Eval.throughout_importPath path, fun nothing d hd => ?_⟩
  · cases fuel with
    | zero => exact Store.Untouched.refl m.store
    | succ fuel =>
      have imported := Eval.ends_importPath config fuel path there
      exact .mapFailure _ (imported.bind fun _ _ gains => gains)
  · exact (Run.agree_stmt ⟨.importPath path, span⟩ there).later.isLive_eq nothing hd

/-- A module declares a variable and fails then. The World that imports it is left as it was. -/
theorem imports_isolated_failing :
    let span : Span := ⟨0, 1⟩
    let code : Program := [⟨.letVar "x" none ⟨.int 1, span⟩ .none, span⟩,
      ⟨.expr ⟨.name "y", span⟩, span⟩]
    let config : Config := ⟨[], some (Loader.ofList [("m", code)])⟩
    let s := Session.start config 3 (.start .empty .silent [] none)
    s.machine.store.Untouched (s.runLine ⟨.importPath "m", span⟩).2.machine.store := by
  intro span code config s
  have ends := (imports_isolated config 3 "m" span
    { s.machine with held := [.context s.world] } s.world (by decide)).1
  exact ends

end TreeScript
