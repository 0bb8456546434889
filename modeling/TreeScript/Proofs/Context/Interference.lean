import TreeScript.Proofs.Context.Acts

/-!
# Declarations do not interfere

A variable that is declared changes what its own name means, from where look-up comes to the context
that it is declared in, and nothing else. What is declared in a scope changes nothing that lasts:
when the scope is closed every name means what it meant before, from everywhere.
-/
namespace TreeScript

theorem ScopeStack.find?_bind_self {α : Type} (s : ScopeStack α) (name : String) (item : α) :
    (s.bind name item).find? name = some (s.depth, item) := by
  rw [find?, frames_bind, findIn, List.lookup_cons_self]
  rfl

theorem ScopeStack.find?_bind_of_ne {α : Type} (s : ScopeStack α) {name other : String} (item : α)
    (h : other ≠ name) : (s.bind name item).find? other = s.find? other := by
  rw [find?, find?, frames_bind, frames, findIn, findIn, List.lookup_cons, beq_false_of_ne h]

namespace Graph

variable {g g' : Graph} {c d : CtxId} {name other cellName : String} {i : CellId}

/-- Look-up of another name comes to what it came to. -/
theorem bindingAt?_ofVar_of_ne (h : other ≠ name) (s : Site) :
    ((Declaration.ofVar c name cellName i).apply g).bindingAt? other s = g.bindingAt? other s := by
  by_cases here : s = .frames c
  · subst here
    rw [bindingAt?, bindingAt?, localBinding?, localBinding?, scopes?_ofVar]
    cases g.scopes? c with
    | none => rfl
    | some scopes =>
      show ((scopes.vars.bind name i).find? other).map _ = _
      rw [ScopeStack.find?_bind_of_ne _ i h]
      rfl
  · exact (OnlyFrames.ofVar name cellName i).bindingAt?_eq fun e he same => here (same ▸ he)

/-- At each site look-up of the name comes to what it came to, or to the new variable. -/
theorem bindingAt?_ofVar (s : Site) :
    ((Declaration.ofVar c name cellName i).apply g).bindingAt? name s = g.bindingAt? name s ∨
      ∃ height, ((Declaration.ofVar c name cellName i).apply g).bindingAt? name s =
        some ⟨c, height, i⟩ := by
  by_cases here : s = .frames c
  · subst here
    rw [bindingAt?, bindingAt?, localBinding?, localBinding?, scopes?_ofVar]
    cases g.scopes? c with
    | none => exact .inl rfl
    | some scopes =>
      refine .inr ⟨scopes.vars.depth, ?_⟩
      show ((scopes.vars.bind name i).find? name).map _ = _
      rw [ScopeStack.find?_bind_self]
      rfl
  · exact .inl ((OnlyFrames.ofVar name cellName i).bindingAt?_eq fun e he same => here (same ▸ he))

theorem localVar?_ofVar_self (there : c < g.size) :
    ((Declaration.ofVar c name cellName i).apply g).localVar? c name = some i := by
  obtain ⟨scopes, hs⟩ := scopes?_isSome_of_lt there
  rw [localVar?_eq, localBinding?, scopes?_ofVar, hs]
  show (((scopes.vars.bind name i).find? name).map _).map _ = _
  rw [ScopeStack.find?_bind_self]
  rfl

/-- Where two searches agree but for items that give `b`, they end alike or the one gives `b`. -/
theorem findSome?_eq_or {α β γ : Type} {f f' : α → Option β} (cell : β → γ) {b : γ} {l : List α}
    (h : ∀ a ∈ l, f' a = f a ∨ ∃ x, f' a = some x ∧ cell x = b) :
    (l.findSome? f').map cell = (l.findSome? f).map cell ∨ (l.findSome? f').map cell = some b := by
  induction l with
  | nil => exact .inl rfl
  | cons a l ih =>
    obtain ⟨first, rest⟩ := List.forall_mem_cons.mp h
    rw [findSome?_cons_or, findSome?_cons_or]
    rcases first with same | ⟨x, hx, rfl⟩
    · rw [same]
      cases f a with
      | some x => exact .inl rfl
      | none => exact ih rest
    · rw [hx]
      exact .inr rfl

/-- All other names mean what they meant, from everywhere. -/
theorem var?_ofVar_of_ne (h : other ≠ name) :
    ((Declaration.ofVar c name cellName i).apply g).var? d other = g.var? d other := by
  have sites := ((OnlyFrames.ofVar (g := g) (c := c) name cellName i).sameUpTo d).sites_eq
  rw [var?_eq, var?_eq, binding?, binding?, sites]
  exact congrArg _ (findSome?_congr fun s _ => bindingAt?_ofVar_of_ne h s)

/-- The name means what it meant, or the new variable. -/
theorem var?_ofVar :
    ((Declaration.ofVar c name cellName i).apply g).var? d name = g.var? d name ∨
      ((Declaration.ofVar c name cellName i).apply g).var? d name = some i := by
  have sites := ((OnlyFrames.ofVar (g := g) (c := c) name cellName i).sameUpTo d).sites_eq
  rw [var?_eq, var?_eq, binding?, binding?, sites]
  refine findSome?_eq_or Binding.cell fun s _ => (bindingAt?_ofVar s).imp_right ?_
  rintro ⟨height, found⟩
  exact ⟨_, found, rfl⟩

/-- Functions mean what they meant. -/
theorem func?_ofVar :
    ((Declaration.ofVar c name cellName i).apply g).func? d other = g.func? d other := by
  have kept : OnlyFrames (· = c) g ((Declaration.ofVar c name cellName i).apply g) :=
    .ofVar name cellName i
  rw [func?, func?, kept.chain_eq]
  refine funcAlong?_congr fun e _ => ⟨kept.skeletons e, ?_⟩
  rw [localFunc?_eq, localFunc?_eq]
  by_cases here : e = c
  · subst here
    rw [scopes?_ofVar, Option.bind_map]
    rfl
  · rw [kept.scopes e here]

end Graph

/-- What a context holds by itself: the modules that it imports, and its owner. -/
theorem ContextKind.holds_congr_parts {g : Graph} {kind kind' : ContextKind}
    (skeleton : kind'.skeleton = kind.skeleton) (imports : kind'.imports = kind.imports) :
    kind'.holds g = kind.holds g := by
  have parts (kind : ContextKind) : kind.holds g = kind.imports.map Prod.snd ++
      kind.owner?.elim [] fun owner => if g.isWorld owner then [] else [owner] := by
    cases kind with
    | world module classes imports => exact (List.append_nil _).symm
    | _ => rfl
  have owner : kind'.owner? = kind.owner? := by
    rw [← Graph.owner?_skeleton, skeleton, Graph.owner?_skeleton]
  rw [parts, parts, imports, owner]

theorem Context.cells_congr {ctx ctx' : Context} (scopes : ctx'.scopes = ctx.scopes)
    (arguments : ctx'.kind.arguments? = ctx.kind.arguments?) : ctx'.cells = ctx.cells := by
  have parts (ctx : Context) : ctx.cells = ctx.scopes.vars.frames.flatMap (·.map Prod.snd) ++
      (ctx.kind.arguments?.getD []).map Prod.snd := by
    rw [cells]
    cases ctx.kind with
    | object => rfl
    | _ => exact (List.append_nil _).symm
  rw [parts, parts, scopes, arguments]

namespace Graph.OnlyFrames

variable {g g' : Graph} {P : CtxId → Prop} {d : CtxId} {ctx : Context}

theorem symm (h : OnlyFrames P g g') : OnlyFrames P g' g where
  skeletons d := (h.skeletons d).symm
  imports d := (h.imports d).symm
  arguments d := (h.arguments d).symm
  lives d := (h.lives d).symm
  size := h.size.symm
  scopes d hd := (h.scopes d hd).symm

theorem isWorld_eq (h : OnlyFrames P g g') : g'.isWorld = g.isWorld := by
  funext d
  rw [Graph.isWorld_eq, Graph.isWorld_eq, h.skeletons]

/-- A context whose frames have not changed holds what it held. -/
theorem context?_eq_some (h : OnlyFrames P g g') (out : ¬ P d) (hc : g.context? d = some ctx) :
    ∃ ctx', g'.context? d = some ctx' ∧ ctx'.cells = ctx.cells ∧
      ctx'.kind.holds g' = ctx.kind.holds g := by
  have scopes := h.scopes d out
  have skeleton := h.skeletons d
  have imports := h.imports d
  have arguments := h.arguments d
  rw [scopes?, scopes?, hc] at scopes
  rw [skeleton?, skeleton?, kind?, kind?, hc] at skeleton
  rw [kind?, kind?, hc] at imports
  rw [arguments?, arguments?, kind?, kind?, hc] at arguments
  cases hc' : g'.context? d with
  | none =>
    rw [hc'] at scopes
    cases scopes
  | some ctx' =>
    rw [hc'] at scopes skeleton imports arguments
    refine ⟨ctx', rfl, Context.cells_congr (Option.some.inj scopes) arguments, ?_⟩
    rw [ContextKind.holds_congr h.isWorld_eq]
    exact ContextKind.holds_congr_parts (Option.some.inj skeleton) (Option.some.inj imports)

end Graph.OnlyFrames

namespace Store

variable {s t : Store} {roots : List CtxId} {c : CtxId}

theorem heldBy_subset (cells : t.cells = s.cells)
    (same : Graph.OnlyFrames (fun _ => False) s.graph t.graph) (d : CtxId) :
    s.heldBy d ⊆ t.heldBy d := by
  intro e he
  obtain ⟨ctx, hctx, held⟩ := mem_heldBy.mp he
  obtain ⟨ctx', hctx', bound, own⟩ := same.context?_eq_some id hctx
  refine mem_heldBy.mpr ⟨ctx', hctx', held.imp (fun h => own ▸ h) ?_⟩
  rintro ⟨i, hi, h⟩
  refine ⟨i, bound ▸ hi, ?_⟩
  rw [cell, cell?, cells, Value.holds_congr same.isWorld_eq]
  exact h

theorem mem_survivors_of_onlyFrames (cells : t.cells = s.cells)
    (same : Graph.OnlyFrames (fun _ => False) s.graph t.graph) (h : c ∈ s.survivors roots) :
    c ∈ t.survivors roots := by
  refine mem_survivors_of_held (P := (· ∈ s.survivors roots)) (fun d hd => ?_) (fun d hd => ?_) h
  · rw [same.lives]
    exact isLive_of_mem_survivors hd
  · exact (held_of_mem_survivors hd).imp_right fun ⟨e, he, held⟩ =>
      ⟨e, he, heldBy_subset cells same e held⟩

/-- Stores that differ in nothing that look-up goes by do not when what nothing holds is let go. -/
theorem onlyFrames_release (cells : t.cells = s.cells)
    (same : Graph.OnlyFrames (fun _ => False) s.graph t.graph) (holds : List Hold) :
    Graph.OnlyFrames (fun _ => False) (s.release holds).graph (t.release holds).graph where
  skeletons d := by
    rw [Graph.skeleton?, Graph.skeleton?, kind?_release, kind?_release]
    exact same.skeletons d
  imports d := by
    rw [kind?_release, kind?_release]
    exact same.imports d
  arguments d := by
    rw [arguments?_release, arguments?_release]
    exact same.arguments d
  lives d := by
    have roots : holds.flatMap (·.contexts t) = holds.flatMap (·.contexts s) := by
      refine congrArg (List.flatMap · holds) (funext fun hold => ?_)
      cases hold with
      | context c => rfl
      | cell i =>
        rw [Hold.contexts, cell, cell?, cells, Value.holds_congr same.isWorld_eq]
        rfl
      | value v => exact Value.holds_congr same.isWorld_eq v
    rw [Bool.eq_iff_iff, isLive_release, isLive_release, roots]
    exact ⟨mem_survivors_of_onlyFrames cells.symm same.symm, mem_survivors_of_onlyFrames cells same⟩
  size := by
    rw [size_release, size_release]
    exact same.size
  scopes d out := by
    rw [scopes?_release, scopes?_release]
    exact same.scopes d out

end Store

/-- **Declarations do not interfere.** A variable that is declared in a context is what its name
means there. All other names, and all functions, mean what they meant, from every context. So does
the name itself where the context is not on the chain, and where it is the name means what it meant
or the new variable. After a scope in which names are declared and scopes are opened and closed every
name means what it meant, from every context, and this is still so when what nothing holds any more
is let go. -/
theorem declarations_do_not_interfere (g : Graph) (c : CtxId) :
    (∀ name cellName i g', (Declaration.ofVar c name cellName i).run g = .ok g' →
      (c < g.size → g'.localVar? c name = some i) ∧
      ∀ d, (∀ other, other ≠ name → g'.var? d other = g.var? d other) ∧
        (∀ func, g'.func? d func = g.func? d func) ∧
        (c ∉ g.chain d → g'.var? d name = g.var? d name) ∧
        (g'.var? d name = g.var? d name ∨ g'.var? d name = some i)) ∧
    ∀ as, ScopeAct.Balanced as →
      (∀ d name, (g.acts c (.push :: as ++ [.pop])).var? d name = g.var? d name ∧
        (g.acts c (.push :: as ++ [.pop])).func? d name = g.func? d name) ∧
      ∀ (s : Store) holds, s.graph = g →
        let t := s.modifyGraph (·.acts c (.push :: as ++ [.pop]))
        ∀ d name, (t.release holds).graph.var? d name = (s.release holds).graph.var? d name ∧
          (t.release holds).graph.func? d name = (s.release holds).graph.func? d name := by
  refine ⟨fun name cellName i g' made => ?_, fun as balanced => ⟨fun d name => ?_, ?_⟩⟩
  · obtain ⟨-, rfl⟩ := Declaration.run_eq_ok.mp made
    refine ⟨Graph.localVar?_ofVar_self, fun d => ⟨fun other h => Graph.var?_ofVar_of_ne h,
      fun func => Graph.func?_ofVar, fun out => ?_, Graph.var?_ofVar⟩⟩
    exact (Graph.OnlyFrames.ofVar name cellName i).var?_eq fun e he same => out (same ▸ he)
  · have kept := Graph.OnlyFrames.bracket (g := g) (c := c) balanced
    exact ⟨kept.var?_eq fun _ _ => id, kept.func?_eq fun _ _ => id⟩
  · rintro s holds rfl t d name
    have kept := Store.onlyFrames_release (s := s) (t := t) rfl (.bracket balanced) holds
    exact ⟨kept.var?_eq fun _ _ => id, kept.func?_eq fun _ _ => id⟩

/-- A World, an instance that was made in it, and a call of a method of the instance. The World and
the call have a variable `x`. -/
def Graph.withMethodCall : Graph :=
  let instanceKind := ContextKind.object 0 ⟨"C", [], [], [], .none⟩ [] [] []
  let called := ((((Graph.empty.add .emptyWorld).2.add instanceKind).2.add (.call 1 "get" [])).2)
  (called.act 0 (.bindVar "x" "x" 0)).act 2 (.bindVar "x" "x" 1)

/-- A name that is declared twice, in two scopes of which one is in the other, and then a function. -/
def ScopeAct.nested : List ScopeAct :=
  [.bindVar "x" "y" 3, .push, .bindVar "x" "x" 4, .pop,
    .declareFunc ⟨⟨"f", [], none, [], .none⟩, 2⟩]

/-- A member `x` is declared: the method means the member then, and the World its own variable. What
the method declares in a scope of its own is gone when the scope is closed. -/
theorem declarations_of_member :
    let g := Graph.withMethodCall
    let g' := (Declaration.ofVar 1 "x" "x" 2).apply g
    (Declaration.ofVar 1 "x" "x" 2).run g = .ok g' ∧
      g.var? 2 "x" = some 1 ∧ g'.localVar? 1 "x" = some 2 ∧ g'.var? 0 "x" = some 0 ∧
      (g'.var? 2 "x" = some 1 ∨ g'.var? 2 "x" = some 2) ∧
      ScopeAct.Balanced ScopeAct.nested ∧
      ((g.acts 2 (.push :: ScopeAct.nested)).func? 2 "f").isSome = true ∧
      ((g.acts 2 (.push :: ScopeAct.nested ++ [.pop])).func? 2 "f").isSome = false := by
  intro g g'
  have made : (Declaration.ofVar 1 "x" "x" 2).run g = .ok g' := rfl
  have balanced : ScopeAct.Balanced ScopeAct.nested :=
    .bindVar "x" "y" 3 (.scope (.bindVar "x" "x" 4 .nil) (.declareFunc _ .nil))
  obtain ⟨new, others⟩ := (declarations_do_not_interfere g 1).1 _ _ _ _ made
  obtain ⟨-, -, out, -⟩ := others 0
  obtain ⟨-, -, -, within⟩ := others 2
  obtain ⟨gone, -⟩ := (declarations_do_not_interfere g 2).2 _ balanced
  refine ⟨made, rfl, new (by decide), out (by decide), within, balanced, ?_, ?_⟩
  · decide +kernel
  · rw [(gone 2 "f").2]
    decide +kernel

end TreeScript
