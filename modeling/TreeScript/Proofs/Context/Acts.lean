import TreeScript.Proofs.Context.Chains

/-!
# Acts on names

Scopes are opened and closed and names are declared in one context at a time. Such an act changes
the frames of its context and nothing else that look-up goes by: where look-up goes, for variables
and for functions, is the same before and after. What is declared in a scope is gone when the scope
is closed, however many scopes were opened and closed in it.
-/
namespace TreeScript

/-- Something done to the names of a context. -/
inductive ScopeAct where
  | push
  | pop
  /-- A variable with a cell that may have another name, as the parameter that is an alias. -/
  | bindVar (name cellName : String) (cell : CellId)
  | declareFunc (func : Func)

namespace Declaration

/-- Makes the declaration, or leaves the graph as it is if something stands against it. -/
def attempt (d : Declaration) (g : Graph) : Graph :=
  match d.run g with
  | .ok g => g
  | .error _ => g

variable {d : Declaration} {g g' : Graph}

theorem run_eq_ok : d.run g = .ok g' ↔ d.obstacle? g = none ∧ d.apply g = g' := by
  rw [run]
  cases d.obstacle? g <;> simp

theorem attempt_of_none (free : d.obstacle? g = none) : d.attempt g = d.apply g := by
  rw [attempt, run, free]

theorem attempt_of_some {fault : Fault} (against : d.obstacle? g = some fault) :
    d.attempt g = g := by
  rw [attempt, run, against]

end Declaration

namespace ScopeAct

/-- What an act makes of the scopes of its context. -/
def onScopes : ScopeAct → Scopes → Scopes
  | push, s => s.push
  | pop, s => s.pop
  | bindVar name _ i, s => if s.vars.bindsOnTop name then s else s.bindVar name i
  | declareFunc func, s => if s.funcs.bindsOnTop func.decl.name then s else s.bindFunc func

/-- What several acts make of the scopes of their context. -/
def allOnScopes (acts : List ScopeAct) (s : Scopes) : Scopes :=
  acts.foldl (fun s a => a.onScopes s) s

/-- Every scope that is opened is closed again, and no other. -/
inductive Balanced : List ScopeAct → Prop
  | nil : Balanced []
  | bindVar (name cellName : String) (i : CellId) {rest : List ScopeAct} (h : Balanced rest) :
    Balanced (.bindVar name cellName i :: rest)
  | declareFunc (func : Func) {rest : List ScopeAct} (h : Balanced rest) :
    Balanced (.declareFunc func :: rest)
  | scope {inside rest : List ScopeAct} (h : Balanced inside) (h' : Balanced rest) :
    Balanced (.push :: inside ++ .pop :: rest)

theorem allOnScopes_append (as bs : List ScopeAct) (s : Scopes) :
    allOnScopes (as ++ bs) s = allOnScopes bs (allOnScopes as s) := List.foldl_append

/-- Balanced acts leave the frames around the innermost ones alone. -/
theorem Balanced.below_eq {acts : List ScopeAct} (h : Balanced acts) (s : Scopes) :
    (allOnScopes acts s).below = s.below := by
  induction h generalizing s with
  | nil => rfl
  | bindVar name cellName i h ih =>
    refine (ih _).trans ?_
    show (if s.vars.bindsOnTop name then s else s.bindVar name i).below = s.below
    split <;> rfl
  | declareFunc func h ih =>
    refine (ih _).trans ?_
    show (if s.funcs.bindsOnTop func.decl.name then s else s.bindFunc func).below = s.below
    split <;> rfl
  | @scope inside rest h h' ih ih' =>
    have closed : (allOnScopes inside s.push).pop = s := Scopes.pop_of_below_eq_push (ih s.push)
    show (allOnScopes (inside ++ .pop :: rest) s.push).below = s.below
    rw [allOnScopes_append]
    show (allOnScopes rest (allOnScopes inside s.push).pop).below = s.below
    rw [closed, ih']

/-- A scope in which all acts are balanced leaves nothing behind. -/
theorem Balanced.bracket {acts : List ScopeAct} (h : Balanced acts) (s : Scopes) :
    allOnScopes (.push :: acts ++ [.pop]) s = s := by
  show allOnScopes (acts ++ [.pop]) s.push = s
  rw [allOnScopes_append]
  exact Scopes.pop_of_below_eq_push (h.below_eq s.push)

end ScopeAct

namespace Graph

/-- Acts in a context. A declaration that something stands against is not made. -/
def act (g : Graph) (c : CtxId) : ScopeAct → Graph
  | .push => g.pushScope c
  | .pop => g.popScope c
  | .bindVar name cellName i => (Declaration.ofVar c name cellName i).attempt g
  | .declareFunc func => (Declaration.ofFunc c func).attempt g

/-- Acts in a context several times. -/
def acts (g : Graph) (c : CtxId) (acts : List ScopeAct) : Graph :=
  acts.foldl (fun g a => g.act c a) g

variable {g g' g'' : Graph} {c d : CtxId} {name : String} {P Q : CtxId → Prop}

/-- Of the contexts only those with a property have other frames now, and nothing else has changed
but the names of their members. -/
structure OnlyFrames (P : CtxId → Prop) (g g' : Graph) : Prop where
  skeletons : ∀ d, g'.skeleton? d = g.skeleton? d
  imports : ∀ d, (g'.kind? d).map ContextKind.imports = (g.kind? d).map ContextKind.imports
  arguments : ∀ d, g'.arguments? d = g.arguments? d
  lives : ∀ d, g'.isLive d = g.isLive d
  size : g'.size = g.size
  scopes : ∀ d, ¬ P d → g'.scopes? d = g.scopes? d

namespace OnlyFrames

theorem refl (P : CtxId → Prop) (g : Graph) : OnlyFrames P g g :=
  ⟨fun _ => rfl, fun _ => rfl, fun _ => rfl, fun _ => rfl, rfl, fun _ _ => rfl⟩

theorem trans (h : OnlyFrames P g g') (h' : OnlyFrames P g' g'') : OnlyFrames P g g'' where
  skeletons d := (h'.skeletons d).trans (h.skeletons d)
  imports d := (h'.imports d).trans (h.imports d)
  arguments d := (h'.arguments d).trans (h.arguments d)
  lives d := (h'.lives d).trans (h.lives d)
  size := h'.size.trans h.size
  scopes d hd := (h'.scopes d hd).trans (h.scopes d hd)

theorem mono (h : OnlyFrames P g g') (hPQ : ∀ d, P d → Q d) : OnlyFrames Q g g' :=
  { h with scopes := fun d hd => h.scopes d fun hP => hd (hPQ d hP) }

/-- A change of one context that leaves alone what is not frames. -/
theorem update (f : Context → Context)
    (skeleton : ∀ ctx, (f ctx).kind.skeleton = ctx.kind.skeleton)
    (imports : ∀ ctx, (f ctx).kind.imports = ctx.kind.imports)
    (arguments : ∀ ctx, (f ctx).kind.arguments? = ctx.kind.arguments?)
    (live : ∀ ctx, (f ctx).live = ctx.live) : OnlyFrames (· = c) g (g.update c f) where
  skeletons d := skeleton?_update f skeleton
  imports d := by
    rw [kind?, kind?, context?_update]
    split
    · cases g.context? d with
      | none => rfl
      | some ctx => exact congrArg some (imports ctx)
    · rfl
  arguments d := arguments?_update_same f arguments
  lives d := isLive_update f live
  size := size_update f
  scopes d hd := scopes?_update_of_ne f (Ne.symm hd)

theorem imports_recordMember (name : String) (kind : ContextKind) :
    (Declaration.recordMember name kind).imports = kind.imports := by cases kind <;> rfl

theorem ofVar (name cellName : String) (i : CellId) :
    OnlyFrames (· = c) g ((Declaration.ofVar c name cellName i).apply g) :=
  .update _ (fun ctx => Declaration.skeleton_recordMember name ctx.kind)
    (fun ctx => imports_recordMember name ctx.kind)
    (fun ctx => Declaration.arguments?_recordMember name ctx.kind) fun _ => rfl

theorem attempt {d : Declaration} (h : OnlyFrames P g (d.apply g)) :
    OnlyFrames P g (d.attempt g) := by
  cases free : d.obstacle? g with
  | some fault =>
    rw [Declaration.attempt_of_some free]
    exact .refl P g
  | none =>
    rw [Declaration.attempt_of_none free]
    exact h

theorem act (a : ScopeAct) : OnlyFrames (· = c) g (g.act c a) := by
  cases a with
  | push | pop => exact .update _ (fun _ => rfl) (fun _ => rfl) (fun _ => rfl) fun _ => rfl
  | bindVar name cellName i => exact .attempt (.ofVar name cellName i)
  | declareFunc func =>
    exact .attempt (.update _ (fun _ => rfl) (fun _ => rfl) (fun _ => rfl) fun _ => rfl)

theorem acts (as : List ScopeAct) : OnlyFrames (· = c) g (g.acts c as) := by
  induction as generalizing g with
  | nil => exact .refl _ g
  | cons a as ih => exact (OnlyFrames.act a).trans ih

theorem sameUpTo (h : OnlyFrames P g g') (d : CtxId) : SameUpTo g g' d :=
  fun e _ => ⟨h.skeletons e, h.lives e⟩

theorem chain_eq (h : OnlyFrames P g g') (d : CtxId) : g'.chain d = g.chain d :=
  (h.sameUpTo d).chainUpTo_eq

theorem owner?_eq (h : OnlyFrames P g g') (d : CtxId) : g'.owner? d = g.owner? d :=
  (h.sameUpTo d).owner?_eq

theorem bindingAt?_eq (h : OnlyFrames P g g') {s : Site} (out : ∀ d, s = .frames d → ¬ P d) :
    g'.bindingAt? name s = g.bindingAt? name s := by
  cases s with
  | frames d =>
    rw [bindingAt?, localBinding?, h.scopes d (out d rfl)]
    rfl
  | arguments d =>
    rw [bindingAt?, h.arguments d]
    rfl

end OnlyFrames

theorem localFunc?_eq (g : Graph) (c : CtxId) (name : String) :
    g.localFunc? c name = (g.scopes? c).bind (·.funcs.get? name) := by
  rw [localFunc?, scopes?]
  cases g.context? c <;> rfl

/-- What a function name means in the first context of a chain, going by the skeletons. -/
theorem funcAlong?_cons (g : Graph) (name : String) (c : CtxId) (outer : List CtxId) :
    g.funcAlong? name (c :: outer) = match g.skeleton? c with
      | none => none
      | some (.world ..) => g.localFunc? c name
      | some (.call ..) => (g.funcAlong? name outer).or (g.localFunc? c name)
      | some (.closure ..) => (g.funcAlong? name outer).or (g.localFunc? c name)
      | some (.object ..) => (g.localFunc? c name).or (g.funcAlong? name outer) := by
  rw [funcAlong?, skeleton?]
  cases g.kind? c with
  | none => rfl
  | some kind => cases kind <;> rfl

theorem funcAlong?_congr : ∀ {cs : List CtxId},
    (∀ d ∈ cs, g'.skeleton? d = g.skeleton? d ∧ g'.localFunc? d name = g.localFunc? d name) →
    g'.funcAlong? name cs = g.funcAlong? name cs
  | [], _ => rfl
  | c :: outer, h => by
    have rest : g'.funcAlong? name outer = g.funcAlong? name outer :=
      funcAlong?_congr fun d hd => h d (List.mem_cons_of_mem c hd)
    obtain ⟨skeleton, own⟩ := h c List.mem_cons_self
    rw [funcAlong?_cons, funcAlong?_cons, skeleton, own, rest]

namespace OnlyFrames

/-- Variables mean what they meant wherever no change is on the chain. -/
theorem var?_eq (h : OnlyFrames P g g') (out : ∀ e ∈ g.chain d, ¬ P e) :
    g'.var? d name = g.var? d name := by
  rw [Graph.var?_eq, Graph.var?_eq, binding?, binding?, (h.sameUpTo d).sites_eq]
  congr 1
  refine findSome?_congr fun s hs => h.bindingAt?_eq ?_
  rintro e rfl
  exact out e (mem_of_mem_sitesAlong hs)

/-- Functions mean what they meant wherever no change is on the chain. -/
theorem func?_eq (h : OnlyFrames P g g') (out : ∀ e ∈ g.chain d, ¬ P e) :
    g'.func? d name = g.func? d name := by
  rw [func?, func?, h.chain_eq]
  refine funcAlong?_congr fun e he => ⟨h.skeletons e, ?_⟩
  rw [localFunc?_eq, localFunc?_eq, h.scopes e (out e he)]

end OnlyFrames

/-- A declaration changes the scopes of its context unless something stands against it. -/
theorem scopes?_attempt {d : Declaration} {p : Scopes → Bool} {t : Scopes → Scopes}
    (free : d.obstacle? g = none ↔ ∀ s ∈ g.scopes? c, p s = false)
    (applied : (d.apply g).scopes? c = (g.scopes? c).map t) :
    (d.attempt g).scopes? c = (g.scopes? c).map fun s => if p s then s else t s := by
  cases hd : d.obstacle? g with
  | none =>
    rw [Declaration.attempt_of_none hd, applied]
    refine Option.map_congr fun s hs => ?_
    rw [free.mp hd s hs, if_neg Bool.false_ne_true]
  | some fault =>
    rw [Declaration.attempt_of_some hd]
    have against : ∃ s, g.scopes? c = some s ∧ p s = true := by
      by_contra none
      refine Option.some_ne_none fault (hd.symm.trans (free.mpr fun s hs => ?_))
      exact Bool.eq_false_iff.mpr fun hp => none ⟨s, hs, hp⟩
    obtain ⟨s, hs, hp⟩ := against
    rw [hs, Option.map_some, if_pos hp]

theorem scopes?_act (a : ScopeAct) : (g.act c a).scopes? c = (g.scopes? c).map a.onScopes := by
  cases a with
  | push => exact scopes?_pushScope
  | pop => exact scopes?_popScope
  | bindVar name cellName i => exact scopes?_attempt ofVar_free_iff (scopes?_ofVar name cellName i)
  | declareFunc func => exact scopes?_attempt ofFunc_free_iff (scopes?_ofFunc func)

theorem scopes?_acts (as : List ScopeAct) :
    (g.acts c as).scopes? c = (g.scopes? c).map (ScopeAct.allOnScopes as) := by
  induction as generalizing g with
  | nil =>
    show g.scopes? c = (g.scopes? c).map fun s => s
    rw [Option.map_id']
  | cons a as ih =>
    refine (ih (g := g.act c a)).trans ?_
    rw [scopes?_act, Option.map_map]
    rfl

/-- A scope is closed again with all that was declared in it: nothing that look-up goes by has
changed. -/
theorem OnlyFrames.bracket {as : List ScopeAct} (balanced : ScopeAct.Balanced as) :
    OnlyFrames (fun _ => False) g (g.acts c (.push :: as ++ [.pop])) := by
  have kept : OnlyFrames (· = c) g (g.acts c (.push :: as ++ [.pop])) := .acts _
  refine { kept with scopes := fun d _ => ?_ }
  by_cases same : d = c
  · rw [same, scopes?_acts]
    cases g.scopes? c with
    | none => rfl
    | some s => exact congrArg some (balanced.bracket s)
  · exact kept.scopes d same

end Graph

end TreeScript
