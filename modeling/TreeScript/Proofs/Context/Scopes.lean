import TreeScript.Context.Release

/-!
# The scopes of a context

The frames of a context, of variables and of functions, and what each change of a graph does to
them. The tables of a context and its life are no part of its scopes.
-/
namespace TreeScript

/-- The frames of a context. -/
structure Scopes where
  vars : ScopeStack CellId
  funcs : ScopeStack Func

namespace Scopes

def push (s : Scopes) : Scopes := ⟨s.vars.push, s.funcs.push⟩

def pop (s : Scopes) : Scopes := ⟨s.vars.pop, s.funcs.pop⟩

def bindVar (s : Scopes) (name : String) (cell : CellId) : Scopes :=
  { s with vars := s.vars.bind name cell }

def bindFunc (s : Scopes) (func : Func) : Scopes :=
  { s with funcs := s.funcs.bind func.decl.name func }

/-- The frames around the innermost ones. -/
def below (s : Scopes) : List (Frame CellId) × List (Frame Func) := (s.vars.below, s.funcs.below)

/-- Whether a scope is open around the base frames. -/
def IsInner (s : Scopes) : Prop := s.vars.below ≠ [] ∧ s.funcs.below ≠ []

theorem isInner_of_below_eq_push {s t : Scopes} (h : t.below = s.push.below) : t.IsInner := by
  obtain ⟨hv, hf⟩ := Prod.mk.inj h
  exact ⟨by rw [hv]; simp [push, ScopeStack.push], by rw [hf]; simp [push, ScopeStack.push]⟩

/-- Closing a scope brings back what was there when it was opened. -/
theorem pop_of_below_eq_push {s t : Scopes} (h : t.below = s.push.below) : t.pop = s := by
  obtain ⟨hv, hf⟩ := Prod.mk.inj h
  simp only [pop, ScopeStack.pop, hv, hf, push, ScopeStack.push]

end Scopes

def Context.scopes (ctx : Context) : Scopes := ⟨ctx.vars, ctx.funcs⟩

/-- A kind of context without what can change of it: the tables of a World and the arguments and
members of an instance. -/
def ContextKind.skeleton : ContextKind → ContextKind
  | world .. => .emptyWorld
  | call owner function given => .call owner function given
  | object owner decl given _ _ => .object owner decl given [] []
  | closure owner given => .closure owner given

/-- The constructor arguments of an instance. -/
def ContextKind.arguments? : ContextKind → Option (List (String × CellId))
  | object _ _ _ arguments _ => some arguments
  | _ => none

namespace Graph

variable {g : Graph} {c d : CtxId}

def scopes? (g : Graph) (c : CtxId) : Option Scopes := (g.context? c).map Context.scopes

def skeleton? (g : Graph) (c : CtxId) : Option ContextKind := (g.kind? c).map ContextKind.skeleton

def arguments? (g : Graph) (c : CtxId) : Option (List (String × CellId)) :=
  (g.kind? c).bind ContextKind.arguments?

/-- The number of contexts. -/
abbrev size (g : Graph) : Nat := g.contexts.size

/-- What is found is there. -/
theorem lt_of_context? {ctx : Context} (h : g.context? c = some ctx) : c < g.size :=
  (Array.getElem?_eq_some_iff.mp h).1

theorem scopes?_isSome_of_lt (h : c < g.size) : ∃ s, g.scopes? c = some s :=
  ⟨_, by rw [scopes?, context?, Array.getElem?_eq_getElem h]; rfl⟩

theorem context?_add_of_lt (kind : ContextKind) (h : c < g.size) :
    (g.add kind).2.context? c = g.context? c := by
  have hne : c ≠ g.contexts.size := Nat.ne_of_lt h
  simp [context?, add, Array.getElem?_push, hne]

theorem context?_add_self (kind : ContextKind) :
    (g.add kind).2.context? g.size = some (.fresh kind) := by
  simp [context?, add]

theorem context?_add (kind : ContextKind) (c : CtxId) :
    (g.add kind).2.context? c = if c = g.size then some (.fresh kind) else g.context? c := by
  simp [context?, add, Array.getElem?_push]

theorem kind?_add (kind : ContextKind) (c : CtxId) :
    (g.add kind).2.kind? c = if c = g.size then some kind else g.kind? c := by
  rw [kind?, context?_add]
  split <;> rfl

theorem kind?_add_self (kind : ContextKind) : (g.add kind).2.kind? g.size = some kind := by
  rw [kind?_add, if_pos rfl]

theorem isWorld_add_self (kind : ContextKind) :
    (g.add kind).2.isWorld g.size = kind.isWorld := by
  rw [isWorld, kind?_add_self, Option.any_some]

theorem isObject_add_self (kind : ContextKind) :
    (g.add kind).2.isObject g.size = kind.isObject := by
  rw [isObject, kind?_add_self, Option.any_some]

theorem isLive_add_self (kind : ContextKind) : (g.add kind).2.isLive g.size = true := by
  rw [isLive, context?_add_self]
  rfl

theorem lt_of_kind? {kind : ContextKind} (h : g.kind? c = some kind) : c < g.size := by
  obtain ⟨ctx, hctx, -⟩ := Option.map_eq_some_iff.mp h
  exact lt_of_context? hctx

theorem lt_of_isWorld (h : g.isWorld c = true) : c < g.size := by
  obtain ⟨kind, hk, -⟩ := (Option.any_eq_true ..).mp h
  exact lt_of_kind? hk

theorem lt_of_isLive (h : g.isLive c = true) : c < g.size := by
  obtain ⟨ctx, hctx, -⟩ := (Option.any_eq_true ..).mp h
  exact lt_of_context? hctx

/-- An instance is no World. -/
theorem isWorld_of_isObject (h : g.isObject c = true) : g.isWorld c = false := by
  obtain ⟨kind, hk, object⟩ := (Option.any_eq_true ..).mp h
  rw [isWorld, hk]
  cases kind with
  | world => cases object
  | _ => rfl

theorem skeleton?_add_self (kind : ContextKind) :
    (g.add kind).2.skeleton? g.size = some kind.skeleton := by
  rw [skeleton?, kind?_add_self]
  rfl

@[simp] theorem size_add (kind : ContextKind) : (g.add kind).2.size = g.size + 1 := by
  simp [size, add]

@[simp] theorem size_update (f : Context → Context) : (g.update c f).size = g.size := by
  simp [size, update]

theorem scopes?_update (f : Context → Context) (t : Scopes → Scopes)
    (h : ∀ ctx, (f ctx).scopes = t ctx.scopes) :
    (g.update c f).scopes? d = if c = d then (g.scopes? d).map t else g.scopes? d := by
  rw [scopes?, context?_update]
  split
  · cases hd : g.context? d with
    | none => simp [scopes?, hd]
    | some ctx => simp [scopes?, hd, h]
  · rfl

theorem scopes?_update_of_ne (f : Context → Context) (h : c ≠ d) :
    (g.update c f).scopes? d = g.scopes? d := by
  rw [scopes?, context?_update, if_neg h]
  rfl

/-- A change of a context that leaves its scopes alone. -/
theorem scopes?_update_same (f : Context → Context) (h : ∀ ctx, (f ctx).scopes = ctx.scopes) :
    (g.update c f).scopes? d = g.scopes? d := by
  rw [scopes?_update f id h]
  simp

theorem skeleton?_update (f : Context → Context)
    (h : ∀ ctx, (f ctx).kind.skeleton = ctx.kind.skeleton) :
    (g.update c f).skeleton? d = g.skeleton? d := by
  rw [skeleton?, skeleton?, kind?, kind?, context?_update]
  split
  · cases hd : g.context? d with
    | none => rfl
    | some ctx => simp [h]
  · rfl

theorem arguments?_update_of_ne (f : Context → Context) (h : c ≠ d) :
    (g.update c f).arguments? d = g.arguments? d := by
  rw [arguments?, kind?, context?_update, if_neg h]
  rfl

/-- A change of a context that leaves its constructor arguments alone. -/
theorem arguments?_update_same (f : Context → Context)
    (h : ∀ ctx, (f ctx).kind.arguments? = ctx.kind.arguments?) :
    (g.update c f).arguments? d = g.arguments? d := by
  rw [arguments?, arguments?, kind?, kind?, context?_update]
  split
  · cases hd : g.context? d with
    | none => rfl
    | some ctx => exact h ctx
  · rfl

theorem isLive_update (f : Context → Context) (h : ∀ ctx, (f ctx).live = ctx.live) :
    (g.update c f).isLive d = g.isLive d := by
  rw [isLive, isLive, context?_update]
  split
  · cases hd : g.context? d with
    | none => rfl
    | some ctx => simp [h]
  · rfl

theorem owner?_skeleton (kind : ContextKind) : kind.skeleton.owner? = kind.owner? := by
  cases kind <;> rfl

theorem isWorld_skeleton (kind : ContextKind) : kind.skeleton.isWorld = kind.isWorld := by
  cases kind <;> rfl

theorem isObject_skeleton (kind : ContextKind) : kind.skeleton.isObject = kind.isObject := by
  cases kind <;> rfl

end Graph

namespace Declaration

@[simp] theorem skeleton_recordMember (name : String) (kind : ContextKind) :
    (recordMember name kind).skeleton = kind.skeleton := by cases kind <;> rfl

@[simp] theorem arguments?_recordMember (name : String) (kind : ContextKind) :
    (recordMember name kind).arguments? = kind.arguments? := by cases kind <;> rfl

@[simp] theorem arguments?_addClass (decl : ClassDecl) (kind : ContextKind) :
    (addClass decl kind).arguments? = kind.arguments? := by cases kind <;> rfl

@[simp] theorem arguments?_addModule (name : String) (world : CtxId) (kind : ContextKind) :
    (addModule name world kind).arguments? = kind.arguments? := by cases kind <;> rfl

@[simp] theorem skeleton_addArgument (name : String) (cell : CellId) (kind : ContextKind) :
    (addArgument name cell kind).skeleton = kind.skeleton := by cases kind <;> rfl

@[simp] theorem skeleton_addClass (decl : ClassDecl) (kind : ContextKind) :
    (addClass decl kind).skeleton = kind.skeleton := by cases kind <;> rfl

@[simp] theorem skeleton_addModule (name : String) (world : CtxId) (kind : ContextKind) :
    (addModule name world kind).skeleton = kind.skeleton := by cases kind <;> rfl

end Declaration

namespace Graph

@[simp] theorem skeleton_dropArguments (kind : ContextKind) :
    (dropArguments kind).skeleton = kind.skeleton := by cases kind <;> rfl

@[simp] theorem arguments?_setModuleName (name : String) (kind : ContextKind) :
    (setModuleName name kind).arguments? = kind.arguments? := by cases kind <;> rfl

@[simp] theorem skeleton_setModuleName (name : String) (kind : ContextKind) :
    (setModuleName name kind).skeleton = kind.skeleton := by cases kind <;> rfl

variable {g : Graph} {c : CtxId}

theorem scopes?_pushScope : (g.pushScope c).scopes? c = (g.scopes? c).map Scopes.push := by
  rw [pushScope, scopes?_update _ Scopes.push fun _ => rfl, if_pos rfl]

theorem scopes?_popScope : (g.popScope c).scopes? c = (g.scopes? c).map Scopes.pop := by
  rw [popScope, scopes?_update _ Scopes.pop fun _ => rfl, if_pos rfl]

theorem scopes?_ofVar (name cellName : String) (i : CellId) :
    ((Declaration.ofVar c name cellName i).apply g).scopes? c =
      (g.scopes? c).map (·.bindVar name i) :=
  (scopes?_update _ (·.bindVar name i) fun _ => rfl).trans (if_pos rfl)

theorem scopes?_ofFunc (func : Func) :
    ((Declaration.ofFunc c func).apply g).scopes? c = (g.scopes? c).map (·.bindFunc func) :=
  (scopes?_update _ (·.bindFunc func) fun _ => rfl).trans (if_pos rfl)

end Graph

namespace Graph

variable {g : Graph} {c : CtxId}

theorem any_context?_eq_false {p : Scopes → Bool} :
    (g.context? c).any (fun ctx => p ctx.scopes) = false ↔
      ∀ scopes ∈ g.scopes? c, p scopes = false := by
  rw [scopes?]
  cases g.context? c with
  | none => simp
  | some ctx => simp

/-- A variable can be declared if its name is not bound in the innermost frame. -/
theorem ofVar_free_iff {name cellName : String} {i : CellId} :
    (Declaration.ofVar c name cellName i).obstacle? g = none ↔
      ∀ scopes ∈ g.scopes? c, scopes.vars.bindsOnTop name = false := by
  rw [← any_context?_eq_false]
  simp [Declaration.ofVar, Context.scopes]

theorem ofFunc_free_iff {func : Func} :
    (Declaration.ofFunc c func).obstacle? g = none ↔
      ∀ scopes ∈ g.scopes? c, scopes.funcs.bindsOnTop func.decl.name = false := by
  rw [← any_context?_eq_false]
  simp [Declaration.ofFunc, Context.scopes]

end Graph

/-- The context that a run acts in, and what it may do to the scopes there. In contexts of its own
making it may do anything. -/
inductive Footprint where
  /-- Nothing: no context is touched that was there before. -/
  | clean
  /-- Open scopes and close them again. -/
  | blocks (c : CtxId)
  /-- Declare new variables and functions as well. -/
  | names (c : CtxId)
  /-- Bind parameters as well, while the context is set up. -/
  | setup (c : CtxId)

namespace Footprint

def context? : Footprint → Option CtxId
  | clean => none
  | blocks c | names c | setup c => some c

/-- No context below `n` is touched. -/
def Above (n : Nat) (f : Footprint) : Prop := ∀ c, f.context? = some c → n ≤ c

theorem above_clean {n : Nat} : clean.Above n := by
  rintro c ⟨⟩

theorem Above.mono {n n' : Nat} {f : Footprint} (h : f.Above n) (hn : n' ≤ n) : f.Above n' :=
  fun c hc => Nat.le_trans hn (h c hc)

theorem Above.context?_ne {n : Nat} {c : CtxId} {f : Footprint} (h : f.Above n) (below : c < n) :
    f.context? ≠ some c := fun e => Nat.not_le.mpr below (h c e)

/-- The context in which names may appear. -/
def named? : Footprint → Option CtxId
  | clean | blocks _ => none
  | names c | setup c => some c

end Footprint

end TreeScript
