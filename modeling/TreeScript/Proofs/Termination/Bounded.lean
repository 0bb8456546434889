import TreeScript.Proofs.Context.Chains
import TreeScript.Proofs.Context.Changes
import TreeScript.Proofs.Machine.Step

/-!
# Bounded code

Code is bounded if it has no `while` loop and no call of the intrinsic `copy` in it: all that it
repeats it repeats as often as a range or a collection says. A part of a store is bounded if all code
that can be got at from it is.
-/
namespace TreeScript

mutual

def Expr.isBounded : Expr → Bool
  | ⟨node, _⟩ => node.isBounded

def ExprNode.isBounded : ExprNode → Bool
  | .binary _ left right => left.isBounded && right.isBounded
  | .unary _ operand => operand.isBounded
  | .call name args => name != "copy" && exprsBounded args
  -- the call of a method is not the call of an intrinsic of its name
  | .member left ⟨.call _ args, _⟩ => left.isBounded && exprsBounded args
  | .member left _ => left.isBounded
  | .index left index => left.isBounded && index.isBounded
  | .list items => exprsBounded items
  | .tuple items => exprsBounded items
  | .dict _ entries => entriesBounded entries
  | .closure _ body => blockBounded body
  | _ => true

def exprsBounded : List Expr → Bool
  | [] => true
  | e :: rest => e.isBounded && exprsBounded rest

def entriesBounded : List (Expr × Expr) → Bool
  | [] => true
  | (key, value) :: rest => key.isBounded && value.isBounded && entriesBounded rest

def Stmt.isBounded : Stmt → Bool
  | ⟨node, _⟩ => node.isBounded

def StmtNode.isBounded : StmtNode → Bool
  | .letVar _ _ value _ => value.isBounded
  | .assign target _ value => target.isBounded && value.isBounded
  | .defFunc decl => decl.isBounded
  | .defClass decl => decl.isBounded
  | .ifElse condition body none => condition.isBounded && blockBounded body
  | .ifElse condition body (some otherwise) =>
    condition.isBounded && blockBounded body && blockBounded otherwise
  | .whileLoop .. => false
  | .forRange _ first last body => first.isBounded && last.isBounded && blockBounded body
  | .ret none => true
  | .ret (some e) => e.isBounded
  | .expr e => e.isBounded
  | .importPath _ => true
  | .nameModule _ => true
  | .block body => blockBounded body

def blockBounded : List Stmt → Bool
  | [] => true
  | s :: rest => s.isBounded && blockBounded rest

def FuncDecl.isBounded : FuncDecl → Bool
  | ⟨_, _, _, body, _⟩ => blockBounded body

def funcsBounded : List FuncDecl → Bool
  | [] => true
  | decl :: rest => decl.isBounded && funcsBounded rest

def MemberDecl.isBounded : MemberDecl → Bool
  | ⟨_, _, value, _, _⟩ => value.isBounded

def membersBounded : List MemberDecl → Bool
  | [] => true
  | member :: rest => member.isBounded && membersBounded rest

def ClassDecl.isBounded : ClassDecl → Bool
  | ⟨_, _, members, methods, _⟩ => membersBounded members && funcsBounded methods

end

theorem FuncDecl.isBounded_eq (decl : FuncDecl) : decl.isBounded = blockBounded decl.body := by
  obtain ⟨name, params, result, body, attrs⟩ := decl
  rfl

theorem MemberDecl.isBounded_eq (member : MemberDecl) :
    member.isBounded = member.value.isBounded := by
  obtain ⟨name, type, value, attrs, span⟩ := member
  rfl

theorem ClassDecl.isBounded_iff {decl : ClassDecl} : decl.isBounded = true ↔
    membersBounded decl.members = true ∧ funcsBounded decl.methods = true := by
  obtain ⟨name, params, members, methods, attrs⟩ := decl
  exact Bool.and_eq_true_iff

mutual

/-- The closures that can be got at through a value. -/
def Value.closures : Value → List Closure
  | .list items => closuresOfItems items
  | .tuple items => closuresOfItems items
  | .dict (.ofKind _ entries) => closuresOfEntries entries
  | .some v => v.closures
  | .closure c => [c]
  | _ => []

def closuresOfItems : List Value → List Closure
  | [] => []
  | v :: rest => v.closures ++ closuresOfItems rest

def closuresOfEntries : List (Key × Value) → List Closure
  | [] => []
  | (_, v) :: rest => v.closures ++ closuresOfEntries rest

end

theorem closuresOfItems_eq (items : List Value) :
    closuresOfItems items = items.flatMap Value.closures := by
  induction items with
  | nil => rfl
  | cons v rest ih => rw [closuresOfItems, ih, List.flatMap_cons]

theorem closuresOfEntries_eq (entries : List (Key × Value)) :
    closuresOfEntries entries = entries.flatMap fun e => e.2.closures := by
  induction entries with
  | nil => rfl
  | cons e rest ih => rw [closuresOfEntries, ih, List.flatMap_cons]

mutual

/-- A value names the contexts of its closures. -/
theorem Value.captured_mem_contexts {cl : Closure} : ∀ v : Value, cl ∈ v.closures →
    cl.captured ∈ v.contexts
  | .list items, h => captured_mem_contextsOfItems items h
  | .tuple items, h => captured_mem_contextsOfItems items h
  | .dict (.ofKind _ entries), h => captured_mem_contextsOfEntries entries h
  | .some v, h => v.captured_mem_contexts h
  | .closure c, h => by
    rw [Value.closures, List.mem_singleton] at h
    exact h ▸ List.mem_singleton_self _
  | .int _, h | .float _, h | .bool _, h | .char _, h | .str _, h | .none, h | .file _, h
  | .object _, h | .module _, h | .unit, h => nomatch h

theorem captured_mem_contextsOfItems {cl : Closure} : ∀ items : List Value,
    cl ∈ closuresOfItems items → cl.captured ∈ contextsOfItems items
  | v :: rest, h => by
    rw [closuresOfItems, List.mem_append] at h
    rw [contextsOfItems, List.mem_append]
    exact h.imp v.captured_mem_contexts (captured_mem_contextsOfItems rest)

theorem captured_mem_contextsOfEntries {cl : Closure} : ∀ entries : List (Key × Value),
    cl ∈ closuresOfEntries entries → cl.captured ∈ contextsOfEntries entries
  | (_, v) :: rest, h => by
    rw [closuresOfEntries, List.mem_append] at h
    rw [contextsOfEntries, List.mem_append]
    exact h.imp v.captured_mem_contexts (captured_mem_contextsOfEntries rest)

end

namespace Value

theorem closures_dict (d : Dict Value) :
    (dict d).closures = d.entries.flatMap fun e => e.2.closures := by
  cases d with
  | undetermined => rfl
  | ofKind kind entries => exact closuresOfEntries_eq entries

/-- All closures that can be got at through the value have bounded code. -/
def Bounded (v : Value) : Prop := ∀ cl ∈ v.closures, blockBounded cl.body = true

theorem bounded_list {items : List Value} :
    (list items).Bounded ↔ ∀ v ∈ items, v.Bounded := by
  simp only [Bounded, closures, closuresOfItems_eq, List.mem_flatMap]
  exact ⟨fun h v hv cl hcl => h cl ⟨v, hv, hcl⟩, fun h cl ⟨v, hv, hcl⟩ => h v hv cl hcl⟩

theorem bounded_dict {d : Dict Value} : (dict d).Bounded ↔ ∀ e ∈ d.entries, e.2.Bounded := by
  simp only [Bounded, closures_dict, List.mem_flatMap]
  exact ⟨fun h e he cl hcl => h cl ⟨e, he, hcl⟩, fun h cl ⟨e, he, hcl⟩ => h e he cl hcl⟩

theorem bounded_of_eq_nil {v : Value} (none : v.contexts = []) : v.Bounded := by
  intro cl hcl
  have named := v.captured_mem_contexts hcl
  rw [none] at named
  cases named

instance : Hereditary Bounded :=
  .of_contents bounded_of_eq_nil bounded_list bounded_list bounded_dict Iff.rfl

theorem bounded_closure {cl : Closure} : (closure cl).Bounded ↔ blockBounded cl.body = true := by
  simp [Bounded, closures]

end Value

/-- The classes of a World. -/
def ContextKind.classes : ContextKind → List (String × ClassDecl)
  | world _ classes _ => classes
  | _ => []

/-- All functions and classes that are declared in a context have bounded code. -/
structure Context.Bounded (ctx : Context) : Prop where
  funcs : ∀ frame ∈ ctx.funcs.frames, ∀ entry ∈ frame, entry.2.decl.isBounded = true
  classes : ∀ entry ∈ ctx.kind.classes, entry.2.isBounded = true

namespace ContextKind

variable (kind : ContextKind) (name : String)

open Declaration TreeScript.Graph

theorem classes_recordMember : (recordMember name kind).classes = kind.classes := by
  cases kind <;> rfl

theorem classes_addArgument (i : CellId) : (addArgument name i kind).classes = kind.classes := by
  cases kind <;> rfl

theorem classes_addModule (world : CtxId) : (addModule name world kind).classes = kind.classes := by
  cases kind <;> rfl

theorem classes_setModuleName : (setModuleName name kind).classes = kind.classes := by
  cases kind <;> rfl

theorem classes_dropArguments : (dropArguments kind).classes = kind.classes := by
  cases kind <;> rfl

end ContextKind

namespace Context.Bounded

variable {ctx : Context}

/-- A context with nothing declared in it. -/
theorem fresh {kind : ContextKind} (bare : kind.classes = []) : (Context.fresh kind).Bounded where
  funcs := List.forall_mem_cons.mpr ⟨nofun, nofun⟩
  classes := by
    show ∀ entry ∈ kind.classes, _
    rw [bare]
    nofun

theorem setKind (h : ctx.Bounded) {kind : ContextKind} (same : kind.classes = ctx.kind.classes) :
    { ctx with kind }.Bounded where
  funcs := h.funcs
  classes := by
    show ∀ entry ∈ kind.classes, _
    rw [same]
    exact h.classes

end Context.Bounded

namespace Part

variable {p : Part} {s : Store} {c : CtxId} {name : String}

/-- The value names only contexts of the part, and it has no closures but of bounded code. -/
def Val (p : Part) (v : Value) : Prop := v.Within p.Ctx ∧ v.Bounded

/-- The function belongs to a context of the part, and its code is bounded. -/
def MayCall (p : Part) (func : Func) : Prop := p.Ctx func.owner ∧ func.decl.isBounded = true

/-- The context leads only into the part, and the code in it is bounded. -/
structure Bears (p : Part) (ctx : Context) : Prop where
  within : ctx.Within p.Ctx p.Cell
  bounded : ctx.Bounded

/-- Nothing leads out of the part, and all code in it is bounded. -/
structure Bounded (p : Part) (s : Store) : Prop where
  contexts : ∀ c ctx, p.Ctx c → s.graph.context? c = some ctx → p.Bears ctx
  values : ∀ i, p.Cell i → p.Val (s.cell i).value

/-- The part is bounded, and all that is yet to come is in it. -/
structure Open (p : Part) (s : Store) : Prop extends p.Bounded s where
  newContexts : ∀ c, s.graph.size ≤ c → p.Ctx c
  newCells : ∀ i, s.cells.size ≤ i → p.Cell i

instance : Value.Hereditary p.Val :=
  .and (V := Value.Within p.Ctx) (W := Value.Bounded) inferInstance inferInstance

theorem val_closure {cl : Closure} :
    p.Val (.closure cl) ↔ p.Ctx cl.captured ∧ blockBounded cl.body = true :=
  and_congr Value.within_closure Value.bounded_closure

/-- Instances and modules are handles. -/
theorem val_object : p.Val (.object c) ↔ p.Ctx c :=
  ⟨fun h => Value.within_object.mp h.1, fun h => ⟨Value.within_object.mpr h, nofun⟩⟩

theorem val_module : p.Val (.module c) ↔ p.Ctx c :=
  ⟨fun h => Value.within_module.mp h.1, fun h => ⟨Value.within_module.mpr h, nofun⟩⟩

namespace Bounded

theorem closed (h : p.Bounded s) : s.Closed p.Ctx p.Cell where
  contexts c ctx hc hctx := (h.contexts c ctx hc hctx).within
  values i hi := (h.values i hi).1

theorem localFunc? (h : p.Bounded s) (hc : p.Ctx c) {func : Func}
    (found : s.graph.localFunc? c name = some func) : p.MayCall func := by
  obtain ⟨ctx, hctx, hf⟩ := Option.bind_eq_some_iff.mp found
  obtain ⟨frame, hframe, hf⟩ := ScopeStack.mem_of_get? hf
  exact ⟨h.closed.localFunc? hc found, (h.contexts c ctx hc hctx).bounded.funcs frame hframe _ hf⟩

theorem func? (h : p.Bounded s) (hc : p.Ctx c) {func : Func}
    (found : s.graph.func? c name = some func) : p.MayCall func := by
  obtain ⟨d, hd, here⟩ := Graph.declared_of_func? found
  exact h.localFunc? (h.closed.mem_chain hc hd) here

theorem class? (h : p.Bounded s) (hc : p.Ctx c) {decl : ClassDecl}
    (found : s.graph.class? c name = some decl) : decl.isBounded = true := by
  rw [Graph.class?] at found
  cases hk : s.graph.kind? (s.graph.root c) with
  | none =>
    rw [hk] at found
    cases found
  | some kind =>
    rw [hk] at found
    obtain ⟨ctx, hctx, rfl⟩ := Option.map_eq_some_iff.mp hk
    have declared := (h.contexts _ ctx (h.closed.root hc) hctx).bounded.classes
    cases hk : ctx.kind with
    | world module classes imports =>
      rw [hk] at found declared
      obtain ⟨before, after, rfl, -⟩ := List.lookup_eq_some_iff.mp found
      exact declared (name, decl) (List.mem_append_right before List.mem_cons_self)
    | _ =>
      rw [hk] at found
      cases found

end Bounded

namespace Bears

variable {ctx : Context}

theorem setKind (h : p.Bears ctx) {f : ContextKind → ContextKind}
    (within : { ctx with kind := f ctx.kind }.Within p.Ctx p.Cell)
    (same : ∀ kind, (f kind).classes = kind.classes) : p.Bears { ctx with kind := f ctx.kind } :=
  ⟨within, h.bounded.setKind (same ctx.kind)⟩

theorem push (h : p.Bears ctx) :
    p.Bears { ctx with vars := ctx.vars.push, funcs := ctx.funcs.push } :=
  ⟨Context.harmless_push.within ctx h.within,
    List.forall_mem_cons.mpr ⟨nofun, h.bounded.funcs⟩, h.bounded.classes⟩

theorem pop (h : p.Bears ctx) : p.Bears { ctx with vars := ctx.vars.pop, funcs := ctx.funcs.pop } :=
  ⟨Context.harmless_pop.within ctx h.within,
    Context.forall_frames_pop h.bounded.funcs, h.bounded.classes⟩

theorem bindVar (h : p.Bears ctx) (name : String) {i : CellId} (hi : p.Cell i) :
    p.Bears { ctx with
      kind := Declaration.recordMember name ctx.kind
      vars := ctx.vars.bind name i } :=
  ⟨h.within.bindVar name hi, h.bounded.funcs,
    (h.bounded.setKind (ctx.kind.classes_recordMember name)).classes⟩

theorem bindFunc (h : p.Bears ctx) {func : Func} (hf : p.MayCall func) :
    p.Bears { ctx with funcs := ctx.funcs.bind func.decl.name func } :=
  ⟨(Context.harmless_bindFunc hf.1).within ctx h.within,
    Context.forall_frames_bind h.bounded.funcs hf.2, h.bounded.classes⟩

theorem addClass (h : p.Bears ctx) {decl : ClassDecl} (bounded : decl.isBounded = true) :
    p.Bears { ctx with kind := Declaration.addClass decl ctx.kind } := by
  refine ⟨(Context.harmless_addClass decl).within ctx h.within, h.bounded.funcs, ?_⟩
  show ∀ entry ∈ (Declaration.addClass decl ctx.kind).classes, _
  have old := h.bounded.classes
  cases hk : ctx.kind with
  | world module classes imports =>
    rw [hk] at old
    exact List.forall_mem_cons.mpr ⟨bounded, old⟩
  | _ => nofun

end Bears

namespace Open

theorem update (h : p.Open s) {f : Context → Context}
    (keeps : ∀ ctx, p.Bears ctx → p.Bears (f ctx)) : p.Open (s.modifyGraph (·.update c f)) where
  contexts d ctx hd hctx := by
    change (s.graph.update c f).context? d = some ctx at hctx
    rw [Graph.context?_update] at hctx
    split at hctx
    · obtain ⟨old, hold, rfl⟩ := Option.map_eq_some_iff.mp hctx
      exact keeps old (h.contexts d old hd hold)
    · exact h.contexts d ctx hd hctx
  values := h.values
  newContexts d hd := h.newContexts d (by rwa [Store.modifyGraph, Graph.size_update] at hd)
  newCells := h.newCells

theorem updateKind (h : p.Open s) {f : ContextKind → ContextKind}
    (within : ∀ ctx : Context, ctx.Within p.Ctx p.Cell →
      { ctx with kind := f ctx.kind }.Within p.Ctx p.Cell)
    (same : ∀ kind, (f kind).classes = kind.classes) :
    p.Open (s.modifyGraph (·.update c fun ctx => { ctx with kind := f ctx.kind })) :=
  h.update fun ctx hctx => hctx.setKind (within ctx hctx.within) same

theorem nameModule (h : p.Open s) : p.Open (s.modifyGraph (·.nameModule c name)) :=
  h.updateKind (Context.harmless_setModuleName name).within
    fun kind => kind.classes_setModuleName name

theorem clearArguments (h : p.Open s) : p.Open (s.modifyGraph (·.clearArguments c)) :=
  h.updateKind Context.harmless_dropArguments.within ContextKind.classes_dropArguments

theorem ofVar (h : p.Open s) (cellName : String) {i : CellId} (hi : p.Cell i) :
    p.Open (s.modifyGraph (Declaration.ofVar c name cellName i).apply) :=
  h.update fun _ hctx => hctx.bindVar name hi

theorem ofArgument (h : p.Open s) {i : CellId} (hi : p.Cell i) :
    p.Open (s.modifyGraph (Declaration.ofArgument c name i).apply) :=
  h.updateKind (fun _ within => within.addArgument name hi)
    fun kind => kind.classes_addArgument name i

theorem ofFunc (h : p.Open s) {func : Func} (hf : p.MayCall func) :
    p.Open (s.modifyGraph (Declaration.ofFunc c func).apply) :=
  h.update fun _ hctx => hctx.bindFunc hf

theorem ofClass (h : p.Open s) {decl : ClassDecl} (bounded : decl.isBounded = true) :
    p.Open (s.modifyGraph (Declaration.ofClass c decl).apply) :=
  h.update fun _ hctx => hctx.addClass bounded

theorem ofModule (h : p.Open s) {world : CtxId} (hw : p.Ctx world) :
    p.Open (s.modifyGraph (Declaration.ofModule c name world).apply) :=
  h.updateKind (Context.harmless_addModule name hw).within
    fun kind => kind.classes_addModule name world

theorem addContext (h : p.Open s) {kind : ContextKind}
    (owner : ∀ o, kind.owner? = some o → p.Ctx o)
    (bare : kind.imports = [] ∧ kind.arguments?.getD [] = [] ∧ kind.classes = []) :
    p.Open (s.addContext kind).2 where
  contexts c ctx hc hctx := by
    change (s.graph.add kind).2.context? c = some ctx at hctx
    rw [Graph.context?_add] at hctx
    split at hctx
    · cases hctx
      exact ⟨Context.within_fresh owner bare.1 bare.2.1, .fresh bare.2.2⟩
    · exact h.contexts c ctx hc hctx
  values := h.values
  newContexts c hc := by
    rw [Store.addContext, Graph.size_add] at hc
    exact h.newContexts c (Nat.le_of_succ_le hc)
  newCells := h.newCells

theorem addCell (h : p.Open s) {cell : TreeScript.Cell} (hv : p.Val cell.value) :
    p.Open (s.addCell cell).2 where
  contexts := h.contexts
  values := Store.forall_values_addCell h.values hv
  newContexts := h.newContexts
  newCells i hi := by
    rw [Store.addCell, Array.size_push] at hi
    exact h.newCells i (Nat.le_of_succ_le hi)

theorem setValue (h : p.Open s) {i : CellId} {value : Value} (hv : p.Val value) :
    p.Open (s.setValue i value) where
  contexts := h.contexts
  values := Store.forall_values_setValue h.values hv
  newContexts := h.newContexts
  newCells j hj := h.newCells j (by simpa [Store.setValue] using hj)

theorem release (h : p.Open s) (holds : List Hold) : p.Open (s.release holds) where
  contexts c ctx hc hctx := by
    obtain ⟨live, same⟩ := Store.context?_release s holds c
    rw [same] at hctx
    obtain ⟨old, hold, rfl⟩ := Option.map_eq_some_iff.mp hctx
    obtain ⟨within, bounded⟩ := h.contexts c old hc hold
    exact ⟨⟨within.owner, within.imports, within.arguments, within.vars, within.funcs⟩,
      bounded.funcs, bounded.classes⟩
  values := h.values
  newContexts c hc := h.newContexts c (Store.size_release s holds ▸ hc)
  newCells := h.newCells

end Open

/-- The part with all that is yet to come. -/
def grow (p : Part) (s : Store) : Part :=
  ⟨fun c => p.Ctx c ∨ s.graph.size ≤ c, fun i => p.Cell i ∨ s.cells.size ≤ i⟩

theorem Bounded.grow (h : p.Bounded s) : (p.grow s).Open s where
  contexts c ctx hc hctx := by
    have old : p.Ctx c := hc.resolve_right fun new =>
      absurd (Graph.lt_of_context? hctx) (Nat.not_lt.mpr new)
    obtain ⟨within, bounded⟩ := h.contexts c ctx old hctx
    refine ⟨⟨fun o ho => .inl (within.owner o ho), fun e he => .inl (within.imports e he),
      fun bound hb e he => .inl (within.arguments bound hb e he),
      fun frame hf e he => .inl (within.vars frame hf e he),
      fun frame hf e he => .inl (within.funcs frame hf e he)⟩, bounded⟩
  values i hi := by
    rcases hi with old | new
    · exact ⟨(h.values i old).1.mono fun _ => .inl, (h.values i old).2⟩
    · rw [Store.value_cell_of_ge new]
      exact Value.Hereditary.unit
  newContexts _ := .inr
  newCells _ := .inr

end Part

end TreeScript
