import TreeScript.Scope
import TreeScript.Value.Basic

/-!
# The graph of contexts

All running code sits in a context: the World of a program or module, a call of a function, an
instance of a class or an invocation of a closure. A context other than a World has an owner, the
context that its code was declared in, and is younger than its owner. So the owners of a context
form a finite chain, which ends in a World as long as that World is there.
-/
namespace TreeScript

/-- An argument of a call, with the variable that it names when it is a bare name. -/
structure Arg where
  value : Value
  cell : Option CellId

/-- An argument that is just a value. -/
def Arg.ofValue (v : Value) : Arg := ⟨v, none⟩

/-- A declared function: its code and the context it was declared in. A function does not keep that
context alive. -/
structure Func where
  decl : FuncDecl
  owner : CtxId

/-- What a context is for. A context that a call was made in tells what was given to it: each
parameter with its argument. That is a record, by which nothing is looked up or kept alive. -/
inductive ContextKind where
  | world (module : Option String) (classes : List (String × ClassDecl))
      (imports : List (String × CtxId))
  | call (owner : CtxId) (function : String) (given : List (Param × Arg))
  /-- An instance, with the constructor arguments while it is built and the names of its members in
  the order of their declaration. -/
  | object (owner : CtxId) (decl : ClassDecl) (given : List (Param × Arg))
      (arguments : List (String × CellId)) (members : List String)
  | closure (owner : CtxId) (given : List (Param × Arg))

namespace ContextKind

def emptyWorld : ContextKind := world none [] []

def owner? : ContextKind → Option CtxId
  | world .. => none
  | call owner .. => some owner
  | object owner .. => some owner
  | closure owner _ => some owner

def isWorld : ContextKind → Bool
  | world .. => true
  | _ => false

def isObject : ContextKind → Bool
  | object .. => true
  | _ => false

end ContextKind

structure Context where
  kind : ContextKind
  vars : ScopeStack CellId
  funcs : ScopeStack Func
  /-- Cleared once nothing keeps the context alive. -/
  live : Bool

/-- A context with nothing declared in it. -/
def Context.fresh (kind : ContextKind) : Context := ⟨kind, .base, .base, true⟩

structure Graph where
  contexts : Array Context

namespace Graph

def empty : Graph := ⟨#[]⟩

def context? (g : Graph) (c : CtxId) : Option Context := g.contexts[c]?

/-- Adds a context and gives its number. -/
def add (g : Graph) (kind : ContextKind) : CtxId × Graph :=
  (g.contexts.size, ⟨g.contexts.push (.fresh kind)⟩)

def update (g : Graph) (c : CtxId) (f : Context → Context) : Graph := ⟨g.contexts.modify c f⟩

theorem context?_update (g : Graph) (c d : CtxId) (f : Context → Context) :
    (g.update c f).context? d = if c = d then (g.context? d).map f else g.context? d := by
  simp [context?, update, Array.getElem?_modify]

def kind? (g : Graph) (c : CtxId) : Option ContextKind := (g.context? c).map (·.kind)

def isWorld (g : Graph) (c : CtxId) : Bool := (g.kind? c).any ContextKind.isWorld

def isObject (g : Graph) (c : CtxId) : Bool := (g.kind? c).any ContextKind.isObject

def isLive (g : Graph) (c : CtxId) : Bool := (g.context? c).any Context.live

/-- The context that a link to `target` leads to. A link to a World does not keep it alive and
leads nowhere once the World is gone; any other link keeps its target. -/
def follow (g : Graph) (target : CtxId) : Option CtxId :=
  if g.isWorld target && !g.isLive target then none else some target

/-- The owner of a context, while it is there. Owners are older than what they own. -/
def owner? (g : Graph) (c : CtxId) : Option CtxId :=
  match (g.kind? c).bind ContextKind.owner? with
  | none => none
  | some o => if o < c then g.follow o else none

/-- The first `n + 1` contexts of the chain of owners. -/
def chainUpTo (g : Graph) : Nat → CtxId → List CtxId
  | 0, c => [c]
  | n + 1, c =>
    match g.owner? c with
    | none => [c]
    | some o => c :: chainUpTo g n o

/-- The context, its owner, the owner of that and so on. -/
def chain (g : Graph) (c : CtxId) : List CtxId := g.chainUpTo c c

theorem lt_of_owner? {g : Graph} {c o : CtxId} (h : g.owner? c = some o) : o < c := by
  unfold owner? at h
  split at h
  · simp at h
  · rename_i p _
    split at h
    · rename_i hlt
      unfold follow at h
      split at h
      · simp at h
      · simpa using (Option.some.inj h) ▸ hlt
    · simp at h

/-- The last of the first `n + 1` contexts that the owners lead to, whether they are there or
not. -/
def originUpTo (g : Graph) : Nat → CtxId → CtxId
  | 0, c => c
  | n + 1, c =>
    match (g.kind? c).bind ContextKind.owner? with
    | none => c
    | some o => if o < c then originUpTo g n o else c

/-- The World that the code was declared in, whether it is there or not. -/
def origin (g : Graph) (c : CtxId) : CtxId := g.originUpTo c c

/-- The last context of the chain: the World of the code, as long as that is there. -/
def root (g : Graph) (c : CtxId) : CtxId := (g.chain c).getLastD c

/-- The nearest instance on the chain. -/
def enclosingObject? (g : Graph) (c : CtxId) : Option CtxId := (g.chain c).find? g.isObject

/-- Whether `target` is on the chain. -/
def isWithin (g : Graph) (c target : CtxId) : Bool := (g.chain c).contains target

def className? (g : Graph) (c : CtxId) : Option String :=
  match g.kind? c with
  | some (.object _ decl ..) => some decl.name
  | _ => none

/-- The names of the members of an instance, in the order of their declaration. -/
def memberNames (g : Graph) (c : CtxId) : List String :=
  match g.kind? c with
  | some (.object _ _ _ _ members) => members
  | _ => []

/-- The name of the module that the code belongs to. -/
def moduleName? (g : Graph) (c : CtxId) : Option String :=
  match g.kind? (g.root c) with
  | some (.world module _ _) => module
  | _ => none

end Graph

end TreeScript
