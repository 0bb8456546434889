import TreeScript.Proofs.Context.Entries

/-!
# What is called, and with what

Functions, closures and classes are called alike: a call runs in a context of its own, whose owner
is the context that the code was declared in. That context tells what the call was given, so it tells
which of its parameters are references.
-/
namespace TreeScript

/-- What a program calls: a function or a method, a closure, or a class of some World. -/
inductive Callee where
  | func (func : Func)
  | closure (closure : Closure)
  | class (decl : ClassDecl) (world : CtxId)

namespace Callee

/-- The context that the code of a call was declared in. -/
def owner : Callee → CtxId
  | .func f => f.owner
  | .closure cl => cl.captured
  | .class _ world => world

def params : Callee → List Param
  | .func f => f.decl.params
  | .closure cl => cl.params
  | .class decl _ => decl.params

/-- The kind of the context that a call with the arguments runs in. -/
def kind (callee : Callee) (args : List Arg) : ContextKind :=
  let given := callee.params.zip args
  match callee with
  | .func f => .call f.owner f.decl.name given
  | .closure cl => .closure cl.captured given
  | .class decl world => .object world decl given [] []

/-- A call of a function or a closure, whose context binds variables only. -/
def IsCode : Callee → Prop
  | .class .. => False
  | _ => True

variable (callee : Callee) (args : List Arg)

/-- A context for a call has nothing in it. -/
theorem bare : (callee.kind args).imports = [] ∧ (callee.kind args).arguments?.getD [] = [] := by
  cases callee <;> exact ⟨rfl, rfl⟩

theorem owner?_kind : (callee.kind args).owner? = some callee.owner := by
  cases callee <;> rfl

end Callee

namespace ContextKind

/-- What the call was given that a context was made for: its parameters, each with its argument. -/
def given : ContextKind → List (Param × Arg)
  | world .. => []
  | call _ _ given => given
  | object _ _ given .. => given
  | closure _ given => given

/-- Where the parameters of a call stand: those of a class are the constructor arguments of the
instance, those of a function or a closure stand in the base frame of the call. -/
def paramHeight (kind : ContextKind) : Nat := if kind.isObject then 0 else 1

theorem given_skeleton (kind : ContextKind) : kind.skeleton.given = kind.given := by
  cases kind <;> rfl

theorem paramHeight_skeleton (kind : ContextKind) : kind.skeleton.paramHeight = kind.paramHeight := by
  cases kind <;> rfl

end ContextKind

theorem Callee.given_kind (callee : Callee) (args : List Arg) :
    (callee.kind args).given = callee.params.zip args := by
  cases callee <;> rfl

namespace Graph

variable {g g' : Graph} {e : Entry} {i : CellId}

/-- The entry is a parameter that is a reference by its declaration, in the context of a call that was
given the cell for it. -/
def IsReference (g : Graph) (e : Entry) (i : CellId) : Prop :=
  ∃ kind param arg, g.kind? e.ctx = some kind ∧ e.height = kind.paramHeight ∧
    (param, arg) ∈ kind.given ∧ param.attrs.isRef = true ∧ param.name = e.name ∧ arg.cell = some i

/-- What a context was made for never changes. -/
theorem IsReference.of_skeleton? (h : g.IsReference e i)
    (same : g'.skeleton? e.ctx = g.skeleton? e.ctx) : g'.IsReference e i := by
  obtain ⟨kind, param, arg, hk, height, given, rest⟩ := h
  rw [skeleton?, skeleton?, hk] at same
  obtain ⟨kind', hk', same⟩ := Option.map_eq_some_iff.mp same
  refine ⟨kind', param, arg, hk', ?_, ?_, rest⟩
  · rw [height, ← kind.paramHeight_skeleton, ← same, kind'.paramHeight_skeleton]
  · rw [← kind'.given_skeleton, same, kind.given_skeleton]
    exact given

/-- The references in the context of a call are the parameters that are references by declaration,
each to the cell that its argument carries. -/
theorem isReference_iff {callee : Callee} {args : List Arg}
    (context : g.skeleton? e.ctx = some (callee.kind args).skeleton) :
    g.IsReference e i ↔ e.height = (callee.kind args).paramHeight ∧
      ∃ param arg, (param, arg) ∈ callee.params.zip args ∧ param.attrs.isRef = true ∧
        param.name = e.name ∧ arg.cell = some i := by
  obtain ⟨kind, hk, same⟩ := Option.map_eq_some_iff.mp context
  have given : kind.given = callee.params.zip args := by
    rw [← kind.given_skeleton, same, ContextKind.given_skeleton, callee.given_kind]
  have height : kind.paramHeight = (callee.kind args).paramHeight := by
    rw [← kind.paramHeight_skeleton, same, ContextKind.paramHeight_skeleton]
  rw [← given, ← height]
  constructor
  · rintro ⟨kind', param, arg, hk', there, rest⟩
    cases hk.symm.trans hk'
    exact ⟨there, param, arg, rest⟩
  · rintro ⟨there, param, arg, rest⟩
    exact ⟨kind, param, arg, hk, there, rest⟩

theorem IsReference.lt (h : g.IsReference e i) : e.ctx < g.size := by
  obtain ⟨kind, -, -, hk, -⟩ := h
  obtain ⟨ctx, hctx, -⟩ := Option.map_eq_some_iff.mp hk
  exact lt_of_context? hctx

/-- A reference stands in the context of a call. -/
theorem IsReference.not_world (h : g.IsReference e i) : g.isWorld e.ctx = false := by
  obtain ⟨kind, param, arg, hk, -, given, -⟩ := h
  rw [isWorld, hk, Option.any_some]
  cases kind with
  | world => cases given
  | _ => rfl

/-- In an instance only constructor arguments are references. -/
theorem IsReference.height_of_object (h : g.IsReference e i) (object : g.isObject e.ctx = true) :
    e.height = 0 := by
  obtain ⟨kind, -, -, hk, height, -⟩ := h
  rw [isObject, hk, Option.any_some] at object
  rw [height, ContextKind.paramHeight, if_pos object]

end Graph

end TreeScript
