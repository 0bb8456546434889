import TreeScript.Proofs.Context.Acts

/-!
# Functions are looked for at the owners first

A call or a closure finds a function that its owner finds before one that is declared in it, and an
instance finds its methods before anything else. So what a function name means in some context it
means in all calls and closures inside, however deep and whatever is declared there.
-/
namespace TreeScript.Graph

variable {g g' : Graph} {c d o : CtxId} {name : String} {func : Func} {P : CtxId → Prop}

/-- Whether a context is that of a call or of a closure. -/
def isCode (g : Graph) (c : CtxId) : Bool :=
  match g.skeleton? c with
  | some (.call ..) | some (.closure ..) => true
  | _ => false

/-- The context is `c`, or that of a call or a closure whose owner is inside `c`. -/
inductive Inside (g : Graph) (c : CtxId) : CtxId → Prop
  | self : Inside g c c
  | owned {d o : CtxId} (code : g.isCode d = true) (owner : g.owner? d = some o)
    (h : Inside g c o) : Inside g c d

/-- A call or a closure finds what its owner finds, and else what is declared in it. -/
theorem func?_of_isCode (code : g.isCode d = true) (owner : g.owner? d = some o) :
    g.func? d name = (g.func? o name).or (g.localFunc? d name) := by
  rw [func?, chain_of_some owner, funcAlong?_cons]
  rw [isCode] at code
  split at code
  · rename_i hk
    rw [hk]
    rfl
  · rename_i hk
    rw [hk]
    rfl
  · cases code

theorem func?_of_inside (h : g.Inside c d) (found : g.func? c name = some func) :
    g.func? d name = some func := by
  induction h with
  | self => exact found
  | owned code owner _ ih => rw [func?_of_isCode code owner, ih, Option.some_or]

/-- An instance finds its own methods first. -/
theorem func?_of_method (object : g.isObject c = true) (method : g.localFunc? c name = some func) :
    g.func? c name = some func := by
  obtain ⟨kind, hk, object⟩ := (Option.any_eq_true ..).mp object
  rw [func?, chain_eq_cons, funcAlong?, hk]
  cases kind with
  | object owner decl given arguments members =>
    dsimp only
    rw [method, Option.some_or]
  | _ => cases object

/-- Acts in several contexts, one after the other. -/
def actsIn (g : Graph) (acts : List (CtxId × ScopeAct)) : Graph :=
  acts.foldl (fun g a => g.act a.1 a.2) g

namespace OnlyFrames

theorem actsIn (as : List (CtxId × ScopeAct)) :
    OnlyFrames (fun d => ∃ a ∈ as, a.1 = d) g (g.actsIn as) := by
  induction as generalizing g with
  | nil => exact .refl _ g
  | cons a as ih =>
    have first : OnlyFrames (fun d => ∃ b ∈ a :: as, b.1 = d) g (g.act a.1 a.2) :=
      (OnlyFrames.act a.2).mono fun d hd => ⟨a, List.mem_cons_self, hd.symm⟩
    refine first.trans (ih.mono ?_)
    rintro d ⟨b, hb, same⟩
    exact ⟨b, List.mem_cons_of_mem a hb, same⟩

theorem inside (kept : OnlyFrames P g g') (h : g.Inside c d) : g'.Inside c d := by
  induction h with
  | self => exact .self
  | @owned d o code owner _ ih =>
    refine .owned ?_ ((kept.owner?_eq d).trans owner) ih
    rw [isCode, kept.skeletons]
    exact code

theorem isObject_eq (kept : OnlyFrames P g g') (c : CtxId) : g'.isObject c = g.isObject c := by
  rw [← isInstance_eq, ← isInstance_eq, isInstance, isInstance, kept.skeletons]

end OnlyFrames

/-- **Functions are looked for at the owners first.** Whatever has been declared, in any scopes and in
any contexts, a function name means in every call and closure inside a context what it means in the
context itself. Only what is declared in that context or in one of its owners can give it another
meaning there, and so no function that is declared further in. What an instance has as a method is
what all code inside the instance means by the name, whatever is declared anywhere else. -/
theorem functions_owner_first (g : Graph) (c d : CtxId) (name : String) (inside : g.Inside c d) :
    (∀ acts func, (g.actsIn acts).func? c name = some func →
      (g.actsIn acts).func? d name = some func) ∧
    (∀ func, g.func? c name = some func → ∀ acts, (∀ a ∈ acts, a.1 ∉ g.chain c) →
      (g.actsIn acts).func? d name = some func) ∧
    (g.isObject c = true → ∀ func, g.localFunc? c name = some func →
      ∀ acts, (∀ a ∈ acts, a.1 ≠ c) → (g.actsIn acts).func? d name = some func) := by
  have kept (acts) : OnlyFrames (fun e => ∃ a ∈ acts, a.1 = e) g (g.actsIn acts) := .actsIn acts
  refine ⟨fun acts func found => func?_of_inside ((kept acts).inside inside) found,
    fun func found acts elsewhere => ?_, fun object func method acts elsewhere => ?_⟩
  · have still : (g.actsIn acts).func? c name = some func := by
      rw [(kept acts).func?_eq, found]
      rintro e he ⟨a, ha, rfl⟩
      exact elsewhere a ha he
    exact func?_of_inside ((kept acts).inside inside) still
  · have own : (g.actsIn acts).localFunc? c name = some func := by
      rw [localFunc?_eq, (kept acts).scopes c, ← localFunc?_eq, method]
      rintro ⟨a, ha, same⟩
      exact elsewhere a ha same
    have object : (g.actsIn acts).isObject c = true := ((kept acts).isObject_eq c).trans object
    exact func?_of_inside ((kept acts).inside inside) (func?_of_method object own)

/-- A World with a function `f`, an instance with a method `f`, a call of the method, a closure that
was called in it, and a call of a function of the World. -/
def withMethodAndFunction : Graph :=
  let instanceKind := ContextKind.object 0 ⟨"C", [], [], [], .none⟩ [] [] []
  let kinds := [.emptyWorld, instanceKind, .call 1 "f" [], .closure 2 [], .call 0 "f" []]
  let g : Graph := kinds.foldl (fun g kind => (Graph.add g kind).2) Graph.empty
  g.actsIn [(0, .declareFunc ⟨⟨"f", [], none, [], .none⟩, 0⟩),
    (1, .declareFunc ⟨⟨"f", [], none, [], .none⟩, 1⟩)]

/-- The closure in the method means the method, and the call of the function means the function, also
once both have declared an `f` of their own, in a scope of its own, and the World another function. -/
theorem nested_functions_hide_nothing :
    let g := withMethodAndFunction
    let nested : List (CtxId × ScopeAct) :=
      [(2, .push), (2, .declareFunc ⟨⟨"f", [], none, [], .none⟩, 2⟩),
        (3, .declareFunc ⟨⟨"f", [], none, [], .none⟩, 3⟩),
        (4, .declareFunc ⟨⟨"f", [], none, [], .none⟩, 4⟩)]
    g.Inside 1 3 ∧ g.Inside 0 4 ∧
      ((g.actsIn nested).func? 3 "f").map Func.owner = some 1 ∧
      ((g.actsIn nested).func? 4 "f").map Func.owner = some 0 ∧
      ((g.actsIn nested).localFunc? 3 "f").map Func.owner = some 3 := by
  intro g nested
  have inMethod : g.Inside 1 3 := .owned (o := 2) (by decide) (by decide)
    (.owned (o := 1) (by decide) (by decide) .self)
  have inFunction : g.Inside 0 4 := .owned (o := 0) (by decide) (by decide) .self
  obtain ⟨-, -, methods⟩ := functions_owner_first g 1 3 "f" inMethod
  obtain ⟨-, functions, -⟩ := functions_owner_first g 0 4 "f" inFunction
  refine ⟨inMethod, inFunction, ?_, ?_, by decide +kernel⟩
  · rw [methods (by decide) _ rfl nested (by decide)]
    rfl
  · rw [functions _ rfl nested (by decide)]
    rfl

end TreeScript.Graph
