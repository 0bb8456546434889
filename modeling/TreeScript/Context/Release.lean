import TreeScript.Store

/-!
# What keeps a context alive

A context holds its owner unless that is a World, the modules it imports, and whatever the values
of its variables name. What is held from outside is alive, and so is what a living context holds.
A ring of contexts that hold one another therefore stays alive for good.
-/
namespace TreeScript

mutual

/-- The contexts that a value holds. A closure holds the context it was created in unless that is a
World. -/
def Value.holds (g : Graph) : Value → List CtxId
  | .list items => holdsItems g items
  | .tuple items => holdsItems g items
  | .dict (.ofKind _ entries) => holdsEntries g entries
  | .some v => v.holds g
  | .closure c => if g.isWorld c.captured then [] else [c.captured]
  | .object c => [c]
  | .module w => [w]
  | _ => []

def holdsItems (g : Graph) : List Value → List CtxId
  | [] => []
  | v :: rest => v.holds g ++ holdsItems g rest

def holdsEntries (g : Graph) : List (Key × Value) → List CtxId
  | [] => []
  | (_, v) :: rest => v.holds g ++ holdsEntries g rest

end

/-- The contexts that a context of this kind holds by itself. -/
def ContextKind.holds (g : Graph) : ContextKind → List CtxId
  | .world _ _ imports => imports.map Prod.snd
  | kind =>
    match kind.owner? with
    | some owner => if g.isWorld owner then [] else [owner]
    | none => []

/-- The cells that a context binds. -/
def Context.cells (ctx : Context) : List CellId :=
  let bound := ctx.vars.frames.flatMap (·.map Prod.snd)
  match ctx.kind with
  | .object _ _ _ arguments _ => bound ++ arguments.map Prod.snd
  | _ => bound

namespace Store

/-- The contexts that a context holds. -/
def heldBy (s : Store) (c : CtxId) : List CtxId :=
  match s.graph.context? c with
  | none => []
  | some ctx =>
    ctx.kind.holds s.graph ++ ctx.cells.flatMap fun i =>
      match s.cell? i with
      | some cell => cell.value.holds s.graph
      | none => []

/-- Whether each context is among the given ones, by number. -/
def marks (s : Store) (cs : List CtxId) : Array Bool :=
  cs.foldl (fun marks c => marks.setIfInBounds c true)
    (Array.replicate s.graph.contexts.size false)

theorem getD_foldl_setIfInBounds (cs : List CtxId) (marks : Array Bool) (c : CtxId) :
    (cs.foldl (fun marks c => marks.setIfInBounds c true) marks).getD c false =
      (marks.getD c false || (decide (c < marks.size) && cs.contains c)) := by
  induction cs generalizing marks with
  | nil => simp
  | cons d rest ih =>
    rw [List.foldl_cons, ih]
    simp only [Array.getD_eq_getD_getElem?, Array.getElem?_setIfInBounds, Array.size_setIfInBounds,
      List.contains_cons]
    by_cases h : d = c
    · subst h
      by_cases hd : d < marks.size <;> simp [hd]
    · simp [h, beq_false_of_ne (Ne.symm h)]

/-- A context is marked if it is among the given ones and there is such a context. -/
theorem getD_marks (s : Store) (cs : List CtxId) (c : CtxId) :
    (s.marks cs).getD c false = (decide (c < s.graph.contexts.size) && cs.contains c) := by
  have unmarked (n : Nat) : (Array.replicate n false).getD c false = false := by
    rw [Array.getD_eq_getD_getElem?, Array.getElem?_replicate]
    split <;> rfl
  rw [marks, getD_foldl_setIfInBounds, unmarked, Bool.false_or, Array.size_replicate]

/-- Of the given contexts those that are held from outside or by one of them. -/
def keepHeld (s : Store) (roots alive : List CtxId) : List CtxId :=
  let held := s.marks (roots ++ alive.flatMap s.heldBy)
  alive.filter fun c => held.getD c false

/-- What is left after at most `n` rounds of letting go what nobody holds. A round that lets go
nothing is the last. -/
def survivorsAfter (s : Store) (roots : List CtxId) : Nat → List CtxId → List CtxId
  | 0, alive => alive
  | n + 1, alive =>
    let kept := s.keepHeld roots alive
    if kept.length = alive.length then kept else survivorsAfter s roots n kept

/-- The living contexts that stay alive when `roots` are held from outside. -/
def survivors (s : Store) (roots : List CtxId) : List CtxId :=
  let alive := (List.range s.graph.contexts.size).filter s.graph.isLive
  s.survivorsAfter roots alive.length alive

end Store

/-- Something outside the contexts that holds some of them. -/
inductive Hold where
  | context (c : CtxId)
  | cell (i : CellId)
  | value (v : Value)

namespace Hold

/-- The contexts that are held. -/
def contexts (s : Store) : Hold → List CtxId
  | context c => [c]
  | cell i => (s.cell i).value.holds s.graph
  | value v => v.holds s.graph

/-- Whether it is the context itself that is held. -/
def isOf (c : CtxId) : Hold → Bool
  | context d => d == c
  | value (.object d) => d == c
  | value (.module w) => w == c
  | _ => false

end Hold

/-- Lets go every context that nothing keeps alive any more. -/
def Store.release (s : Store) (holds : List Hold) : Store :=
  let kept := s.marks (s.survivors (holds.flatMap (·.contexts s)))
  { s with
    graph := ⟨s.graph.contexts.mapIdx fun c ctx => { ctx with live := kept.getD c false }⟩ }

end TreeScript
