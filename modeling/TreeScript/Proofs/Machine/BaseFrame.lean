import TreeScript.Proofs.Context.Binding
import TreeScript.Proofs.Machine.Step

/-!
# The base frames

Scopes come and go above the base frame of a context. What the base frame binds stays bound to the
same cell for good, and only a frame above can hide it.
-/
namespace TreeScript

variable {f : Footprint} {c d : CtxId} {name : String} {i : CellId} {n : Nat}

/-- Whether the base frame of a context binds a name to a cell. -/
def Graph.InBase (g : Graph) (c : CtxId) (name : String) (i : CellId) : Prop :=
  ∃ scopes ∈ g.scopes? c, scopes.vars.bottom.lookup name = some i

namespace Graph

variable {g : Graph}

theorem InBase.lt (h : g.InBase c name i) : c < g.size := by
  obtain ⟨scopes, hs, -⟩ := h
  obtain ⟨ctx, hctx, -⟩ := Option.map_eq_some_iff.mp hs
  exact lt_of_context? hctx

/-- A change of scopes that takes nothing from the base frame. -/
theorem InBase.update (h : g.InBase c name i) (change : Context → Context) (t : Scopes → Scopes)
    (ht : ∀ ctx, (change ctx).scopes = t ctx.scopes)
    (stays : ∀ scopes ∈ g.scopes? d, scopes.vars.bottom.lookup name = some i →
      (t scopes).vars.bottom.lookup name = some i) : (g.update d change).InBase c name i := by
  obtain ⟨scopes, hs, hb⟩ := h
  by_cases hd : d = c
  · subst hd
    refine ⟨t scopes, ?_, stays scopes hs hb⟩
    rw [scopes?_update change t ht, if_pos rfl, hs]
    rfl
  · refine ⟨scopes, ?_, hb⟩
    rw [scopes?_update change t ht, if_neg hd, hs]
    rfl

/-- What the base frame binds is what its context means by the name, unless a frame above binds it
too. -/
theorem InBase.localBinding?_iff (h : g.InBase c name i) :
    g.localBinding? c name = some ⟨c, 1, i⟩ ↔ ¬g.BindsAbove c 1 name := by
  obtain ⟨scopes, hs, hb⟩ := h
  rw [Option.mem_def] at hs
  have found : g.localBinding? c name = some ⟨c, 1, i⟩ ↔ scopes.vars.find? name = some (1, i) := by
    rw [localBinding?, hs, Option.bind_some]
    constructor
    · intro hf
      obtain ⟨⟨height, j⟩, hf, same⟩ := Option.map_eq_some_iff.mp hf
      cases same
      exact hf
    · intro hf
      rw [hf]
      rfl
  rw [found, ScopeStack.find?_eq_bottom_iff hb, BindsAbove, hs]
  simp

theorem inBase_of_localBinding? (h : g.localBinding? c name = some ⟨c, 1, i⟩) :
    g.InBase c name i := by
  obtain ⟨⟨height, j⟩, hf, same⟩ := Option.map_eq_some_iff.mp h
  cases same
  obtain ⟨scopes, hs, hf⟩ := Option.bind_eq_some_iff.mp hf
  exact ⟨scopes, hs, ScopeStack.bottom_of_findIn hf⟩

end Graph

/-- No step takes anything from a base frame. -/
theorem Store.Step.inBase {s t : Store} (h : Step f s t) (hb : s.graph.InBase c name i) :
    t.graph.InBase c name i := by
  cases h with
  | contextAdded kind =>
    obtain ⟨scopes, hs, hl⟩ := hb
    refine ⟨scopes, ?_, hl⟩
    rw [Store.Step.scopes?_eq (.contextAdded kind) (Graph.InBase.lt ⟨scopes, hs, hl⟩) nofun]
    exact hs
  | cellAdded | cellWritten | closureMade => exact hb
  | classDeclared | moduleDeclared | moduleNamed | memberRecorded | argumentDeclared
  | argumentsCleared => exact hb.update _ id (fun _ => rfl) fun _ _ => id
  | scopeOpened =>
    refine hb.update _ Scopes.push (fun _ => rfl) fun scopes _ hl => ?_
    rw [Scopes.push, ScopeStack.bottom_push]
    exact hl
  | scopeClosed there inner =>
    refine hb.update _ Scopes.pop (fun _ => rfl) fun scopes hs hl => ?_
    obtain rfl := Option.some.inj (there.symm.trans hs)
    rw [Scopes.pop, ScopeStack.bottom_pop inner.1]
    exact hl
  | @varDeclared _ _ cell free =>
    refine hb.update _ (·.bindVar cell.name s.cells.size) (fun _ => rfl) fun scopes hs hl => ?_
    exact ScopeStack.lookup_bottom_bind hl (Graph.ofVar_free_iff.mp free scopes hs)
  | @funcDeclared _ _ func free =>
    exact hb.update _ (·.bindFunc func) (fun _ => rfl) fun _ _ => id
  | @varBound _ _ bound _ j free =>
    refine hb.update _ (·.bindVar bound j) (fun _ => rfl) fun scopes hs hl => ?_
    exact ScopeStack.lookup_bottom_bind hl (Graph.ofVar_free_iff.mp free scopes hs)

namespace Machine

variable {m m' : Machine}

theorem Step.inBase (h : Step f m m') (hb : m.store.graph.InBase c name i) :
    m'.store.graph.InBase c name i := by
  cases h with
  | store step => exact step.inBase hb
  | released known =>
    obtain ⟨scopes, hs, hl⟩ := hb
    exact ⟨scopes, (Store.scopes?_release _ _ c).trans hs, hl⟩
  | held | disk | output | input | callEntered | callLeft | importStarted | importEnded => exact hb

/-- What a base frame binds stays bound. -/
theorem Later.inBase (h : m.Later n m') (hb : m.store.graph.InBase c name i) :
    m'.store.graph.InBase c name i := by
  induction h with
  | refl => exact hb
  | tail _ step ih =>
    obtain ⟨f, -, step⟩ := step
    exact step.inBase ih

end Machine

end TreeScript
