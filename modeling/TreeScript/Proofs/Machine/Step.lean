import Mathlib.Logic.Relation
import TreeScript.Machine
import TreeScript.Proofs.Context.Scopes

/-!
# Steps of a machine

All that a machine can do at once. Each step has a footprint: where it changes scopes. Whatever
holds of a machine and is kept by the steps holds all along a run, since `Proofs.Run.Balance` takes
runs apart into steps.
-/
namespace TreeScript

namespace Store

def modifyGraph (s : Store) (f : Graph → Graph) : Store := { s with graph := f s.graph }

/-- Binds a name to a cell of its own. -/
def bindNew (s : Store) (c : CtxId) (cell : Cell) : Store :=
  (s.addCell cell).2.modifyGraph (Declaration.ofVar c cell.name cell.name s.cells.size).apply

/-- A step of a store. -/
inductive Step : Footprint → Store → Store → Prop where
  | contextAdded {s : Store} (kind : ContextKind) : Step .clean s (s.addContext kind).2
  | cellAdded {s : Store} (cell : Cell) : Step .clean s (s.addCell cell).2
  | cellWritten {s : Store} {i : CellId} (value : Value)
      (writable : (s.cell i).checkWrite false = .ok ()) : Step .clean s (s.setValue i value)
  | closureMade {s : Store} : Step .clean s { s with nextClosure := s.nextClosure + 1 }
  | classDeclared {s : Store} {c : CtxId} {decl : ClassDecl}
      (free : (Declaration.ofClass c decl).obstacle? s.graph = none) :
      Step .clean s (s.modifyGraph (Declaration.ofClass c decl).apply)
  | moduleDeclared {s : Store} {c : CtxId} {name : String} {world : CtxId}
      (free : (Declaration.ofModule c name world).obstacle? s.graph = none) :
      Step .clean s (s.modifyGraph (Declaration.ofModule c name world).apply)
  | moduleNamed {s : Store} (c : CtxId) (name : String) :
      Step .clean s (s.modifyGraph (·.nameModule c name))
  | scopeOpened {s : Store} (c : CtxId) : Step (.blocks c) s (s.modifyGraph (·.pushScope c))
  | scopeClosed {s : Store} {c : CtxId} {scopes : Scopes} (there : s.graph.scopes? c = some scopes)
      (inner : scopes.IsInner) : Step (.blocks c) s (s.modifyGraph (·.popScope c))
  | varDeclared {s : Store} {c : CtxId} {cell : Cell}
      (free : (Declaration.ofVar c cell.name cell.name s.cells.size).obstacle? s.graph = none) :
      Step (.names c) s (s.bindNew c cell)
  | funcDeclared {s : Store} {c : CtxId} {func : Func}
      (free : (Declaration.ofFunc c func).obstacle? s.graph = none) :
      Step (.names c) s (s.modifyGraph (Declaration.ofFunc c func).apply)
  | varBound {s : Store} {c : CtxId} {name cellName : String} {i : CellId}
      (free : (Declaration.ofVar c name cellName i).obstacle? s.graph = none) :
      Step (.setup c) s (s.modifyGraph (Declaration.ofVar c name cellName i).apply)
  | memberRecorded {s : Store} (c : CtxId) (name : String) :
      Step (.setup c) s
        (s.modifyGraph (·.update c fun ctx =>
          { ctx with kind := Declaration.recordMember name ctx.kind }))
  | argumentDeclared {s : Store} {c : CtxId} {name : String} {i : CellId}
      (free : (Declaration.ofArgument c name i).obstacle? s.graph = none) :
      Step (.setup c) s (s.modifyGraph (Declaration.ofArgument c name i).apply)
  | argumentsCleared {s : Store} (c : CtxId) :
      Step (.setup c) s (s.modifyGraph (·.clearArguments c))

end Store

/-- A step of a machine. -/
inductive Machine.Step : Footprint → Machine → Machine → Prop where
  | store {m : Machine} {f : Footprint} {s : Store} (step : Store.Step f m.store s) :
      Step f m { m with store := s }
  | released {m : Machine} {outside : List Hold} (known : m.outside = some outside) :
      Step .clean m { m with store := m.store.release (m.held ++ outside) }
  | held {m : Machine} (held : List Hold) : Step .clean m { m with held }
  | disk {m : Machine} (disk : Files.Disk) : Step .clean m { m with disk }
  | output {m : Machine} (output : Output) : Step .clean m { m with output }
  | input {m : Machine} (input : List String) : Step .clean m { m with input }
  | callEntered {m : Machine} {frame : CallFrame} {calls : CallStack}
      (room : m.calls.push frame = .ok calls) : Step .clean m { m with calls }
  | callLeft {m : Machine} : Step .clean m { m with calls := m.calls.pop }
  | importStarted {m : Machine} {path : String} (idle : path ∉ m.importing) :
      Step .clean m { m with importing := path :: m.importing }
  | importEnded {m : Machine} : Step .clean m { m with importing := m.importing.tail }

/-- What a store can become by steps that touch no context below `n`. -/
def Store.Later (n : Nat) : Store → Store → Prop :=
  Relation.ReflTransGen fun s t => ∃ f : Footprint, f.Above n ∧ Step f s t

/-- What a machine can become by steps that touch no context below `n`. -/
def Machine.Later (n : Nat) : Machine → Machine → Prop :=
  Relation.ReflTransGen fun m m' => ∃ f : Footprint, f.Above n ∧ Step f m m'

namespace Store

variable {f : Footprint} {s t u : Store} {c : CtxId} {n : Nat}

theorem cell_addCell_of_ne {i : CellId} (cell : Cell) (h : i ≠ s.cells.size) :
    (s.addCell cell).2.cell i = s.cell i := by
  simp [Store.cell, cell?, addCell, Array.getElem?_push, h]

theorem cell_addCell_of_lt {i : CellId} (cell : Cell) (hi : i < s.cells.size) :
    (s.addCell cell).2.cell i = s.cell i := cell_addCell_of_ne cell (Nat.ne_of_lt hi)

theorem cell_addCell_self (s : Store) (cell : Cell) :
    (s.addCell cell).2.cell s.cells.size = cell := by
  simp [Store.cell, cell?, addCell]

theorem cell_setValue_self {i : CellId} (value : Value) (hi : i < s.cells.size) :
    (s.setValue i value).cell i = { s.cell i with value } := by
  simp only [Store.cell, cell?, setValue, Array.getElem?_modify, if_pos,
    Array.getElem?_eq_getElem hi]
  rfl

theorem cell_setValue_of_ne {i j : CellId} (value : Value) (h : i ≠ j) :
    (s.setValue i value).cell j = s.cell j := by
  simp [Store.cell, cell?, setValue, Array.getElem?_modify, h]

theorem attrs_setValue {i : CellId} (value : Value) (j : CellId) :
    ((s.setValue i value).cell j).attrs = (s.cell j).attrs := by
  simp only [Store.cell, cell?, setValue, Array.getElem?_modify]
  split
  · cases s.cells[j]? <;> rfl
  · rfl

/-- A number that is no cell's stands for a unit. -/
theorem value_cell_of_ge {i : CellId} (h : s.cells.size ≤ i) : (s.cell i).value = .unit := by
  simp [Store.cell, cell?, Array.getElem?_eq_none h]

/-- What holds of some values and of the value of a new cell holds of them then. -/
theorem forall_values_addCell {Q : CellId → Prop} {V : Value → Prop} {cell : Cell}
    (h : ∀ i, Q i → V (s.cell i).value) (new : V cell.value) (i : CellId) (hi : Q i) :
    V ((s.addCell cell).2.cell i).value := by
  by_cases same : i = s.cells.size
  · rw [same, cell_addCell_self]
    exact new
  · rw [cell_addCell_of_ne cell same]
    exact h i hi

theorem forall_values_setValue {Q : CellId → Prop} {V : Value → Prop} {i : CellId} {value : Value}
    (h : ∀ i, Q i → V (s.cell i).value) (new : V value) (j : CellId) (hj : Q j) :
    V ((s.setValue i value).cell j).value := by
  by_cases same : i = j
  · subst same
    rcases Nat.lt_or_ge i s.cells.size with lt | ge
    · rw [cell_setValue_self value lt]
      exact new
    · have ge' : (s.setValue i value).cells.size ≤ i := by simpa [setValue] using ge
      rw [value_cell_of_ge ge', ← value_cell_of_ge ge]
      exact h i hj
  · rw [cell_setValue_of_ne value same]
    exact h j hj

/-- Contexts and cells stay, and so do the skeletons of contexts. -/
structure Extends (s t : Store) : Prop where
  contexts : s.graph.size ≤ t.graph.size
  cells : s.cells.size ≤ t.cells.size
  skeletons : ∀ c < s.graph.size, t.graph.skeleton? c = s.graph.skeleton? c

theorem Extends.refl (s : Store) : s.Extends s :=
  ⟨Nat.le_refl _, Nat.le_refl _, fun _ _ => rfl⟩

theorem Extends.trans (h : s.Extends t) (h' : t.Extends u) : s.Extends u where
  contexts := Nat.le_trans h.contexts h'.contexts
  cells := Nat.le_trans h.cells h'.cells
  skeletons c hc :=
    (h'.skeletons c (Nat.lt_of_lt_of_le hc h.contexts)).trans (h.skeletons c hc)

/-- The graph stays as it is. -/
theorem Extends.ofCells (hg : t.graph = s.graph) (hc : s.cells.size ≤ t.cells.size) :
    s.Extends t := by
  constructor
  · exact hg ▸ Nat.le_refl _
  · exact hc
  · intro c _
    rw [hg]

theorem Extends.addContext (s : Store) (kind : ContextKind) : s.Extends (s.addContext kind).2 := by
  constructor
  · exact (Graph.size_add (g := s.graph) kind).symm ▸ Nat.le_succ _
  · exact Nat.le_refl _
  · intro c hc
    show (s.graph.add kind).2.skeleton? c = _
    rw [Graph.skeleton?, Graph.kind?, Graph.context?_add_of_lt kind hc]
    rfl

theorem Extends.addCell (s : Store) (cell : Cell) : s.Extends (s.addCell cell).2 :=
  .ofCells rfl (by simp [Store.addCell])

theorem Extends.update (s : Store) (c : CtxId) (f : Context → Context)
    (hf : ∀ ctx, (f ctx).kind.skeleton = ctx.kind.skeleton) :
    s.Extends (s.modifyGraph (·.update c f)) := by
  constructor
  · exact Nat.le_of_eq (Graph.size_update f).symm
  · exact Nat.le_refl _
  · intro d _
    exact Graph.skeleton?_update f hf

theorem Step.extends (h : Step f s t) : s.Extends t := by
  cases h with
  | contextAdded kind => exact .addContext s kind
  | cellAdded cell => exact .addCell s cell
  | cellWritten value _ => exact .ofCells rfl (by simp [setValue])
  | closureMade => exact .ofCells rfl (Nat.le_refl _)
  | @varDeclared _ c cell _ =>
    refine (Extends.addCell s cell).trans (.update _ c (fun ctx => { ctx with
      kind := Declaration.recordMember cell.name ctx.kind
      vars := ctx.vars.bind cell.name s.cells.size }) ?_)
    intro ctx
    exact Declaration.skeleton_recordMember _ _
  | classDeclared | moduleDeclared | moduleNamed | scopeOpened | scopeClosed | funcDeclared
  | varBound | memberRecorded | argumentDeclared | argumentsCleared =>
    refine .update s _ _ ?_
    intro ctx
    simp

/-- Only a release lets contexts go. -/
theorem Step.isLive_eq (h : Step f s t) (hc : c < s.graph.size) :
    t.graph.isLive c = s.graph.isLive c := by
  cases h with
  | contextAdded kind =>
    show (s.graph.add kind).2.isLive c = _
    rw [Graph.isLive, Graph.context?_add_of_lt kind hc]
    rfl
  | cellAdded | cellWritten | closureMade => rfl
  | classDeclared | moduleDeclared | moduleNamed | scopeOpened | scopeClosed | varDeclared
  | funcDeclared | varBound | memberRecorded | argumentDeclared | argumentsCleared =>
    refine Graph.isLive_update _ ?_
    intro ctx
    rfl

/-- A context outside the footprint keeps its scopes. -/
theorem Step.scopes?_eq (h : Step f s t) (hc : c < s.graph.size) (out : f.context? ≠ some c) :
    t.graph.scopes? c = s.graph.scopes? c := by
  cases h with
  | contextAdded kind =>
    show (s.graph.add kind).2.scopes? c = _
    rw [Graph.scopes?, Graph.context?_add_of_lt kind hc]
    rfl
  | cellAdded | cellWritten | closureMade => rfl
  | classDeclared | moduleDeclared | moduleNamed | memberRecorded | argumentDeclared
  | argumentsCleared =>
    refine Graph.scopes?_update_same _ ?_
    intro ctx
    rfl
  | @scopeOpened _ d | @scopeClosed _ d | @varDeclared _ d | @funcDeclared _ d | @varBound _ d =>
    have hd : d ≠ c := fun e => out (congrArg some e)
    exact Graph.scopes?_update_of_ne _ hd

/-- An instance outside the footprint keeps its constructor arguments. -/
theorem Step.arguments?_eq (h : Step f s t) (hc : c < s.graph.size) (out : f.context? ≠ some c) :
    t.graph.arguments? c = s.graph.arguments? c := by
  cases h with
  | contextAdded kind =>
    show (s.graph.add kind).2.arguments? c = _
    rw [Graph.arguments?, Graph.kind?, Graph.context?_add_of_lt kind hc]
    rfl
  | cellAdded | cellWritten | closureMade => rfl
  | classDeclared | moduleDeclared | moduleNamed | scopeOpened | scopeClosed | varDeclared
  | funcDeclared | varBound | memberRecorded =>
    refine Graph.arguments?_update_same _ ?_
    intro ctx
    simp
  | @argumentDeclared _ d | @argumentsCleared _ d =>
    have hd : d ≠ c := fun e => out (congrArg some e)
    exact Graph.arguments?_update_of_ne _ hd

/-- The scopes of contexts are kept, except that names may appear in the innermost frames of one. -/
structure Kept (f : Footprint) (s t : Store) : Prop extends Extends s t where
  scopes : ∀ c < s.graph.size, f.named? ≠ some c → t.graph.scopes? c = s.graph.scopes? c
  below : ∀ c < s.graph.size, f = .names c →
    (t.graph.scopes? c).map Scopes.below = (s.graph.scopes? c).map Scopes.below

theorem Kept.refl (f : Footprint) (s : Store) : Kept f s s :=
  ⟨.refl s, fun _ _ _ => rfl, fun _ _ _ => rfl⟩

theorem Kept.trans (h : Kept f s t) (h' : Kept f t u) : Kept f s u where
  toExtends := h.toExtends.trans h'.toExtends
  scopes c hc out :=
    (h'.scopes c (Nat.lt_of_lt_of_le hc h.contexts) out).trans (h.scopes c hc out)
  below c hc hf :=
    (h'.below c (Nat.lt_of_lt_of_le hc h.contexts) hf).trans (h.below c hc hf)

/-- What keeps all scopes keeps those that a footprint speaks of. -/
theorem Kept.of_unnamed {f' : Footprint} (h : Kept f' s t) (hf : f'.named? = none) :
    Kept f s t where
  toExtends := h.toExtends
  scopes c hc _ := h.scopes c hc (by simp [hf])
  below c hc _ := congrArg _ (h.scopes c hc (by simp [hf]))

theorem Kept.setup_of_names (h : Kept (.names c) s t) : Kept (.setup c) s t where
  toExtends := h.toExtends
  scopes d hd out := h.scopes d hd out
  below d _ hf := by cases hf

/-- A context that was not there before may have been set up. -/
theorem Kept.clean_of_new (h : Kept f s t) (hf : f.named? = some s.graph.size) :
    Kept .clean s t where
  toExtends := h.toExtends
  scopes d hd _ := h.scopes d hd (by rw [hf]; exact fun e => Nat.ne_of_lt hd (Option.some.inj e).symm)
  below d _ hf := by cases hf

theorem Step.kept (h : Step f s t) (hf : ∀ c, f ≠ .blocks c) : Kept f s t where
  toExtends := h.extends
  scopes c hc out := by
    refine h.scopes?_eq hc ?_
    cases f with
    | blocks d => exact absurd rfl (hf d)
    | clean | names | setup => exact out
  below c hc hf := by
    subst hf
    cases h with
    | @varDeclared _ _ cell =>
      refine (congrArg _ (Graph.scopes?_ofVar cell.name cell.name _)).trans ?_
      rw [Option.map_map]
      rfl
    | funcDeclared =>
      refine (congrArg _ (Graph.scopes?_ofFunc _)).trans ?_
      rw [Option.map_map]
      rfl

theorem Later.trans (h : s.Later n t) (h' : t.Later n u) : s.Later n u :=
  Relation.ReflTransGen.trans h h'

theorem Later.mono {n' : Nat} (h : s.Later n t) (hn : n' ≤ n) : s.Later n' t := by
  induction h with
  | refl => exact .refl
  | tail _ step ih =>
    obtain ⟨f, above, step⟩ := step
    exact ih.tail ⟨f, above.mono hn, step⟩

theorem Later.extends (h : s.Later n t) : s.Extends t := by
  induction h with
  | refl => exact .refl s
  | tail _ step ih =>
    obtain ⟨f, -, step⟩ := step
    exact ih.trans step.extends

theorem Later.scopes?_eq (h : s.Later n t) (hc : c < s.graph.size) (below : c < n) :
    t.graph.scopes? c = s.graph.scopes? c := by
  induction h with
  | refl => rfl
  | tail before step ih =>
    obtain ⟨f, above, step⟩ := step
    have there := Nat.lt_of_lt_of_le hc (Later.extends before).contexts
    exact (step.scopes?_eq there (above.context?_ne below)).trans ih

theorem size_release (s : Store) (holds : List Hold) :
    (s.release holds).graph.size = s.graph.size := by
  simp [release, Graph.size]

theorem context?_release (s : Store) (holds : List Hold) (c : CtxId) :
    ∃ live : Context → Bool, (s.release holds).graph.context? c =
      (s.graph.context? c).map fun ctx => { ctx with live := live ctx } := by
  refine ⟨fun _ => (s.marks (s.survivors (holds.flatMap (·.contexts s)))).getD c false, ?_⟩
  simp [release, Graph.context?, Array.getElem?_mapIdx]

theorem kind?_release (s : Store) (holds : List Hold) (c : CtxId) :
    (s.release holds).graph.kind? c = s.graph.kind? c := by
  obtain ⟨live, same⟩ := context?_release s holds c
  rw [Graph.kind?, same, Option.map_map]
  rfl

theorem Extends.release (s : Store) (holds : List Hold) : s.Extends (s.release holds) := by
  constructor
  · exact Nat.le_of_eq (size_release s holds).symm
  · exact Nat.le_refl _
  · intro c _
    rw [Graph.skeleton?, kind?_release, Graph.skeleton?]

theorem arguments?_release (s : Store) (holds : List Hold) (c : CtxId) :
    (s.release holds).graph.arguments? c = s.graph.arguments? c := by
  rw [Graph.arguments?, kind?_release, Graph.arguments?]

theorem scopes?_release (s : Store) (holds : List Hold) (c : CtxId) :
    (s.release holds).graph.scopes? c = s.graph.scopes? c := by
  obtain ⟨live, h⟩ := context?_release s holds c
  rw [Graph.scopes?, h, Option.map_map]
  rfl

end Store

namespace Machine

variable {f : Footprint} {m m' m'' : Machine} {c : CtxId} {n : Nat}

theorem Step.extends (h : Step f m m') : m.store.Extends m'.store := by
  cases h with
  | store step => exact step.extends
  | released => exact .release _ _
  | held | disk | output | input | callEntered | callLeft | importStarted | importEnded =>
    exact .refl _

/-- A context outside the footprint keeps its scopes. -/
theorem Step.scopes?_eq (h : Step f m m') (hc : c < m.store.graph.size)
    (out : f.context? ≠ some c) : m'.store.graph.scopes? c = m.store.graph.scopes? c := by
  cases h with
  | store step => exact step.scopes?_eq hc out
  | released => exact Store.scopes?_release _ _ _
  | held | disk | output | input | callEntered | callLeft | importStarted | importEnded => rfl

theorem Step.arguments?_eq (h : Step f m m') (hc : c < m.store.graph.size)
    (out : f.context? ≠ some c) : m'.store.graph.arguments? c = m.store.graph.arguments? c := by
  cases h with
  | store step => exact step.arguments?_eq hc out
  | released => exact Store.arguments?_release _ _ _
  | held | disk | output | input | callEntered | callLeft | importStarted | importEnded => rfl

theorem Step.outside_eq (h : Step f m m') : m'.outside = m.outside := by
  cases h <;> rfl

theorem Later.step (h : m.Later n m') (above : f.Above n) (step : Step f m' m'') :
    m.Later n m'' := h.tail ⟨f, above, step⟩

theorem Later.trans (h : m.Later n m') (h' : m'.Later n m'') : m.Later n m'' :=
  Relation.ReflTransGen.trans h h'

theorem Later.extends (h : m.Later n m') : m.store.Extends m'.store := by
  induction h with
  | refl => exact .refl _
  | tail _ step ih =>
    obtain ⟨f, -, step⟩ := step
    exact ih.trans step.extends

/-- `Q` holds of every machine between two. -/
def Always (n : Nat) (Q : Machine → Prop) (m m' : Machine) : Prop :=
  ∀ m'', m.Later n m'' → m''.Later n m' → Q m''

theorem Always.sub {Q : Machine → Prop} {m₁ m₂ : Machine} (h : m.Always n Q m')
    (h₁ : m.Later n m₁) (h₂ : m₂.Later n m') : m₁.Always n Q m₂ :=
  fun m'' from₁ to₂ => h m'' (h₁.trans from₁) (to₂.trans h₂)

/-- What each step keeps that does not touch `c` is kept by steps above `n`, for `c` below `n`. -/
theorem Later.keeps_below {P : Machine → Prop} (h : m.Later n m') (below : c < n)
    (keeps : ∀ {f m₁ m₂}, m.Later n m₁ → Step f m₁ m₂ → f.context? ≠ some c → P m₁ → P m₂)
    (holds : P m) : P m' := by
  induction h with
  | refl => exact holds
  | tail before step ih =>
    obtain ⟨f, above, step⟩ := step
    exact keeps before step (above.context?_ne below) ih

/-- Steps above `n` leave the scopes of the contexts below `n` alone. -/
theorem Later.scopes?_eq (h : m.Later n m') (hc : c < m.store.graph.size) (below : c < n) :
    m'.store.graph.scopes? c = m.store.graph.scopes? c := by
  refine h.keeps_below (P := fun m₁ => m₁.store.graph.scopes? c = m.store.graph.scopes? c) below
    (fun before step out same => ?_) rfl
  have there := Nat.lt_of_lt_of_le hc before.extends.contexts
  exact (step.scopes?_eq there out).trans same

theorem Later.arguments?_eq (h : m.Later n m') (hc : c < m.store.graph.size) (below : c < n) :
    m'.store.graph.arguments? c = m.store.graph.arguments? c := by
  refine h.keeps_below (P := fun m₁ => m₁.store.graph.arguments? c = m.store.graph.arguments? c)
    below (fun before step out same => ?_) rfl
  have there := Nat.lt_of_lt_of_le hc before.extends.contexts
  exact (step.arguments?_eq there out).trans same

theorem Later.outside_eq (h : m.Later n m') : m'.outside = m.outside := by
  induction h with
  | refl => rfl
  | tail _ step ih =>
    obtain ⟨f, -, step⟩ := step
    exact step.outside_eq.trans ih

/-- As long as it is not known what is held from outside, no context is let go. -/
theorem Later.isLive_eq (h : m.Later n m') (ho : m.outside = none) (hc : c < m.store.graph.size) :
    m'.store.graph.isLive c = m.store.graph.isLive c := by
  induction h with
  | refl => rfl
  | tail before step ih =>
    obtain ⟨f, -, step⟩ := step
    refine Eq.trans ?_ ih
    cases step with
    | store step => exact step.isLive_eq (Nat.lt_of_lt_of_le hc (Later.extends before).contexts)
    | released known =>
      have he := (Later.outside_eq before).symm.trans known
      rw [ho] at he
      cases he
    | held | disk | output | input | callEntered | callLeft | importStarted | importEnded => rfl

theorem Later.of_store {s : Store} (h : m.store.Later n s) : m.Later n { m with store := s } := by
  induction h with
  | refl => exact .refl
  | tail _ step ih =>
    obtain ⟨f, above, step⟩ := step
    exact ih.tail ⟨f, above, .store step⟩

/-- Between two machines nothing is left open: the calls and imports in progress are the same, and
so are the scopes, except that names may have appeared in the innermost frames of one context. -/
structure Kept (f : Footprint) (m m' : Machine) : Prop where
  calls : m'.calls = m.calls
  importing : m'.importing = m.importing
  store : Store.Kept f m.store m'.store

theorem Kept.refl (f : Footprint) (m : Machine) : Kept f m m := ⟨rfl, rfl, .refl f m.store⟩

theorem Kept.trans (h : Kept f m m') (h' : Kept f m' m'') : Kept f m m'' :=
  ⟨h'.calls.trans h.calls, h'.importing.trans h.importing, h.store.trans h'.store⟩

end Machine

end TreeScript
