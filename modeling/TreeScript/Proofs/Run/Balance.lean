import TreeScript.Proofs.Machine.Copy
import TreeScript.Proofs.Run.Evaluation

/-!
# Runs in steps

Runs are made of steps, and whatever a run opens it closes again, however it ends: a scope, a call,
an import. This is one logic of runs. It starts from a machine, and from a number below which no
context is touched.
-/
namespace TreeScript

variable {f : Footprint} {n : Nat} {m m' m₀ : Machine} {c : CtxId} {α β : Type}

/-- The context of a footprint is there, and it is not below `n`. -/
def Footprint.Within (f : Footprint) (n : Nat) (m : Machine) : Prop :=
  ∀ c, f.context? = some c → n ≤ c ∧ c < m.store.graph.size

namespace Footprint

theorem within_clean : clean.Within n m := by
  rintro c ⟨⟩

theorem Within.above (h : f.Within n m) : f.Above n := fun c hc => (h c hc).1

theorem Within.extends (h : f.Within n m) (he : m.store.Extends m'.store) : f.Within n m' :=
  fun c hc => ⟨(h c hc).1, Nat.lt_of_lt_of_le (h c hc).2 he.contexts⟩

end Footprint

namespace CallStack

variable {s calls : CallStack} {frame : CallFrame}

/-- A call that is entered is the innermost, and there was room for it. -/
theorem of_push (h : s.push frame = .ok calls) :
    calls = { s with frames := frame :: s.frames } ∧ ∀ n, s.limit = some n → s.depth < n := by
  unfold push at h
  split at h
  · rename_i hl
    cases h
    exact ⟨rfl, fun n hn => by rw [hl] at hn; cases hn⟩
  · rename_i n hl
    split at h
    · cases h
    · rename_i room
      cases h
      refine ⟨rfl, fun n' hn => ?_⟩
      rw [hl] at hn
      cases hn
      omega

/-- Leaving a call brings back what was there when it was entered. -/
theorem pop_of_push (h : s.push frame = .ok calls) : calls.pop = s := by
  obtain ⟨rfl, -⟩ := of_push h
  rfl

end CallStack

namespace Run

/-- The machine that a run leaves. -/
def after (x : Run α) (m : Machine) : Machine :=
  match x m with
  | .ok _ m' => m'
  | .error _ m' => m'

theorem after_bind_ok {x : Run α} {a : α} (k : α → Run β) (h : x m = .ok a m') :
    (x >>= k).after m = (k a).after m' := by
  simp only [after, bind_apply, h]

theorem after_bind_error {x : Run α} {stop : Stop} (k : α → Run β) (h : x m = .error stop m') :
    (x >>= k).after m = m' := by
  simp only [after, bind_apply, h]

theorem after_mapFailure (g : Machine → Failure → Failure) (x : Run α) (m : Machine) :
    (x.mapFailure g).after m = x.after m := by
  simp only [after, mapFailure]
  cases x m <;> rfl

theorem after_ensuring (x : Run α) (undo : Machine → Machine) (m : Machine) :
    (x.ensuring undo).after m = undo (x.after m) := by
  simp only [after, ensuring]
  cases x m <;> rfl

theorem declare_apply (d : Declaration) (m : Machine) :
    declare d m = match d.obstacle? m.store.graph with
      | some fault => .error (m.raised fault) m
      | none => .ok () { m with store := m.store.modifyGraph d.apply } := by
  rw [declare, bind_apply]
  show (match d.obstacle? m.store.graph with
    | some fault => raise fault
    | none => modifyGraph d.apply : Run Unit) m = _
  cases d.obstacle? m.store.graph <;> rfl

/-- A variable is not declared where its frame binds the name; its cell has been added then. -/
theorem declareNew_apply (c : CtxId) (cell : Cell) (k : CellId → Run α) (m : Machine) :
    declareNew c cell k m =
      match (Declaration.ofVar c cell.name cell.name m.store.cells.size).obstacle? m.store.graph with
      | some fault =>
        .error (m.raised fault) { m with store := (m.store.addCell cell).2 }
      | none => k m.store.cells.size { m with store := m.store.bindNew c cell } := by
  let d := Declaration.ofVar c cell.name cell.name m.store.cells.size
  show (declare d >>= fun _ => k m.store.cells.size) { m with store := (m.store.addCell cell).2 } = _
  rw [bind_apply, declare_apply]
  cases hd : d.obstacle? m.store.graph with
  | some fault =>
    rw [show d.obstacle? (m.store.addCell cell).2.graph = some fault from hd]
    rfl
  | none =>
    rw [show d.obstacle? (m.store.addCell cell).2.graph = none from hd]
    rfl

theorem inCall_apply (name : String) (span : Span) (x : Run α) (m : Machine) :
    inCall name span x m = match m.calls.push ⟨name, some span⟩ with
      | .error fault => .error (m.raised fault) m
      | .ok calls => (x.mapFailure fun m e => (m.calls.attach e).locate span).ensuring
          (fun m => { m with calls := m.calls.pop }) { m with calls } := by
  rw [inCall, bind_apply]
  show (match m.calls.push ⟨name, some span⟩ with
    | .error fault => raise fault
    | .ok calls => modify (fun m => { m with calls }) >>= fun _ => _ : Run α) m = _
  cases m.calls.push ⟨name, some span⟩ <;> rfl

theorem after_load (config : Config) (path : String) (m : Machine) :
    (Eval.load config path).after m = m := by
  unfold Eval.load
  cases config.loader with
  | none => rfl
  | some loader =>
    show (Run.ofExcept (loader m.disk.tree path)).after m = m
    cases loader m.disk.tree path <;> rfl

/-- A program is loaded or there is a fault, which is the loader's own or plain. -/
theorem load_cases (config : Config) (path : String) (m : Machine) :
    (∃ code, Eval.load config path m = .ok code m) ∨
    ∃ fault, Eval.load config path m = .error (m.raised fault) m ∧
      (fault.stray = false ∨
        ∃ loader ∈ config.loader, loader m.disk.tree path = .error fault) := by
  unfold Eval.load
  cases config.loader with
  | none => exact .inr ⟨_, rfl, .inl rfl⟩
  | some loader =>
    have run : (get >>= fun m => ofExcept (loader m.disk.tree path) : Run Program) m =
        ofExcept (loader m.disk.tree path) m := rfl
    dsimp only
    rw [run]
    cases hl : loader m.disk.tree path with
    | ok code => exact .inl ⟨code, rfl⟩
    | error fault => exact .inr ⟨fault, rfl, .inr ⟨loader, rfl, hl⟩⟩

end Run

/-- The machine that a module runs on. -/
def Machine.forModule (path : String) (m : Machine) : Machine :=
  { m with
    store := (m.store.addContext .emptyWorld).2
    importing := path :: m.importing
    held := .context m.store.graph.size :: m.held }

namespace Eval

/-- The part of an import after the code of the module. -/
def nameImport (path : String) (c world : CtxId) : Run Unit := do
  let name := ((← Run.graph).moduleName? world).getD ((Files.stem? path).getD path)
  Run.declareFrom c (.ofModule c name world)

/-- An import as it goes on once the code of the module is there. -/
def importCode (path : String) (c world : CtxId) (held : List Hold) (x : Run Unit) : Run Unit :=
  (x.ensuring (fun m => { m with importing := m.importing.tail }) >>= fun _ =>
    nameImport path c world).ensuring fun m => { m with held }

/-- An import stops before the machine has changed, or the code of the module is there. -/
theorem importWith_cases (config : Config) (path : String) (c : CtxId) (m : Machine) :
    (∃ fault, (∀ k, importWith config path c k m = .error (m.raised fault) m) ∧
      (fault.stray = false ∨ ∃ loader ∈ config.loader, loader m.disk.tree path = .error fault)) ∨
    ∃ code, ∀ k, importWith config path c k m =
      importCode path c m.store.graph.size m.held (k code m.store.graph.size)
        (m.forModule path) := by
  by_cases hp : m.importing.contains path = true
  · refine .inl ⟨.circularImport (m.importing.reverse ++ [path]), fun k => ?_, .inl rfl⟩
    show (if m.importing.contains path then _ else _ : Run Unit) m = _
    rw [if_pos hp]
    rfl
  · have loading (k : Program → CtxId → Run Unit) : importWith config path c k m =
        (load config path >>= fun code => Run.newContext .emptyWorld >>= fun world =>
          modify (fun m => { m with importing := path :: m.importing }) >>= fun _ =>
          Run.holding [.context world] ((k code world).ensuring
            (fun m => { m with importing := m.importing.tail }) >>= fun _ =>
              nameImport path c world)) m := by
      show (if m.importing.contains path then _ else _ : Run Unit) m = _
      rw [if_neg hp]
      rfl
    rcases Run.load_cases config path m with ⟨code, loaded⟩ | ⟨fault, refused, known⟩
    · refine .inr ⟨code, fun k => ?_⟩
      rw [loading, Run.bind_apply, loaded]
      rfl
    · refine .inl ⟨fault, fun k => ?_, known⟩
      rw [loading, Run.bind_apply, refused]

end Eval

namespace Run

/-- Runs with a path among the imports in progress. -/
def importing (path : String) (x : Run α) : Run α := do
  modify fun m => { m with importing := path :: m.importing }
  x.ensuring fun m => { m with importing := m.importing.tail }

/-- How a run ends: `Q` holds if it gives a result, and `E` if it stops. -/
def Ends (x : Run α) (m : Machine) (Q : α → Machine → Prop) (E : Machine → Prop) : Prop :=
  match x m with
  | .ok a m' => Q a m'
  | .error _ m' => E m'

namespace Ends

variable {x : Run α} {P Q : α → Machine → Prop} {E : Machine → Prop}

theorem bind {k : α → Run β} {R : β → Machine → Prop} (h : Ends x m P E)
    (hk : ∀ a m', P a m' → Ends (k a) m' R E) : Ends (x >>= k) m R E := by
  rw [Ends, bind_apply]
  cases hx : x m with
  | ok a m' =>
    rw [Ends, hx] at h
    exact hk a m' h
  | error stop m' =>
    rw [Ends, hx] at h
    exact h

theorem mono {E' : Machine → Prop} (h : Ends x m P E) (hQ : ∀ a m', P a m' → Q a m')
    (hE : ∀ m', E m' → E' m') : Ends x m Q E' := by
  rw [Ends] at h ⊢
  cases hx : x m with
  | ok a m' =>
    rw [hx] at h
    exact hQ a m' h
  | error stop m' =>
    rw [hx] at h
    exact hE m' h

theorem newContext {kind : ContextKind} {k : CtxId → Run α}
    (h : Ends (k m.store.graph.size) { m with store := (m.store.addContext kind).2 } Q E) :
    Ends (Run.newContext kind >>= k) m Q E := h

theorem graph {k : Graph → Run α} (h : Ends (k m.store.graph) m Q E) :
    Ends (Run.graph >>= k) m Q E := h

theorem mapFailure (g : Machine → Failure → Failure) (h : Ends x m Q E) :
    Ends (x.mapFailure g) m Q E := by
  rw [Ends, Run.mapFailure]
  cases hx : x m with
  | ok a m' =>
    rw [Ends, hx] at h
    exact h
  | error stop m' =>
    rw [Ends, hx] at h
    exact h

theorem ensuring {undo : Machine → Machine}
    (h : Ends x m (fun a m' => Q a (undo m')) fun m' => E (undo m')) :
    Ends (x.ensuring undo) m Q E := by
  rw [Ends, Run.ensuring]
  cases hx : x m with
  | ok a m' =>
    rw [Ends, hx] at h
    exact h
  | error stop m' =>
    rw [Ends, hx] at h
    exact h

theorem holding {holds : List Hold} (h : Ends x { m with held := holds ++ m.held }
    (fun a m' => Q a { m' with held := m.held }) fun m' => E { m' with held := m.held }) :
    Ends (holding holds x) m Q E := Ends.ensuring h

theorem inCall {name : String} {span : Span} (refused : E m)
    (h : ∀ calls, Ends x { m with calls } (fun a m' => Q a { m' with calls := m'.calls.pop })
      fun m' => E { m' with calls := m'.calls.pop }) : Ends (inCall name span x) m Q E := by
  rw [Ends, inCall_apply]
  cases m.calls.push ⟨name, some span⟩ with
  | error fault => exact refused
  | ok calls => exact Ends.ensuring ((h calls).mapFailure _)

theorem of_after (hQ : ∀ a, Q a (x.after m)) (hE : E (x.after m)) : Ends x m Q E := by
  rw [after] at hQ hE
  rw [Ends]
  cases hx : x m with
  | ok a m' =>
    rw [hx] at hQ
    exact hQ a
  | error stop m' =>
    rw [hx] at hE
    exact hE

end Ends

/-- On a machine one run goes in steps above `n` and leaves nothing open, and another one does the
same if `Q` holds of all machines on the way. -/
structure AgreeIf (Q : Machine → Prop) (f : Footprint) (n : Nat) (x y : Run α) (m : Machine) :
    Prop where
  same : m.Always n Q (y.after m) → x m = y m
  later : m.Later n (y.after m)
  kept : m.Kept f (y.after m)

/-- On a machine two runs do the same, in steps above `n`, and leave nothing open. -/
abbrev Agree (f : Footprint) (n : Nat) (x y : Run α) (m : Machine) : Prop :=
  AgreeIf (fun _ => True) f n x y m

namespace AgreeIf

variable {Q : Machine → Prop} {x y : Run α}

theorem weaken {f' : Footprint} (h : AgreeIf Q f n x y m)
    (hk : ∀ {s t : Store}, Store.Kept f s t → Store.Kept f' s t) : AgreeIf Q f' n x y m where
  same := h.same
  later := h.later
  kept := ⟨h.kept.calls, h.kept.importing, hk h.kept.store⟩

theorem of_clean (h : AgreeIf Q .clean n x y m) : AgreeIf Q f n x y m :=
  h.weaken fun kept => kept.of_unnamed rfl

/-- A run that leaves the machine as it is. -/
theorem unchanged (h : y.after m = m) (same : x m = y m) : AgreeIf Q f n x y m where
  same _ := same
  later := by rw [h]; exact .refl
  kept := by rw [h]; exact .refl f m

/-- A run that does one step of a store. -/
theorem of_store {s : Store} (step : Store.Step f m.store s) (hf : ∀ c, f ≠ .blocks c)
    (above : f.Above n) (h : x.after m = { m with store := s }) : AgreeIf Q f n x x m where
  same _ := rfl
  later := by rw [h]; exact .single ⟨f, above, .store step⟩
  kept := by rw [h]; exact ⟨rfl, rfl, step.kept hf⟩

/-- A run that does one clean step, which is no step of the calls or imports. -/
theorem of_step (step : Machine.Step .clean m (x.after m)) (calls : (x.after m).calls = m.calls)
    (importing : (x.after m).importing = m.importing)
    (scopes : ∀ c < m.store.graph.size,
      (x.after m).store.graph.scopes? c = m.store.graph.scopes? c) : AgreeIf Q f n x x m where
  same _ := rfl
  later := .single ⟨.clean, Footprint.within_clean (m := m).above, step⟩
  kept := by
    refine ⟨calls, importing, ⟨step.extends, fun c hc _ => scopes c hc, fun c hc _ => ?_⟩⟩
    rw [scopes c hc]

theorem bind {k l : α → Run β} (h : AgreeIf Q f n x y m)
    (hk : ∀ a m', y m = .ok a m' → AgreeIf Q f n (k a) (l a) m') :
    AgreeIf Q f n (x >>= k) (y >>= l) m := by
  cases hy : y m with
  | ok a m' =>
    obtain rfl : y.after m = m' := by simp only [after, hy]
    have rest := hk a _ hy
    constructor
    · intro always
      rw [after_bind_ok l hy] at always
      rw [bind_apply, bind_apply, h.same (always.sub .refl rest.later), hy]
      exact rest.same (always.sub h.later .refl)
    · rw [after_bind_ok l hy]
      exact h.later.trans rest.later
    · rw [after_bind_ok l hy]
      exact h.kept.trans rest.kept
  | error stop m' =>
    have hm : y.after m = m' := by simp only [after, hy]
    constructor
    · intro always
      rw [after_bind_error l hy] at always
      rw [bind_apply, bind_apply, h.same (hm ▸ always), hy]
    · rw [after_bind_error l hy]
      exact hm ▸ h.later
    · rw [after_bind_error l hy]
      exact hm ▸ h.kept

theorem mapFailure (g : Machine → Failure → Failure) (h : AgreeIf Q f n x y m) :
    AgreeIf Q f n (x.mapFailure g) (y.mapFailure g) m where
  same always := by
    rw [after_mapFailure] at always
    simp only [Run.mapFailure, h.same always]
  later := by rw [after_mapFailure]; exact h.later
  kept := by rw [after_mapFailure]; exact h.kept

/-- Work after which something is undone. -/
theorem ensuring {undo : Machine → Machine} (h : AgreeIf Q f n x y m)
    (later : (y.after m).Later n (undo (y.after m)))
    (kept : m.Kept f (y.after m) → m.Kept f (undo (y.after m))) :
    AgreeIf Q f n (x.ensuring undo) (y.ensuring undo) m where
  same always := by
    rw [after_ensuring] at always
    simp only [Run.ensuring, h.same (always.sub .refl later)]
  later := by rw [after_ensuring]; exact h.later.trans later
  kept := by rw [after_ensuring]; exact kept h.kept

theorem holding {holds : List Hold}
    (h : AgreeIf Q f n x y { m with held := holds ++ m.held }) :
    AgreeIf Q f n (holding holds x) (holding holds y) m := by
  have hy : (Run.holding holds y).after m =
      { y.after { m with held := holds ++ m.held } with held := m.held } :=
    after_ensuring _ _ _
  have taking : m.Later n { m with held := holds ++ m.held } :=
    .single ⟨_, Footprint.above_clean, .held _⟩
  have dropping (m : Machine) (held : List Hold) : m.Later n { m with held } :=
    .single ⟨_, Footprint.above_clean, .held _⟩
  constructor
  · intro always
    rw [hy] at always
    simp only [Run.holding, Run.ensuring, h.same (always.sub taking (dropping _ _))]
  · rw [hy]
    exact (taking.trans h.later).trans (dropping _ _)
  · rw [hy]
    exact ⟨h.kept.calls, h.kept.importing, h.kept.store⟩

theorem letGo (sought : Graph → CtxId) : AgreeIf Q .clean n (letGo sought) (letGo sought) m := by
  rcases letGo_apply sought m with h | ⟨outside, known, h⟩
  · exact unchanged (by simp only [after, h]) rfl
  · have hx : (Run.letGo sought).after m =
        { m with store := m.store.release (m.held ++ outside) } := by simp only [after, h]
    refine of_step ?_ ?_ ?_ ?_
    · exact hx ▸ .released known
    · rw [hx]
    · rw [hx]
    · intro c _
      rw [hx]
      exact Store.scopes?_release _ _ _

theorem declare {d : Declaration}
    (step : d.obstacle? m.store.graph = none → Store.Step f m.store (m.store.modifyGraph d.apply))
    (hf : ∀ c, f ≠ .blocks c) (above : f.Above n) :
    AgreeIf Q f n (Run.declare d) (Run.declare d) m := by
  cases hd : d.obstacle? m.store.graph with
  | none => exact of_store (step hd) hf above (by simp only [after, declare_apply, hd])
  | some fault => exact unchanged (by simp only [after, declare_apply, hd]) rfl

/-- Setting up a new context. -/
theorem newContext (kind : ContextKind) {k l : CtxId → Run α} {g : Footprint}
    (hg : g.named? = some m.store.graph.size)
    (h : AgreeIf Q g n (k m.store.graph.size) (l m.store.graph.size)
      { m with store := (m.store.addContext kind).2 }) :
    AgreeIf Q .clean n (newContext kind >>= k) (newContext kind >>= l) m := by
  have run (k : CtxId → Run α) : (Run.newContext kind >>= k) m =
      k m.store.graph.size { m with store := (m.store.addContext kind).2 } := rfl
  have left (k : CtxId → Run α) : (Run.newContext kind >>= k).after m =
      (k m.store.graph.size).after { m with store := (m.store.addContext kind).2 } := by
    simp only [after, run]
  have adding : m.Later n { m with store := (m.store.addContext kind).2 } :=
    .single ⟨_, Footprint.above_clean, .store (.contextAdded kind)⟩
  constructor
  · intro always
    rw [left] at always
    rw [run, run, h.same (always.sub adding .refl)]
  · rw [left]
    exact adding.trans h.later
  · rw [left]
    have added : Store.Kept .clean m.store (m.store.addContext kind).2 :=
      Store.Step.kept (.contextAdded kind) (by simp)
    have both := (added.of_unnamed (f := g) rfl).trans h.kept.store
    exact ⟨h.kept.calls, h.kept.importing, both.clean_of_new hg⟩

/-- Whatever happens inside a scope, closing it brings the scopes back as they were. -/
theorem inScope (hc : (Footprint.blocks c).Within n m)
    (h : AgreeIf Q (.names c) n x y { m with store := m.store.modifyGraph (·.pushScope c) }) :
    AgreeIf Q (.blocks c) n (inScope c x) (inScope c y) m := by
  obtain ⟨hn, hlt⟩ := hc c rfl
  have run (x : Run α) : Run.inScope c x m = x.ensuring
      (fun m => { m with store := m.store.modifyGraph (·.popScope c) })
      { m with store := m.store.modifyGraph (·.pushScope c) } := rfl
  have left : (Run.inScope c y).after m = _ :=
    after_ensuring y (fun m => { m with store := m.store.modifyGraph (·.popScope c) })
      { m with store := m.store.modifyGraph (·.pushScope c) }
  obtain ⟨old, hold⟩ := Graph.scopes?_isSome_of_lt hlt
  have opened : (m.store.graph.pushScope c).scopes? c = some old.push := by
    rw [Graph.scopes?_pushScope, hold]
    rfl
  have opening : Store.Step (.blocks c) m.store (m.store.modifyGraph (·.pushScope c)) :=
    .scopeOpened c
  have hlt₁ : c < (m.store.graph.pushScope c).size := Nat.lt_of_lt_of_le hlt opening.extends.contexts
  -- the names that appeared inside are in the frames that are closed now
  obtain ⟨inner, hinner⟩ := Graph.scopes?_isSome_of_lt
    (Nat.lt_of_lt_of_le hlt₁ h.kept.store.contexts)
  have hbelow : inner.below = old.push.below := by
    have hb := h.kept.store.below c hlt₁ rfl
    rw [hinner] at hb
    exact Option.some.inj (hb.trans (congrArg _ opened))
  have closing : Store.Step (.blocks c) _ _ :=
    .scopeClosed hinner (Scopes.isInner_of_below_eq_push hbelow)
  have entering : m.Later n { m with store := m.store.modifyGraph (·.pushScope c) } :=
    .single ⟨_, hc.above, .store opening⟩
  have leaving : Machine.Later n _ _ := .single ⟨_, hc.above, .store closing⟩
  constructor
  · intro always
    rw [left] at always
    rw [run, run]
    simp only [Run.ensuring, h.same (always.sub entering leaving)]
  · rw [left]
    exact (entering.trans h.later).trans leaving
  · rw [left]
    refine ⟨h.kept.calls, h.kept.importing, ?_, ?_, ?_⟩
    · exact (opening.extends.trans h.kept.store.toExtends).trans closing.extends
    · intro d hd _
      have hd₁ := Nat.lt_of_lt_of_le hd opening.extends.contexts
      by_cases hdc : d = c
      · subst hdc
        refine Graph.scopes?_popScope.trans ?_
        rw [hinner, hold]
        exact congrArg some (Scopes.pop_of_below_eq_push hbelow)
      · have out : (Footprint.blocks c).context? ≠ some d := fun e => hdc (Option.some.inj e).symm
        have out' : (Footprint.names c).named? ≠ some d := out
        rw [closing.scopes?_eq (Nat.lt_of_lt_of_le hd₁ h.kept.store.contexts) out,
          h.kept.store.scopes d hd₁ out', opening.scopes?_eq hd out]
    · intro d _ hf
      cases hf

/-- A call that is refused never was, and any other is left as it was entered. -/
theorem inCall (name : String) (span : Span)
    (h : ∀ calls, m.calls.push ⟨name, some span⟩ = .ok calls → AgreeIf Q f n x y { m with calls }) :
    AgreeIf Q f n (inCall name span x) (inCall name span y) m := by
  cases hp : m.calls.push ⟨name, some span⟩ with
  | error fault =>
    exact unchanged (by simp only [after, inCall_apply, hp])
      (by rw [inCall_apply, inCall_apply, hp])
  | ok calls =>
    have inside := (h calls hp).mapFailure fun m e => (m.calls.attach e).locate span
    have left : (Run.inCall name span y).after m =
        { (y.after { m with calls }) with calls := (y.after { m with calls }).calls.pop } := by
      rw [after, inCall_apply, hp]
      exact (after_ensuring _ _ _).trans (by rw [after_mapFailure])
    have entering : m.Later n { m with calls } :=
      .single ⟨_, Footprint.above_clean, .callEntered hp⟩
    have leaving (m : Machine) : m.Later n { m with calls := m.calls.pop } :=
      .single ⟨_, Footprint.above_clean, .callLeft⟩
    constructor
    · intro always
      rw [left] at always
      rw [inCall_apply, inCall_apply, hp]
      have quiet := always.sub entering (leaving _)
      simp only [Run.ensuring, inside.same (by rwa [after_mapFailure])]
    · rw [left]
      exact (entering.trans (h calls hp).later).trans (leaving _)
    · rw [left]
      have kept := (h calls hp).kept
      refine ⟨?_, kept.importing, kept.store⟩
      rw [kept.calls]
      exact CallStack.pop_of_push hp

/-- A variable with a new cell: a failure leaves the cell without a name. -/
theorem declareNew {k l : CellId → Run α} {cell : Cell} (hc : (Footprint.names c).Within n m)
    (h : (Declaration.ofVar c cell.name cell.name m.store.cells.size).obstacle? m.store.graph = none →
      AgreeIf Q (.names c) n (k m.store.cells.size) (l m.store.cells.size)
        { m with store := m.store.bindNew c cell }) :
    AgreeIf Q (.names c) n (Run.declareNew c cell k) (Run.declareNew c cell l) m := by
  have run (k : CellId → Run α) := declareNew_apply c cell k m
  cases hd : (Declaration.ofVar c cell.name cell.name m.store.cells.size).obstacle?
    m.store.graph with
  | some fault =>
    have left : (Run.declareNew c cell l).after m =
        { m with store := (m.store.addCell cell).2 } := by simp only [after, run, hd]
    have added := of_store (n := n) (Q := Q) (x := Run.declareNew c cell l) (.cellAdded cell)
      (by simp) Footprint.above_clean left
    refine of_clean ⟨fun _ => ?_, added.later, added.kept⟩
    rw [run, run, hd]
  | none =>
    have step : Store.Step (.names c) m.store (m.store.bindNew c cell) := .varDeclared hd
    have left : (Run.declareNew c cell l).after m =
        (l m.store.cells.size).after { m with store := m.store.bindNew c cell } := by
      simp only [after, run, hd]
    have rest := h hd
    have declaring : m.Later n { m with store := m.store.bindNew c cell } :=
      .single ⟨_, hc.above, .store step⟩
    constructor
    · intro always
      rw [left] at always
      rw [run, run, hd]
      exact rest.same (always.sub declaring .refl)
    · rw [left]
      exact declaring.trans rest.later
    · rw [left]
      exact ⟨rest.kept.calls, rest.kept.importing, (step.kept (by simp)).trans rest.kept.store⟩

theorem editCell (i : CellId) (g : Handles → Edit α) :
    AgreeIf Q .clean n (editCell i g) (editCell i g) m := by
  cases hw : (m.store.cell i).checkWrite false with
  | error fault => exact unchanged (by simp only [after, Run.editCell, hw]) rfl
  | ok _ =>
    cases hg : g m.handles (m.store.cell i).value with
    | ok a v =>
      exact of_store (.cellWritten v hw) (by simp) Footprint.above_clean
        (by simp only [after, Run.editCell, hw, hg])
    | error fault v =>
      exact of_store (.cellWritten v hw) (by simp) Footprint.above_clean
        (by simp only [after, Run.editCell, hw, hg])

theorem copy (v : Value) (hn : n ≤ m.store.graph.size) :
    AgreeIf Q .clean n (copy v) (copy v) m := by
  cases hv : m.store.copy (m.store.graph.contexts.size + 1) v with
  | none => exact unchanged (by simp only [after, Run.copy, hv]) rfl
  | some result =>
    obtain ⟨v', t⟩ := result
    have left : (Run.copy v).after m = { m with store := t } := by
      simp only [after, Run.copy, hv]
    have steps := Store.later_copy hv
    constructor
    · exact fun _ => rfl
    · rw [left]
      exact .of_store (steps.mono hn)
    · rw [left]
      refine ⟨rfl, rfl, steps.extends, fun c hc _ => steps.scopes?_eq hc hc, fun c _ hf => ?_⟩
      cases hf

/-- A path is among the imports in progress while its module runs, and never twice. -/
theorem importing {path : String} (idle : path ∉ m.importing)
    (h : AgreeIf Q f n x y { m with importing := path :: m.importing }) :
    AgreeIf Q f n (importing path x) (importing path y) m := by
  have run (x : Run α) : Run.importing path x m =
      x.ensuring (fun m => { m with importing := m.importing.tail })
        { m with importing := path :: m.importing } := rfl
  have left : (Run.importing path y).after m = _ :=
    after_ensuring y (fun m => { m with importing := m.importing.tail })
      { m with importing := path :: m.importing }
  have starting : m.Later n { m with importing := path :: m.importing } :=
    .single ⟨_, Footprint.above_clean, .importStarted idle⟩
  have ending (m : Machine) : m.Later n { m with importing := m.importing.tail } :=
    .single ⟨_, Footprint.above_clean, .importEnded⟩
  constructor
  · intro always
    rw [left] at always
    rw [run, run]
    simp only [Run.ensuring, h.same (always.sub starting (ending _))]
  · rw [left]
    exact (starting.trans h.later).trans (ending _)
  · rw [left]
    refine ⟨h.kept.calls, ?_, h.kept.store⟩
    show (y.after _).importing.tail = m.importing
    rw [h.kept.importing]
    rfl

theorem importWith (config : Config) (path : String) (c : CtxId) {k l : Program → CtxId → Run Unit}
    (h : ∀ code m', m.Later n m' → m'.store.graph.size = m.store.graph.size + 1 →
      AgreeIf Q (.names m.store.graph.size) n (k code m.store.graph.size)
        (l code m.store.graph.size) m') :
    AgreeIf Q .clean n (Eval.importWith config path c k) (Eval.importWith config path c l) m := by
  refine bind (unchanged rfl rfl) fun paths m' hm => ?_
  cases hm
  dsimp only
  by_cases hp : m.importing.contains path = true
  · rw [if_pos hp, if_pos hp]
    exact unchanged rfl rfl
  · rw [if_neg hp, if_neg hp]
    have idle : path ∉ m.importing := fun hin => hp (List.contains_iff_mem.mpr hin)
    refine bind (unchanged (after_load config path m) rfl) fun code m' hm => ?_
    obtain rfl : m = m' := by
      have := after_load config path m
      simpa only [after, hm] using this.symm
    refine newContext .emptyWorld (g := .names m.store.graph.size) rfl ?_
    show AgreeIf Q _ n (Run.holding _ (Run.importing path (k code m.store.graph.size) >>= _))
      (Run.holding _ (Run.importing path (l code m.store.graph.size) >>= _)) _
    refine holding (bind (importing idle (h code _ ?_ ?_)) fun _ m' _ => of_clean ?_)
    · have added : m.Later n { m with store := (m.store.addContext .emptyWorld).2 } :=
        .single ⟨_, Footprint.above_clean, .store (.contextAdded .emptyWorld)⟩
      exact (added.tail ⟨_, Footprint.above_clean, .held _⟩).tail
        ⟨_, Footprint.above_clean, .importStarted idle⟩
    · exact Graph.size_add _
    · refine bind (unchanged rfl rfl) fun g m' _ => ?_
      refine bind (letGo _) fun _ m' _ => ?_
      exact declare (fun free => .moduleDeclared free) (by simp) Footprint.above_clean

theorem clearingArguments (hc : (Footprint.setup c).Within n m) (h : AgreeIf Q (.setup c) n x y m) :
    AgreeIf Q (.setup c) n (x.ensuring (clearArguments c)) (y.ensuring (clearArguments c)) m := by
  have step (s : Store) : Store.Step (.setup c) s (s.modifyGraph (·.clearArguments c)) :=
    .argumentsCleared c
  refine h.ensuring (.single ⟨_, hc.above, .store (step _)⟩) fun kept => ?_
  exact ⟨kept.calls, kept.importing, kept.store.trans ((step _).kept (by simp))⟩

theorem onDisk (g : Files.Disk → Except Fault α × Files.Disk) :
    AgreeIf Q .clean n (onDisk g) (onDisk g) m := by
  have left : (Run.onDisk g).after m = { m with disk := (g m.disk).2 } := by
    unfold after Run.onDisk
    rcases g m.disk with ⟨_ | _, disk⟩ <;> rfl
  exact of_step (left ▸ .disk _) (left ▸ rfl) (left ▸ rfl) (left ▸ fun _ _ => rfl)

theorem nextLine : AgreeIf Q .clean n nextLine nextLine m := by
  cases hi : m.input with
  | nil => exact unchanged (by simp only [after, Run.nextLine, hi]) rfl
  | cons line rest =>
    have left : Run.nextLine.after m = { m with input := rest } := by
      simp only [after, Run.nextLine, hi]
    exact of_step (left ▸ .input _) (left ▸ rfl) (left ▸ rfl) (left ▸ fun _ _ => rfl)

end AgreeIf

/-- What holds of two runs wherever a machine may have got to by steps above `n`. -/
def AgreeAfter (Q : Machine → Prop) (n : Nat) (m₀ : Machine) (f : Footprint) (x y : Run α) : Prop :=
  ∀ m, m₀.Later n m → f.Within n m → AgreeIf Q f n x y m

namespace AgreeAfter

variable {Q : Machine → Prop}

theorem bind {x y : Run α} {k l : α → Run β} (h : AgreeAfter Q n m₀ f x y)
    (hk : ∀ a, AgreeAfter Q n m₀ f (k a) (l a)) : AgreeAfter Q n m₀ f (x >>= k) (y >>= l) := by
  intro m hm hw
  have first := h m hm hw
  refine first.bind fun a m' hy => ?_
  obtain rfl : y.after m = m' := by simp only [Run.after, hy]
  exact hk a _ (hm.trans first.later) (hw.extends first.later.extends)

/-- A context that has just been added. -/
theorem atNew {x y : Run α} {g : Footprint} (hn : n ≤ m₀.store.graph.size) (hm : m₀.Later n m)
    (hg : g.context? = some m.store.graph.size) (h : AgreeAfter Q n m₀ g x y)
    (hm' : m.Later n m') (hs : m'.store.graph.size = m.store.graph.size + 1) :
    AgreeIf Q g n x y m' := by
  refine h m' (hm.trans hm') fun c hc => ?_
  obtain rfl : m.store.graph.size = c := Option.some.inj (hg.symm.trans hc)
  exact ⟨Nat.le_trans hn hm.extends.contexts, hs ▸ Nat.lt_succ_self _⟩

theorem declareNew {k l : CellId → Run α} {cell : Cell}
    (h : ∀ i, AgreeAfter Q n m₀ (.names c) (k i) (l i)) :
    AgreeAfter Q n m₀ (.names c) (Run.declareNew c cell k) (Run.declareNew c cell l) := by
  intro m hm hw
  refine .declareNew hw fun free => ?_
  have step : Machine.Step (.names c) m { m with store := m.store.bindNew c cell } :=
    .store (.varDeclared free)
  exact h _ _ (hm.step hw.above step) (hw.extends step.extends)

end AgreeAfter

/-- The logic of runs that go on from a machine in steps above `n`, and do the same if `Q` holds of
all machines on the way. -/
def Logic.afterIf (Q : Machine → Prop) (n : Nat) (m₀ : Machine) (hn : n ≤ m₀.store.graph.size) :
    Logic where
  Rel f _ x y := AgreeAfter Q n m₀ f x y
  blocks_of_clean h := fun m hm _ => (h m hm Footprint.within_clean).of_clean
  names_of_blocks h := fun m hm hw => (h m hm hw).weaken fun kept => kept.of_unnamed rfl
  setup_of_names h := fun m hm hw => (h m hm hw).weaken .setup_of_names
  pure a := fun m _ _ => .unchanged rfl rfl
  raise fault := fun m _ _ => .unchanged rfl rfl
  panic f v := fun m _ _ => .unchanged rfl rfl
  outOfFuel := fun m _ _ => .unchanged rfl rfl
  look g _ _ h := fun m hm hw => .bind (.unchanged rfl rfl) fun a m' e => by
    cases e
    exact h m m hm hw
  bind h hk := .bind h hk
  locating span h := fun m hm hw => (h m hm hw).mapFailure _
  holding holds h := fun m hm hw => .holding (h _ (hm.step Footprint.above_clean (.held _)) hw)
  inScope h := fun m hm hw =>
    have opening := .store (.scopeOpened _)
    .inScope hw (h _ (hm.step hw.above opening) (hw.extends opening.extends))
  inCall name span h := fun m hm hw =>
    .inCall name span fun calls hp => h _ (hm.step Footprint.above_clean (.callEntered hp)) hw
  letGo sought := fun m _ _ => .letGo sought
  newContext kind := fun h m hm _ =>
    have added := .single ⟨_, Footprint.above_clean, .store (.contextAdded kind)⟩
    .newContext kind (g := .setup _) rfl (AgreeAfter.atNew hn hm rfl (h _) added (Graph.size_add _))
  newCell cell := fun m _ _ => .of_store (.cellAdded cell) (by simp) Footprint.above_clean rfl
  editCell i g := fun m _ _ => .editCell i g
  newClosure params body c := fun m _ _ => .of_store .closureMade (by simp) Footprint.above_clean rfl
  copy v := fun m hm _ => .copy v (Nat.le_trans hn hm.extends.contexts)
  declareNew cell := fun h => .declareNew h
  declareFunc func := fun m _ hw => .declare (fun free => .funcDeclared free) (by simp) hw.above
  bindCell name i := fun m _ hw => .bind (.unchanged rfl rfl) fun a m' hm =>
    .declare (fun free => .varBound free) (by simp) hw.above
  declareArgument name i := fun m _ hw =>
    .declare (fun free => .argumentDeclared free) (by simp) hw.above
  clearingArguments h := fun m hm hw => (h m hm hw).clearingArguments hw
  declareClass c decl := fun m _ hw =>
    .declare (fun free => .classDeclared free) (by simp) hw.above
  nameModule c name := fun m _ hw => .of_store (.moduleNamed c name) (by simp) hw.above rfl
  importWith config path c := fun h m hm _ =>
    .importWith config path c fun code m' => AgreeAfter.atNew hn hm rfl (h code _)
  onDisk g := fun m _ _ => .onDisk g
  modifyOutput g := fun m _ _ => .of_step (.output _) rfl rfl fun _ _ => rfl
  nextLine := fun m _ _ => .nextLine

/-- The logic of runs that go on from a machine in steps above `n`. -/
abbrev Logic.after (n : Nat) (m₀ : Machine) (hn : n ≤ m₀.store.graph.size) : Logic :=
  .afterIf (fun _ => True) n m₀ hn

variable {config : Config} {fuel : Nat}

theorem agree_of_rel {x y : Run α} (h : (Logic.after 0 m (Nat.zero_le _)).Rel f x y)
    (hf : ∀ c, f.context? = some c → c < m.store.graph.size) : Agree f 0 x y m :=
  h m .refl fun c hc => ⟨Nat.zero_le c, hf c hc⟩

theorem agree_expr (e : Expr) (c : CtxId) :
    Agree .clean 0 ((evaluator config fuel).expr e c) ((evaluator config fuel).expr e c) m :=
  agree_of_rel ((Logic.evaluator_relates _ config fuel).expr e c) (by rintro _ ⟨⟩)

theorem agree_stmt (s : Stmt) (hc : c < m.store.graph.size) :
    Agree (Logic.footprint c s.node) 0 ((evaluator config fuel).stmt s c)
      ((evaluator config fuel).stmt s c) m := by
  have hf : ∀ d, (Logic.footprint c s.node).context? = some d → d < m.store.graph.size := by
    intro d hd
    have hcd : (Logic.footprint c s.node).context? = some c := by cases s.node <;> rfl
    exact Option.some.inj (hcd.symm.trans hd) ▸ hc
  cases fuel with
  | zero => exact .unchanged rfl rfl
  | succ fuel => exact agree_of_rel (Logic.stmt (Logic.evaluator_relates _ config fuel) config s) hf

/-- Whatever a block does, its scope is closed in the end. -/
theorem agree_scopedBlock (body : Block) (hc : c < m.store.graph.size) :
    Agree (.blocks c) 0 (Eval.scopedBlock (evaluator config fuel) c body)
      (Eval.scopedBlock (evaluator config fuel) c body) m :=
  agree_of_rel (Logic.scopedBlock (Logic.evaluator_relates _ config fuel) body)
    fun _ hd => Option.some.inj hd ▸ hc

theorem agree_closure (closure : Closure) (args : List Value) (span : Span) :
    Agree .clean 0 (Run.closure config fuel closure args span)
      (Run.closure config fuel closure args span) m :=
  agree_of_rel (Logic.callback (Logic.evaluator_relates _ config fuel) span closure args)
    (by rintro _ ⟨⟩)

end Run

end TreeScript
