import TreeScript.Proofs.Context.Entries

/-!
# Harmless changes of contexts

Most changes of a context leave its skeleton alone, make nothing in it lead out, and make no entry.
Only binding a variable and declaring a constructor argument make one.
-/
namespace TreeScript.Context

variable {P : CtxId → Prop} {Q : CellId → Prop} {ctx : Context}

/-- A change that makes no entry and nothing lead out. -/
structure Harmless (P : CtxId → Prop) (Q : CellId → Prop) (f : Context → Context) : Prop where
  skeleton : ∀ ctx, (f ctx).kind.skeleton = ctx.kind.skeleton
  within : ∀ ctx, ctx.Within P Q → (f ctx).Within P Q
  entries : ∀ ctx h name i, (f ctx).cellAt? h name = some i → ctx.cellAt? h name = some i

/-- A change of the kind that does not lead out. -/
theorem Within.setKind (within : ctx.Within P Q) {kind : ContextKind}
    (skeleton : kind.skeleton = ctx.kind.skeleton) (imports : ∀ e ∈ kind.imports, P e.2)
    (arguments : ∀ arguments, kind.arguments? = some arguments → ∀ e ∈ arguments, Q e.2) :
    { ctx with kind }.Within P Q where
  owner o ho := by
    refine within.owner o ?_
    rwa [← Graph.owner?_skeleton, ← skeleton, Graph.owner?_skeleton]
  imports := imports
  arguments := arguments
  vars := within.vars
  funcs := within.funcs

/-- A change of the kind that leaves the arguments alone. -/
theorem harmless_kind {g : ContextKind → ContextKind}
    (skeleton : ∀ kind, (g kind).skeleton = kind.skeleton)
    (arguments : ∀ kind, (g kind).arguments? = kind.arguments?)
    (imports : ∀ kind, (∀ e ∈ kind.imports, P e.2) → ∀ e ∈ (g kind).imports, P e.2) :
    Harmless P Q fun ctx => { ctx with kind := g ctx.kind } where
  skeleton ctx := skeleton ctx.kind
  within ctx within :=
    within.setKind (skeleton ctx.kind) (imports ctx.kind within.imports)
      (arguments ctx.kind ▸ within.arguments)
  entries ctx h name i found := by
    cases h with
    | zero =>
      rw [cellAt?, arguments] at found
      exact found
    | succ h => exact found

theorem harmless_recordMember (name : String) :
    Harmless P Q fun ctx => { ctx with kind := Declaration.recordMember name ctx.kind } :=
  harmless_kind (Declaration.skeleton_recordMember name) (Declaration.arguments?_recordMember name)
    fun kind h => by cases kind <;> exact h

theorem harmless_addClass (decl : ClassDecl) :
    Harmless P Q fun ctx => { ctx with kind := Declaration.addClass decl ctx.kind } :=
  harmless_kind (Declaration.skeleton_addClass decl) (Declaration.arguments?_addClass decl)
    fun kind h => by cases kind <;> exact h

theorem harmless_addModule (name : String) {world : CtxId} (hw : P world) :
    Harmless P Q fun ctx => { ctx with kind := Declaration.addModule name world ctx.kind } := by
  refine harmless_kind (Declaration.skeleton_addModule name world)
    (Declaration.arguments?_addModule name world) fun kind h => ?_
  cases kind with
  | world module classes imports => exact List.forall_mem_cons.mpr ⟨hw, h⟩
  | _ => exact h

theorem harmless_setModuleName (name : String) :
    Harmless P Q fun ctx => { ctx with kind := Graph.setModuleName name ctx.kind } :=
  harmless_kind (Graph.skeleton_setModuleName name) (Graph.arguments?_setModuleName name)
    fun kind h => by cases kind <;> exact h

theorem harmless_dropArguments :
    Harmless P Q fun ctx => { ctx with kind := Graph.dropArguments ctx.kind } where
  skeleton ctx := Graph.skeleton_dropArguments ctx.kind
  within ctx within := by
    refine within.setKind (Graph.skeleton_dropArguments ctx.kind) ?_ ?_
    · have imports := within.imports
      cases hk : ctx.kind with
      | world module classes imported =>
        rw [hk] at imports
        exact imports
      | _ => exact nofun
    · intro arguments ha
      cases hk : ctx.kind with
      | object owner decl given old members =>
        rw [hk] at ha
        cases ha
        exact nofun
      | _ =>
        rw [hk] at ha
        cases ha
  entries ctx h name i found := by
    cases h with
    | zero =>
      cases hk : ctx.kind <;>
      · rw [cellAt?] at found
        simp only [hk] at found
        cases found
    | succ h => exact found

theorem harmless_push :
    Harmless P Q fun ctx => { ctx with vars := ctx.vars.push, funcs := ctx.funcs.push } where
  skeleton _ := rfl
  within ctx within := ⟨within.owner, within.imports, within.arguments,
    List.forall_mem_cons.mpr ⟨nofun, within.vars⟩, List.forall_mem_cons.mpr ⟨nofun, within.funcs⟩⟩
  entries ctx h name i found := by
    cases h with
    | zero => exact found
    | succ h => exact ScopeStack.at?_push.symm.trans found

/-- What holds of all bindings holds of those that are left without the innermost frame. -/
theorem forall_frames_pop {α : Type} {s : ScopeStack α} {p : String × α → Prop}
    (h : ∀ frame ∈ s.frames, ∀ e ∈ frame, p e) : ∀ frame ∈ s.pop.frames, ∀ e ∈ frame, p e := by
  obtain ⟨top, below⟩ := s
  cases below with
  | nil => exact List.forall_mem_cons.mpr ⟨nofun, nofun⟩
  | cons frame rest => exact fun f hf => h f (List.mem_cons_of_mem _ hf)

theorem harmless_pop :
    Harmless P Q fun ctx => { ctx with vars := ctx.vars.pop, funcs := ctx.funcs.pop } where
  skeleton _ := rfl
  within ctx within := ⟨within.owner, within.imports, within.arguments,
    forall_frames_pop within.vars, forall_frames_pop within.funcs⟩
  entries ctx h name i found := by
    cases h with
    | zero => exact found
    | succ h => exact ScopeStack.at?_of_pop found

/-- What holds of all bindings and of a new one holds of all then. -/
theorem forall_frames_bind {α : Type} {s : ScopeStack α} {p : String × α → Prop} {name : String}
    {item : α} (h : ∀ frame ∈ s.frames, ∀ e ∈ frame, p e) (new : p (name, item)) :
    ∀ frame ∈ (s.bind name item).frames, ∀ e ∈ frame, p e := by
  obtain ⟨top, below⟩ := s
  obtain ⟨htop, hbelow⟩ := List.forall_mem_cons.mp h
  exact List.forall_mem_cons.mpr ⟨List.forall_mem_cons.mpr ⟨new, htop⟩, hbelow⟩

theorem harmless_bindFunc {func : Func} (ho : P func.owner) :
    Harmless P Q fun ctx => { ctx with funcs := ctx.funcs.bind func.decl.name func } where
  skeleton _ := rfl
  within ctx within := ⟨within.owner, within.imports, within.arguments, within.vars,
    forall_frames_bind within.funcs ho⟩
  entries ctx h name i found := by cases h <;> exact found

theorem Within.bindVar (within : ctx.Within P Q) (name : String) {i : CellId} (hi : Q i) :
    { ctx with
      kind := Declaration.recordMember name ctx.kind
      vars := ctx.vars.bind name i }.Within P Q := by
  have recorded := (harmless_recordMember name).within ctx within
  exact ⟨recorded.owner, recorded.imports, recorded.arguments, forall_frames_bind within.vars hi,
    within.funcs⟩

theorem Within.addArgument (within : ctx.Within P Q) (name : String) {i : CellId} (hi : Q i) :
    { ctx with kind := Declaration.addArgument name i ctx.kind }.Within P Q := by
  refine within.setKind (Declaration.skeleton_addArgument name i ctx.kind) ?_ ?_
  · have imports := within.imports
    cases hk : ctx.kind with
    | world module classes imported =>
      rw [hk] at imports
      exact imports
    | _ => exact nofun
  · intro arguments ha
    cases hk : ctx.kind with
    | object owner decl given old members =>
      rw [hk] at ha
      cases ha
      exact List.forall_mem_cons.mpr ⟨hi, within.arguments old (by rw [hk]; rfl)⟩
    | _ =>
      rw [hk] at ha
      cases ha

end TreeScript.Context
