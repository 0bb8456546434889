import TreeScript.Proofs.Context.Chains
import TreeScript.Proofs.Machine.Region
import TreeScript.Proofs.Run.Invariants

/-!
# What living contexts lead to

A living context keeps its owner, the modules that it has imported and what its values name, except
that neither an owner nor a closure keeps a World. So all that it leads to is alive or a World, and
what it has imported is alive. Whatever builds a store up keeps this, and so does a release.
-/
namespace TreeScript

variable {s t u : Store} {c d o v w : CtxId} {i : CellId} {ctx : Context} {kind : ContextKind}

namespace Graph

variable {g g' : Graph}

/-- The owner that a context was made with, whether it is there or not. -/
abbrev recordedOwner? (g : Graph) (c : CtxId) : Option CtxId := (g.kind? c).bind ContextKind.owner?

/-- The owners of the context lead to the World. -/
inductive Home (g : Graph) : CtxId → CtxId → Prop where
  | world {w : CtxId} (isWorld : g.isWorld w = true) : Home g w w
  | owned {c o w : CtxId} (owner : g.recordedOwner? c = some o) (older : o < c)
      (home : Home g o w) : Home g c w

/-- The one context has imported the other. -/
def Imports (g : Graph) (v w : CtxId) : Prop :=
  ∃ kind, g.kind? v = some kind ∧ ∃ e ∈ kind.imports, e.2 = w

/-- A World knows what it has imported, and what such a World knows. -/
def Knows (g : Graph) : CtxId → CtxId → Prop := Relation.ReflTransGen g.Imports

theorem recordedOwner?_of_isWorld (world : g.isWorld w = true) : g.recordedOwner? w = none := by
  obtain ⟨kind, hk, world⟩ := (Option.any_eq_true ..).mp world
  rw [recordedOwner?, hk]
  cases kind with
  | world => rfl
  | _ => cases world

namespace Home

theorem isWorld (h : g.Home c w) : g.isWorld w = true := by
  induction h with
  | world isWorld => exact isWorld
  | owned _ _ _ ih => exact ih

/-- A World is its own home. -/
theorem eq_of_isWorld (h : g.Home c w) (world : g.isWorld c = true) : c = w := by
  cases h with
  | world => rfl
  | owned owner =>
    rw [recordedOwner?_of_isWorld world] at owner
    cases owner

/-- As long as its home is there, so are the owners of a context. -/
theorem owner?_eq (h : g.Home c w) (living : g.isLive w = true)
    (owner : g.recordedOwner? c = some o) : g.owner? c = some o ∧ g.Home o w := by
  cases h with
  | world isWorld =>
    rw [recordedOwner?_of_isWorld isWorld] at owner
    cases owner
  | owned owner' older home =>
    obtain rfl := Option.some.inj (owner'.symm.trans owner)
    refine ⟨owner?_eq_some.mpr ⟨owner, older, fun world => ?_⟩, home⟩
    exact home.eq_of_isWorld world ▸ living

theorem root_eq (h : g.Home c w) (living : g.isLive w = true) : g.root c = w := by
  induction h with
  | world isWorld => exact root_of_none (owner?_of_isWorld isWorld)
  | owned owner older home ih =>
    rw [root_of_some ((Home.owned owner older home).owner?_eq living owner).1]
    exact ih living

end Home

/-- The context is alive, or a World, which not all links keep. -/
def Firm (g : Graph) (c : CtxId) : Prop := g.isLive c = true ∨ g.isWorld c = true

end Graph

namespace Store

theorem Extends.isWorld_eq (grown : s.Extends t) (hc : c < s.graph.size) :
    t.graph.isWorld c = s.graph.isWorld c := by
  rw [Graph.isWorld_eq, Graph.isWorld_eq, grown.skeletons c hc]

theorem Extends.recordedOwner?_eq (grown : s.Extends t) (hc : c < s.graph.size) :
    t.graph.recordedOwner? c = s.graph.recordedOwner? c := by
  rw [Graph.recordedOwner?, Graph.recordedOwner?, Graph.bind_owner?_eq, Graph.bind_owner?_eq,
    grown.skeletons c hc]

/-- Contexts and cells stay, and so do skeletons and imports. -/
structure Widens (s t : Store) : Prop extends Extends s t where
  imports : ∀ v w, s.graph.Imports v w → t.graph.Imports v w

theorem Widens.refl (s : Store) : s.Widens s := ⟨.refl s, fun _ _ => id⟩

theorem Widens.trans (h : s.Widens t) (h' : t.Widens u) : s.Widens u :=
  ⟨h.toExtends.trans h'.toExtends, fun v w hv => h'.imports v w (h.imports v w hv)⟩

end Store

theorem Graph.Home.extends (h : s.graph.Home c w) (grown : s.Extends t) : t.graph.Home c w := by
  induction h with
  | world isWorld => exact .world ((grown.isWorld_eq (Graph.lt_of_isWorld isWorld)).trans isWorld)
  | owned owner older home ih =>
    obtain ⟨kind, hk, -⟩ := Option.bind_eq_some_iff.mp owner
    exact .owned ((grown.recordedOwner?_eq (Graph.lt_of_kind? hk)).trans owner) older ih

theorem Graph.Knows.widens (h : s.graph.Knows v w) (grown : s.Widens t) : t.graph.Knows v w :=
  Relation.ReflTransGen.mono grown.imports _ _ h

theorem Graph.Firm.extends (h : s.graph.Firm c) (grown : s.Extends t)
    (living : s.graph.isLive c = true → t.graph.isLive c = true) : t.graph.Firm c :=
  h.imp living fun world => (grown.isWorld_eq (Graph.lt_of_isWorld world)).trans world

mutual

/-- A value holds what it names, unless that is a World. -/
theorem Value.mem_holds {g : Graph} (inner : g.isWorld c = false) :
    ∀ v : Value, c ∈ v.contexts → c ∈ v.holds g
  | .list items, h | .tuple items, h => mem_holdsItems inner items h
  | .dict (.ofKind _ entries), h => mem_holdsEntries inner entries h
  | .some v, h => Value.mem_holds inner v h
  | .closure cl, h => by
    obtain rfl := List.mem_singleton.mp h
    rw [Value.holds, inner]
    exact List.mem_singleton_self _
  | .object _, h | .module _, h => h

theorem mem_holdsItems {g : Graph} (inner : g.isWorld c = false) :
    ∀ items : List Value, c ∈ contextsOfItems items → c ∈ holdsItems g items
  | v :: rest, h => List.mem_append.mpr ((List.mem_append.mp h).imp (Value.mem_holds inner v)
      (mem_holdsItems inner rest))

theorem mem_holdsEntries {g : Graph} (inner : g.isWorld c = false) :
    ∀ entries : List (Key × Value), c ∈ contextsOfEntries entries → c ∈ holdsEntries g entries
  | (_, v) :: rest, h => List.mem_append.mpr ((List.mem_append.mp h).imp (Value.mem_holds inner v)
      (mem_holdsEntries inner rest))

end

theorem ContextKind.mem_holds_of_owner {g : Graph} (owner : kind.owner? = some o)
    (inner : g.isWorld o = false) : o ∈ kind.holds g := by
  have held : o ∈ if g.isWorld o then [] else [o] := by
    rw [inner]
    exact List.mem_singleton_self o
  cases kind with
  | world => cases owner
  | call | object | closure =>
    cases owner
    exact held

theorem ContextKind.mem_holds_of_imports {g : Graph} {e : String × CtxId} (h : e ∈ kind.imports) :
    e.2 ∈ kind.holds g := by
  cases kind with
  | world module classes imports => exact List.mem_map_of_mem h
  | _ => cases h

namespace Store

/-- What a context leads to it holds, unless that is a World, or the context itself. -/
theorem within_heldBy (belongs : s.Belongs) (hctx : s.graph.context? c = some ctx) :
    ctx.Within (fun d => s.graph.isWorld d = true ∨ d = c ∨ d ∈ s.heldBy c) fun i =>
      (s.cell i).value.Within fun d =>
        s.graph.isWorld d = true ∨ d = c ∨ d ∈ s.heldBy c := by
  have inner (d : CtxId) (held : s.graph.isWorld d = false → d ∈ s.heldBy c) :
      s.graph.isWorld d = true ∨ d = c ∨ d ∈ s.heldBy c := by
    cases hd : s.graph.isWorld d with
    | true => exact .inl rfl
    | false => exact .inr (.inr (held hd))
  have named {i : CellId} (hi : i ∈ ctx.cells) : (s.cell i).value.Within fun d =>
      s.graph.isWorld d = true ∨ d = c ∨ d ∈ s.heldBy c := fun d hd =>
    inner d fun hw => mem_heldBy.mpr ⟨ctx, hctx, .inr ⟨i, hi, Value.mem_holds hw _ hd⟩⟩
  constructor
  · exact fun o ho => inner o fun hw =>
      mem_heldBy.mpr ⟨ctx, hctx, .inl (ContextKind.mem_holds_of_owner ho hw)⟩
  · exact fun e he => inner e.2 fun _ =>
      mem_heldBy.mpr ⟨ctx, hctx, .inl (ContextKind.mem_holds_of_imports he)⟩
  · intro arguments ha e he
    refine named ?_
    obtain ⟨kind, vars, funcs, live⟩ := ctx
    cases kind with
    | object owner decl given bound members =>
      cases ha
      exact List.mem_append_right _ (List.mem_map_of_mem he)
    | _ => cases ha
  · intro frame hf e he
    have bound : e.2 ∈ ctx.vars.frames.flatMap (·.map Prod.snd) :=
      List.mem_flatMap.mpr ⟨frame, hf, List.mem_map_of_mem he⟩
    refine named ?_
    rw [Context.cells]
    split
    · exact List.mem_append_left _ bound
    · exact bound
  · exact fun frame hf e he => .inr (.inl (belongs c ctx hctx frame hf e he))

/-- What a living context leads to is alive or a World, and what it has imported is alive. -/
structure Sound (s : Store) : Prop where
  links : ∀ c ctx, s.graph.context? c = some ctx → ctx.live = true →
    ctx.Within s.graph.Firm fun i => (s.cell i).value.Within s.graph.Firm
  imports : ∀ v w, s.graph.isLive v = true → s.graph.Imports v w → s.graph.isLive w = true

theorem Sound.empty : Store.empty.Sound where
  links _ _ h := by cases h
  imports _ _ h := by cases h

/-- A release leaves a sound store. -/
theorem Sound.release (sound : s.Sound) (belongs : s.Belongs) (holds : List Hold) :
    (s.release holds).Sound where
  links c ctx hctx living := by
    have lives : (s.release holds).graph.isLive c = true := by
      rw [Graph.isLive, hctx]
      exact living
    obtain ⟨live, same⟩ := context?_release s holds c
    rw [same] at hctx
    obtain ⟨old, hold, rfl⟩ := Option.map_eq_some_iff.mp hctx
    have was : old.live = true := by
      have was := isLive_of_release lives
      rw [Graph.isLive, hold] at was
      exact was
    have firm (d : CtxId) (h : s.graph.Firm d ∧
        (s.graph.isWorld d = true ∨ d = c ∨ d ∈ s.heldBy c)) : (s.release holds).graph.Firm d := by
      obtain ⟨firm, world | rfl | held⟩ := h
      · exact .inr ((isWorld_release s holds).symm ▸ world)
      · exact .inl lives
      · exact firm.extends (.release s holds) (isLive_release_of_heldBy lives held)
    have within := ((sound.links c old hold was).and (within_heldBy belongs hold)).mono firm
      fun i hi => show ((s.release holds).cell i).value.Within _ from
        fun d hd => firm d ⟨hi.1 d hd, hi.2 d hd⟩
    exact ⟨within.owner, within.imports, within.arguments, within.vars, within.funcs⟩
  imports v w living imported := by
    obtain ⟨kind, hk, e, he, rfl⟩ := imported
    rw [kind?_release] at hk
    obtain ⟨ctx, hctx, rfl⟩ := Option.map_eq_some_iff.mp hk
    refine isLive_release_of_heldBy living ?_
      (sound.imports v e.2 (isLive_of_release living) ⟨ctx.kind, hk, e, he, rfl⟩)
    exact mem_heldBy.mpr ⟨ctx, hctx, .inl (ContextKind.mem_holds_of_imports he)⟩

/-- A sound store that has been built up: nothing is let go, and no cell comes to name what is not
firm. -/
structure Builds (s t : Store) : Prop extends Widens s t where
  living : ∀ c, s.graph.isLive c = true → t.graph.isLive c = true
  values : ∀ i, (s.cell i).value.Within s.graph.Firm → (t.cell i).value.Within t.graph.Firm
  sound : t.Sound
  belongs : t.Belongs

end Store

/-- A change of one context that lets nothing go and leads nowhere new, but to what is imported and
to the cells that are bound. -/
structure Context.Gentle (c : CtxId) (imported : List CtxId) (bound : List CellId)
    (f : Context → Context) : Prop where
  skeleton : ∀ ctx, (f ctx).kind.skeleton = ctx.kind.skeleton
  live : ∀ ctx, (f ctx).live = ctx.live
  imports : ∀ ctx, ctx.kind.imports ⊆ (f ctx).kind.imports
  gained : ∀ ctx, ∀ e ∈ (f ctx).kind.imports, e ∈ ctx.kind.imports ∨ e.2 ∈ imported
  own : ∀ ctx, (∀ frame ∈ ctx.funcs.frames, ∀ e ∈ frame, e.2.owner = c) →
    ∀ frame ∈ (f ctx).funcs.frames, ∀ e ∈ frame, e.2.owner = c
  within : ∀ (P : CtxId → Prop) (Q : CellId → Prop), P c → (∀ d ∈ imported, P d) →
    (∀ i ∈ bound, Q i) → ∀ ctx, ctx.Within P Q → (f ctx).Within P Q

namespace Context

variable {f : Context → Context} {name : String} {bound : List CellId}

theorem gentle_of_mild (mild : Mild f) (live : ∀ ctx, (f ctx).live = ctx.live)
    (within : ∀ (P : CtxId → Prop) (Q : CellId → Prop), (∀ i ∈ bound, Q i) →
      ∀ ctx, ctx.Within P Q → (f ctx).Within P Q) : Gentle c [] bound f where
  skeleton := mild.skeleton
  live := live
  imports ctx := by rw [mild.imports]; exact List.Subset.refl _
  gained ctx e he := .inl (mild.imports ctx ▸ he)
  own ctx := mild.funcs ctx fun e => e.2.owner = c
  within P Q _ _ hb := within P Q hb

/-- A harmless change of the kind. -/
theorem gentle_of_harmless (mild : Mild f) (live : ∀ ctx, (f ctx).live = ctx.live)
    (harmless : ∀ P Q, Harmless P Q f) : Gentle c [] [] f :=
  gentle_of_mild mild live fun P Q _ => (harmless P Q).within

theorem gentle_push : Gentle c [] [] fun ctx =>
    { ctx with vars := ctx.vars.push, funcs := ctx.funcs.push } :=
  gentle_of_harmless mild_push (fun _ => rfl) fun _ _ => harmless_push

theorem gentle_pop : Gentle c [] [] fun ctx =>
    { ctx with vars := ctx.vars.pop, funcs := ctx.funcs.pop } :=
  gentle_of_harmless mild_pop (fun _ => rfl) fun _ _ => harmless_pop

theorem gentle_recordMember (name : String) : Gentle c [] [] fun ctx =>
    { ctx with kind := Declaration.recordMember name ctx.kind } :=
  gentle_of_harmless (mild_recordMember name) (fun _ => rfl) fun _ _ => harmless_recordMember name

theorem gentle_addClass (decl : ClassDecl) : Gentle c [] [] fun ctx =>
    { ctx with kind := Declaration.addClass decl ctx.kind } :=
  gentle_of_harmless (mild_addClass decl) (fun _ => rfl) fun _ _ => harmless_addClass decl

theorem gentle_setModuleName (name : String) : Gentle c [] [] fun ctx =>
    { ctx with kind := Graph.setModuleName name ctx.kind } :=
  gentle_of_harmless (mild_setModuleName name) (fun _ => rfl) fun _ _ => harmless_setModuleName name

theorem gentle_dropArguments : Gentle c [] [] fun ctx =>
    { ctx with kind := Graph.dropArguments ctx.kind } :=
  gentle_of_harmless mild_dropArguments (fun _ => rfl) fun _ _ => harmless_dropArguments

theorem gentle_bindVar (name : String) (i : CellId) : Gentle c [] [i] fun ctx => { ctx with
    kind := Declaration.recordMember name ctx.kind, vars := ctx.vars.bind name i } :=
  gentle_of_mild (mild_bindVar name i) (fun _ => rfl) fun _ _ hi _ within =>
    within.bindVar name (hi i List.mem_cons_self)

theorem gentle_addArgument (name : String) (i : CellId) : Gentle c [] [i] fun ctx =>
    { ctx with kind := Declaration.addArgument name i ctx.kind } :=
  gentle_of_mild (mild_addArgument name i) (fun _ => rfl) fun _ _ hi _ within =>
    within.addArgument name (hi i List.mem_cons_self)

theorem gentle_bindFunc (decl : FuncDecl) : Gentle c [] [] fun ctx =>
    { ctx with funcs := ctx.funcs.bind decl.name ⟨decl, c⟩ } where
  skeleton _ := rfl
  live _ := rfl
  imports _ := List.Subset.refl _
  gained _ _ := .inl
  own _ own := forall_frames_bind own rfl
  within _ _ hc _ _ _ within := ⟨within.owner, within.imports, within.arguments, within.vars,
    forall_frames_bind within.funcs hc⟩

theorem gentle_addModule (name : String) (w : CtxId) : Gentle c [w] [] fun ctx =>
    { ctx with kind := Declaration.addModule name w ctx.kind } where
  skeleton ctx := Declaration.skeleton_addModule name w ctx.kind
  live _ := rfl
  imports ctx := by
    cases ctx.kind with
    | world module classes imports => exact List.subset_cons_self _ _
    | _ => exact List.Subset.refl _
  gained ctx := by
    cases ctx.kind with
    | world module classes imports =>
      exact List.forall_mem_cons.mpr ⟨.inr List.mem_cons_self, fun _ => .inl⟩
    | _ => exact fun _ => .inl
  own _ := id
  within _ _ _ hw _ ctx := (harmless_addModule name (hw w List.mem_cons_self)).within ctx

end Context

namespace Store

variable {f : Context → Context} {imported : List CtxId} {bound : List CellId}

theorem widens_of_graph (same : t.graph = s.graph) (cells : s.cells.size ≤ t.cells.size) :
    s.Widens t :=
  ⟨.ofCells same cells, fun _ _ h => same ▸ h⟩

theorem imports_update (gentle : Context.Gentle c imported bound f) :
    (s.graph.Imports v w → (s.graph.update c f).Imports v w) ∧
      ((s.graph.update c f).Imports v w → s.graph.Imports v w ∨ v = c ∧ w ∈ imported) := by
  constructor
  · rintro ⟨kind, hk, e, he, rfl⟩
    obtain ⟨ctx, hctx, rfl⟩ := Option.map_eq_some_iff.mp hk
    by_cases same : c = v
    · refine ⟨(f ctx).kind, ?_, e, gentle.imports ctx he, rfl⟩
      rw [Graph.kind?, Graph.context?_update, if_pos same, hctx]
      rfl
    · refine ⟨ctx.kind, ?_, e, he, rfl⟩
      rw [Graph.kind?, Graph.context?_update, if_neg same, hctx]
      rfl
  · rintro ⟨kind, hk, e, he, rfl⟩
    rw [Graph.kind?, Graph.context?_update] at hk
    split at hk
    · rename_i same
      obtain ⟨_, updated, rfl⟩ := Option.map_eq_some_iff.mp hk
      obtain ⟨ctx, hctx, rfl⟩ := Option.map_eq_some_iff.mp updated
      rcases gentle.gained ctx e he with old | new
      · exact .inl ⟨ctx.kind, Option.map_eq_some_iff.mpr ⟨ctx, hctx, rfl⟩, e, old, rfl⟩
      · exact .inr ⟨same.symm, new⟩
    · exact .inl ⟨kind, hk, e, he, rfl⟩

theorem widens_update (gentle : Context.Gentle c imported bound f) :
    s.Widens (s.modifyGraph (·.update c f)) :=
  ⟨.update s c f gentle.skeleton, fun _ _ => (imports_update gentle).1⟩

/-- A World that a module is made known in imports it. -/
theorem imports_addModule (world : s.graph.isWorld v = true) (name : String) (w : CtxId) :
    (s.graph.update v fun ctx =>
      { ctx with kind := Declaration.addModule name w ctx.kind }).Imports v w := by
  obtain ⟨kind, hk, world⟩ := (Option.any_eq_true ..).mp world
  obtain ⟨ctx, hctx, rfl⟩ := Option.map_eq_some_iff.mp hk
  refine ⟨Declaration.addModule name w ctx.kind, ?_, (name, w), ?_, rfl⟩
  · rw [Graph.kind?, Graph.context?_update, if_pos rfl, hctx]
    rfl
  · cases hk : ctx.kind with
    | world module classes imports => exact List.mem_cons_self
    | _ =>
      rw [hk] at world
      cases world

namespace Builds

/-- A gentle change of one context. -/
theorem update (sound : s.Sound) (belongs : s.Belongs) (gentle : Context.Gentle c imported bound f)
    (known : ∀ w ∈ imported, s.graph.isLive w = true)
    (firm : ∀ i ∈ bound, (s.cell i).value.Within s.graph.Firm) :
    s.Builds (s.modifyGraph (·.update c f)) := by
  have grown := (widens_update (s := s) gentle).toExtends
  have living (d : CtxId) :
      (s.modifyGraph (·.update c f)).graph.isLive d = s.graph.isLive d :=
    Graph.isLive_update f gentle.live
  have still (d : CtxId) (h : s.graph.Firm d) : (s.modifyGraph (·.update c f)).graph.Firm d :=
    h.extends grown fun h => (living d).trans h
  refine ⟨widens_update gentle, fun d h => (living d).trans h,
    fun i h => h.mono still, ⟨fun d ctx hctx alive => ?_, fun v w alive h => ?_⟩,
    belongs.update c gentle.own⟩
  · refine Context.Within.mono (P := s.graph.Firm)
      (Q := fun i => (s.cell i).value.Within s.graph.Firm) ?_ still fun i h => h.mono still
    change (s.graph.update c f).context? d = some ctx at hctx
    rw [Graph.context?_update] at hctx
    split at hctx
    · rename_i same
      subst same
      obtain ⟨old, hold, rfl⟩ := Option.map_eq_some_iff.mp hctx
      rw [gentle.live] at alive
      have lives : s.graph.isLive c = true := by
        rw [Graph.isLive, hold]
        exact alive
      exact gentle.within _ _ (.inl lives) (fun w hw => .inl (known w hw)) firm old
        (sound.links c old hold alive)
    · exact sound.links d ctx hctx alive
  · rw [living] at alive ⊢
    rcases (imports_update gentle).2 h with old | ⟨-, new⟩
    · exact sound.imports v w alive old
    · exact known w new

theorem addContext (sound : s.Sound) (belongs : s.Belongs)
    (owner : ∀ o, kind.owner? = some o → s.graph.Firm o)
    (bare : kind.imports = [] ∧ kind.arguments?.getD [] = []) :
    s.Builds (s.addContext kind).2 := by
  have grown : s.Extends (s.addContext kind).2 := .addContext s kind
  have old {d : CtxId} (hd : d < s.graph.size) :
      (s.addContext kind).2.graph.context? d = s.graph.context? d := Graph.context?_add_of_lt kind hd
  have living (d : CtxId) (h : s.graph.isLive d = true) :
      (s.addContext kind).2.graph.isLive d = true := by
    rw [Graph.isLive, old (Graph.lt_of_isLive h)]
    exact h
  have still (d : CtxId) (h : s.graph.Firm d) : (s.addContext kind).2.graph.Firm d :=
    h.extends grown (living d)
  have imports {v w : CtxId} (h : (s.addContext kind).2.graph.Imports v w) :
      v < s.graph.size ∧ s.graph.Imports v w := by
    obtain ⟨kind', hk, e, he, rfl⟩ := h
    change (s.graph.add kind).2.kind? v = some kind' at hk
    rw [Graph.kind?_add] at hk
    split at hk
    · cases hk
      rw [bare.1] at he
      cases he
    · exact ⟨Graph.lt_of_kind? hk, kind', hk, e, he, rfl⟩
  refine ⟨⟨grown, fun v w => ?_⟩, living, fun i h => h.mono still,
    ⟨fun d ctx hctx alive => ?_, fun v w alive h => ?_⟩, belongs.addContext kind⟩
  · rintro ⟨kind', hk, e, he, rfl⟩
    refine ⟨kind', ?_, e, he, rfl⟩
    rw [Graph.kind?, old (Graph.lt_of_kind? hk)]
    exact hk
  · change (s.graph.add kind).2.context? d = some ctx at hctx
    rw [Graph.context?_add] at hctx
    split at hctx
    · cases hctx
      exact Context.within_fresh (fun o ho => still o (owner o ho)) bare.1 bare.2
    · exact (sound.links d ctx hctx alive).mono still fun i h => h.mono still
  · obtain ⟨there, old'⟩ := imports h
    refine living w (sound.imports v w ?_ old')
    rwa [Graph.isLive, old there] at alive

theorem addWorld (sound : s.Sound) (belongs : s.Belongs) :
    s.Builds (s.addContext .emptyWorld).2 :=
  .addContext sound belongs (by rintro _ ⟨⟩) ⟨rfl, rfl⟩

/-- A change of the cells. -/
theorem ofCells (sound : s.Sound) (belongs : s.Belongs) (same : t.graph = s.graph)
    (cells : s.cells.size ≤ t.cells.size)
    (values : ∀ i, (s.cell i).value.Within s.graph.Firm → (t.cell i).value.Within s.graph.Firm) :
    s.Builds t := by
  obtain ⟨graph, cells', next⟩ := t
  obtain rfl := same
  refine ⟨widens_of_graph rfl cells, fun _ => id, values, ⟨fun c ctx hctx alive => ?_, sound.imports⟩,
    belongs⟩
  exact (sound.links c ctx hctx alive).mono (fun _ => id) values

theorem addCell (sound : s.Sound) (belongs : s.Belongs) {cell : Cell}
    (firm : cell.value.Within s.graph.Firm) : s.Builds (s.addCell cell).2 :=
  .ofCells sound belongs rfl (by simp [Store.addCell]) fun i h =>
    forall_values_addCell (Q := (· = i)) (fun _ he => he ▸ h) firm i rfl

theorem setValue (sound : s.Sound) (belongs : s.Belongs) (i : CellId) {value : Value}
    (firm : value.Within s.graph.Firm) : s.Builds (s.setValue i value) :=
  .ofCells sound belongs rfl (by simp [Store.setValue]) fun j h =>
    forall_values_setValue (Q := (· = j)) (fun _ he => he ▸ h) firm j rfl

theorem makeClosure (sound : s.Sound) (belongs : s.Belongs) :
    s.Builds { s with nextClosure := s.nextClosure + 1 } :=
  .ofCells sound belongs rfl (Nat.le_refl _) fun _ h => h

end Builds

theorem widens_release (s : Store) (holds : List Hold) : s.Widens (s.release holds) := by
  refine ⟨.release s holds, fun v w => ?_⟩
  rintro ⟨kind, hk, rest⟩
  exact ⟨kind, (kind?_release s holds v).trans hk, rest⟩

end Store

end TreeScript
