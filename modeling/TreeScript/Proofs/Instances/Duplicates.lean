import TreeScript.Proofs.Instances.Additions

/-!
# Copying as building duplicates

A copy is put together from the inside out. While an instance is being built, all that is new apart
from it is finished, and it has a twin of each member that has been copied so far. So whatever
unfolds is copied to the end, to a duplicate.
-/
namespace TreeScript.Store

variable {s t u u' : Store} {o c owner : CtxId} {i : CellId} {decl : ClassDecl} {name : String}
  {cell : Cell} {value v v' : Value} {depth : Nat} {done : List String}

theorem cell?_addCell (cell : Cell) (i : CellId) :
    (s.addCell cell).2.cell? i = if i = s.cells.size then some cell else s.cell? i :=
  Array.getElem?_push

/-- The stores differ in one context at most, and in cells that have been added. -/
structure Alters (o : CtxId) (s t : Store) : Prop where
  size : t.graph.size = s.graph.size
  contexts : ∀ c, c ≠ o → t.graph.context? c = s.graph.context? c
  skeleton : t.graph.skeleton? o = s.graph.skeleton? o
  room : s.cells.size ≤ t.cells.size
  cells : ∀ i < s.cells.size, t.cell? i = s.cell? i
  closures : t.nextClosure = s.nextClosure

namespace Alters

theorem refl (o : CtxId) (s : Store) : s.Alters o s :=
  ⟨rfl, fun _ _ => rfl, rfl, Nat.le_refl _, fun _ _ => rfl, rfl⟩

theorem trans (h : s.Alters o t) (h' : t.Alters o u) : s.Alters o u where
  size := h'.size.trans h.size
  contexts c hc := (h'.contexts c hc).trans (h.contexts c hc)
  skeleton := h'.skeleton.trans h.skeleton
  room := Nat.le_trans h.room h'.room
  cells i hi := (h'.cells i (Nat.lt_of_lt_of_le hi h.room)).trans (h.cells i hi)
  closures := h'.closures.trans h.closures

theorem update (s : Store) (o : CtxId) (f : Context → Context)
    (hf : ∀ ctx, (f ctx).kind.skeleton = ctx.kind.skeleton) :
    s.Alters o (s.modifyGraph (·.update o f)) where
  size := Graph.size_update f
  contexts _ hc := (Graph.context?_update ..).trans (if_neg (Ne.symm hc))
  skeleton := Graph.skeleton?_update f hf
  room := Nat.le_refl _
  cells _ _ := rfl
  closures := rfl

theorem addCell (s : Store) (o : CtxId) (cell : Cell) : s.Alters o (s.addCell cell).2 where
  size := rfl
  contexts _ _ := rfl
  skeleton := rfl
  room := (Extends.addCell s cell).cells
  cells i hi := (cell?_addCell cell i).trans (if_neg (Nat.ne_of_lt hi))
  closures := rfl

theorem bindNew (s : Store) (o : CtxId) (cell : Cell) : s.Alters o (s.bindNew o cell) :=
  (addCell s o cell).trans (update _ o _ fun ctx => by exact Declaration.skeleton_recordMember ..)

theorem grows (h : s.Alters o t) : s.Extends t where
  contexts := h.size.ge
  cells := h.room
  skeletons c _ := by
    by_cases hc : c = o
    · rw [hc, h.skeleton]
    · rw [Graph.skeleton?, Graph.skeleton?, Graph.kind?, Graph.kind?, h.contexts c hc]

end Alters

theorem localVar?_bindNew {ctx : Context} (hctx : s.graph.context? c = some ctx) (cell : Cell)
    (name : String) : (s.bindNew c cell).graph.localVar? c name =
      if name = cell.name then some s.cells.size else s.graph.localVar? c name := by
  rw [Graph.localVar?, show (s.bindNew c cell).graph.context? c = _ from Graph.context?_update ..,
    if_pos rfl, Graph.localVar?, show (s.addCell cell).2.graph.context? c = some ctx from hctx,
    hctx]
  split
  · rename_i same
    rw [same]
    exact ScopeStack.get?_bind_self ..
  · rename_i other
    exact ScopeStack.get?_bind_of_ne _ _ other

theorem cell?_of_ge (h : s.cells.size ≤ i) : s.cell? i = none := Array.getElem?_eq_none h

section Methods

variable {method : FuncDecl} {rest : List FuncDecl}

theorem declareMethods_of_free
    (free : (Declaration.ofFunc o ⟨method, o⟩).obstacle? s.graph = none) :
    s.declareMethods o (method :: rest) =
      (s.modifyGraph (Declaration.ofFunc o ⟨method, o⟩).apply).declareMethods o rest := by
  simp only [declareMethods, declare, Declaration.run, free]
  rfl

theorem declareMethods_of_obstacle {fault : Fault}
    (obstacle : (Declaration.ofFunc o ⟨method, o⟩).obstacle? s.graph = some fault) :
    s.declareMethods o (method :: rest) = s.declareMethods o rest := by
  simp only [declareMethods, declare, Declaration.run, obstacle]

end Methods

/-- What the declaration of a method keeps, the declaration of methods keeps. -/
theorem declareMethods_induction {P : Store → Prop}
    (step : ∀ s method, P s → P (s.modifyGraph (Declaration.ofFunc o ⟨method, o⟩).apply)) :
    ∀ methods s, P s → P (s.declareMethods o methods)
  | [], _, h => h
  | method :: rest, s, h => by
    cases obstacle : (Declaration.ofFunc o ⟨method, o⟩).obstacle? s.graph with
    | none =>
      rw [declareMethods_of_free obstacle]
      exact declareMethods_induction step rest _ (step s method h)
    | some fault =>
      rw [declareMethods_of_obstacle obstacle]
      exact declareMethods_induction step rest s h

theorem alters_declareMethods (methods : List FuncDecl) (s : Store) :
    s.Alters o (s.declareMethods o methods) :=
  declareMethods_induction (P := s.Alters o)
    (fun t _ h => h.trans (.update t o _ fun _ => by exact rfl)) methods s (.refl o s)

theorem cells_declareMethods (methods : List FuncDecl) (s : Store) :
    (s.declareMethods o methods).cells = s.cells :=
  declareMethods_induction (P := fun t => t.cells = s.cells) (fun _ _ h => h) methods s rfl

/-- Methods come after the functions that are declared already, and of two with one name the first
counts. -/
theorem context?_declareMethods : ∀ (methods : List FuncDecl) (s : Store) (ctx : Context),
    s.graph.context? o = some ctx → ctx.funcs.below = [] →
    ∃ funcs, (s.declareMethods o methods).graph.context? o = some { ctx with funcs } ∧
      ∀ name, funcs.get? name =
        (ctx.funcs.get? name).or ((methods.find? (·.name == name)).map (⟨·, o⟩))
  | [], s, ctx, hctx, _ => ⟨ctx.funcs, hctx, fun name => by simp⟩
  | method :: rest, s, ctx, hctx, base => by
    have lookup (name : String) : ctx.funcs.get? name = ctx.funcs.top.lookup name := by
      rw [ScopeStack.get?, ScopeStack.frames, base, List.findSome?_singleton]
    have scopes : s.graph.scopes? o = some ctx.scopes := congrArg (Option.map _) hctx
    cases h : (Declaration.ofFunc o ⟨method, o⟩).obstacle? s.graph with
    | none =>
      have unbound : ctx.funcs.bindsOnTop method.name = false :=
        Graph.ofFunc_free_iff.mp h _ scopes
      have declared : ((Declaration.ofFunc o ⟨method, o⟩).apply s.graph).context? o =
          some { ctx with funcs := ctx.funcs.bind method.name ⟨method, o⟩ } := by
        refine (Graph.context?_update ..).trans ?_
        rw [if_pos rfl, hctx]
        rfl
      obtain ⟨funcs, context, get⟩ := context?_declareMethods rest
        (s.modifyGraph (Declaration.ofFunc o ⟨method, o⟩).apply) _ declared base
      rw [declareMethods_of_free h]
      refine ⟨funcs, context, fun name => ?_⟩
      rw [get, List.find?_cons]
      cases same : method.name == name with
      | false => rw [ScopeStack.get?_bind_of_ne _ _ (ne_of_beq_false same).symm]
      | true =>
        obtain rfl := eq_of_beq same
        have free : ctx.funcs.top.lookup method.name = none :=
          Option.isNone_iff_eq_none.mp (Option.isSome_eq_false_iff.mp unbound)
        rw [ScopeStack.get?_bind_self, lookup, free]
        rfl
    | some fault =>
      obtain ⟨funcs, context, get⟩ := context?_declareMethods rest s ctx hctx base
      rw [declareMethods_of_obstacle h]
      refine ⟨funcs, context, fun name => ?_⟩
      rw [get, List.find?_cons]
      cases same : method.name == name with
      | false => rfl
      | true =>
        obtain rfl := eq_of_beq same
        have bound : ctx.funcs.bindsOnTop method.name = true := by
          obtain ⟨bound, -⟩ := Option.ite_none_right_eq_some.mp h
          rwa [hctx] at bound
        obtain ⟨f, hf⟩ := Option.isSome_iff_exists.mp bound
        rw [lookup, hf]
        rfl

/-- The store in which an instance comes next after what there is. -/
abbrev withInstance (s : Store) (owner : CtxId) (decl : ClassDecl) : Store :=
  (s.addContext (.object owner decl [] [] [])).2

/-- Apart from an instance that is being built, all that has come about since is built. -/
structure Building (s : Store) (owner : CtxId) (decl : ClassDecl) (u : Store) : Prop
    extends Adds s u where
  whole : u.Whole
  grown : (s.withInstance owner decl).Extends u
  additions : Additions (s.withInstance owner decl) u
  own : ∀ name i, u.graph.localVar? s.graph.size name = some i → s.NewCell u i
  closures : u.nextClosure = s.nextClosure

theorem unfold_withInstance (whole : s.Whole) (hv : ∀ c, v.HasInstance c → c < s.graph.size)
    (depth : Nat) : (s.withInstance owner decl).unfold depth v = s.unfold depth v :=
  (Adds.addContext s _).unfold_eq whole hv depth

theorem localVar?_withInstance (name : String) :
    (s.withInstance owner decl).graph.localVar? s.graph.size name = none := by
  rw [Graph.localVar?, show (s.withInstance owner decl).graph.context? s.graph.size = _
    from Graph.context?_add_self _]
  rfl

theorem ne_of_newCtx (h : (s.withInstance owner decl).NewCtx u c) : c ≠ s.graph.size := by
  rintro rfl
  have object : (s.withInstance owner decl).graph.isObject s.graph.size = true :=
    Graph.isObject_add_self _
  rw [h.1] at object
  cases object

namespace Building

theorem begin (whole : s.Whole) (owner : CtxId) (decl : ClassDecl) :
    Building s owner decl (s.withInstance owner decl) := by
  refine ⟨.addContext s _, ⟨fun c name i hc hi => ?_, fun i cell hi hcell d has => ?_⟩,
    .refl _, .refl _, fun name i found => ?_, rfl⟩
  · rcases Nat.lt_or_ge c s.graph.size with lt | ge
    · have same : (s.withInstance owner decl).graph.context? c = s.graph.context? c :=
        Graph.context?_add_of_lt _ lt
      rw [Graph.member?_of_context? same] at hi
      exact whole.cells c name i lt hi
    · have hc : c < s.graph.size + 1 := Graph.size_add (g := s.graph) _ ▸ hc
      obtain rfl : c = s.graph.size := Nat.le_antisymm (Nat.le_of_lt_succ hc) ge
      cases (localVar?_withInstance name).symm.trans (Graph.localVar?_of_member? hi)
  · exact Nat.lt_of_lt_of_le (whole.instances i cell hi hcell d has)
      (Adds.addContext s (.object owner decl [] [] [])).size
  · cases (localVar?_withInstance name).symm.trans found

theorem lt (w : Building s owner decl u) : s.graph.size < u.graph.size := by
  refine Nat.lt_of_lt_of_le ?_ w.grown.contexts
  rw [withInstance, addContext, Graph.size_add]
  exact Nat.lt_succ_self _

theorem localVar?_added (w : Building s owner decl u) (next : u.AddsInstances t) (name : String) :
    t.graph.localVar? s.graph.size name = u.graph.localVar? s.graph.size name := by
  rw [Graph.localVar?, next.agree.contexts _ w.lt]
  rfl

/-- Other instances are added. -/
theorem added (w : Building s owner decl u) (next : u.AddsInstances t) :
    Building s owner decl t where
  toAdds := w.toAdds.trans next.toAdds
  whole := w.whole.after next
  grown := w.grown.trans next.grows
  additions := w.additions.trans w.grown next
  own name i found :=
    (w.own name i ((w.localVar?_added next name).symm.trans found)).later next.room
  closures := next.closures.trans w.closures

/-- The instance itself is worked on. -/
theorem altered (w : Building s owner decl u) (alters : u.Alters s.graph.size t)
    (new : ∀ i cell, u.cells.size ≤ i → t.cell? i = some cell → ∀ c, cell.value.HasInstance c →
      (s.withInstance owner decl).NewCtx u c)
    (own : ∀ name i, t.graph.localVar? s.graph.size name = some i → s.NewCell t i) :
    Building s owner decl t where
  size := alters.size ▸ w.size
  room := Nat.le_trans w.room alters.room
  agree.contexts c hc := (alters.contexts c (Nat.ne_of_lt hc)).trans (w.agree.contexts c hc)
  agree.cells i hi := (alters.cells i (Nat.lt_of_lt_of_le hi w.room)).trans (w.agree.cells i hi)
  whole.cells c name i hc hi := by
    by_cases target : c = s.graph.size
    · exact (own name i (Graph.localVar?_of_member? (target ▸ hi))).2
    · rw [Graph.member?_of_context? (alters.contexts c target)] at hi
      exact Nat.lt_of_lt_of_le (w.whole.cells c name i (alters.size ▸ hc) hi) alters.room
  whole.instances i cell hi hcell d has := by
    rw [alters.size]
    rcases Nat.lt_or_ge i u.cells.size with lt | ge
    · exact w.whole.instances i cell lt (alters.cells i lt ▸ hcell) d has
    · exact (new i cell ge hcell d has).2
  grown := w.grown.trans alters.grows
  additions.sound.cells c name i hc hi := by
    rw [Graph.member?_of_context? (alters.contexts c (ne_of_newCtx hc))] at hi
    exact (w.additions.sound.cells c name i ⟨hc.1, alters.size ▸ hc.2⟩ hi).later alters.room
  additions.sound.instances i cell hi hcell d has := by
    refine NewCtx.later ?_ alters.size.ge
    rcases Nat.lt_or_ge i u.cells.size with lt | ge
    · exact w.additions.sound.instances i cell ⟨hi.1, lt⟩ (alters.cells i lt ▸ hcell) d has
    · exact new i cell ge hcell d has
  additions.built c hc lt := by
    have new : (s.withInstance owner decl).NewCtx t c := ⟨Graph.isObject_of_le hc, lt⟩
    exact Graph.isBuilt_of_context? (alters.contexts c (ne_of_newCtx new))
      (w.additions.built c hc (alters.size ▸ lt))
  own := own
  closures := alters.closures.trans w.closures

theorem duplicate_altered (w : Building s owner decl u) (alters : u.Alters s.graph.size t)
    (h : Duplicate (s.withInstance owner decl) u v v') :
    Duplicate (s.withInstance owner decl) t v v' :=
  h.later w.additions
    ⟨fun c hc => alters.contexts c (ne_of_newCtx hc), fun i hi => alters.cells i hi.2⟩
    alters.size.ge

/-- The instance is finished. -/
theorem finished (w : Building s owner decl u) (built : u.graph.IsBuilt s.graph.size) :
    s.AddsInstances u where
  toAdds := w.toAdds
  sound.cells c name i hc hi := by
    by_cases target : c = s.graph.size
    · exact w.own name i (Graph.localVar?_of_member? (target ▸ hi))
    · refine w.additions.sound.cells c name i ⟨?_, hc.2⟩ hi
      have other : (s.withInstance owner decl).graph.kind? c = s.graph.kind? c :=
        (Graph.kind?_add ..).trans (if_neg target)
      rw [Graph.isObject, other]
      exact hc.1
  sound.instances i cell hi hcell d has :=
    (w.additions.sound.instances i cell hi hcell d has).earlier (Extends.addContext s _)
  built c hc lt := by
    by_cases target : c = s.graph.size
    · exact target ▸ built
    · refine w.additions.built c ?_ lt
      rw [withInstance, addContext, Graph.size_add]
      exact Nat.lt_of_le_of_ne hc (Ne.symm target)
  closures := w.closures

end Building

/-- Some members of an instance have been copied. -/
structure Underway (s : Store) (o owner : CtxId) (decl : ClassDecl) (done : List String)
    (u : Store) : Prop extends Building s owner decl u where
  context : ∃ vars,
    u.graph.context? s.graph.size = some ⟨.object owner decl [] [] done, vars, .base, true⟩
  named : ∀ name i, u.graph.localVar? s.graph.size name = some i → name ∈ done
  twins : ∀ name ∈ done, ∃ cell i twin, s.memberCell? o name = some cell ∧
    u.graph.localVar? s.graph.size name = some i ∧ u.cell? i = some twin ∧
    twin.attrs = cell.attrs ∧ Duplicate (s.withInstance owner decl) u cell.value twin.value

namespace Underway

theorem begin (whole : s.Whole) (o owner : CtxId) (decl : ClassDecl) :
    Underway s o owner decl [] (s.withInstance owner decl) where
  toBuilding := .begin whole owner decl
  context := ⟨.base, Graph.context?_add_self _⟩
  named name i found := by cases (localVar?_withInstance name).symm.trans found
  twins := nofun

/-- A value is copied, for a member that is to be declared. -/
theorem added (w : Underway s o owner decl done u) (next : u.AddsInstances t) :
    Underway s o owner decl done t where
  toBuilding := w.toBuilding.added next
  context := by
    rw [next.agree.contexts _ w.lt]
    exact w.context
  named name i found := w.named name i ((w.localVar?_added next name).symm.trans found)
  twins name hn := by
    obtain ⟨cell, i, twin, source, found, held, attrs, duplicate⟩ := w.twins name hn
    refine ⟨cell, i, twin, source, (w.localVar?_added next name).trans found, ?_, attrs,
      duplicate.added w.additions next.toAdds⟩
    exact (next.agree.cells i (w.own name i found).2).trans held

/-- Twins of members stay that while the instance is worked on. -/
theorem twins_altered (w : Underway s o owner decl done u) (alters : u.Alters s.graph.size t)
    (hn : name ∈ done) : ∃ cell i twin, s.memberCell? o name = some cell ∧
      u.graph.localVar? s.graph.size name = some i ∧ t.cell? i = some twin ∧
      twin.attrs = cell.attrs ∧ Duplicate (s.withInstance owner decl) t cell.value twin.value := by
  obtain ⟨cell, i, twin, source, found, held, attrs, duplicate⟩ := w.twins name hn
  refine ⟨cell, i, twin, source, found, ?_, attrs, w.duplicate_altered alters duplicate⟩
  exact (alters.cells i (w.own name i found).2).trans held

/-- A member gets a cell of its own in the instance, with a copy of its value. -/
theorem bound (w : Underway s o owner decl done u) (source : s.memberCell? o name = some cell)
    (duplicate : Duplicate (s.withInstance owner decl) u cell.value value) :
    Underway s o owner decl (done ++ [name])
      (u.bindNew s.graph.size { cell with name, value }) := by
  obtain ⟨vars, hctx⟩ := w.context
  let new : Cell := { cell with name, value }
  have alters := Alters.bindNew u s.graph.size new
  have binds := localVar?_bindNew hctx new
  have held (i : CellId) : (u.bindNew s.graph.size new).cell? i =
      if i = u.cells.size then some new else u.cell? i := cell?_addCell new i
  refine ⟨w.toBuilding.altered alters ?new ?own, ⟨vars.bind name u.cells.size, ?context⟩, ?named,
    ?twins⟩
  case new =>
    intro i other hi hother c has
    rw [held] at hother
    split at hother
    · cases hother
      exact duplicate.instances c has
    · cases (cell?_of_ge hi).symm.trans hother
  case own =>
    intro other i found
    rw [binds] at found
    split at found
    · cases found
      refine ⟨w.room, ?_⟩
      rw [bindNew, modifyGraph, addCell, Array.size_push]
      exact Nat.lt_succ_self _
    · exact (w.own other i found).later alters.room
  case context =>
    refine (Graph.context?_update ..).trans ?_
    rw [if_pos rfl, show (u.addCell new).2.graph.context? s.graph.size = _ from hctx]
    rfl
  case named =>
    intro other i found
    rw [binds] at found
    split at found
    · rename_i same
      exact List.mem_append_right _ (List.mem_singleton.mpr same)
    · exact List.mem_append_left _ (w.named other i found)
  case twins =>
    intro other hother
    by_cases same : other = name
    -- the new cell is the twin also if an outer frame should bind the name to another
    · refine ⟨cell, u.cells.size, new, same ▸ source, ?_, ?_, rfl, ?_⟩
      · rw [binds, if_pos same]
      · rw [held, if_pos rfl]
      · exact w.duplicate_altered alters duplicate
    · have hother : other ∈ done := by simpa [same] using hother
      obtain ⟨cell, i, twin, source, found, twins⟩ := w.twins_altered alters hother
      refine ⟨cell, i, twin, source, ?_, twins⟩
      rw [binds, if_neg same]
      exact found

/-- A member that is there already is noted once more. -/
theorem recorded (w : Underway s o owner decl done u) (hn : name ∈ done) :
    Underway s o owner decl (done ++ [name]) (u.modifyGraph (·.update s.graph.size fun ctx =>
      { ctx with kind := Declaration.recordMember name ctx.kind })) := by
  obtain ⟨vars, hctx⟩ := w.context
  have alters := Alters.update u s.graph.size
    (fun ctx => { ctx with kind := Declaration.recordMember name ctx.kind })
    fun ctx => Declaration.skeleton_recordMember name ctx.kind
  have binds (other : String) : (u.modifyGraph (·.update s.graph.size fun ctx =>
      { ctx with kind := Declaration.recordMember name ctx.kind })).graph.localVar? s.graph.size
        other = u.graph.localVar? s.graph.size other :=
    Graph.localVar?_update_same _ fun _ => rfl
  refine ⟨w.toBuilding.altered alters ?new ?own, ⟨vars, ?context⟩, ?named, ?twins⟩
  case new =>
    intro i other hi hother
    cases (cell?_of_ge hi).symm.trans hother
  case own => exact fun other i found => w.own other i ((binds other).symm.trans found)
  case context =>
    refine (Graph.context?_update ..).trans ?_
    rw [if_pos rfl, hctx]
    rfl
  case named =>
    intro other i found
    exact List.mem_append_left _ (w.named other i ((binds other).symm.trans found))
  case twins =>
    intro other hother
    have hother : other ∈ done := by
      rcases List.mem_append.mp hother with old | new
      · exact old
      · exact List.mem_singleton.mp new ▸ hn
    obtain ⟨cell, i, twin, source, found, twins⟩ := w.twins_altered alters hother
    exact ⟨cell, i, twin, source, (binds other).trans found, twins⟩

theorem declared (w : Underway s o owner decl done u) (source : s.memberCell? o name = some cell)
    (duplicate : Duplicate (s.withInstance owner decl) u cell.value value) :
    Underway s o owner decl (done ++ [name])
      (u.declareMember s.graph.size { cell with name, value }) := by
  rcases declareMember_cases u s.graph.size { cell with name, value } with run | ⟨⟨j, hj⟩, run⟩
  · rw [run]
    exact w.bound source duplicate
  · rw [run]
    exact w.recorded (w.named name j hj)

/-- In a store with more in it, a member of an instance is found as before. -/
theorem source_eq (w : Underway s o owner decl done u) (whole : s.Whole)
    (object : s.graph.isObject o = true) (name : String) :
    (u.graph.localVar? o name).bind u.cell? = s.memberCell? o name := by
  have there : o < s.graph.size := Graph.lt_of_isObject object
  have member : s.graph.member? o name = s.graph.localVar? o name := if_pos object
  have same : u.graph.localVar? o name = s.graph.localVar? o name := by
    rw [Graph.localVar?, Graph.localVar?, w.agree.contexts o there]
  rw [memberCell?, member, same]
  refine Option.bind_congr fun i hi => ?_
  exact w.agree.cells i (whole.cells o name i there (member.trans hi))

end Underway

/-- Wherever the value unfolds at a depth, it is copied to the end, to a duplicate. -/
def Copies (copyInstance : CtxId → Store → Option (CtxId × Store)) (depth : Nat) (v : Value) :
    Prop :=
  ∀ s : Store, s.Whole → s.Unfolds depth v →
    ∃ v' t, copyWith copyInstance v s = some (v', t) ∧ s.AddsInstances t ∧ Duplicate s t v v'

/-- The members that have a cell are copied, in their order. -/
theorem underway_copyMembers (copies : ∀ v, Copies (copyInstance depth) depth v) (whole : s.Whole)
    (object : s.graph.isObject o = true) : ∀ rest done u, Underway s o owner decl done u →
      (∀ name ∈ rest, ∀ cell, s.memberCell? o name = some cell → s.Unfolds depth cell.value) →
      ∃ t, copyMembers (copy depth) o s.graph.size rest u = some t ∧
        Underway s o owner decl (done ++ rest.filter fun name => (s.memberCell? o name).isSome) t
  | [], done, u, w, _ => ⟨u, rfl, by rwa [List.filter_nil, List.append_nil]⟩
  | name :: rest, done, u, w, unfolds => by
    obtain ⟨here, others⟩ := List.forall_mem_cons.mp unfolds
    rw [copyMembers, w.source_eq whole object, List.filter_cons]
    cases found : s.memberCell? o name with
    | none => exact underway_copyMembers copies whole object rest done u w others
    | some cell =>
      have inside : ∀ c, cell.value.HasInstance c → c < s.graph.size := fun c has =>
        (here cell found c has).1
      obtain ⟨value, u', copied, next, duplicate⟩ :=
        copies cell.value u w.whole (w.unfolds whole (here cell found))
      have begun (depth : Nat) : u.unfold depth cell.value =
          (s.withInstance owner decl).unfold depth cell.value :=
        (w.unfold_eq whole inside depth).trans (unfold_withInstance whole inside depth).symm
      obtain ⟨t, filled, w'⟩ := underway_copyMembers copies whole object rest _ _
        ((w.added next).declared found (duplicate.earlier w.grown begun)) others
      refine ⟨t, ?_, ?_⟩
      · simp only [copy, copied]
        exact filled
      · rw [List.append_assoc] at w'
        exact w'

/-- The members of the one instance are the twins of those of the other that have a cell. -/
theorem forall₂_filterMap {R : String × Cell → String × Cell → Prop} {f g : String → Option Cell}
    {names : List String}
    (h : ∀ name ∈ names, ∀ cell, f name = some cell → ∃ twin, g name = some twin ∧
      R (name, twin) (name, cell)) :
    List.Forall₂ R
      ((names.filter fun name => (f name).isSome).filterMap fun name => (g name).map (name, ·))
      (names.filterMap fun name => (f name).map (name, ·)) := by
  induction names with
  | nil => exact .nil
  | cons name rest ih =>
    obtain ⟨here, below⟩ := List.forall_mem_cons.mp h
    rw [List.filter_cons, List.filterMap_cons]
    cases found : f name with
    | none => exact ih below
    | some cell =>
      obtain ⟨twin, held, related⟩ := here cell found
      rw [Option.isSome_some, if_pos rfl, List.filterMap_cons, held]
      exact .cons related (ih below)

namespace Underway

/-- With the methods declared the instance is built. -/
theorem building_declareMethods (w : Underway s o owner decl done u) :
    Building s owner decl (u.declareMethods s.graph.size decl.methods) := by
  have alters := alters_declareMethods (o := s.graph.size) decl.methods u
  refine w.toBuilding.altered alters (fun i cell hi hcell => ?_) fun name i found => ?_
  · rw [cell?, cells_declareMethods, ← cell?, cell?_of_ge hi] at hcell
    cases hcell
  · rw [localVar?_declareMethods] at found
    exact (w.own name i found).later alters.room

theorem kind?_declareMethods (w : Underway s o owner decl done u) :
    (u.declareMethods s.graph.size decl.methods).graph.kind? s.graph.size =
      some (.object owner decl [] [] done) := by
  obtain ⟨vars, hctx⟩ := w.context
  obtain ⟨funcs, context, -⟩ := context?_declareMethods decl.methods u _ hctx rfl
  rw [Graph.kind?, context]
  rfl

theorem isBuilt_declareMethods (w : Underway s o owner decl done u) :
    (u.declareMethods s.graph.size decl.methods).graph.IsBuilt s.graph.size := by
  refine ⟨owner, decl, done, w.kind?_declareMethods, fun name i found => ?_, fun name => ?_⟩
  · rw [localVar?_declareMethods] at found
    exact w.named name i found
  · obtain ⟨vars, hctx⟩ := w.context
    obtain ⟨funcs, context, get⟩ := context?_declareMethods decl.methods u _ hctx rfl
    rw [Graph.localFunc?, context]
    exact get name

/-- With all members copied and the methods declared, the instance unfolds into what the other
does. -/
theorem unfoldInstance_eq {given : List (Param × Arg)} {arguments : List (String × CellId)}
    {members : List String}
    (hk : s.graph.kind? o = some (.object owner decl given arguments members)) (whole : s.Whole)
    (w : Underway s o owner decl (members.filter fun name => (s.memberCell? o name).isSome) u)
    (depth : Nat) :
    (u.declareMethods s.graph.size decl.methods).unfoldInstance depth s.graph.size =
      s.unfoldInstance depth o := by
  cases depth with
  | zero => rfl
  | succ depth =>
    have kind := w.kind?_declareMethods
    rw [unfoldInstance_of_object kind, unfoldInstance_of_object hk, Store.members, Store.members,
      Graph.memberNames_of_kind? kind, Graph.memberNames_of_kind? hk]
    refine congrArg (Option.map _) (mapM_eq_of_forall₂ ?_)
    refine forall₂_filterMap fun name hn cell found => ?_
    have copied : name ∈ members.filter fun name => (s.memberCell? o name).isSome :=
      List.mem_filter.mpr ⟨hn, Option.isSome_iff_exists.mpr ⟨cell, found⟩⟩
    obtain ⟨source, i, twin, found', bound, held, attrs, duplicate⟩ :=
      w.twins_altered (alters_declareMethods decl.methods u) copied
    obtain rfl : source = cell := Option.some.inj (found'.symm.trans found)
    have inside : ∀ c, source.value.HasInstance c → c < s.graph.size :=
      whole.memberCell? (Graph.lt_of_kind? hk) found
    refine ⟨twin, ?_, ?_⟩
    · have object := w.isBuilt_declareMethods.isObject
      rw [memberCell?, Graph.member?, if_pos object, localVar?_declareMethods, bound]
      exact held
    · have same : twin.value.unfold _ = source.value.unfold _ :=
        (duplicate.tree depth).trans (unfold_withInstance whole inside depth)
      rw [unfoldMember, unfoldMember, attrs, same]

end Underway

/-- An instance that unfolds is copied to the end. -/
theorem copies_instance (copies : ∀ v, Copies (copyInstance depth) depth v) (whole : s.Whole)
    (there : o < s.graph.size) (unfolds : (s.unfoldInstance (depth + 1) o).isSome) :
    ∃ o' t, s.copyInstance (depth + 1) o = some (o', t) ∧ s.AddsInstances t ∧
      Duplicate s t (.object o) (.object o') := by
  cases object : s.graph.isObject o with
  | false =>
    refine ⟨o, s, ?_, .refl s, fun c has => ?_, fun _ => rfl⟩
    · rw [copyInstance, copyObject]
      split
      · rename_i hk
        rw [Graph.isObject, hk] at object
        cases object
      · rfl
    · obtain rfl := Value.hasInstance_object.mp has
      exact ⟨object, there⟩
  | true =>
    obtain ⟨owner, decl, given, arguments, members, hk⟩ := Graph.kind?_of_isObject object
    have holds : ∀ name ∈ members, ∀ cell, s.memberCell? o name = some cell →
        s.Unfolds depth cell.value := by
      intro name listed cell found d has
      have contained : s.Contains o d :=
        ⟨(name, cell), mem_members_iff.mpr ⟨Graph.memberNames_of_kind? hk ▸ listed, found⟩, has⟩
      exact ⟨whole.contains there contained, isSome_unfoldInstance_iff.mp unfolds d contained⟩
    obtain ⟨u, filled, w⟩ := underway_copyMembers copies whole object members [] _
      (Underway.begin whole o owner decl) holds
    have building := w.building_declareMethods
    refine ⟨s.graph.size, _, ?_, building.finished w.isBuilt_declareMethods, fun c has => ?_,
      fun depth => ?_⟩
    · rw [copyInstance, copyObject, hk]
      exact congrArg (Option.map _) filled
    · obtain rfl := Value.hasInstance_object.mp has
      exact ⟨Graph.isObject_of_le (Nat.le_refl _), building.lt⟩
    · rw [unfold, unfold, Value.unfold_object, Value.unfold_object]
      exact w.unfoldInstance_eq hk whole depth

namespace Duplicate

variable {items items' : List Value} {kind : KeyKind} {entries entries' : List (Key × Value)}

theorem list (h : List.Forall₂ (Duplicate s t) items items') :
    Duplicate s t (.list items) (.list items') where
  instances c has := by
    obtain ⟨w', hw', has⟩ := Value.hasInstance_list.mp has
    obtain ⟨w, -, duplicate⟩ := exists_of_forall₂ h hw'
    exact duplicate.instances c has
  tree depth := by
    rw [unfold, unfold, Value.unfold_list, Value.unfold_list]
    exact congrArg _ (mapM_eq_of_forall₂ (h.imp fun _ _ same => (same.tree depth).symm)).symm

theorem tuple (h : List.Forall₂ (Duplicate s t) items items') :
    Duplicate s t (.tuple items) (.tuple items') where
  instances c has := by
    obtain ⟨w', hw', has⟩ := Value.hasInstance_tuple.mp has
    obtain ⟨w, -, duplicate⟩ := exists_of_forall₂ h hw'
    exact duplicate.instances c has
  tree depth := by
    rw [unfold, unfold, Value.unfold_tuple, Value.unfold_tuple]
    exact congrArg _ (mapM_eq_of_forall₂ (h.imp fun _ _ same => (same.tree depth).symm)).symm

theorem dict (h : List.Forall₂ (fun e e' => e'.1 = e.1 ∧ Duplicate s t e.2 e'.2) entries entries') :
    Duplicate s t (.dict (.ofKind kind entries)) (.dict (.ofKind kind entries')) where
  instances c has := by
    obtain ⟨e', he', has⟩ := Value.hasInstance_dict.mp has
    obtain ⟨e, -, -, duplicate⟩ := exists_of_forall₂ h he'
    exact duplicate.instances c has
  tree depth := by
    rw [unfold, unfold, Value.unfold_dict, Value.unfold_dict]
    refine congrArg _ (mapM_eq_of_forall₂ (h.imp fun e e' ⟨key, same⟩ => ?_)).symm
    rw [Value.unfoldEntry, Value.unfoldEntry, key]
    exact congrArg _ (same.tree depth).symm

theorem some (h : Duplicate s t v v') : Duplicate s t (.some v) (.some v') where
  instances c has := h.instances c (Value.hasInstance_some.mp has)
  tree depth := by
    rw [unfold, unfold, Value.unfold_some, Value.unfold_some]
    exact congrArg _ (h.tree depth)

theorem of_no_instance (h : ∀ c, ¬v.HasInstance c) : Duplicate s s v v :=
  ⟨fun c has => absurd has (h c), fun _ => rfl⟩

end Duplicate

section Values

variable {copyObj : CtxId → Store → Option (CtxId × Store)}

theorem copies_items : ∀ items : List Value, (∀ v ∈ items, Copies copyObj depth v) →
    ∀ s : Store, s.Whole → (∀ v ∈ items, s.Unfolds depth v) →
    ∃ items' t, copyItems copyObj items s = some (items', t) ∧ s.AddsInstances t ∧
      List.Forall₂ (Duplicate s t) items items'
  | [], _, s, _, _ => ⟨[], s, rfl, .refl s, .nil⟩
  | v :: rest, copies, s, whole, unfolds => by
    obtain ⟨hv, hrest⟩ := List.forall_mem_cons.mp copies
    obtain ⟨here, below⟩ := List.forall_mem_cons.mp unfolds
    obtain ⟨v', t, copied, first, duplicate⟩ := hv s whole here
    obtain ⟨rest', u, copiedRest, next, duplicates⟩ := copies_items rest hrest t
      (whole.after first) fun w hw => first.unfolds whole (below w hw)
    refine ⟨v' :: rest', u, ?_, first.trans next,
      .cons (duplicate.added first.toAdditions next.toAdds) ?_⟩
    · rw [copyItems]
      simp only [copied, copiedRest]
      rfl
    · refine ((List.forall₂_and_left _ _).mpr ⟨below, duplicates⟩).imp fun w w' ⟨hw, same⟩ => ?_
      exact same.earlier first.grows (first.unfold_eq whole fun c has => (hw c has).1)

/-- The values of entries are copied like items. -/
theorem copyEntries_eq : ∀ (entries : List (Key × Value)) (s : Store),
    copyEntries copyObj entries s = (copyItems copyObj (entries.map Prod.snd) s).map
      fun (values, t) => ((entries.map Prod.fst).zip values, t)
  | [], s => rfl
  | (k, v) :: rest, s => by
    simp only [copyEntries, List.map_cons, copyItems]
    cases copyWith copyObj v s with
    | none => rfl
    | some found =>
      obtain ⟨v', t⟩ := found
      simp only [copyEntries_eq rest t, Option.map_map]
      rfl

theorem forall₂_zip_keys {R : Value → Value → Prop} : ∀ {entries : List (Key × Value)}
    {values : List Value}, List.Forall₂ R (entries.map Prod.snd) values →
    List.Forall₂ (fun e e' => e'.1 = e.1 ∧ R e.2 e'.2) entries
      ((entries.map Prod.fst).zip values)
  | [], _, .nil => .nil
  | _ :: _, _, .cons head tail => .cons ⟨rfl, head⟩ (forall₂_zip_keys tail)

/-- If the instances of a depth are copied to the end, so are all values of that depth. -/
theorem copies_value (instances : ∀ c, Copies copyObj depth (.object c)) (v : Value) :
    Copies copyObj depth v := by
  induction v using Value.induction with
  | step v ih =>
    intro s whole unfolds
    have below : ∀ w ∈ v.children, s.Unfolds depth w := fun w hw c has =>
      unfolds c (Value.hasInstance_iff.mpr (.inr ⟨w, hw, has⟩))
    cases v with
    | object c => exact instances c s whole unfolds
    | list items =>
      obtain ⟨items', t, copied, added, duplicates⟩ := copies_items items ih s whole below
      refine ⟨.list items', t, ?_, added, .list duplicates⟩
      rw [copyWith, copied]
      rfl
    | tuple items =>
      obtain ⟨items', t, copied, added, duplicates⟩ := copies_items items ih s whole below
      refine ⟨.tuple items', t, ?_, added, .tuple duplicates⟩
      rw [copyWith, copied]
      rfl
    | some v =>
      obtain ⟨v', t, copied, added, duplicate⟩ :=
        ih v List.mem_cons_self s whole (below v List.mem_cons_self)
      refine ⟨.some v', t, ?_, added, duplicate.some⟩
      rw [copyWith, copied]
      rfl
    | dict d =>
      cases d with
      | undetermined =>
        refine ⟨_, s, rfl, .refl s, .of_no_instance fun c has => ?_⟩
        obtain ⟨e, he, -⟩ := Value.hasInstance_dict.mp has
        cases he
      | ofKind kind entries =>
        obtain ⟨values, t, copied, added, duplicates⟩ :=
          copies_items (entries.map Prod.snd) ih s whole below
        refine ⟨.dict (.ofKind kind _), t, ?_, added, .dict (forall₂_zip_keys duplicates)⟩
        rw [copyWith, copyEntries_eq, copied]
        rfl
    | _ =>
      refine ⟨_, s, rfl, .refl s, .of_no_instance fun c has => ?_⟩
      simpa [Value.children] using Value.hasInstance_iff.mp has

end Values

/-- Whatever unfolds at a depth is copied at it to the end, to a duplicate. -/
theorem copies_all : ∀ depth v, Copies (copyInstance depth) depth v
  | 0 => copies_value fun c s _ unfolds => by
    cases (unfolds c (Value.hasInstance_object.mpr rfl)).2
  | depth + 1 => copies_value fun c s whole unfolds => by
    obtain ⟨there, unfolds⟩ := unfolds c (Value.hasInstance_object.mpr rfl)
    obtain ⟨c', t, copied, added, duplicate⟩ :=
      copies_instance (copies_all depth) whole there unfolds
    refine ⟨.object c', t, ?_, added, duplicate⟩
    rw [copyWith, copied]
    rfl

end TreeScript.Store
