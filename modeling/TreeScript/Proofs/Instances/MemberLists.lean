import TreeScript.Proofs.Context.Acts
import TreeScript.Proofs.Instances.Duplicates
import TreeScript.Proofs.Scope.Frames

/-!
# Lists of members

An instance keeps a list of the names of its members beside the frames that bind them. A name is put
on the list when it is bound, and none is ever taken off. So the list has every member, in the order
in which they were declared. It has names of members that are gone as well, and it has a name twice
that was bound again in an inner frame.
-/
namespace TreeScript

/-- The list of members and the frames that bind them. -/
structure Members where
  list : List String
  vars : ScopeStack CellId

namespace Members

/-- Binds a name in the innermost frame and lists it, unless that frame binds it already. -/
def bind (m : Members) (name : String) (i : CellId) : Members :=
  if m.vars.bindsOnTop name then m else ⟨m.list ++ [name], m.vars.bind name i⟩

/-- Binds a name that is copied from another instance. It is listed even when it is bound
already. -/
def copyIn (m : Members) (name : String) (i : CellId) : Members :=
  ⟨m.list ++ [name], if m.vars.bindsOnTop name then m.vars else m.vars.bind name i⟩

/-- The list has each name that is bound just once, and no other name. -/
def Match (m : Members) : Prop :=
  m.list.Nodup ∧ ∀ name, name ∈ m.list ↔ (m.vars.get? name).isSome = true

/-- A name is on the list at least as often as it is bound, and it is bound to cells that are
there. -/
structure Sound (m : Members) (cells : Nat) : Prop where
  listed : m.vars.names.Subperm m.list
  there : ∀ b ∈ m.vars.bindings, b.2 < cells

variable {m : Members} {cells cells' : Nat} {name : String} {i : CellId}

namespace Sound

theorem mono (h : m.Sound cells) (more : cells ≤ cells') : m.Sound cells' :=
  ⟨h.listed, fun b hb => Nat.lt_of_lt_of_le (h.there b hb) more⟩

/-- The list matches if it has no name twice and is as long as there are bindings. -/
theorem match_iff (h : m.Sound cells) :
    m.Match ↔ m.list.Nodup ∧ m.list.length ≤ m.vars.names.length := by
  constructor
  · rintro ⟨distinct, same⟩
    refine ⟨distinct, (List.subperm_of_subset distinct fun name there => ?_).length_le⟩
    exact ScopeStack.isSome_get?_iff.mp ((same name).mp there)
  · rintro ⟨distinct, length⟩
    have perm := h.listed.perm_of_length_le length
    exact ⟨distinct, fun name => perm.mem_iff.symm.trans ScopeStack.isSome_get?_iff.symm⟩

/-- A name that was not bound before is put on the list and is bound. Bound again in an inner frame,
it is on the list twice. -/
theorem bind (h : m.Sound cells) (name : String) (hi : i < cells) :
    (m.bind name i).Sound cells ∧ ((m.bind name i).Match ↔
      m.Match ∧ ((m.vars.get? name).isSome = true → m.vars.bindsOnTop name = true)) := by
  rw [Members.bind]
  cases refused : m.vars.bindsOnTop name with
  | true => exact ⟨h, by simp⟩
  | false =>
    rw [if_neg Bool.false_ne_true]
    have names : (m.vars.bind name i).names = name :: m.vars.names := rfl
    have last : (m.list ++ [name]).Perm (name :: m.list) := List.perm_append_singleton name m.list
    have sound : Sound ⟨m.list ++ [name], m.vars.bind name i⟩ cells := by
      refine ⟨?_, List.forall_mem_cons.mpr ⟨hi, h.there⟩⟩
      rw [names]
      exact ((List.subperm_cons name).mpr h.listed).trans last.symm.subperm
    refine ⟨sound, ?_⟩
    rw [sound.match_iff, h.match_iff, names, last.nodup_iff, last.length_eq, List.length_cons,
      List.length_cons, Nat.add_le_add_iff_right, ScopeStack.isSome_get?_iff, List.nodup_cons]
    constructor
    · rintro ⟨⟨new, distinct⟩, length⟩
      exact ⟨⟨distinct, length⟩, fun bound => absurd (h.listed.subset bound) new⟩
    -- what a list that matches has is bound, so a name that is not bound is new to it
    · rintro ⟨⟨distinct, length⟩, free⟩
      refine ⟨⟨fun listed => ?_, distinct⟩, length⟩
      cases free ((h.listed.perm_of_length_le length).mem_iff.mpr listed)

/-- When bindings have gone, the list matches only if there were none of them. -/
theorem shrink (h : m.Sound cells) (gone : List (String × CellId)) (vars : ScopeStack CellId)
    (perm : m.vars.bindings.Perm (gone ++ vars.bindings)) :
    Sound { m with vars } cells ∧ (Match { m with vars } ↔ m.Match ∧ gone = []) := by
  have names : m.vars.names.Perm (gone.map Prod.fst ++ vars.names) := by
    rw [ScopeStack.names, ScopeStack.names, ← List.map_append]
    exact perm.map Prod.fst
  have sound : Sound { m with vars } cells := by
    refine ⟨?_, fun b hb => h.there b (perm.symm.subset (List.mem_append_right _ hb))⟩
    exact ((List.sublist_append_right ..).subperm.trans names.symm.subperm).trans h.listed
  refine ⟨sound, ?_⟩
  have length := names.length_eq
  have listed := h.listed.length_le
  rw [List.length_append, List.length_map] at length
  rw [sound.match_iff, h.match_iff, and_assoc, ← List.length_eq_zero_iff]
  refine and_congr_right fun _ => ?_
  show m.list.length ≤ vars.names.length ↔ _
  omega

end Sound

/-- Members as a copy has them: only the base frame is open, and it binds just the names on the
list, to cells that are there. -/
structure Copied (m : Members) (cells : Nat) : Prop where
  base : m.vars.below = []
  distinct : m.vars.names.Nodup
  listed : ∀ name, name ∈ m.list ↔ name ∈ m.vars.names
  there : ∀ b ∈ m.vars.bindings, b.2 < cells

namespace Copied

theorem mono (h : m.Copied cells) (more : cells ≤ cells') : m.Copied cells' :=
  { h with there := fun b hb => Nat.lt_of_lt_of_le (h.there b hb) more }

theorem copyIn (h : m.Copied cells) (hi : m.vars.bindsOnTop name = false → i < cells) :
    (m.copyIn name i).Copied cells := by
  have bound := ScopeStack.bindsOnTop_iff_of_base h.base name
  rw [Members.copyIn]
  cases top : m.vars.bindsOnTop name with
  | true =>
    have listed := bound.mp top
    refine { h with listed := fun other => ?_ }
    rw [List.mem_append, h.listed, List.mem_singleton]
    exact ⟨fun there => there.elim id fun same => same ▸ listed, .inl⟩
  | false =>
    have free : name ∉ m.vars.names := fun there => Bool.eq_false_iff.mp top (bound.mpr there)
    refine ⟨h.base, List.nodup_cons.mpr ⟨free, h.distinct⟩, fun other => ?_,
      List.forall_mem_cons.mpr ⟨hi top, h.there⟩⟩
    rw [List.mem_append, h.listed, List.mem_singleton]
    exact or_comm.trans List.mem_cons.symm

theorem sound (h : m.Copied cells) : m.Sound cells :=
  ⟨List.subperm_of_subset h.distinct fun name there => (h.listed name).mpr there, h.there⟩

theorem match_iff (h : m.Copied cells) : m.Match ↔ m.list.Nodup :=
  and_iff_left fun name => (h.listed name).trans ScopeStack.isSome_get?_iff.symm

end Copied

end Members

def Context.members? (ctx : Context) : Option Members :=
  match ctx.kind with
  | .object _ _ _ _ list => some ⟨list, ctx.vars⟩
  | _ => none

namespace Graph

def members? (g : Graph) (c : CtxId) : Option Members := (g.context? c).bind Context.members?

/-- The list of members has each name once that means a member, and no other name. -/
def ListsMembers (g : Graph) (c : CtxId) : Prop :=
  (g.memberNames c).Nodup ∧ ∀ name, name ∈ g.memberNames c ↔ (g.member? c name).isSome = true

variable {g g' : Graph} {c : CtxId} {m : Members} {name cellName : String} {i : CellId}

theorem exists_of_members? (hm : g.members? c = some m) : ∃ ctx owner decl given arguments,
    g.context? c = some ctx ∧ ctx.kind = .object owner decl given arguments m.list ∧
      ctx.vars = m.vars := by
  obtain ⟨ctx, hctx, hm⟩ := Option.bind_eq_some_iff.mp hm
  unfold Context.members? at hm
  split at hm
  · rename_i owner decl given arguments list kind
    cases hm
    exact ⟨ctx, owner, decl, given, arguments, hctx, kind, rfl⟩
  · cases hm

theorem memberNames_of_members? (hm : g.members? c = some m) : g.memberNames c = m.list := by
  obtain ⟨ctx, owner, decl, given, arguments, hctx, kind, -⟩ := exists_of_members? hm
  rw [memberNames, kind?, hctx, Option.map_some, kind]

theorem localVar?_of_members? (hm : g.members? c = some m) (name : String) :
    g.localVar? c name = m.vars.get? name := by
  obtain ⟨ctx, owner, decl, given, arguments, hctx, -, vars⟩ := exists_of_members? hm
  rw [localVar?, hctx, Option.bind_some, vars]

theorem member?_of_members? (hm : g.members? c = some m) (name : String) :
    g.member? c name = m.vars.get? name := by
  obtain ⟨ctx, owner, decl, given, arguments, hctx, kind, -⟩ := exists_of_members? hm
  have object : g.isObject c = true := by
    rw [isObject, kind?, hctx, Option.map_some, kind]
    rfl
  rw [member?, if_pos object, localVar?_of_members? hm]

theorem listsMembers_iff (hm : g.members? c = some m) : g.ListsMembers c ↔ m.Match := by
  rw [ListsMembers, memberNames_of_members? hm]
  simp only [member?_of_members? hm]
  rfl

theorem members?_update (hm : g.members? c = some m) (f : Context → Context)
    (change : Members → Members) (h : ∀ ctx, (f ctx).members? = ctx.members?.map change) :
    (g.update c f).members? c = some (change m) := by
  obtain ⟨ctx, hctx, hm⟩ := Option.bind_eq_some_iff.mp hm
  rw [members?, context?_update, if_pos rfl, hctx, Option.map_some, Option.bind_some, h, hm]
  rfl

/-- The kind changes in something other than the list of members. -/
theorem members?_update_kind (hm : g.members? c = some m) (f : ContextKind → ContextKind)
    (h : ∀ kind vars funcs live,
      (Context.mk (f kind) vars funcs live).members? = (Context.mk kind vars funcs live).members?) :
    (g.update c fun ctx => { ctx with kind := f ctx.kind }).members? c = some m :=
  members?_update hm _ id fun ctx =>
    (h ctx.kind ctx.vars ctx.funcs ctx.live).trans Option.map_id'.symm

/-- The scopes change and the list of members does not. -/
theorem members?_update_vars (hm : g.members? c = some m) {f : Context → Context}
    (change : ScopeStack CellId → ScopeStack CellId) (kind : ∀ ctx, (f ctx).kind = ctx.kind)
    (vars : ∀ ctx, (f ctx).vars = change ctx.vars) :
    (g.update c f).members? c = some { m with vars := change m.vars } := by
  refine members?_update hm f (fun m => { m with vars := change m.vars }) fun ctx => ?_
  rw [Context.members?, Context.members?, kind, vars]
  cases ctx.kind <;> rfl

theorem obstacle?_ofVar_of_members? (hm : g.members? c = some m) (name cellName : String)
    (i : CellId) : (Declaration.ofVar c name cellName i).obstacle? g =
      if m.vars.bindsOnTop name then some (.redeclared "variable" cellName) else none := by
  obtain ⟨ctx, owner, decl, given, arguments, hctx, -, vars⟩ := exists_of_members? hm
  rw [← vars]
  show (if (g.context? c).any (·.vars.bindsOnTop name) then _ else _) = _
  rw [hctx, Option.any_some]

theorem members?_apply_ofVar (hm : g.members? c = some m) (name cellName : String) (i : CellId) :
    ((Declaration.ofVar c name cellName i).apply g).members? c =
      some ⟨m.list ++ [name], m.vars.bind name i⟩ := by
  refine members?_update hm _ (fun m => ⟨m.list ++ [name], m.vars.bind name i⟩) fun ctx => ?_
  obtain ⟨kind, vars, funcs, live⟩ := ctx
  cases kind <;> rfl

theorem members?_attempt_ofVar (hm : g.members? c = some m) (name cellName : String) (i : CellId) :
    ((Declaration.ofVar c name cellName i).attempt g).members? c = some (m.bind name i) := by
  have obstacle := obstacle?_ofVar_of_members? hm name cellName i
  rw [Members.bind]
  cases bound : m.vars.bindsOnTop name with
  | true =>
    rw [bound] at obstacle
    rw [Declaration.attempt_of_some obstacle]
    exact hm
  | false =>
    rw [bound] at obstacle
    rw [Declaration.attempt_of_none obstacle]
    exact members?_apply_ofVar hm name cellName i

theorem members?_attempt_ofArgument (hm : g.members? c = some m) (name : String) (i : CellId) :
    ((Declaration.ofArgument c name i).attempt g).members? c = some m := by
  cases obstacle : (Declaration.ofArgument c name i).obstacle? g with
  | some fault =>
    rw [Declaration.attempt_of_some obstacle]
    exact hm
  | none =>
    rw [Declaration.attempt_of_none obstacle]
    exact members?_update_kind hm _ fun kind _ _ _ => by cases kind <;> rfl

theorem members?_clearArguments (hm : g.members? c = some m) :
    (g.clearArguments c).members? c = some m :=
  members?_update_kind hm _ fun kind _ _ _ => by cases kind <;> rfl

theorem members?_pushScope (hm : g.members? c = some m) :
    (g.pushScope c).members? c = some { m with vars := m.vars.push } :=
  members?_update_vars hm ScopeStack.push (fun _ => rfl) fun _ => rfl

theorem members?_popScope (hm : g.members? c = some m) :
    (g.popScope c).members? c = some { m with vars := m.vars.pop } :=
  members?_update_vars hm ScopeStack.pop (fun _ => rfl) fun _ => rfl

theorem removeVar?_of_members? (hm : g.members? c = some m) (name : String) :
    g.removeVar? c name = (m.vars.remove? name).map fun (i, vars) =>
      (i, g.update c fun ctx => { ctx with vars }) := by
  obtain ⟨ctx, owner, decl, given, arguments, hctx, -, vars⟩ := exists_of_members? hm
  rw [removeVar?, hctx, Option.bind_some, vars]

end Graph

namespace Store

variable {b s t u : Store} {c o : CtxId} {m : Members} {cell : Cell} {depth : Nat}
  {v v' : Value}

theorem members?_of_adds (h : s.Adds t) (hc : c < s.graph.size) :
    t.graph.members? c = s.graph.members? c := by
  rw [Graph.members?, Graph.members?, h.agree.contexts c hc]

/-- Work on a context that was not there is no change of what was. -/
theorem Adds.altered (h : b.Adds s) (alters : s.Alters o t) (ho : b.graph.size ≤ o) : b.Adds t where
  size := alters.size ▸ h.size
  room := Nat.le_trans h.room alters.room
  agree.contexts c hc := (alters.contexts c (Nat.ne_of_lt (Nat.lt_of_lt_of_le hc ho))).trans
    (h.agree.contexts c hc)
  agree.cells i hi := (alters.cells i (Nat.lt_of_lt_of_le hi h.room)).trans (h.agree.cells i hi)

/-- Copies that only add to what there was. -/
def copyingOnto (b : Store) : Copying where
  Inv s := b.Adds s
  Val _ _ := True
  Target _ c := b.graph.size ≤ c
  Leads s t := b.Adds s → b.Adds t
  hereditary _ := Value.hereditary_true
  refl _ := id
  trans first next := next ∘ first
  inv hs leads := leads hs
  val _ _ _ := trivial
  target _ _ ht := ht
  val_of_target _ := trivial
  member _ _ _ := trivial
  addObject hs _ _ := ⟨fun h => h.trans (.addContext ..), hs.size⟩
  declareFunc _ ht _ := fun h => h.altered (.update _ _ _ fun _ => by exact rfl) ht
  bindNew _ ht _ _ := fun h => h.altered (.bindNew ..) ht
  recordMember name _ ht := fun h =>
    h.altered (.update _ _ _ fun ctx => by exact Declaration.skeleton_recordMember name ctx.kind) ht

theorem adds_copy (h : s.copy depth v = some (v', t)) : s.Adds t :=
  ((copyingOnto s).copies_copy depth v s v' t (.refl s) trivial h).1 (.refl s)

theorem adds_copyInstance {o' : CtxId} (h : s.copyInstance depth o = some (o', t)) : s.Adds t :=
  ((copyingOnto s).copies_copyInstance depth o s o' t (.refl s) trivial h).1 (.refl s)

theorem members?_declareMember (hm : s.graph.members? c = some m) (cell : Cell) :
    (s.declareMember c cell).graph.members? c = some (m.copyIn cell.name s.cells.size) := by
  have obstacle := Graph.obstacle?_ofVar_of_members? hm cell.name cell.name s.cells.size
  unfold declareMember declareVar addCell declare Declaration.run
  dsimp only
  rw [obstacle, Members.copyIn]
  cases m.vars.bindsOnTop cell.name with
  | true =>
    let listed (m : Members) : Members := { m with list := m.list ++ [cell.name] }
    refine Graph.members?_update hm _ listed fun ctx => ?_
    obtain ⟨kind, vars, funcs, live⟩ := ctx
    cases kind <;> rfl
  | false => exact Graph.members?_apply_ofVar hm cell.name cell.name s.cells.size

theorem members?_declareMethods (methods : List FuncDecl) (hm : s.graph.members? c = some m) :
    (s.declareMethods c methods).graph.members? c = some m :=
  declareMethods_induction (P := fun t => t.graph.members? c = some m)
    (fun _ _ h => Graph.members?_update_vars h id (fun _ => rfl) fun _ => rfl) methods s hm

theorem alters_declareMember (s : Store) (c : CtxId) (cell : Cell) :
    s.Alters c (s.declareMember c cell) := by
  rcases declareMember_cases s c cell with run | ⟨-, run⟩
  · rw [run]
    exact .bindNew s c cell
  · rw [run]
    exact .update s c _ fun ctx => Declaration.skeleton_recordMember cell.name ctx.kind

/-- An instance comes next after what there is, and members are copied into it. -/
structure Filling (s u : Store) (m : Members) : Prop where
  adds : s.Adds u
  new : s.graph.size < u.graph.size
  members : u.graph.members? s.graph.size = some m
  copied : m.Copied u.cells.size

namespace Filling

theorem begin (s : Store) (owner : CtxId) (decl : ClassDecl) (given : List (Param × Arg)) :
    Filling s (s.addContext (.object owner decl given [] [])).2 ⟨[], .base⟩ where
  adds := .addContext s _
  new := by
    rw [addContext, Graph.size_add]
    exact Nat.lt_succ_self _
  members := by
    rw [Graph.members?, show (s.addContext _).2.graph.context? s.graph.size = _
      from Graph.context?_add_self _]
    rfl
  copied := ⟨rfl, .nil, fun _ => .rfl, fun _ hb => nomatch hb⟩

theorem added (w : Filling s u m) (next : u.Adds t) : Filling s t m where
  adds := w.adds.trans next
  new := Nat.lt_of_lt_of_le w.new next.size
  members := (members?_of_adds next w.new).trans w.members
  copied := w.copied.mono next.room

theorem declared (w : Filling s u m) (cell : Cell) :
    Filling s (u.declareMember s.graph.size cell) (m.copyIn cell.name u.cells.size) where
  adds := w.adds.altered (alters_declareMember u s.graph.size cell) (Nat.le_refl _)
  new := (alters_declareMember u s.graph.size cell).size ▸ w.new
  members := members?_declareMember w.members cell
  copied := by
    refine (w.copied.mono (alters_declareMember u s.graph.size cell).room).copyIn fun free => ?_
    rcases declareMember_cases u s.graph.size cell with run | ⟨⟨i, hi⟩, -⟩
    · rw [run, bindNew, modifyGraph, addCell, Array.size_push]
      exact Nat.lt_succ_self _
    · rw [Graph.localVar?_of_members? w.members] at hi
      have bound := ScopeStack.isSome_get?_iff.mp (Option.isSome_of_eq_some hi)
      cases free.symm.trans ((ScopeStack.bindsOnTop_iff_of_base w.copied.base cell.name).mpr bound)

end Filling

variable {source : Members}

/-- The members that are bound are copied, in the order of their list. -/
theorem filling_copyMembers (hm : s.graph.members? o = some source) (ho : o < s.graph.size)
    (there : ∀ b ∈ source.vars.bindings, b.2 < s.cells.size) : ∀ names u m, Filling s u m →
      copyMembers (copy depth) o s.graph.size names u = some t →
      ∃ m', Filling s t m' ∧
        m'.list = m.list ++ names.filter fun name => (source.vars.get? name).isSome
  | [], u, m, w, h => by
    cases h
    exact ⟨m, w, (List.append_nil _).symm⟩
  | name :: rest, u, m, w, h => by
    have found : u.graph.localVar? o name = source.vars.get? name :=
      Graph.localVar?_of_members? ((members?_of_adds w.adds ho).trans hm) name
    rw [copyMembers, found] at h
    rw [List.filter_cons]
    cases bound : source.vars.get? name with
    | none =>
      rw [bound] at h
      exact filling_copyMembers hm ho there rest u m w h
    | some i =>
      have hi : i < u.cells.size :=
        Nat.lt_of_lt_of_le (there _ (ScopeStack.mem_bindings_of_get? bound)) w.adds.room
      have held : u.cell? i = some u.cells[i] := Array.getElem?_eq_getElem hi
      rw [bound, Option.bind_some, held] at h
      dsimp only at h
      split at h
      · cases h
      · rename_i value u' copied
        obtain ⟨m', w', list⟩ := filling_copyMembers hm ho there rest _ _
          ((w.added (adds_copy copied)).declared { u.cells[i] with name, value }) h
        refine ⟨m', w', list.trans ?_⟩
        rw [Option.isSome_some, if_pos rfl, Members.copyIn, List.append_assoc]
        rfl

/-- A copy of an instance lists the names on the list of the instance that are bound, and it binds
them and nothing else. -/
theorem exists_members?_copyInstance (hm : s.graph.members? o = some source)
    (there : ∀ b ∈ source.vars.bindings, b.2 < s.cells.size)
    (h : s.copyInstance depth o = some (c, t)) :
    ∃ m, t.graph.members? c = some m ∧ m.Copied t.cells.size ∧
      m.list = source.list.filter fun name => (source.vars.get? name).isSome := by
  obtain ⟨ctx, owner, decl, given, arguments, hctx, kind, -⟩ := Graph.exists_of_members? hm
  have hk : s.graph.kind? o = some (.object owner decl given arguments source.list) := by
    rw [Graph.kind?, hctx, Option.map_some, kind]
  cases depth with
  | zero => cases h
  | succ depth =>
    rw [copyInstance, copyObject, hk] at h
    obtain ⟨u, filled, he⟩ := Option.map_eq_some_iff.mp h
    cases he
    obtain ⟨m, w, list⟩ := filling_copyMembers hm (Graph.lt_of_context? hctx) there source.list _ _
      (.begin s owner decl []) filled
    refine ⟨m, members?_declareMethods decl.methods w.members, ?_, list⟩
    rw [cells_declareMethods]
    exact w.copied

end Store

end TreeScript
