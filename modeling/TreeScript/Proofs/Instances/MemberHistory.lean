import TreeScript.Proofs.Instances.MemberLists

/-!
# The history of an instance

What has been done to an instance tells whether its list of members matches its members. It does
until a member is removed, a scope with members in it is closed, or the name of a member is bound
again in an inner scope. From then on it never does again.
-/
namespace TreeScript

variable {s t : Store} {c o : CtxId} {m : Members} {born : List String}

/-- Something done to an instance. -/
inductive MemberAct where
  /-- Declares a variable. -/
  | add (cell : Cell)
  /-- Binds a name to a cell that is there, as the parameter that is an alias. -/
  | bindTo (name : String) (i : CellId)
  | remove (name : String)
  | push
  | pop
  | fillArgument (name : String) (cell : Cell)
  | clearArguments
  | copy (depth : Nat)

namespace MemberAct

variable {act : MemberAct}

/-- What the act leaves, also where it is refused. -/
def run (c : CtxId) : MemberAct → Store → Store
  | add cell, s =>
    (s.addCell cell).2.modifyGraph (Declaration.ofVar c cell.name cell.name s.cells.size).attempt
  | bindTo name i, s => s.modifyGraph (Declaration.ofVar c name (s.cell i).name i).attempt
  | remove name, s =>
    match s.graph.removeVar? c name with
    | some (_, graph) => { s with graph }
    | none => s
  | push, s => s.modifyGraph (·.pushScope c)
  | pop, s => s.modifyGraph (·.popScope c)
  | fillArgument name cell, s =>
    (s.addCell cell).2.modifyGraph (Declaration.ofArgument c name s.cells.size).attempt
  | clearArguments, s => s.modifyGraph (·.clearArguments c)
  | copy depth, s =>
    match s.copyInstance depth c with
    | some (_, t) => t
    | none => s

/-- A name is bound to a cell only if that is there. -/
def Fits (s : Store) : MemberAct → Prop
  | bindTo _ i => i < s.cells.size
  | _ => True

/-- The name that the act is to bind. -/
def binds? : MemberAct → Option String
  | add cell => some cell.name
  | bindTo name _ => some name
  | _ => none

/-- The names that the act declares in these frames: none that the innermost frame binds. -/
def declares (vars : ScopeStack CellId) (act : MemberAct) : List String :=
  act.binds?.toList.filter fun name => !vars.bindsOnTop name

/-- The act leaves a list that matches the members: no name is bound that an outer frame binds,
nothing is removed, and no frame is closed that binds anything. -/
def Keeps (vars : ScopeStack CellId) : MemberAct → Prop
  | add cell => (vars.get? cell.name).isSome = true → vars.bindsOnTop cell.name = true
  | bindTo name _ => (vars.get? name).isSome = true → vars.bindsOnTop name = true
  | remove name => vars.get? name = none
  | pop => vars.top = []
  | push => True
  | fillArgument _ _ => True
  | clearArguments => True
  | copy _ => True

/-- What an act makes of the members. -/
structure Leaves (act : MemberAct) (c : CtxId) (s : Store) (m m' : Members) : Prop where
  members : (act.run c s).graph.members? c = some m'
  sound : m'.Sound (act.run c s).cells.size
  list : m'.list = m.list ++ act.declares m.vars
  match_iff : m'.Match ↔ m.Match ∧ act.Keeps m.vars

theorem list_bind (m : Members) (name : String) (i : CellId) :
    (m.bind name i).list = m.list ++ [name].filter fun name => !m.vars.bindsOnTop name := by
  rw [Members.bind, List.filter_singleton]
  cases m.vars.bindsOnTop name
  · rfl
  · exact (List.append_nil _).symm

/-- An act that leaves the members alone. -/
theorem leaves_same (kept : (act.run c s).graph.members? c = some m)
    (h : m.Sound s.cells.size) (more : s.cells.size ≤ (act.run c s).cells.size)
    (declares : act.declares m.vars = []) (keeps : act.Keeps m.vars) : act.Leaves c s m m where
  members := kept
  sound := h.mono more
  list := by rw [declares, List.append_nil]
  match_iff := (and_iff_left keeps).symm

theorem leaves_remove (hm : s.graph.members? c = some m) (h : m.Sound s.cells.size)
    (name : String) : ∃ m', (remove name).Leaves c s m m' := by
  have removed := Graph.removeVar?_of_members? hm name
  cases found : m.vars.get? name with
  | none =>
    rw [ScopeStack.remove?_eq_none found] at removed
    have same : (remove name).run c s = s := by rw [run, removed]; rfl
    exact ⟨m, leaves_same (same.symm ▸ hm) h (same.symm ▸ Nat.le_refl _) rfl found⟩
  | some i =>
    obtain ⟨vars, gone, perm⟩ := ScopeStack.exists_remove?_bindings found
    obtain ⟨sound, iff⟩ := h.shrink [(name, i)] vars perm
    rw [gone] at removed
    have left : (remove name).run c s =
        s.modifyGraph (·.update c fun ctx => { ctx with vars }) := by rw [run, removed]; rfl
    refine ⟨{ m with vars }, ?_, ?_, (List.append_nil _).symm, iff.trans ?_⟩
    · rw [left]
      exact Graph.members?_update_vars hm (fun _ => vars) (fun _ => rfl) fun _ => rfl
    · rw [left]
      exact sound
    · rw [Keeps, found]
      exact and_congr_right fun _ => ⟨nofun, nofun⟩

theorem exists_leaves (hm : s.graph.members? c = some m) (h : m.Sound s.cells.size)
    (fits : act.Fits s) : ∃ m', act.Leaves c s m m' := by
  have grown (cell : Cell) : s.cells.size < (s.addCell cell).2.cells.size := by
    rw [Store.addCell, Array.size_push]
    exact Nat.lt_succ_self _
  cases act with
  | add cell =>
    obtain ⟨sound, iff⟩ := (h.mono (Nat.le_of_lt (grown cell))).bind cell.name (grown cell)
    exact ⟨_, Graph.members?_attempt_ofVar hm cell.name cell.name s.cells.size, sound,
      list_bind m cell.name _, iff⟩
  | bindTo name i =>
    obtain ⟨sound, iff⟩ := h.bind name fits
    exact ⟨_, Graph.members?_attempt_ofVar hm name (s.cell i).name i, sound, list_bind m name i,
      iff⟩
  | remove name => exact leaves_remove hm h name
  | push =>
    obtain ⟨sound, iff⟩ := h.shrink [] m.vars.push .rfl
    exact ⟨_, Graph.members?_pushScope hm, sound, (List.append_nil _).symm,
      iff.trans (and_congr_right fun _ => ⟨fun _ => trivial, fun _ => rfl⟩)⟩
  | pop =>
    obtain ⟨sound, iff⟩ := h.shrink _ _ (.of_eq (ScopeStack.bindings_pop m.vars))
    exact ⟨_, Graph.members?_popScope hm, sound, (List.append_nil _).symm, iff⟩
  | fillArgument name cell =>
    exact ⟨m, leaves_same (Graph.members?_attempt_ofArgument hm name s.cells.size) h
      (Nat.le_of_lt (grown cell)) rfl trivial⟩
  | clearArguments =>
    exact ⟨m, leaves_same (Graph.members?_clearArguments hm) h (Nat.le_refl _) rfl trivial⟩
  | copy depth =>
    obtain ⟨ctx, _, _, _, _, hctx, -⟩ := Graph.exists_of_members? hm
    have adds : s.Adds ((copy depth).run c s) := by
      rw [run]
      cases copied : s.copyInstance depth c with
      | none => exact .refl s
      | some made => exact Store.adds_copyInstance copied
    have same := Store.members?_of_adds adds (Graph.lt_of_context? hctx)
    exact ⟨m, leaves_same (same.trans hm) h adds.room rfl trivial⟩

end MemberAct

/-- An instance, the names that were on its list when it came about, what has been done to it since,
with the frames that were open before, and the store that there is now. The latest act is the
first. -/
inductive Life : CtxId → List String → List (ScopeStack CellId × MemberAct) → Store → Prop
  | new (s : Store) (owner : CtxId) (decl : ClassDecl) (given : List (Param × Arg)) :
    Life s.graph.size [] [] (s.addContext (.object owner decl given [] [])).2
  /-- A copy comes about with the names on the list of the original that are bound. -/
  | copied {o c : CtxId} {born : List String} {acts : List (ScopeStack CellId × MemberAct)}
    {s t : Store} {depth : Nat} (original : Life o born acts s)
    (copy : s.copyInstance depth o = some (c, t)) :
    Life c ((s.graph.memberNames o).filter fun name => (s.graph.member? o name).isSome) [] t
  | acted {c : CtxId} {born : List String} {acts : List (ScopeStack CellId × MemberAct)} {s : Store}
    {m : Members} (life : Life c born acts s) (hm : s.graph.members? c = some m) (act : MemberAct)
    (fits : act.Fits s) : Life c born ((m.vars, act) :: acts) (act.run c s)
  /-- Something else is done, which leaves the members alone and takes no cell away. -/
  | elsewhere {c : CtxId} {born : List String} {acts : List (ScopeStack CellId × MemberAct)}
    {s t : Store} (life : Life c born acts s) (same : t.graph.members? c = s.graph.members? c)
    (room : s.cells.size ≤ t.cells.size) : Life c born acts t

/-- The names that were declared, in their order. -/
def declared : List (ScopeStack CellId × MemberAct) → List String
  | [] => []
  | (vars, act) :: earlier => declared earlier ++ act.declares vars

variable {acts : List (ScopeStack CellId × MemberAct)} {depth : Nat}

/-- What a life makes of the members. -/
structure Life.Leaves (c : CtxId) (born : List String)
    (acts : List (ScopeStack CellId × MemberAct)) (s : Store) (m : Members) : Prop where
  members : s.graph.members? c = some m
  sound : m.Sound s.cells.size
  list : m.list = born ++ declared acts
  match_iff : m.Match ↔ born.Nodup ∧ ∀ e ∈ acts, e.2.Keeps e.1

namespace Life.Leaves

theorem new (s : Store) (owner : CtxId) (decl : ClassDecl) (given : List (Param × Arg)) :
    Leaves s.graph.size [] [] (s.addContext (.object owner decl given [] [])).2 ⟨[], .base⟩ := by
  have w := Store.Filling.begin s owner decl given
  exact ⟨w.members, w.copied.sound, rfl,
    w.copied.match_iff.trans (and_iff_left fun _ he => nomatch he).symm⟩

theorem copied (h : Leaves o born acts s m) (copy : s.copyInstance depth o = some (c, t)) :
    ∃ m', Leaves c ((s.graph.memberNames o).filter fun name => (s.graph.member? o name).isSome) []
      t m' := by
  obtain ⟨m', members, copied, list⟩ :=
    Store.exists_members?_copyInstance h.members h.sound.there copy
  simp only [← Graph.member?_of_members? h.members] at list
  rw [← Graph.memberNames_of_members? h.members] at list
  refine ⟨m', members, copied.sound, list.trans (List.append_nil _).symm, ?_⟩
  rw [copied.match_iff, list]
  exact (and_iff_left fun _ he => nomatch he).symm

theorem acted (h : Leaves c born acts s m) {act : MemberAct} (fits : act.Fits s) :
    ∃ m', Leaves c born ((m.vars, act) :: acts) (act.run c s) m' := by
  obtain ⟨m', after⟩ := act.exists_leaves h.members h.sound fits
  refine ⟨m', after.members, after.sound, ?_, ?_⟩
  · rw [after.list, h.list, declared, List.append_assoc]
  · rw [after.match_iff, h.match_iff, List.forall_mem_cons]
    exact and_assoc.trans (and_congr_right fun _ => and_comm)

theorem elsewhere (h : Leaves c born acts s m) (same : t.graph.members? c = s.graph.members? c)
    (room : s.cells.size ≤ t.cells.size) : Leaves c born acts t m :=
  ⟨same.trans h.members, h.sound.mono room, h.list, h.match_iff⟩

end Life.Leaves

theorem Life.exists_leaves (life : Life c born acts s) : ∃ m, Leaves c born acts s m := by
  induction life with
  | new s owner decl given => exact ⟨_, .new s owner decl given⟩
  | copied original copy ih =>
    obtain ⟨m, before⟩ := ih
    exact before.copied copy
  | acted life hm act fits ih =>
    obtain ⟨m, before⟩ := ih
    cases before.members.symm.trans hm
    exact before.acted fits
  | elsewhere life same room ih =>
    obtain ⟨m, before⟩ := ih
    exact ⟨m, before.elsewhere same room⟩

/-- **Lists of members.** Whatever is done to an instance, its list has the names that it came about
with and then those that were declared, in their order, and it has every member. It has each member
once and nothing else just when it came about with no name twice, and since then no name has been
declared that an outer frame binds, none has been removed, and no frame has been closed that binds
anything. -/
theorem Life.lists_members_iff (life : Life c born acts s) :
    s.graph.memberNames c = born ++ declared acts ∧
      (∀ name i, s.graph.member? c name = some i → name ∈ s.graph.memberNames c) ∧
      (s.graph.ListsMembers c ↔ born.Nodup ∧ ∀ e ∈ acts, e.2.Keeps e.1) := by
  obtain ⟨m, left⟩ := life.exists_leaves
  have names := Graph.memberNames_of_members? left.members
  refine ⟨names.trans left.list, fun name i found => ?_, ?_⟩
  · rw [Graph.member?_of_members? left.members] at found
    rw [names]
    exact left.sound.listed.subset (ScopeStack.isSome_get?_iff.mp (Option.isSome_of_eq_some found))
  · exact (Graph.listsMembers_iff left.members).trans left.match_iff

/-- A scope without names in it is opened and closed after a member was declared, which is listed
once. -/
theorem Life.lists_members_of_empty_scope :
    let start := Store.empty.addWorld.2.withInstance 0 ⟨"K", [], [], [], .none⟩
    let x : MemberAct := .add ⟨"x", .int 1, .none⟩
    let s := MemberAct.pop.run 1 (MemberAct.push.run 1 (x.run 1 start))
    Life 1 [] [(⟨[], [[("x", 0)]]⟩, .pop), (⟨[("x", 0)], []⟩, .push), (.base, x)] s ∧
      s.graph.memberNames 1 = ["x"] ∧ s.graph.ListsMembers 1 := by
  intro start x s
  have begun : Life 1 [] [] start := .new Store.empty.addWorld.2 0 ⟨"K", [], [], [], .none⟩ []
  have declared : Life 1 [] [(.base, x)] (x.run 1 start) := begun.acted rfl x trivial
  have life : Life 1 [] [(⟨[], [[("x", 0)]]⟩, .pop), (⟨[("x", 0)], []⟩, .push), (.base, x)] s :=
    (declared.acted rfl .push trivial).acted rfl .pop trivial
  obtain ⟨names, -, iff⟩ := life.lists_members_iff
  refine ⟨life, names, iff.mpr ⟨.nil, ?_⟩⟩
  have free : MemberAct.Keeps .base x := fun bound => Bool.noConfusion bound
  simp only [List.forall_mem_cons]
  exact ⟨rfl, trivial, free, fun _ he => nomatch he⟩

/-- A member is declared and removed again. Its name stays on the list. -/
theorem removed_member_listed :
    let start := Store.empty.addWorld.2.withInstance 0 ⟨"K", [], [], [], .none⟩
    let added := (MemberAct.add ⟨"x", .int 1, .none⟩).run 1 start
    let s := (MemberAct.remove "x").run 1 added
    (∃ acts, Life 1 [] acts s) ∧ s.graph.memberNames 1 = ["x"] ∧
      s.graph.member? 1 "x" = none ∧ ¬s.graph.ListsMembers 1 := by
  intro start added s
  have listed : s.graph.memberNames 1 = ["x"] := rfl
  have gone : s.graph.member? 1 "x" = none := rfl
  refine ⟨⟨_, .acted (.acted (.new Store.empty.addWorld.2 0 ⟨"K", [], [], [], .none⟩ []) rfl
    (.add _) trivial) rfl (.remove "x") trivial⟩, listed, gone, fun lists => ?_⟩
  have found := (lists.2 "x").mp (by rw [listed]; exact List.mem_singleton_self "x")
  rw [gone] at found
  cases found

end TreeScript
