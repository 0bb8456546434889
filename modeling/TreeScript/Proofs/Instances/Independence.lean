import TreeScript.Proofs.Calls.Resolution
import TreeScript.Proofs.Instances.Duplicates
import TreeScript.Session

/-!
# Copies are independent

A copy unfolds into what the original unfolds into, and shares no instance and no cell of a member
with it. So nothing that is written to the members of the one is seen through the other. In a method
the names of members mean the members of the instance that has the method, for as long as the call
lasts. What the two still share are closures, files and modules.
-/
namespace TreeScript

namespace Store

variable {P : CtxId → Prop} {Q Q' : CellId → Prop} {s t : Store} {v : Value}

/-- The cells of a value: those of the members of all instances that it leads to. -/
def Owns (s : Store) (v : Value) (i : CellId) : Prop :=
  ∃ c name, s.Reaches v c ∧ s.graph.member? c name = some i

theorem Sealed.owns (sound : s.Sealed P Q) (hv : ∀ c, v.HasInstance c → P c) {i : CellId}
    (h : s.Owns v i) : Q i := by
  obtain ⟨c, name, reached, member⟩ := h
  exact sound.cells c name i (sound.reaches hv reached) member

/-- A value is written to a cell that satisfies `Q`, or something is added. -/
inductive Write (Q : CellId → Prop) : Store → Store → Prop where
  | written {s : Store} {i : CellId} (hi : Q i) (value : Value) : Write Q s (s.setValue i value)
  | added {s t : Store} (h : s.Adds t) : Write Q s t

/-- Any number of values are written to cells that satisfy `Q`, and anything is added meanwhile. -/
def Writes (Q : CellId → Prop) : Store → Store → Prop := Relation.ReflTransGen (Write Q)

theorem Write.grows (h : s.Write Q t) : s.Extends t := by
  cases h with
  | written hi value => exact .ofCells rfl (by simp [setValue])
  | added h => exact h.grows

/-- One write is seen only in the cell that is written. -/
theorem Write.agree (h : s.Write Q t) :
    Agree (· < s.graph.size) (fun i => i < s.cells.size ∧ ¬Q i) s t := by
  cases h with
  | @written i hi value =>
    refine ⟨fun _ _ => rfl, fun j hj => ?_⟩
    have other : i ≠ j := fun same => hj.2 (same ▸ hi)
    rw [cell?, setValue, Array.getElem?_modify, if_neg other]
    rfl
  | added h => exact h.agree.mono (fun _ hc => hc) fun _ hi => hi.1

/-- Writes are seen only in the cells that are written. -/
theorem Writes.agree (h : s.Writes Q t) :
    s.Extends t ∧ Agree (· < s.graph.size) (fun i => i < s.cells.size ∧ ¬Q i) s t := by
  induction h with
  | refl => exact ⟨.refl s, fun _ _ => rfl, fun _ _ => rfl⟩
  | tail _ write ih =>
    obtain ⟨grown, same⟩ := ih
    refine ⟨grown.trans write.grows, fun c hc => ?_, fun i hi => ?_⟩
    · exact (write.agree.contexts c (Nat.lt_of_lt_of_le hc grown.contexts)).trans
        (same.contexts c hc)
    · exact (write.agree.cells i ⟨Nat.lt_of_lt_of_le hi.1 grown.cells, hi.2⟩).trans
        (same.cells i hi)

/-- What leads to no cell that is written unfolds as before. -/
theorem Sealed.unfold_writes (sound : s.Sealed P Q) (hv : ∀ c, v.HasInstance c → P c)
    (there : ∀ c, P c → c < s.graph.size) (writes : s.Writes Q' t)
    (apart : ∀ i, Q i → i < s.cells.size ∧ ¬Q' i) (depth : Nat) :
    t.unfold depth v = s.unfold depth v :=
  sound.unfold_eq (writes.agree.2.mono there apart) hv depth

end Store

namespace Graph

variable {g : Graph} {c call : CtxId} {name function : String} {i : CellId}

/-- In a call of a function of an instance, a member's name means the member. -/
theorem var?_of_member {given : List (Param × Arg)}
    (hk : g.kind? call = some (.call c function given)) (older : c < call)
    (member : g.member? c name = some i) : g.var? call name = some i := by
  have object : g.isObject c = true := by
    by_contra h
    rw [member?, if_neg h] at member
    cases member
  have follow : g.follow c = some c := by
    rw [Graph.follow, isWorld_of_isObject object]
    rfl
  have owner : g.owner? call = some c := by
    rw [owner?, hk]
    show (if c < call then g.follow c else none) = some c
    rw [if_pos older, follow]
  have nearest : (g.chain c).find? g.isObject = some c := by
    rw [chain_eq_cons, List.find?_cons, object]
  have chain : g.chain call = call :: g.chain c := by rw [chain_eq, owner]
  rw [var?, chain, varAlong?, hk]
  show (((g.chain c).find? g.isObject).bind (g.member? · name)).or _ = _
  rw [nearest, Option.bind_some, member, Option.some_or]

end Graph

/-- All the time that a call of the function lasts, the names of the members of the instance that
has it mean these members. -/
def Func.KeepsToMembers (f : Func) : Prop :=
  ∀ {m m₁ m' : Machine} {args : List Arg} {call : CtxId},
    (Callee.func f).prepare args m = .ok call m₁ → m₁.Later call m' →
    ∀ {name : String} {i : CellId}, m.store.graph.member? f.owner name = some i →
      m'.store.graph.var? call name = some i

theorem Func.keepsToMembers (f : Func) : f.KeepsToMembers := by
  intro m m₁ m' args call h later name i member
  have ready := Callee.prepared h
  have object : m.store.graph.isObject f.owner = true := by
    by_contra h
    rw [Graph.member?, if_neg h] at member
    cases member
  have there : f.owner < m.store.graph.size := Graph.lt_of_isObject object
  have older : f.owner < call := ready.new ▸ there
  have all : m.Later call m' := (ready.new ▸ ready.later).trans later
  let given := f.decl.params.zip args
  have skeleton : m'.store.graph.skeleton? call = some (.call f.owner f.decl.name given) :=
    (later.extends.skeletons call ready.there).trans ready.skeleton
  have kind : m'.store.graph.kind? call = some (.call f.owner f.decl.name given) := by
    obtain ⟨kind, hk, same⟩ := Option.map_eq_some_iff.mp skeleton
    cases kind with
    | call => exact hk.trans (congrArg some same)
    | _ => cases same
  refine Graph.var?_of_member kind older ?_
  have object' : m'.store.graph.isObject f.owner = true :=
    (all.extends.isObject_eq there).trans object
  rw [Graph.member?, if_pos object', Graph.localVar?_of_scopes? (all.scopes?_eq there older)]
  rwa [Graph.member?, if_pos object] at member

/-- `t` has come from `s` by making `v'`, a copy of `v` that is independent of it. -/
structure Store.IndependentCopy (s t : Store) (v v' : Value) : Prop where
  /-- Nothing that was there is changed. -/
  contexts : ∀ c < s.graph.size, t.graph.context? c = s.graph.context? c
  cells : ∀ i < s.cells.size, t.cell? i = s.cell? i
  closures : t.nextClosure = s.nextClosure
  /-- All contexts that are created are instances. Their constructor arguments are gone, all that
  they bind are members, and their methods are those of their class. -/
  built : ∀ c, s.graph.size ≤ c → c < t.graph.size → t.graph.IsBuilt c
  /-- The instances that the copy leads to are new, and so are the cells of their members. -/
  fresh : ∀ c, t.Reaches v' c → s.graph.size ≤ c ∧ c < t.graph.size
  freshCells : ∀ i, t.Owns v' i → s.cells.size ≤ i ∧ i < t.cells.size
  /-- The original and the copy unfold into the same tree. -/
  unfolds : ∃ depth tree, s.unfold depth v = some tree ∧ t.unfold depth v' = some tree
  trees : ∀ depth, t.unfold depth v' = s.unfold depth v
  /-- Each method of an instance in the copy is a function of that instance. -/
  methods : ∀ c, t.Reaches v' c → ∀ name f, t.graph.localFunc? c name = some f → f.owner = c
  /-- The functions of instances, in the copy and in the original, keep to the members of the
  instance that has them. -/
  calls : ∀ f : Func, t.Reaches v' f.owner ∨ t.Reaches v f.owner → f.KeepsToMembers
  /-- Nothing that is written to the members of the copy is seen through the original. -/
  original : ∀ u, t.Writes (t.Owns v') u → ∀ depth, u.unfold depth v = s.unfold depth v
  /-- Nothing that is written to the members of the original is seen through the copy. -/
  copy : ∀ u, t.Writes (t.Owns v) u → ∀ depth, u.unfold depth v' = s.unfold depth v

/-- A duplicate that has been added to a whole store is independent of what it duplicates. -/
theorem Store.Duplicate.independent {s t : Store} {v v' : Value} {depth : Nat} (whole : s.Whole)
    (unfolds : s.Unfolds depth v) (added : s.AddsInstances t) (duplicate : Duplicate s t v v') :
    s.IndependentCopy t v v' := by
  have inside : ∀ c, v.HasInstance c → c < s.graph.size := fun c has => (unfolds c has).1
  have old : t.Sealed (· < s.graph.size) (· < s.cells.size) := whole.of_agree added.agree
  have fresh : ∀ c, t.Reaches v' c → s.graph.size ≤ c ∧ c < t.graph.size := by
    intro c reached
    obtain ⟨new, there⟩ := added.sound.reaches duplicate.instances reached
    refine ⟨Nat.le_of_not_lt fun lt => ?_, there⟩
    have object : s.graph.isObject c = true := (added.grows.isObject_eq lt).symm.trans reached.1
    cases object.symm.trans new
  have freshCells : ∀ i, t.Owns v' i → s.NewCell t i := fun i =>
    added.sound.owns duplicate.instances
  obtain ⟨tree, tree_eq⟩ := Option.isSome_iff_exists.mp unfolds.isSome
  constructor
  · exact added.agree.contexts
  · exact added.agree.cells
  · exact added.closures
  · exact added.built
  · exact fresh
  · exact freshCells
  · exact ⟨depth, tree, tree_eq, (duplicate.tree depth).trans tree_eq⟩
  · exact duplicate.tree
  · intro c reached name f found
    obtain ⟨ge, lt⟩ := fresh c reached
    obtain ⟨owner, decl, members, -, -, methods⟩ := added.built c ge lt
    obtain ⟨method, -, rfl⟩ := Option.map_eq_some_iff.mp ((methods name).symm.trans found)
    rfl
  · exact fun f _ => f.keepsToMembers
  · intro u writes depth
    have apart : ∀ i < s.cells.size, i < t.cells.size ∧ ¬t.Owns v' i := fun i hi =>
      ⟨Nat.lt_of_lt_of_le hi added.room, fun owns => Nat.not_lt.mpr (freshCells i owns).1 hi⟩
    have there : ∀ c < s.graph.size, c < t.graph.size := fun c hc =>
      Nat.lt_of_lt_of_le hc added.size
    exact (old.unfold_writes inside there writes apart depth).trans
      (added.unfold_eq whole inside depth)
  · intro u writes depth
    have apart : ∀ i, s.NewCell t i → i < t.cells.size ∧ ¬t.Owns v i := fun i hi =>
      ⟨hi.2, fun owns => Nat.not_lt.mpr hi.1 (old.owns inside owns)⟩
    exact (added.sound.unfold_writes duplicate.instances (fun _ hc => hc.2) writes apart
      depth).trans (duplicate.tree depth)

/-- **Copies.** A value in which no instance contains itself is copied to the end. The copy is
independent of the value and unfolds into the same tree; all that a copy does to a machine is to add
instances and cells. -/
theorem copies_independent (m : Machine) (v : Value) (closed : Region.all.Closed m.store)
    (within : v.Within (Region.all.Ctx m.store))
    (acyclic : ∀ c, m.store.Reaches v c → ¬Relation.TransGen m.store.Contains c c) :
    ∃ v' t, Run.copy v m = .ok v' { m with store := t } ∧ m.store.IndependentCopy t v v' := by
  have whole := Store.whole_of_closed closed
  have inside : ∀ c, v.HasInstance c → c < m.store.graph.size := fun c has =>
    (within.of_hasInstance has).2
  have unfolds := Store.unfolds_of_acyclic whole inside acyclic
  obtain ⟨v', t, copied, added, duplicate⟩ := Store.copies_all _ v m.store whole unfolds
  refine ⟨v', t, ?_, duplicate.independent whole unfolds added⟩
  rw [Run.copy, Store.copy, copied]

/-- An instance holds another one in a list that a member of it has. -/
theorem copies_independent_nested :
    let box : ClassDecl := ⟨"Box", [], [], [], .none⟩
    let item : ClassDecl := ⟨"Item", [], [], [], .none⟩
    let world := Store.empty.addWorld.2
    let boxed := (world.addContext (.object 0 box [] [] [])).2
    let instances := (boxed.addContext (.object 0 item [] [] [])).2
    let filled := instances.bindNew 2 ⟨"x", .int 1, .none⟩
    let s := filled.bindNew 1 ⟨"items", .list [.object 2], .none⟩
    let m : Machine := { Machine.start .empty .silent [] none with store := s }
    Region.all.Closed s ∧ (Value.object 1).Within (Region.all.Ctx s) ∧
      (∀ c, s.Reaches (.object 1) c → ¬Relation.TransGen s.Contains c c) ∧
      ∃ v' t, Run.copy (.object 1) m = .ok v' { m with store := t } ∧
        s.IndependentCopy t (.object 1) v' := by
  intro box item world boxed instances filled s m
  have empty : Region.all.Closed Store.empty := Region.closed_empty
  have closedWorld : Region.all.Closed world := empty.addContext (by rintro _ ⟨⟩) ⟨rfl, rfl⟩
  have closedInstances : Region.all.Closed instances := by
    refine (closedWorld.addContext ?_ ⟨rfl, rfl⟩).addContext ?_ ⟨rfl, rfl⟩
    · rintro _ ⟨⟩
      exact ⟨Nat.zero_le _, by decide⟩
    · rintro _ ⟨⟩
      exact ⟨Nat.zero_le _, by decide⟩
  have closedFilled : Region.all.Closed filled :=
    (closedInstances.addCell (Value.within_int 1)).update fun ctx within =>
      within.bindVar "x" ⟨Nat.zero_le 0, by decide⟩
  have closed : Region.all.Closed s := by
    refine (closedFilled.addCell ?_).update fun ctx within =>
      within.bindVar "items" ⟨Nat.zero_le 1, by decide⟩
    refine Value.within_list.mpr (List.forall_mem_singleton.mpr ?_)
    exact Value.within_object.mpr ⟨Nat.zero_le 2, by decide⟩
  have within : (Value.object 1).Within (Region.all.Ctx s) :=
    Value.within_object.mpr ⟨Nat.zero_le 1, by decide⟩
  have items : s.members 1 = [("items", ⟨"items", .list [.object 2], .none⟩)] := rfl
  have x : s.members 2 = [("x", ⟨"x", .int 1, .none⟩)] := rfl
  have upward : ∀ c d, s.Contains c d → c < d := by
    intro c d h
    have object := Store.isObject_of_contains h
    have there : c < 3 := Graph.lt_of_isObject object
    obtain ⟨e, he, has⟩ := h
    rcases c with _ | _ | _ | c
    · cases object
    · rw [items, List.mem_singleton] at he
      have here : 2 = d := by simpa [he] using has
      exact here ▸ Nat.lt_succ_self 1
    · rw [x, List.mem_singleton] at he
      rw [he, Value.hasInstance_iff] at has
      simp [Value.children] at has
    · exact absurd there (Nat.not_lt.mpr (Nat.le_add_left 3 c))
  have acyclic : ∀ c, s.Reaches (.object 1) c → ¬Relation.TransGen s.Contains c c := by
    intro c _ cycle
    have climbs : ∀ d, Relation.TransGen s.Contains c d → c < d := by
      intro d path
      induction path with
      | single step => exact upward _ _ step
      | tail _ step ih => exact Nat.lt_trans ih (upward _ _ step)
    exact Nat.lt_irrefl c (climbs c cycle)
  exact ⟨closed, within, acyclic, copies_independent m (.object 1) closed within acyclic⟩

/-- The copy of an instance whose member is a closure shares the closure with the original. A method
of the copy calls it, and it writes to the original, whose member it has captured. -/
theorem shared_closure_writes :
    let span : Span := ⟨0, 1⟩
    let expr (node : ExprNode) : Expr := ⟨node, span⟩
    let shown : Attrs := ⟨true, false, false⟩
    let write : ExprNode := .closure [] [⟨.assign (expr (.name "x")) .plain (expr (.int 2)), span⟩]
    let go : FuncDecl := ⟨"go", [], none, [⟨.expr (expr (.call "f" [])), span⟩], shown⟩
    let classDecl : ClassDecl := ⟨"C", [],
      [⟨"x", none, expr (.int 1), shown, span⟩, ⟨"f", none, expr write, shown, span⟩], [go], .none⟩
    let program : Program := [⟨.defClass classDecl, span⟩,
      ⟨.letVar "a" none (expr (.call "C" [])) .none, span⟩,
      ⟨.letVar "b" none (expr (.call "copy" [expr (.name "a")])) .none, span⟩]
    let start := Session.start ⟨[], none⟩ 8 (.start .empty .silent [] none)
    let s := (start.runProgram program).2
    let line (receiver : String) (access : ExprNode) : Stmt :=
      ⟨.expr (expr (.member (expr (.name receiver)) (expr access))), span⟩
    let called := (s.runLine (line "b" (.call "go" []))).2
    let read (s : Session) : Option Int64 :=
      match (s.runLine (line "a" (.name "x"))).1 with
      | .value v => v.asInt?
      | _ => none
    (start.runProgram program).1 = .completed ∧
      (s.machine.store.graph.localFunc? 2 "go").map (·.owner) = some 2 ∧
      read s = some 1 ∧ read called = some 2 := by
  decide +kernel

end TreeScript
