import TreeScript.Proofs.Calls.Callee
import TreeScript.Proofs.Context.Binding

/-!
# Names in a call

What the names in the body of a function or a closure mean. A name that the call does not bind
itself means what it meant in the owner of the code when the call began, all the time that the call
lasts.
-/
namespace TreeScript

variable {m m₁ m' : Machine} {k o : CtxId} {n : Nat} {name : String} {args : List Arg}

/-- Later machines have the contexts of earlier ones, as long as nothing is let go. -/
theorem Machine.Later.sameUpTo (h : m.Later n m') (ho : m.outside = none)
    (hc : o < m.store.graph.size) : Graph.SameUpTo m.store.graph m'.store.graph o := by
  intro d hd
  have hlt := Nat.lt_of_le_of_lt hd hc
  exact ⟨h.extends.skeletons d hlt, h.isLive_eq ho hlt⟩

/-- Steps above `n` leave the bindings of the contexts below `n` alone. -/
theorem Machine.Later.bindingAt?_eq (h : m.Later n m') {s : Site}
    (hs : s.ctx < m.store.graph.size) (below : s.ctx < n) :
    m'.store.graph.bindingAt? name s = m.store.graph.bindingAt? name s := by
  cases s with
  | frames c =>
    have same := h.scopes?_eq (c := c) hs below
    rw [Graph.bindingAt?, Graph.bindingAt?, Graph.localBinding?, Graph.localBinding?, same]
  | arguments c =>
    have same := h.arguments?_eq (c := c) hs below
    rw [Graph.bindingAt?, Graph.bindingAt?, same]

namespace Graph

/-- The member that code owned by a context means by a name. -/
def enclosingMember? (g : Graph) (o : CtxId) (name : String) : Option CellId :=
  (g.enclosingObject? o).bind (g.member? · name)

/-- Look-up in a context of a call or a closure that has an owner, for a name that the context does
not bind itself. In a call the members of an enclosing instance would come first. -/
theorem binding?_of_owner {g : Graph} {kind : ContextKind} (hk : g.skeleton? k = some kind)
    (code : kind.isWorld = false ∧ kind.isObject = false) (howner : g.owner? k = some o)
    (hlocal : g.localBinding? k name = none)
    (hmember : (∃ owner function given, kind = .call owner function given) →
      g.enclosingMember? o name = none) :
    g.binding? k name = g.binding? o name := by
  have hchain : g.chain k = k :: g.chain o := by rw [chain_eq, howner]
  have hframes : g.bindingAt? name (.frames k) = none := hlocal
  rw [binding?, sites, hchain, sitesAlong, hk]
  cases kind with
  | world | object => simp [ContextKind.isWorld, ContextKind.isObject] at code
  | closure owner given =>
    rw [List.findSome?_cons, hframes]
    rfl
  | call owner function given =>
    have members := memberAlong_eq g name (g.chain o)
    rw [show (g.chain o).find? g.isObject = g.enclosingObject? o from rfl] at members
    have none := Option.map_eq_none_iff.mp (members.symm.trans (hmember ⟨_, _, _, rfl⟩))
    rw [List.findSome?_append, none, Option.none_or, List.findSome?_cons, hframes]
    rfl

end Graph

/-- Steps above `n` leave alone what names mean in the contexts below `n`. -/
theorem Machine.Later.binding?_eq (h : m.Later n m') (ho : m.outside = none)
    (hc : o < m.store.graph.size) (below : o < n) :
    m'.store.graph.binding? o name = m.store.graph.binding? o name := by
  rw [Graph.binding?, Graph.binding?, (h.sameUpTo ho hc).sites_eq]
  refine Graph.findSome?_congr fun s hs => ?_
  have hle : s.ctx ≤ o := Graph.le_of_mem_chainUpTo (Graph.mem_of_mem_sitesAlong hs)
  exact h.bindingAt?_eq (Nat.lt_of_le_of_lt hle hc) (Nat.lt_of_le_of_lt hle below)

theorem Machine.Later.owners_eq {m m' : Machine} {n : Nat} {o : CtxId} (h : m.Later n m')
    (ho : m.outside = none) (hc : o < m.store.graph.size) :
    m'.store.graph.owners o = m.store.graph.owners o := by
  rw [Graph.owners, Graph.owners, Graph.chain, Graph.chain, (h.sameUpTo ho hc).chainUpTo_eq]

theorem Machine.Later.enclosingMember?_eq (h : m.Later n m') (ho : m.outside = none)
    (hc : o < m.store.graph.size) (below : o < n) :
    m'.store.graph.enclosingMember? o name = m.store.graph.enclosingMember? o name := by
  have same := h.sameUpTo ho hc
  rw [Graph.enclosingMember?, Graph.enclosingMember?, Graph.enclosingObject?,
    Graph.enclosingObject?, Graph.memberAlong_eq, Graph.memberAlong_eq, Graph.chain, Graph.chain,
    same.chainUpTo_eq]
  have instances : (m.store.graph.chain o).find? m'.store.graph.isInstance =
      (m.store.graph.chain o).find? m.store.graph.isInstance := by
    refine List.find?_congr fun d hd => ?_
    rw [Graph.isInstance, Graph.isInstance, (same d (Graph.le_of_mem_chainUpTo hd)).1]
  rw [show m.store.graph.chainUpTo o o = m.store.graph.chain o from rfl, instances]
  refine congrArg _ (Graph.findSome?_congr fun s hs => ?_)
  obtain ⟨d, hd, rfl⟩ := Option.map_eq_some_iff.mp (Option.mem_toList.mp hs)
  have hle : d ≤ o := Graph.le_of_mem_chainUpTo (List.mem_of_find?_eq_some hd)
  exact h.bindingAt?_eq (s := .frames d) (Nat.lt_of_le_of_lt hle hc)
    (Nat.lt_of_le_of_lt hle below)

namespace Callee

/-- The member of an instance that a function means by a name. A closure finds it where it was
created, if at all. -/
def member? (g : Graph) (name : String) : Callee → Option CellId
  | .func f => g.enclosingMember? f.owner name
  | _ => none

/-- All the time that a call lasts, a name that it does not bind itself means what it meant in the
owner of the code when the call began. -/
theorem Prepared.binding?_eq {callee : Callee} (ready : callee.Prepared args m m₁ k)
    (code : callee.IsCode) (ho : m.outside = none) (hc : callee.owner < m.store.graph.size)
    (follow : m.store.graph.follow callee.owner = some callee.owner) (later : m₁.Later k m')
    (hlocal : m'.store.graph.localBinding? k name = none)
    (hmember : callee.member? m.store.graph name = none) :
    m'.store.graph.binding? k name = m.store.graph.binding? callee.owner name := by
  have all : m.Later k m' := (ready.new ▸ ready.later).trans later
  have hk : callee.owner < k := ready.new ▸ hc
  have skeleton : m'.store.graph.skeleton? k = some (callee.kind args).skeleton :=
    (later.extends.skeletons k ready.there).trans ready.skeleton
  rw [← all.binding?_eq ho hc hk]
  refine Graph.binding?_of_owner skeleton ?_ ?_ hlocal ?_
  · cases callee with
    | func | closure => exact ⟨rfl, rfl⟩
    | «class» => exact code.elim
  · refine Graph.owner?_of_skeleton skeleton ?_ hk ?_
    · cases callee <;> rfl
    · rw [(all.sameUpTo ho hc).follow_eq (Nat.le_refl _)]
      exact follow
  · cases callee with
    | func f =>
      rintro -
      rw [all.enclosingMember?_eq ho hc hk]
      exact hmember
    | closure cl => rintro ⟨owner, function, given, ⟨⟩⟩
    | «class» => exact code.elim

/-- A function is called only while its owner is there. -/
theorem isLive_of_prepare {f : Func} (ho : m.outside = none)
    (h : (func f).prepare args m = .ok k m₁) : m.store.graph.isLive f.owner = true := by
  obtain ⟨m₂, m₃, checked, -, -⟩ := prepare_eq_ok h
  obtain ⟨released, there⟩ := of_check checked
  exact released.unchanged ho ▸ there

theorem follow_of_prepare {callee : Callee} (code : callee.IsCode) (ho : m.outside = none)
    (h : callee.prepare args m = .ok k m₁) :
    m.store.graph.follow callee.owner = some callee.owner := by
  cases callee with
  | func f =>
    rw [owner, Graph.follow, isLive_of_prepare ho h]
    simp
  | closure cl =>
    obtain ⟨m₂, m₃, checked, -, -⟩ := prepare_eq_ok h
    obtain ⟨released, there⟩ := of_check checked
    exact released.unchanged ho ▸ there
  | «class» => exact code.elim

/-- What holds in the new context of a call at every machine that its code can get to, once the
call is prepared, holds there at every moment of the call. -/
theorem throughout_call {config : Config} {fuel : Nat} (callee : Callee) {span : Span}
    {P : CtxId → Machine → Prop} (code : callee.IsCode)
    (hP : ∀ m₁ m', callee.prepare args m = .ok m.store.graph.size m₁ →
      m₁.Later m.store.graph.size m' → P m.store.graph.size m') :
    Throughout config fuel (fun c m' => c = m.store.graph.size → P c m')
      (fun ev => callee.call ev args span) m := by
  intro watch hwatch
  have parts (ev : Evaluator) : callee.call ev args span =
      callee.prepare args >>= fun c => callee.enter ev c span := by
    cases callee with
    | func f => exact call_func f args ev span
    | closure cl => exact call_closure cl args ev span
    | «class» => exact code.elim
  dsimp only
  rw [parts, parts, Run.bind_apply, Run.bind_apply]
  cases h : callee.prepare args m with
  | error stop m₁ => rfl
  | ok k m₁ =>
    have ready := prepared h
    obtain rfl := ready.new
    have related := Run.Logic.watched_relates config (Nat.le_of_lt ready.there)
      (fun c m' later => hwatch c m' fun hc => hc ▸ hP m₁ m' h later) fuel
    have entered := enter_rel (c := m.store.graph.size) related callee span
    refine (entered m₁ .refl ?_).same fun m' later _ => later
    rintro c ⟨⟩
    exact ⟨Nat.le_refl _, ready.there⟩

end Callee

end TreeScript
