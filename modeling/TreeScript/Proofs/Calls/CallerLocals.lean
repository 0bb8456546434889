import TreeScript.Proofs.Calls.Resolution
import TreeScript.Session

/-!
# What a call sees of its caller

A function points back to the context that it was declared in, not to the scope in it. So a call
sees whatever is bound in that context when it begins, also in scopes that were opened since. The
locals of the caller are out of reach exactly as long as none of these scopes binds the name.
-/
namespace TreeScript

namespace Graph

variable {g : Graph} {o : CtxId} {d : Nat} {name : String} {β : Binding}

/-- A variable in reach of a declaration that is made in a context while so many frames are open
there: it is bound in one of these frames, or further out. -/
def InReach (g : Graph) (o : CtxId) (d : Nat) (β : Binding) : Prop :=
  (β.ctx = o ∧ β.height ≤ d) ∨ β.ctx ∈ g.owners o

theorem ctx_mem_of_sitesAlong {cs : List CtxId}
    (h : (g.sitesAlong cs).findSome? (g.bindingAt? name) = some β) : β.ctx ∈ cs := by
  obtain ⟨s, hs, hβ⟩ := List.exists_of_findSome?_eq_some h
  rw [ctx_of_bindingAt? hβ]
  exact mem_of_mem_sitesAlong hs

/-- In a context a name means what the frames there bind it to, or else something in reach of all
declarations, unless it is a member of an enclosing instance. -/
theorem binding?_split (hmember : g.enclosingMember? o name = none) :
    ∃ rest, g.binding? o name = (g.localBinding? o name).or rest ∧
      ∀ β, rest = some β → g.InReach o d β := by
  have outer (β : Binding)
      (h : (g.sitesAlong (g.owners o)).findSome? (g.bindingAt? name) = some β) :
      g.InReach o d β := .inr (ctx_mem_of_sitesAlong h)
  have frames : g.bindingAt? name (.frames o) = g.localBinding? o name := rfl
  rw [binding?, sites, chain_eq_cons, sitesAlong]
  cases hk : g.skeleton? o with
  | none =>
    refine ⟨none, ?_, ?_⟩
    · have absent : g.context? o = none := by simpa [skeleton?, kind?] using hk
      simp [localBinding?, scopes?, absent]
    · rintro β ⟨⟩
  | some kind =>
    cases kind with
    | world module classes imports =>
      refine ⟨none, ?_, ?_⟩
      · rw [findSome?_cons_or, frames]
        rfl
      · rintro β ⟨⟩
    | call owner function =>
      refine ⟨_, ?_, outer⟩
      have plain : g.isObject o = false := by rw [← isInstance_eq, isInstance, hk]; rfl
      rw [enclosingMember?, enclosingObject?, chain_eq_cons, List.find?_cons_of_neg (by simp [plain]),
        memberAlong_eq] at hmember
      rw [List.findSome?_append, Option.map_eq_none_iff.mp hmember, Option.none_or,
        findSome?_cons_or, frames]
    | object owner decl given arguments members =>
      refine ⟨(g.bindingAt? name (.arguments o)).or
        ((g.sitesAlong (g.owners o)).findSome? (g.bindingAt? name)), ?_, ?_⟩
      · rw [findSome?_cons_or, findSome?_cons_or, frames]
      · intro β hβ
        rcases Option.or_eq_some_iff.mp hβ with h | ⟨-, h⟩
        · obtain ⟨i, -, rfl⟩ := Option.map_eq_some_iff.mp h
          exact .inl ⟨rfl, Nat.zero_le d⟩
        · exact outer β h
    | closure owner =>
      refine ⟨_, ?_, outer⟩
      rw [findSome?_cons_or, frames]

/-- In a context all names mean variables in reach of a declaration exactly when no frame above
binds them. -/
theorem inReach_iff (hmember : g.enclosingMember? o name = none) :
    (∀ β, g.binding? o name = some β → g.InReach o d β) ↔ ¬g.BindsAbove o d name := by
  obtain ⟨rest, hb, hrest⟩ := binding?_split (d := d) hmember
  rw [bindsAbove_iff, hb]
  cases hl : g.localBinding? o name with
  | none =>
    simp only [Option.none_or]
    constructor
    · rintro - ⟨β, hβ, -⟩
      cases hβ
    · exact fun _ => hrest
  | some β =>
    have hctx : β.ctx = o := ctx_of_bindingAt? (s := .frames o) hl
    simp only [Option.some_or]
    constructor
    · rintro h ⟨β', hβ', hd⟩
      cases hβ'
      rcases h β rfl with ⟨-, hle⟩ | hin
      · omega
      · rw [hctx] at hin
        exact Nat.lt_irrefl _ (lt_of_mem_owners hin)
    · rintro h β' hβ'
      cases hβ'
      exact .inl ⟨hctx, Nat.not_lt.mp fun hd => h ⟨β, rfl, hd⟩⟩

end Graph

/-- No caller is seen in a call: a name that its context does not bind itself means a variable in
reach of the declaration, which was made with `d` frames open. -/
def Machine.SeesNoCaller (m : Machine) (k o : CtxId) (d : Nat) (name : String) : Prop :=
  m.store.graph.localVar? k name = none →
    ∀ β, m.store.graph.binding? k name = some β → m.store.graph.InReach o d β

/-- **Caller's locals.** A call of a function that was declared with `d` frames open in its owner
sees only variables in reach of the declaration, at every moment, as far as they are neither its own
nor members of an enclosing instance, exactly as long as no frame that was opened since in the owner
and is still open when the call begins binds the name. -/
theorem sees_caller_iff (config : Config) (fuel : Nat) (f : Func) (args : List Arg) (span : Span)
    (m : Machine) (d : Nat) (name : String) (ho : m.outside = none)
    (hmember : m.store.graph.enclosingMember? f.owner name = none) :
    Throughout config fuel
      (fun k m' => k = m.store.graph.size → m'.store.graph.localVar? k name = none →
        m'.store.graph.binding? k name = m.store.graph.binding? f.owner name ∧
        (m'.SeesNoCaller k f.owner d name ↔ ¬m.store.graph.BindsAbove f.owner d name))
      (fun ev => Eval.callFunc ev f args span) m := by
  refine Callee.throughout_call (.func f) trivial ?_
  intro m₁ m' h later hlocal
  have ready := Callee.prepared h
  have hc : f.owner < m.store.graph.size := Graph.lt_of_isLive (Callee.isLive_of_prepare ho h)
  have all : m.Later m.store.graph.size m' := ready.later.trans later
  have same := ready.binding?_eq trivial ho hc (Callee.follow_of_prepare trivial ho h) later
    (Graph.localBinding?_eq_none hlocal) hmember
  refine ⟨same, ?_⟩
  rw [← Graph.inReach_iff hmember]
  have owners := all.owners_eq ho hc
  simp only [Machine.SeesNoCaller, hlocal, forall_const, same, Graph.InReach, owners]
  rfl

/-- `def callee() { return secret; }` -/
def calleeFunc : FuncDecl :=
  ⟨"callee", [], none, [⟨.ret (some ⟨.name "secret", ⟨23, 29⟩⟩), ⟨16, 30⟩⟩], .none⟩

/-- A call from a block that binds the name: the block is open in the World when the call begins, so
the call sees what it binds. -/
theorem sees_caller_iff_block :
    let m₀ := (Session.start ⟨[], none⟩ 4 (.start .empty .silent [] none)).machine
    let opened := m₀.store.modifyGraph (·.pushScope 0)
    let m := { m₀ with store := opened.bindNew 0 ⟨"secret", .int 1, .none⟩ }
    m.outside = none ∧ m.store.graph.enclosingMember? 0 "secret" = none ∧
      m.store.graph.BindsAbove 0 1 "secret" ∧
      Throughout ⟨[], none⟩ 4
        (fun k m' => k = 1 → m'.store.graph.localVar? k "secret" = none →
          m'.store.graph.binding? k "secret" = some ⟨0, 2, 0⟩ ∧ ¬m'.SeesNoCaller k 0 1 "secret")
        (fun ev => Eval.callFunc ev ⟨calleeFunc, 0⟩ [] ⟨0, 8⟩) m := by
  intro m₀ opened m
  have above : m.store.graph.BindsAbove 0 1 "secret" :=
    Graph.bindsAbove_iff.mpr ⟨⟨0, 2, 0⟩, rfl, Nat.lt_succ_self 1⟩
  refine ⟨rfl, rfl, above, ?_⟩
  refine (sees_caller_iff ⟨[], none⟩ 4 ⟨calleeFunc, 0⟩ [] ⟨0, 8⟩ m 1 "secret" rfl rfl).mono ?_
  intro k m' h hk hlocal
  obtain ⟨same, iff⟩ := h hk hlocal
  exact ⟨same, fun none => iff.mp none above⟩

/-- Whether a call sees a frame of its owner that was opened after the declaration. -/
def Machine.seesCaller (m : Machine) (k o : CtxId) (d : Nat) (name : String) : Bool :=
  (m.store.graph.localVar? k name).isNone &&
    (m.store.graph.binding? k name).any fun β => β.ctx == o && decide (d < β.height)

theorem Machine.not_seesNoCaller {m : Machine} {k o : CtxId} {d : Nat} {name : String}
    (h : m.seesCaller k o d name = true) : ¬m.SeesNoCaller k o d name := by
  intro none
  rw [seesCaller, Bool.and_eq_true, Option.any_eq_true] at h
  obtain ⟨hlocal, β, hβ, bound⟩ := h
  rw [Bool.and_eq_true, beq_iff_eq, decide_eq_true_iff] at bound
  obtain ⟨rfl, hd⟩ := bound
  rcases none (Option.isNone_iff_eq_none.mp hlocal) β hβ with ⟨-, hle⟩ | owner
  · exact Nat.not_lt.mpr hle hd
  · exact Nat.lt_irrefl _ (Graph.lt_of_mem_owners owner)

/-- `def callee() { return secret; }  { let secret = 1; callee(); }`: the function is declared in the
World with its base frame open, and its call sees the variable of the block around the call. -/
theorem sees_local_of_block :
    Sometime ⟨[], none⟩ 6 (fun k m => k = 1 ∧ ¬m.SeesNoCaller k 0 1 "secret")
      (fun ev => Eval.program ev 0
        [⟨.defFunc calleeFunc, ⟨0, 32⟩⟩,
          ⟨.block
            [⟨.letVar "secret" none ⟨.int 1, ⟨49, 50⟩⟩ .none, ⟨36, 51⟩⟩,
              ⟨.expr ⟨.call "callee" [], ⟨52, 60⟩⟩, ⟨52, 61⟩⟩], ⟨34, 63⟩⟩])
      (Session.start ⟨[], none⟩ 6 (.start .empty .silent [] none)).machine := by
  refine .of_alarm (fun k m => k == 1 && m.seesCaller k 0 1 "secret") ?_ (by decide +kernel)
  intro k m h
  rw [Bool.and_eq_true, beq_iff_eq] at h
  exact ⟨h.1, Machine.not_seesNoCaller h.2⟩

end TreeScript
