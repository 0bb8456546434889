import TreeScript.Proofs.Cells.Copies

/-!
# Types of cells

A cell keeps the type of the value that it was created with, whatever is written there. So a
variable and a member whose annotation was met when it was declared meet it for good.
-/
namespace TreeScript

variable {config : Config} {fuel : Nat} {m : Machine} {s t : Session}

namespace Work

variable {start : Store} {work : Work}

/-- At every moment of some work the cells are of the types that they are of before and behind. -/
theorem throughout_keepsTypes (config : Config) (fuel : Nat) {w : Ledger .all start}
    (h : work.Grounded m) (hm : m.store = w.store) :
    Throughout config fuel (fun _ m₁ =>
      w.store.KeepsTypes m₁.store ∧ m₁.store.KeepsTypes (work.after config fuel m).store) work.run
      m := by
  refine throughout_of_ledgers h hm fun _ m₁ w₁ w' before behind hm₁ left => ?_
  rw [hm₁, left]
  exact ⟨before.keepsTypes, behind.keepsTypes⟩

end Work

namespace Session

/-- All that a session is used for keeps the types of its cells. -/
theorem keepsTypes_of_steps (h : Relation.ReflTransGen GroundedStep s t) (hw : s.WorldThere)
    (closed : Region.all.Closed s.machine.store) :
    s.machine.store.KeepsTypes t.machine.store := by
  obtain ⟨⟨w, next, same⟩, -⟩ := reaches_of_steps (w := Ledger.beginAll closed) h hw rfl
  rw [← same]
  exact next.keepsTypes

end Session

/-- **Types.** At every moment of any work the cells are of the types that they were of at its
beginning and will be of at its end, so they are of the same types at any two moments, and in all
later uses of a session. A `let` that succeeds leaves a variable that meets its annotation, a new
instance has members that meet theirs, and a copy has members of the types of the ones that they are
copies of. A cell that meets an annotation meets it as long as it is of its type. -/
theorem types_never_change (config : Config) (fuel : Nat) :
    (∀ (work : Work) (m : Machine), Region.all.Closed m.store → work.Grounded m →
      Throughout config fuel (fun _ m₁ =>
        m.store.KeepsTypes m₁.store ∧
        m₁.store.KeepsTypes (work.after config fuel m).store ∧
        Throughout config fuel (fun _ m₂ => m₁.store.SameTypes m₂.store) work.run m)
        work.run m) ∧
    (∀ (m : Machine) (s t : Session), Region.all.Closed m.store →
      Session.GroundedReachable config fuel m s → Relation.ReflTransGen Session.GroundedStep s t →
      s.machine.store.KeepsTypes t.machine.store ∧
      ∀ work, t.MayDo work → work.Grounded t.machine →
        Throughout t.config t.fuel (fun _ m' => s.machine.store.KeepsTypes m'.store) work.run
          t.machine) ∧
    (∀ (m : Machine) (c : CtxId) (s : Stmt) (name : String) (type : TypeAnn) (e : Expr)
      (attrs : Attrs), Region.all.Closed m.store → c < m.store.graph.size →
      s.node = .letVar name (some type) e attrs →
      Run.Ends ((evaluator config fuel).stmt s c) m
        (fun _ m' => m'.store.Bears c name (some type)) fun _ => True) ∧
    (∀ (m : Machine) (decl : ClassDecl) (world : CtxId) (args : List Arg) (span : Span),
      Region.all.Closed m.store → m.MayCall (.class decl world) args →
      Run.Ends (Eval.instantiate (evaluator config fuel) decl world args span) m
        (fun v m' => ∃ o, v = .object o ∧ m.store.graph.size ≤ o ∧
          ∀ member ∈ decl.members, m'.store.HasMember o member) fun _ => True) ∧
    (∀ (s t : Store) (depth : Nat) (o o' : CtxId) (name : String) (j : CellId),
      Region.all.Closed s → o < s.graph.size → s.copyInstance depth o = some (o', t) →
      t.graph.member? o' name = some j →
      ∃ i, s.graph.member? o name = some i ∧ t.tag j = s.tag i) ∧
    ∀ (s t : Store) (i j : CellId) (type : TypeAnn), t.tag j = s.tag i →
      (t.Satisfies j type ↔ s.Satisfies i type) := by
  refine ⟨?_, ?_, ?_, ?_, ?_, ?_⟩
  · intro work m closed grounded
    have moments := Work.throughout_keepsTypes config fuel
      (w := Ledger.beginAll closed) grounded rfl
    refine moments.mono fun c m₁ ⟨before, behind⟩ => ⟨before, behind, ?_⟩
    exact moments.mono fun _ m₂ h => behind.sameTypes h.2
  · intro m s t closed reached steps
    obtain ⟨⟨w, same⟩, open_⟩ := reached.ledger closed
    have closed : Region.all.Closed s.machine.store := same ▸ w.closed
    have kept := Session.keepsTypes_of_steps steps open_ closed
    refine ⟨kept, fun work _ grounded => ?_⟩
    obtain ⟨⟨w', next, left⟩, -⟩ :=
      Session.reaches_of_steps (w := Ledger.beginAll closed) steps open_ rfl
    exact (Work.throughout_keepsTypes _ _ grounded left.symm).mono fun _ m' h =>
      kept.trans (left ▸ h.1)
  · intro m c s name type e attrs closed hc hs
    exact Eval.ends_let hs (w := Ledger.beginAll closed) rfl hc
  · intro m decl world args span closed may
    exact Eval.ends_instantiate (w := Ledger.beginAll closed) rfl may
  · intro s t depth o o' name j closed ho copied found
    exact (Ledger.beginAll closed).members_copyInstance ho copied found
  · intro s t i j type same
    exact Store.satisfies_of_tag same type

/-- A line declares a variable with an annotation, which it meets while another line assigns to it,
and after that. A class has a member with an annotation, which it meets in an instance. -/
theorem types_never_change_assign :
    let span : Span := ⟨0, 1⟩
    let value (n : Int64) : Expr := ⟨.int n, span⟩
    let start := Session.start ⟨[], none⟩ 3 (.start .empty .silent [] none)
    let s := (start.runLine ⟨.letVar "x" (some .int) (value 5) .none, span⟩).2
    let line : Stmt := ⟨.assign ⟨.name "x", span⟩ .plain (value 6), span⟩
    let member : MemberDecl := ⟨"n", some .int, value 1, .none, span⟩
    let decl : ClassDecl := ⟨"P", [], [member], [], .none⟩
    let classed := (start.runLine ⟨.defClass decl, span⟩).2.machine
    Throughout ⟨[], none⟩ 3 (fun _ m => m.store.Satisfies 0 .int) (Work.line line s.world).run
        s.machine ∧
      (s.runLine line).2.machine.store.Satisfies 0 .int ∧
      ∃ o m', Eval.instantiate (evaluator ⟨[], none⟩ 3) decl 0 [] span classed =
        .ok (.object o) m' ∧ m'.store.HasMember o member := by
  intro span value start s line member decl classed
  obtain ⟨-, sessions, -, instances, -, meets⟩ := types_never_change ⟨[], none⟩ 3
  have closed := Region.closed_empty
  have made := Session.GroundedStep.line start ⟨.defClass decl, span⟩
  have declared := Session.GroundedStep.line start
    ⟨.letVar "x" (some .int) (value 5) .none, span⟩
  have met : s.machine.store.Satisfies 0 .int := rfl
  have kept := (sessions _ s _ closed (.single declared) (.single (.line s line))).1
  refine ⟨?_, ?_, ?_⟩
  · obtain ⟨-, moments⟩ := sessions _ s s closed (.single declared) .refl
    refine (moments (.line line s.world) rfl ?_).mono fun _ m kept => ?_
    · exact fun c hc => List.mem_singleton.mp hc ▸ (by decide)
    · exact (meets _ _ 0 0 .int (kept.tags 0 (by decide))).mpr met
  · exact (meets _ _ 0 0 .int (kept.tags 0 (by decide))).mpr met
  · obtain ⟨⟨w, same⟩, -⟩ := Session.GroundedReachable.ledger (.single made) closed
    have may : classed.MayCall (.class decl 0) [] :=
      ⟨by decide, nofun, nofun⟩
    have ends := instances classed decl 0 [] span (same ▸ w.closed) may
    have succeeds : (Eval.instantiate (evaluator ⟨[], none⟩ 3) decl 0 [] span).stop? classed =
        none := by decide +kernel
    rw [Run.Ends] at ends
    rw [Run.stop?] at succeeds
    cases run : Eval.instantiate (evaluator ⟨[], none⟩ 3) decl 0 [] span classed with
    | ok v m' =>
      rw [run] at ends
      obtain ⟨o, rfl, -, has⟩ := ends
      exact ⟨o, m', rfl, has member List.mem_cons_self⟩
    | error stop m' =>
      rw [run] at succeeds
      cases succeeds

end TreeScript
