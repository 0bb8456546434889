import TreeScript.Proofs.Calls.Callee
import TreeScript.Proofs.Cells.Annotations

/-!
# Values under annotations

Where a value is bound under an annotation it has to satisfy it, or to be an integer that becomes a
floating-point number. Variables, members, parameters and results are bound like this, with one
exception: a parameter that is a reference is the variable of the caller as it is, even if it passes
only as an integer that would become a floating-point number.
-/
namespace TreeScript

variable {m m₁ m' : Machine} {c k : CtxId} {i : CellId} {name : String} {type : Option TypeAnn}
  {T : TypeAnn} {v v' : Value}

namespace Value

variable {h h' : Handles}

/-- A value as it is bound under an annotation: the value itself if it satisfies the annotation, and
an integer as a floating-point number where one is wanted. -/
inductive BoundAs (h : Handles) : Option TypeAnn → Value → Value → Prop
  | unannotated (v : Value) : BoundAs h Option.none v v
  | fitting {T : TypeAnn} {v : Value} (met : v.hasType h T = true) : BoundAs h (Option.some T) v v
  | promoted (n : Int64) : BoundAs h (Option.some TypeAnn.float) (.int n) (.float n.toFloat)

/-- The value cannot be bound under the annotation. -/
structure Misfits (h : Handles) (T : TypeAnn) (v : Value) : Prop where
  unmet : v.hasType h T = false
  unpromoted : T = .float → v.kind ≠ .int

theorem BoundAs.met (bound : BoundAs h type v v') : ∀ T ∈ type, v'.hasType h T = true := by
  cases bound with
  | unannotated => nofun
  | fitting met =>
    rintro T ⟨⟩
    exact met
  | promoted n =>
    rintro T ⟨⟩
    rfl

/-- Promotion is the only change that is made to a value. -/
theorem BoundAs.eq_or_promoted (bound : BoundAs h type v v') :
    v' = v ∨ type = Option.some TypeAnn.float ∧ ∃ n, v = .int n ∧ v' = .float n.toFloat := by
  cases bound with
  | unannotated => exact .inl rfl
  | fitting => exact .inl rfl
  | promoted n => exact .inr ⟨rfl, n, rfl, rfl⟩

theorem annotate_of_boundAs (bound : BoundAs h type v v') : v.annotate h type = .ok v' := by
  cases bound with
  | unannotated => rfl
  | promoted n => rfl
  | @fitting T v met =>
    unfold annotate
    split
    · rfl
    · rename_i n float
      cases float
      cases met
    · rename_i same _
      cases same
      exact if_pos met

theorem annotate_of_misfits (misfits : Misfits h T v) :
    v.annotate h (Option.some T) = .error (.typeMismatch T.text (v.typeName h)) := by
  unfold annotate
  split
  · rename_i impossible
    cases impossible
  · rename_i float
    cases float
    exact absurd rfl (misfits.unpromoted rfl)
  · rename_i same _
    cases same
    exact if_neg (Bool.eq_false_iff.mp misfits.unmet)

theorem boundAs_or_misfits (h : Handles) (type : Option TypeAnn) (v : Value) :
    (∃ v', BoundAs h type v v') ∨ ∃ T, type = Option.some T ∧ Misfits h T v := by
  cases type with
  | none => exact .inl ⟨v, .unannotated v⟩
  | some T =>
    cases met : v.hasType h T with
    | true => exact .inl ⟨v, .fitting met⟩
    | false =>
      by_cases promotes : T = .float ∧ v.kind = .int
      · obtain ⟨rfl, int⟩ := promotes
        cases v with
        | int n => exact .inl ⟨_, .promoted n⟩
        | _ => cases int
      · exact .inr ⟨T, rfl, met, fun float int => promotes ⟨float, int⟩⟩

theorem annotate_eq_ok_iff : v.annotate h type = .ok v' ↔ BoundAs h type v v' := by
  refine ⟨fun ok => ?_, annotate_of_boundAs⟩
  rcases boundAs_or_misfits h type v with ⟨w, bound⟩ | ⟨T, rfl, misfits⟩
  · cases ok.symm.trans (annotate_of_boundAs bound)
    exact bound
  · cases ok.symm.trans (annotate_of_misfits misfits)

/-- Annotations tell instances apart by the names of their classes. -/
theorem hasType_congr (same : ∀ c, h'.className c = h.className c) (T : TypeAnn) (v : Value) :
    v.hasType h' T = v.hasType h T := by
  cases T <;> cases v <;> simp only [hasType, same]

theorem BoundAs.congr (bound : BoundAs h type v v')
    (same : ∀ c, h'.className c = h.className c) : BoundAs h' type v v' := by
  cases bound with
  | unannotated => exact .unannotated v
  | fitting met => exact .fitting ((hasType_congr same _ _).trans met)
  | promoted n => exact .promoted n

/-- What passes a check satisfies the annotation, unless it passes as an integer that would become a
floating-point number. -/
theorem BoundAs.hasType_iff (bound : BoundAs h (Option.some T) v v') :
    v.hasType h T = true ↔ ¬(T = .float ∧ v.kind = .int) := by
  cases bound with
  | fitting met =>
    refine iff_of_true met ?_
    rintro ⟨rfl, int⟩
    rw [hasType, int] at met
    cases met
  | promoted n =>
    refine iff_of_false (fun met => ?_) fun fits => fits ⟨rfl, rfl⟩
    cases met

end Value

namespace Run

variable {α : Type}

/-- One run binds the value that another one gives under an annotation. If it succeeds the value is
bound as the annotation has it, and what is bound satisfies the annotation. If the value is a misfit
that is a mismatch of types, and the machine is left as the value left it. -/
structure BindsUnder (type : Option TypeAnn) (value : Run Value) (x : Run α) (m : Machine)
    (holds : α → Machine → Value → Prop) : Prop where
  binds : ∀ a m', x m = .ok a m' → ∃ v m₁ v', value m = .ok v m₁ ∧
    v.BoundAs m₁.handles type v' ∧ holds a m' v' ∧ ∀ T ∈ type, v'.hasType m'.handles T = true
  refuses : ∀ v m₁ T, value m = .ok v m₁ → type = some T → v.Misfits m₁.handles T →
    ∃ e raised, x m = .error (.failed e raised) m₁ ∧
      e.fault = .typeMismatch T.text (v.typeName m₁.handles)

/-- A check of a value, whatever it is that is told of its failure. -/
def checking (tell : Failure → Failure) (type : Option TypeAnn) (v : Value) : Run Value :=
  mapFailure (fun _ => tell) do ofExcept (v.annotate (← handles) type)

variable {tell : Failure → Failure} {value : Run Value} {holds : Value → Machine → Value → Prop}

theorem checking_of_boundAs (bound : v.BoundAs m.handles type v') :
    checking tell type v m = .ok v' m := by
  show mapFailure _ (ofExcept (v.annotate m.handles type)) m = _
  rw [Value.annotate_of_boundAs bound]
  rfl

theorem checking_of_misfits (misfits : v.Misfits m.handles T) :
    let fault := Fault.typeMismatch T.text (v.typeName m.handles)
    checking tell (some T) v m =
      .error (.failed (tell (.ofFault fault)) ⟨fault, m.calls.frames⟩) m := by
  intro fault
  show mapFailure _ (ofExcept (v.annotate m.handles (some T))) m = _
  rw [Value.annotate_of_misfits misfits]
  rfl

/-- Binding a value by what is done with it once it has been checked. -/
theorem BindsUnder.of_checking {rest : Value → Run α} {holds : α → Machine → Value → Prop}
    (tells : ∀ e, (tell e).fault = e.fault)
    (go : ∀ v m₁ v' a m', value m = .ok v m₁ → v.BoundAs m₁.handles type v' →
      rest v' m₁ = .ok a m' →
      holds a m' v' ∧ ∀ c, m'.handles.className c = m₁.handles.className c) :
    BindsUnder type value (value >>= fun v => checking tell type v >>= rest) m holds where
  binds a m' ok := by
    obtain ⟨v, m₁, given, ok⟩ := bind_eq_ok ok
    rcases Value.boundAs_or_misfits m₁.handles type v with ⟨v', bound⟩ | ⟨T, rfl, misfits⟩
    · rw [bind_of_ok _ (checking_of_boundAs bound)] at ok
      obtain ⟨held, same⟩ := go v m₁ v' a m' given bound ok
      refine ⟨v, m₁, v', given, bound, held, fun T hT => ?_⟩
      rw [Value.hasType_congr same]
      exact bound.met T hT
    · rw [bind_apply, checking_of_misfits misfits] at ok
      cases ok
  refuses v m₁ T given annotated misfits := by
    subst annotated
    let fault := Fault.typeMismatch T.text (v.typeName m₁.handles)
    refine ⟨tell (.ofFault fault), ⟨fault, m₁.calls.frames⟩, ?_, tells _⟩
    rw [bind_of_ok _ given, bind_apply, checking_of_misfits misfits]

theorem BindsUnder.weaken {x : Run α} {holds holds' : α → Machine → Value → Prop}
    (h : BindsUnder type value x m holds) (weaker : ∀ a m' v, holds a m' v → holds' a m' v) :
    BindsUnder type value x m holds' where
  binds a m' ok := by
    obtain ⟨v, m₁, v', given, bound, held, met⟩ := h.binds a m' ok
    exact ⟨v, m₁, v', given, bound, weaker a m' v' held, met⟩
  refuses := h.refuses

/-- Telling more of failures makes no difference to bindings. -/
theorem BindsUnder.mapFailure {x : Run α} {holds : α → Machine → Value → Prop}
    (h : BindsUnder type value x m holds) {tell : Machine → Failure → Failure}
    (tells : ∀ m e, (tell m e).fault = e.fault) :
    BindsUnder type value (x.mapFailure tell) m holds where
  binds a m' ok := by
    refine h.binds a m' ?_
    rw [Run.mapFailure] at ok
    cases hx : x m with
    | ok b m₂ =>
      rw [hx] at ok
      exact ok
    | error stop m₂ =>
      rw [hx] at ok
      cases ok
  refuses v m₁ T given annotated misfits := by
    obtain ⟨e, raised, refused, fault⟩ := h.refuses v m₁ T given annotated misfits
    refine ⟨tell m₁ e, raised, ?_, (tells m₁ e).trans fault⟩
    rw [Run.mapFailure, refused]
    rfl

/-- What only succeeds further on binds nothing else. -/
theorem BindsUnder.andThen {β : Type} {x : Run α} {holds : Machine → Value → Prop} {k : α → Run β}
    {b : α → β} (h : BindsUnder type value x m fun _ m' v => holds m' v)
    (hk : ∀ a, k a = pure (b a)) :
    BindsUnder type value (x >>= k) m fun _ m' v => holds m' v where
  binds a m' ok := by
    obtain ⟨a, m₁, done, ok⟩ := bind_eq_ok ok
    rw [hk] at ok
    cases ok
    exact h.binds a _ done
  refuses v m₁ T given annotated misfits := by
    obtain ⟨e, raised, refused, fault⟩ := h.refuses v m₁ T given annotated misfits
    refine ⟨e, raised, ?_, fault⟩
    rw [bind_apply, refused]

theorem mapFailure_id (x : Run α) : x.mapFailure (fun _ => id) = x := by
  funext m
  rw [Run.mapFailure]
  cases x m with
  | ok a m' => rfl
  | error stop m' => cases stop <;> rfl

end Run

namespace Graph

variable {g : Graph}

/-- What a context binds a name to itself, in its frames or as a constructor argument. -/
def ownVar? (g : Graph) (c : CtxId) (name : String) : Option CellId :=
  (g.localVar? c name).or (g.argument? c name)

/-- The member of the instance around a call that code of the call sees before its own locals. -/
def memberFirst? (g : Graph) (c : CtxId) (name : String) : Option CellId :=
  match g.kind? c with
  | some (.call ..) => ((g.owners c).find? g.isObject).bind (g.member? · name)
  | _ => none

/-- Code reads what its context binds, unless a member comes first. -/
theorem var?_of_ownVar? (own : g.ownVar? c name = some i) :
    g.var? c name = (g.memberFirst? c name).or (some i) := by
  rw [var?, chain_eq_cons, varAlong?, memberFirst?]
  rw [ownVar?] at own
  cases hk : g.kind? c with
  | none =>
    obtain found | ⟨-, found⟩ := Option.or_eq_some_iff.mp own
    · obtain ⟨ctx, hctx, -⟩ := Option.bind_eq_some_iff.mp found
      rw [kind?, hctx] at hk
      cases hk
    · rw [argument?, hk] at found
      cases found
  | some kind =>
    cases kind with
    | object =>
      dsimp only
      rw [← Option.or_assoc, own]
      rfl
    | world | call | closure =>
      rw [argument?, hk, Option.or_none] at own
      simp only [own, Option.some_or, Option.none_or]

end Graph

/-- A context binds a name to a cell with the value. Code that runs there reads the cell by the
name, unless a member of the instance around a call comes first. -/
structure Store.Reads (s : Store) (c : CtxId) (name : String) (i : CellId) (v : Value) : Prop where
  own : s.graph.ownVar? c name = some i
  var : s.graph.var? c name = (s.graph.memberFirst? c name).or (some i)
  value : (s.cell i).value = v

theorem Store.Reads.of_topVar? {s : Store} (bound : s.graph.topVar? c name = some i)
    (value : (s.cell i).value = v) : s.Reads c name i v := by
  have own : s.graph.ownVar? c name = some i := by
    rw [Graph.ownVar?, Graph.localVar?_of_topVar? bound]
    rfl
  exact ⟨own, Graph.var?_of_ownVar? own, value⟩

/-- A context binds the name of a variable in its innermost frame, to a cell with the variable. -/
def Store.Declares (s : Store) (c : CtxId) (cell : Cell) : Prop :=
  ∃ i, s.graph.topVar? c cell.name = some i ∧ s.cell i = cell

theorem Store.Declares.reads {s : Store} {attrs : Attrs} (h : s.Declares c ⟨name, v, attrs⟩) :
    ∃ i, s.Reads c name i v := by
  obtain ⟨i, bound, held⟩ := h
  exact ⟨i, .of_topVar? bound (congrArg Cell.value held)⟩

namespace Eval

open Run (BindsUnder bind_eq_ok)

/-- What is declared in a context that is there is bound there, beside what was. -/
theorem of_declareVar {cell : Cell} (there : c < m.store.graph.size) {u : Unit}
    (ok : Run.declareVar c cell m = .ok u m') :
    (m.store.KeepsNames c m'.store ∧ m'.store.Declares c cell) ∧
      ∀ d, m'.handles.className d = m.handles.className d := by
  have run : Run.declareVar c cell = Run.declareNew c cell fun _ => pure () := by
    simp [Run.declareVar, Run.declareNew]
  rw [run, Run.declareNew_apply] at ok
  split at ok
  · cases ok
  · rename_i free
    cases ok
    refine ⟨⟨Store.keepsNames_bindNew free, m.store.cells.size,
      Graph.topVar?_ofVar cell.name there, ?_⟩, fun d => ?_⟩
    · exact Store.cell_addCell_self m.store cell
    · exact congrArg (Option.getD · "") (Region.className?_of_skeleton?
        (Graph.skeleton?_update _ fun ctx => Declaration.skeleton_recordMember cell.name ctx.kind))

variable {config : Config} {fuel : Nat}

/-- A value is evaluated in a context, checked and declared there. -/
theorem declares_value (tell : Failure → Failure) (tells : ∀ e, (tell e).fault = e.fault)
    (e : Expr) (attrs : Attrs) (there : c < m.store.graph.size) :
    BindsUnder type ((evaluator config fuel).expr e c)
      ((evaluator config fuel).expr e c >>= fun v => Run.checking tell type v >>= fun v =>
        Run.declareVar c ⟨name, v, attrs⟩)
      m fun _ m' v => m.store.KeepsNames c m'.store ∧ m'.store.Declares c ⟨name, v, attrs⟩ := by
  refine .of_checking tells fun v m₁ v' a m' given bound ok => ?_
  have kept : m.Kept .clean (((evaluator config fuel).expr e c).after m) :=
    (Run.agree_expr e c).kept
  rw [Run.after, given] at kept
  have there₁ := Nat.lt_of_lt_of_le there kept.store.contexts
  obtain ⟨⟨names, declared⟩, same⟩ := of_declareVar there₁ ok
  exact ⟨⟨((kept.sameScopes rfl).keepsNames there).trans names, declared⟩, same⟩

/-- A `let` declares a variable with its attributes. -/
theorem declares_let {s : Stmt} {e : Expr} {attrs : Attrs}
    (hs : s.node = .letVar name type e attrs) (there : c < m.store.graph.size) :
    BindsUnder type ((evaluator config fuel).expr e c)
      (stmt config (evaluator config fuel) s c) m
      fun _ m' v => m.store.KeepsNames c m'.store ∧ m'.store.Declares c ⟨name, v, attrs⟩ := by
  have plain (v : Value) : Run.checking id type v =
      (do Run.ofExcept (v.annotate (← Run.handles) type)) := Run.mapFailure_id _
  have run : stmt config (evaluator config fuel) s c =
      Run.locating s.span (silently (letVar (evaluator config fuel) name type e attrs c)) := by
    rw [stmt, hs]
    rfl
  rw [run]
  refine .mapFailure (.andThen ?_ fun _ => rfl) fun _ e => e.fault_locate s.span
  have split : letVar (evaluator config fuel) name type e attrs c =
      (evaluator config fuel).expr e c >>= fun v => Run.checking id type v >>= fun v =>
        Run.declareVar c ⟨name, v, attrs⟩ := by
    simp only [letVar, plain, bind_assoc]
  rw [split]
  exact declares_value id (fun _ => rfl) e attrs there

/-- A `let` binds its value under its annotation. -/
theorem bindsUnder_let {s : Stmt} {e : Expr} {attrs : Attrs}
    (hs : s.node = .letVar name type e attrs) (there : c < m.store.graph.size) :
    BindsUnder type ((evaluator config fuel).expr e c)
      (stmt config (evaluator config fuel) s c) m
      fun _ m' v => ∃ i, m'.store.Reads c name i v :=
  (declares_let hs there).weaken fun _ _ _ declared => declared.2.reads

/-- A member is declared with its attributes. -/
theorem declares_member (member : MemberDecl) (there : c < m.store.graph.size) :
    BindsUnder member.type ((evaluator config fuel).expr member.value c)
      (initMember (evaluator config fuel) c member) m
      fun _ m' v =>
        m.store.KeepsNames c m'.store ∧ m'.store.Declares c ⟨member.name, v, member.attrs⟩ :=
  declares_value (Failure.locate member.span) (fun e => e.fault_locate _) member.value member.attrs
    there

/-- A member is bound under its annotation. -/
theorem bindsUnder_member (member : MemberDecl) (there : c < m.store.graph.size) :
    BindsUnder member.type ((evaluator config fuel).expr member.value c)
      (initMember (evaluator config fuel) c member) m
      fun _ m' v => ∃ i, m'.store.Reads c member.name i v :=
  (declares_member member there).weaken fun _ _ _ declared => declared.2.reads

end Eval

end TreeScript
