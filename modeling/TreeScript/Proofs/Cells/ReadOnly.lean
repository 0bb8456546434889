import TreeScript.Proofs.Calls.Callbacks
import TreeScript.Proofs.Cells.Copies
import TreeScript.Proofs.Cells.Parameters
import TreeScript.Proofs.Places.Agreement
import TreeScript.Proofs.Places.Lenses
import TreeScript.Proofs.Privacy.Access

/-!
# Names that cannot be written

What is declared constant cannot be written by its name: a variable, a member or a parameter gets a
constant cell, and every write of that cell is refused. There is one exception. A parameter that is a
reference is the variable of the caller, and whether that may be written is for its own declaration
to say.
-/
namespace TreeScript

variable {config : Config} {fuel : Nat} {ev : Evaluator} {m m' m₁ m₂ : Machine} {c : CtxId}
  {i : CellId} {name : String} {v : Value} {p q : Place} {param : Param} {arg : Arg} {span : Span}
  {e e' : Expr} {member : MemberDecl} {decl : ClassDecl}

/-- What is wrong with a write of a constant cell. -/
def Store.refusal (s : Store) (i : CellId) : Fault := .constMutation (s.cell i).name

/-- Whatever is to be done to a place in the cell is refused, and the machine is left as it is. -/
def Machine.Refuses (m : Machine) (i : CellId) : Prop :=
  ∀ (α : Type) (p : Place) (f : Handles → Edit α), p.root = .inl i →
    p.editRoot f m = .error (m.raised (m.store.refusal i)) m

namespace Machine

/-- The cells that refuse all writes are the constant ones. -/
theorem refuses_iff : m.Refuses i ↔ (m.store.cell i).attrs.isConst = true := by
  constructor
  · intro refuses
    cases const : (m.store.cell i).attrs.isConst with
    | true => rfl
    | false =>
      have done : Edit.check (fun _ => .ok ()) (m.store.cell i).value = .ok () _ := rfl
      have refused := refuses Unit (.ofCell i) (fun _ => .check fun _ => .ok ()) rfl
      rw [Place.ofCell, Place.editRoot_ok const [] done] at refused
      cases refused
  · intro const α p f root
    rw [Place.editRoot, root]
    dsimp only
    rw [Run.editCell, Cell.checkWrite, if_pos const]
    rfl

theorem Refuses.there (h : m.Refuses i) : i < m.store.cells.size := by
  by_contra outside
  have none : m.store.cell i = ⟨"", .unit, .none⟩ := by
    rw [Store.cell, Store.cell?, Array.getElem?_eq_none (Nat.le_of_not_lt outside)]
    rfl
  rw [refuses_iff, none] at h
  cases h

/-- A cell that refuses writes is the same from then on. -/
theorem Refuses.cell_eq (h : m.Refuses i) (kept : m.store.KeepsConstants m'.store) :
    m'.store.cell i = m.store.cell i :=
  kept.constants i h.there (refuses_iff.mp h)

theorem Refuses.later (h : m.Refuses i) (kept : m.store.KeepsConstants m'.store) :
    m'.Refuses i := by
  rw [refuses_iff, h.cell_eq kept]
  exact refuses_iff.mp h

/-- A write is refused from then on. -/
theorem Refuses.editRoot {α : Type} (h : m.Refuses i) (kept : m.store.KeepsConstants m'.store)
    (root : p.root = .inl i) (f : Handles → Edit α) :
    p.editRoot f m' = .error (m'.raised (m.store.refusal i)) m' := by
  rw [h.later kept α p f root, Store.refusal, Store.refusal, h.cell_eq kept]

end Machine

namespace Run

variable {α : Type} {f : Footprint} {x : Run α} {a : α}

theorem later_of_keeps (keeps : ∀ L : Logic, L.Keeps f x)
    (there : ∀ c, f.context? = some c → c < m.store.graph.size) (ok : x m = .ok a m') :
    m.Later 0 m' := by
  have later := (agree_of_rel (keeps (.after 0 m (Nat.zero_le _))) there).later
  rwa [after, ok] at later

theorem sameScopes_of_keeps (keeps : ∀ L : Logic, L.Keeps .clean x) (ok : x m = .ok a m') :
    m.SameScopes m' := by
  have kept := (agree_of_rel (keeps (.after 0 m (Nat.zero_le _))) (by rintro _ ⟨⟩)).kept
  rw [after, ok] at kept
  exact kept.sameScopes rfl

theorem keepsConstants_of_clean (keeps : ∀ L : Logic, L.Keeps .clean x) (ok : x m = .ok a m') :
    m.store.KeepsConstants m'.store :=
  (later_of_keeps keeps (by rintro _ ⟨⟩) ok).keepsConstants

end Run

namespace Eval

open Run (bind_eq_ok bind_of_ok)

theorem keepsConstants_expr (ok : (evaluator config fuel).expr e c m = .ok v m') :
    m.store.KeepsConstants m'.store :=
  Run.keepsConstants_of_clean (fun L => (L.evaluator_relates config fuel).expr e c) ok

theorem keepsConstants_place (ok : place (evaluator config fuel) c e m = .ok p m') :
    m.store.KeepsConstants m'.store :=
  Run.keepsConstants_of_clean (fun L => Run.Logic.place (L.evaluator_relates config fuel) e) ok

theorem keepsConstants_args {es : List Expr} {args : List Arg}
    (ok : Eval.args (evaluator config fuel) c es m = .ok args m') :
    m.store.KeepsConstants m'.store :=
  Run.keepsConstants_of_clean (fun L => Run.Logic.args (L.evaluator_relates config fuel) es) ok

/-- Indices lead from a place into the same variable. -/
theorem root_of_indexed (indexed : e.Indexed e') (ok : place ev c e' m = .ok p m') :
    ∃ q m₁, place ev c e m = .ok q m₁ ∧ q.root = p.root := by
  induction indexed generalizing p m' with
  | plain => exact ⟨p, m', ok, rfl⟩
  | index _ index span ih =>
    rw [place] at ok
    obtain ⟨q, m₁, outer, ok⟩ := bind_eq_ok ok
    obtain ⟨v, m₂, -, ok⟩ := bind_eq_ok ok
    cases ok
    obtain ⟨q', m₃, inner, same⟩ := ih outer
    exact ⟨q', m₃, inner, same⟩

/-- A name, with any number of indices, leads into the variable that it means. -/
theorem root_of_name (free : (m.seenFrom c).store.graph.import? c name = none)
    (means : (m.seenFrom c).store.graph.var? c name = some i)
    (indexed : Expr.Indexed ⟨.name name, span⟩ e) (ok : place ev c e m = .ok p m') :
    p.root = .inl i := by
  obtain ⟨q, m₁, named, same⟩ := root_of_indexed indexed ok
  rw [place_name_eq, free, means] at named
  cases named
  exact same.symm

/-- A field, with any number of indices, leads into the member or the global of that name. -/
theorem root_of_field {left : Expr} {field : String} {s₁ s₂ : Span}
    (value : ev.expr left c m = .ok v m₁) (means : m₁.store.field? field v = some i)
    (indexed : Expr.Indexed ⟨.member left ⟨.name field, s₁⟩, s₂⟩ e)
    (ok : place ev c e m = .ok p m') : p.root = .inl i := by
  obtain ⟨q, m₂, found, same⟩ := root_of_indexed indexed ok
  rw [place, bind_of_ok _ value] at found
  obtain ⟨j, rfl, means'⟩ := eq_ofCell_of_fieldOf found
  rw [means] at means'
  cases means'
  exact same.symm

/-- An assignment to a place in a cell that refuses writes is refused, once the value and the place
are there. -/
theorem refused_assign {left right : Expr} {op : AssignOp} (refuses : m.Refuses i)
    (given : (evaluator config fuel).expr right c m = .ok v m₁)
    (aimed : Run.holding [.value v] (target (evaluator config fuel) c left) m₁ = .ok p m₂)
    (root : p.root = .inl i) :
    stmt config (evaluator config fuel) ⟨.assign left op right, span⟩ c m =
      .error ((m₂.raised (m.store.refusal i)).mapFailure (·.locate span)) m₂ := by
  have kept : m.store.KeepsConstants m₂.store := by
    refine (keepsConstants_expr given).trans ?_
    exact Run.keepsConstants_of_clean (fun L => L.holding _
      (Run.Logic.target (L.evaluator_relates config fuel) left)) aimed
  have refused : p.assign op v m₂ = .error (m₂.raised (m.store.refusal i)) m₂ :=
    refuses.editRoot kept root _
  rw [stmt, stmtNode, Run.locating, Run.mapFailure, silently, Run.bind_apply,
    Run.bind_of_ok _ given, Run.bind_of_ok _ aimed, refused]

/-- A member that edits what stands at a place in a cell that refuses writes is refused, once the
place and the arguments are there. -/
theorem refused_call {left : Expr} {arguments : List Expr} {args : List Arg} {s₁ s₂ : Span}
    {f : Handles → List Value → Edit Value} (refuses : m.Refuses i)
    (receiver : place (evaluator config fuel) c left m = .ok p m₁)
    (given : Eval.args (evaluator config fuel) c arguments
      { m₁ with held := p.holds ++ m₁.held } = .ok args m₂)
    (root : p.root = .inl i) (read : p.read m₂ = .ok v m₂)
    (edits : Member.find? v.kind name = some (.edit f)) :
    expr config (evaluator config fuel) ⟨.member left ⟨.call name arguments, s₁⟩, s₂⟩ c m =
      .error ((m₂.raised (m.store.refusal i)).mapFailure (·.locate s₂))
        { m₂ with held := m₁.held } := by
  have meanwhile := keepsConstants_args given
  have kept : m.store.KeepsConstants m₂.store := (keepsConstants_place receiver).trans meanwhile
  have refused : callMember (evaluator config fuel) p name args c s₁ m₂ =
      .error (m₂.raised (m.store.refusal i)) m₂ := by
    rw [callMember_of_find? c read edits]
    exact refuses.editRoot kept root _
  rw [expr, Run.locating, Run.mapFailure, node]
  dsimp only
  rw [bind_of_ok _ receiver, Run.holding, Run.ensuring, bind_of_ok _ given, refused]

end Eval

/-- A context binds a name to a cell that refuses writes. -/
def Machine.BindsConstant (m : Machine) (c : CtxId) (name : String) : Prop :=
  ∃ i, m.store.graph.topVar? c name = some i ∧ m.Refuses i

namespace Machine.BindsConstant

theorem of_declares {attrs : Attrs} (h : m.store.Declares c ⟨name, v, attrs⟩)
    (const : attrs.isConst = true) : m.BindsConstant c name := by
  obtain ⟨i, bound, held⟩ := h
  refine ⟨i, bound, ?_⟩
  rw [refuses_iff, held]
  exact const

theorem reads (h : m.BindsConstant c name) :
    ∃ i, m.store.Reads c name i (m.store.cell i).value ∧
      m.store.graph.localVar? c name = some i ∧ m.Refuses i := by
  obtain ⟨i, bound, refuses⟩ := h
  exact ⟨i, .of_topVar? bound rfl, Graph.localVar?_of_topVar? bound, refuses⟩

theorem later (h : m.BindsConstant c name) (names : m.store.KeepsNames c m'.store)
    (kept : m.store.KeepsConstants m'.store) : m'.BindsConstant c name := by
  obtain ⟨i, bound, refuses⟩ := h
  exact ⟨i, names name i bound, refuses.later kept⟩

end Machine.BindsConstant

namespace Eval

open Run (bind_eq_ok bind_of_ok)

/-- The members of an instance that are declared constant are bound as such, and no other is
hidden. -/
theorem bindsConstant_of_initMembers : ∀ {members : List MemberDecl} {m m' : Machine} {u : Unit},
    c < m.store.graph.size → initMembers (evaluator config fuel) c members m = .ok u m' →
      c < m'.store.graph.size ∧ m.store.KeepsNames c m'.store ∧
        ∀ member ∈ members, member.attrs.isConst = true → m'.BindsConstant c member.name
  | [], m, _, _, there, ok => by
    cases ok
    exact ⟨there, fun _ _ bound => bound, fun _ hmember => absurd hmember List.not_mem_nil⟩
  | member :: rest, m, m', _, there, ok => by
    rw [initMembers_cons] at ok
    obtain ⟨_, m₁, first, ok⟩ := bind_eq_ok ok
    obtain ⟨v, m₂, v', -, -, ⟨names₁, declared⟩, -⟩ := (declares_member member there).binds _ _ first
    have there₁ : c < m₁.store.graph.size := by
      obtain ⟨i, bound, -⟩ := declared
      exact Graph.lt_of_topVar? bound
    obtain ⟨there', names, others⟩ := bindsConstant_of_initMembers there₁ ok
    have kept : m₁.store.KeepsConstants m'.store := by
      have keeps (L : Run.Logic) :
          L.Keeps (.names c) (initMembers (evaluator config fuel) c rest) :=
        Run.Logic.initMembers (L.evaluator_relates config fuel) rest
      exact (Run.later_of_keeps keeps (by rintro _ ⟨⟩; exact there₁) ok).keepsConstants
    refine ⟨there', names₁.trans names, ?_⟩
    rw [List.forall_mem_cons]
    exact ⟨fun const => (Machine.BindsConstant.of_declares declared const).later names kept, others⟩

/-- The members that are declared constant are bound as such when the constructor has run. -/
theorem ends_constructed (there : c < m.store.graph.size) :
    Run.Ends (construct (evaluator config fuel) c decl span) m
      (fun _ m' => ∀ member ∈ decl.members, member.attrs.isConst = true →
        m'.BindsConstant c member.name)
      fun _ => True := by
  have members : Run.Ends (initMembers (evaluator config fuel) c decl.members) m
      (fun _ m' => c < m'.store.graph.size ∧ ∀ member ∈ decl.members,
        member.attrs.isConst = true → m'.BindsConstant c member.name) fun _ => True := by
    rw [Run.Ends]
    cases made : initMembers (evaluator config fuel) c decl.members m with
    | error stop m₁ => trivial
    | ok u m₁ =>
      obtain ⟨there₁, -, bind⟩ := bindsConstant_of_initMembers there made
      exact ⟨there₁, bind⟩
  refine members.bind fun _ m₁ made => .graph ?_
  obtain ⟨there₁, bind⟩ := made
  cases m₁.store.graph.localFunc? c "constructor" with
  | none => exact bind
  | some func =>
    -- the constructor has a context of its own
    have keeps (L : Run.Logic) :
        L.Keeps .clean (discard (callFunc (evaluator config fuel) func [] span)) :=
      L.bind ((tracked_callFunc func span).logical L (L.evaluator_relates config fuel))
        fun _ => L.pure ()
    dsimp only
    rw [Run.Ends]
    cases called : discard (callFunc (evaluator config fuel) func [] span) m₁ with
    | error stop m₂ => trivial
    | ok u m₂ =>
      intro member hmember const
      exact (bind member hmember const).later
        ((Run.sameScopes_of_keeps keeps called).keepsNames there₁)
        (Run.keepsConstants_of_clean keeps called)

/-- A new instance binds its members that are declared constant as such. -/
theorem constant_members {world : CtxId} {args : List Arg}
    (ok : instantiate (evaluator config fuel) decl world args span m = .ok v m') :
    ∃ o, v = .object o ∧ ∀ member ∈ decl.members, member.attrs.isConst = true →
      ∃ i, m'.store.graph.member? o member.name = some i ∧ m'.Refuses i := by
  let callee : Callee := .class decl world
  cases prepared : callee.prepare args m with
  | error stop m₁ =>
    obtain ⟨m₂, failed, -⟩ := Callee.call_of_prepare_error prepared (evaluator config fuel) span
    cases ok.symm.trans failed
  | ok c m₁ =>
    have ready := Callee.prepared prepared
    have entered : callee.enter (evaluator config fuel) c span m₁ = .ok v m' :=
      (Callee.call_of_prepare prepared (evaluator config fuel) span).symm.trans ok
    let Bound (m : Machine) : Prop := ∀ member ∈ decl.members, member.attrs.isConst = true →
      m.BindsConstant c member.name
    have ends : Run.Ends (callee.enter (evaluator config fuel) c span) m₁
        (fun v m' => v = .object c ∧ Bound m') fun _ => True := by
      refine Run.Ends.bind (P := fun _ => Bound)
        (.ensuring (.holding (.inCall trivial fun calls => ?_))) fun _ m' bind => ⟨rfl, bind⟩
      refine Run.Ends.mono (ends_constructed ready.there) ?_ fun _ _ => trivial
      intro _ m₂ bind member hmember const
      -- dropping the constructor arguments leaves the members
      refine (bind member hmember const).later (fun name i bound => ?_) (.of_cells rfl)
      have cleared : (m₂.store.graph.clearArguments c).scopes? c = m₂.store.graph.scopes? c :=
        Graph.scopes?_update_same _ fun _ => rfl
      show (m₂.store.graph.clearArguments c).topVar? c name = some i
      rw [Graph.topVar?, cleared]
      exact bound
    rw [Run.Ends, entered] at ends
    obtain ⟨rfl, bind⟩ := ends
    have extended := (Run.later_of_keeps (fun L => Callee.enter_rel
      (L.evaluator_relates config fuel) callee span) (by rintro _ ⟨⟩; exact ready.there)
      entered).extends
    have object : m'.store.graph.isObject c = true := by
      obtain ⟨kind, hk, same⟩ := Option.map_eq_some_iff.mp
        ((extended.skeletons c ready.there).trans ready.skeleton)
      rw [Graph.isObject, hk, Option.any_some, ← Graph.isObject_skeleton, same]
      rfl
    refine ⟨c, rfl, fun member hmember const => ?_⟩
    obtain ⟨i, bound, refuses⟩ := bind member hmember const
    exact ⟨i, (if_pos object).trans (Graph.localVar?_of_topVar? bound), refuses⟩

end Eval

namespace Param

/-- The parameter refers to a variable of the caller that may be written. -/
def Exposes (param : Param) (arg : Arg) (s : Store) : Prop :=
  ∃ i, param.reference? arg = some i ∧ (s.cell i).attrs.isConst = false

theorem isConst_boundAttrs_iff (const : param.attrs.isConst = true) (arg : Arg) (s : Store) :
    (param.boundAttrs arg s).isConst = true ↔ ¬param.Exposes arg s := by
  rw [boundAttrs, Exposes]
  cases param.reference? arg with
  | none =>
    refine iff_of_true const ?_
    rintro ⟨i, ⟨⟩, -⟩
  | some i =>
    rw [← Bool.not_eq_false]
    refine not_congr ⟨fun writable => ⟨i, rfl, writable⟩, ?_⟩
    rintro ⟨j, ⟨⟩, writable⟩
    exact writable

end Param

/-- What is known of all that is declared constant, by an evaluator of some fuel. -/
structure ReadOnly (config : Config) (fuel : Nat) : Prop where
  /-- A variable. -/
  vars {s : Stmt} {name : String} {type : Option TypeAnn} {e : Expr} {attrs : Attrs} {c : CtxId}
    {m m' : Machine} {flow : Flow} (node : s.node = .letVar name type e attrs)
    (there : c < m.store.graph.size) (const : attrs.isConst = true)
    (ok : Eval.stmt config (evaluator config fuel) s c m = .ok flow m') :
    ∃ i, m'.store.Reads c name i (m'.store.cell i).value ∧
      m'.store.graph.localVar? c name = some i ∧ m'.Refuses i
  /-- A member of an instance. -/
  members {decl : ClassDecl} {world : CtxId} {args : List Arg} {span : Span} {v : Value}
    {m m' : Machine}
    (ok : Eval.instantiate (evaluator config fuel) decl world args span m = .ok v m') :
    ∃ o, v = .object o ∧ ∀ member ∈ decl.members, member.attrs.isConst = true →
      ∃ i, m'.store.graph.member? o member.name = some i ∧ m'.Refuses i
  /-- A member of a copy of an instance is as constant as the member that it is a copy of. -/
  copies {s t : Store} {depth : Nat} {o o' : CtxId} {name : String} {j : CellId}
    (closed : Region.all.Closed s) (there : o < s.graph.size)
    (copied : s.copyInstance depth o = some (o', t))
    (found : t.graph.member? o' name = some j) :
    ∃ i, s.graph.member? o name = some i ∧ (t.cell j).attrs = (s.cell i).attrs
  /-- The parameters of a function, a closure or a class, once a call has been prepared. Each
  refuses all writes, unless it refers to a variable of the caller that does not. -/
  parameters {callee : Callee} {args : List Arg} {m m₁ : Machine} {c : CtxId}
    (named : ∀ arg ∈ args, ∀ i ∈ arg.cell, i < m.store.cells.size)
    (ok : callee.prepare args m = .ok c m₁) {param : Param} {arg : Arg}
    (bound : (param, arg) ∈ callee.params.zip args) (const : param.attrs.isConst = true) :
    ∃ i, m₁.store.Reads c param.name i (m₁.store.cell i).value ∧
      (m₁.Refuses i ↔ ¬param.Exposes arg m.store)
  /-- Writes of a cell that refuses them are refused at every moment of any work, and after it. -/
  lasting {work : Work} {m : Machine} {i : CellId} (there : work.There m) (refuses : m.Refuses i) :
    Throughout config fuel (fun _ m' => m'.Refuses i) work.run m ∧
      (work.after config fuel m).Refuses i
  /-- A name, with any number of indices, is a place in the variable that it means. -/
  names {name : String} {span : Span} {e : Expr} {c : CtxId} {m m' : Machine} {i : CellId}
    {p : Place} (free : (m.seenFrom c).store.graph.import? c name = none)
    (means : (m.seenFrom c).store.graph.var? c name = some i)
    (indexed : Expr.Indexed ⟨.name name, span⟩ e)
    (ok : Eval.place (evaluator config fuel) c e m = .ok p m' ∨
      Eval.target (evaluator config fuel) c e m = .ok p m') : p.root = .inl i
  /-- A field, with any number of indices, is a place in the member or global of that name. -/
  fields {left e : Expr} {field : String} {s₁ s₂ : Span} {c : CtxId} {m m₁ m' : Machine}
    {v : Value} {i : CellId} {p : Place}
    (value : (evaluator config fuel).expr left c m = .ok v m₁)
    (means : m₁.store.field? field v = some i)
    (indexed : Expr.Indexed ⟨.member left ⟨.name field, s₁⟩, s₂⟩ e)
    (ok : Eval.place (evaluator config fuel) c e m = .ok p m' ∨
      Eval.target (evaluator config fuel) c e m = .ok p m') : p.root = .inl i
  /-- An assignment to a place in a cell that refuses writes fails once the value and the place are
  there, and changes nothing. -/
  assignments {left right : Expr} {op : AssignOp} {span : Span} {c : CtxId} {m m₁ m₂ : Machine}
    {v : Value} {p : Place} {i : CellId} (refuses : m.Refuses i)
    (given : (evaluator config fuel).expr right c m = .ok v m₁)
    (aimed : Run.holding [.value v] (Eval.target (evaluator config fuel) c left) m₁ = .ok p m₂)
    (root : p.root = .inl i) :
    Eval.stmt config (evaluator config fuel) ⟨.assign left op right, span⟩ c m =
      .error ((m₂.raised (m.store.refusal i)).mapFailure (·.locate span)) m₂
  /-- A member that changes its receiver fails on a place in a cell that refuses writes, once the
  place and the arguments are there, and changes nothing. -/
  calls {left : Expr} {name : String} {arguments : List Expr} {args : List Arg} {s₁ s₂ : Span}
    {c : CtxId} {m m₁ m₂ : Machine} {v : Value} {p : Place} {i : CellId}
    {f : Handles → List Value → Edit Value} (refuses : m.Refuses i)
    (receiver : Eval.place (evaluator config fuel) c left m = .ok p m₁)
    (given : Eval.args (evaluator config fuel) c arguments
      { m₁ with held := p.holds ++ m₁.held } = .ok args m₂)
    (root : p.root = .inl i) (read : p.read m₂ = .ok v m₂)
    (edits : Member.find? v.kind name = some (.edit f)) :
    Eval.expr config (evaluator config fuel) ⟨.member left ⟨.call name arguments, s₁⟩, s₂⟩ c m =
      .error ((m₂.raised (m.store.refusal i)).mapFailure (·.locate s₂)) { m₂ with held := m₁.held }

/-- **Names that cannot be written.** Variables, members and parameters that are declared constant
are bound to cells that refuse all writes, from then on: an assignment by `=` or by an operator to
the name or an index of it fails, and so does a member that changes what stands there, and nothing
is changed. There is one exception: a parameter that refers to a variable of the caller is that
variable, and may be written if that may be. -/
theorem read_only_names (config : Config) (fuel : Nat) : ReadOnly config fuel where
  vars node there const ok := by
    obtain ⟨-, -, v, -, -, ⟨-, declared⟩, -⟩ := (Eval.declares_let node there).binds _ _ ok
    exact (Machine.BindsConstant.of_declares declared const).reads
  members := Eval.constant_members
  copies closed there copied found := by
    obtain ⟨i, hi, alike⟩ := (Ledger.beginAll closed).imprint_copyInstance there copied found
    exact ⟨i, hi, congrArg Prod.snd alike⟩
  parameters named ok param arg bound const := by
    obtain ⟨i, -, own, -, attrs⟩ := Callee.boundTo_of_prepare named ok _ bound
    refine ⟨i, ⟨own, Graph.var?_of_ownVar? own, rfl⟩, ?_⟩
    rw [Machine.refuses_iff, attrs, Param.isConst_boundAttrs_iff const]
  lasting there refuses := by
    refine ⟨Work.throughout there fun _ _ before _ => ?_, ?_⟩
    · exact refuses.later before.keepsConstants
    · exact refuses.later (Work.later there).keepsConstants
  names free means indexed ok := by
    refine ok.elim (Eval.root_of_name free means indexed) fun aimed => ?_
    exact Eval.root_of_name free means indexed ((Eval.target_eq_ok_iff ..).mp aimed).1
  fields value means indexed ok := by
    refine ok.elim (Eval.root_of_field value means indexed) fun aimed => ?_
    exact Eval.root_of_field value means indexed ((Eval.target_eq_ok_iff ..).mp aimed).1
  assignments := Eval.refused_assign
  calls := Eval.refused_call

/-- `def f(const ref x) { x = 2; }` -/
def overwrite : FuncDecl :=
  let span : Span := ⟨0, 1⟩
  ⟨"f", [⟨"x", none, ⟨false, true, true⟩⟩], none,
    [⟨.assign ⟨.name "x", span⟩ .plain ⟨.int 2, span⟩, span⟩], .none⟩

/-- After `let n = 1;` the call `f(n)` begins, and its parameter is the variable of the caller, which
may be written. The call succeeds and leaves 2 there. -/
theorem overwritten_reference :
    let span : Span := ⟨0, 1⟩
    let start := Session.start ⟨[], none⟩ 6 (.start .empty .silent [] none)
    let s₁ := (start.runLine ⟨.defFunc overwrite, span⟩).2
    let s := (s₁.runLine ⟨.letVar "n" none ⟨.int 1, span⟩ .none, span⟩).2
    let call := (Callee.func ⟨overwrite, 0⟩).prepare [⟨.int 1, some 0⟩]
    let m₁ := call.after s.machine
    (call.stop? s.machine = none ∧ m₁.store.graph.var? 1 "x" = some 0 ∧
      (m₁.store.cell 0).attrs.isConst = false) ∧
    let s' := (s.runLine ⟨.expr ⟨.call "f" [⟨.name "n", span⟩], span⟩, span⟩).2
    s'.errors = [] ∧ (s'.machine.store.cell 0).value.asInt? = some 2 := by
  decide +kernel

end TreeScript
