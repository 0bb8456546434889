import Mathlib.Data.List.Nodup
import TreeScript.Proofs.Cells.Annotations
import TreeScript.Proofs.Cells.Constants
import TreeScript.Proofs.Instances.Building

/-!
# Construction

An instance gets its methods first, then its members one after the other, and the code that runs
meanwhile changes neither. So what a successful construction gives is what the class declares.
-/
namespace TreeScript

variable {f : Footprint} {n : Nat} {s t : Store} {m m' : Machine} {c o world : CtxId} {i : CellId}
  {α : Type} {given : List (Param × Arg)}

/-- Among distinct names the last binding is the only one. -/
theorem lookup_reverse_iff {entries : List (String × α)} {name : String} {a : α}
    (distinct : (entries.map Prod.fst).Nodup) :
    entries.reverse.lookup name = some a ↔ (name, a) ∈ entries := by
  rw [List.lookup_eq_some_iff]
  constructor
  · rintro ⟨before, behind, split, -⟩
    rw [← List.mem_reverse, split]
    exact List.mem_append_right _ List.mem_cons_self
  · intro mem
    obtain ⟨before, behind, split⟩ := List.append_of_mem mem
    refine ⟨behind.reverse, before.reverse, by simp [split], fun e he => ?_⟩
    rw [split, List.map_append, List.map_cons, List.nodup_append] at distinct
    have other := (List.nodup_cons.mp distinct.2.1).1
    rw [bne_iff_ne]
    intro same
    have mem : e.1 ∈ behind.map Prod.fst := List.mem_map_of_mem (List.mem_reverse.mp he)
    exact other (same ▸ mem)

/-- A name that a frame does not bind is another one. -/
theorem nodup_of_unbound {entries : List (String × α)} {name : String}
    (distinct : (entries.map Prod.fst).Nodup)
    (unbound : (⟨entries.reverse, []⟩ : ScopeStack α).bindsOnTop name = false) :
    (entries.map Prod.fst ++ [name]).Nodup := by
  rw [← List.concat_eq_append, List.nodup_concat]
  refine ⟨fun mem => ?_, distinct⟩
  obtain ⟨e, he, rfl⟩ := List.mem_map.mp mem
  have free := Option.isNone_iff_eq_none.mp (Option.isSome_eq_false_iff.mp unbound)
  have other := List.lookup_eq_none_iff.mp free e (List.mem_reverse.mpr he)
  rw [bne_self_eq_false] at other
  cases other

namespace Graph

variable {g : Graph} {d : CtxId}

theorem kind?_update_of_ne (f : Context → Context) (h : d ≠ c) :
    (g.update d f).kind? c = g.kind? c := by
  rw [kind?, context?_update, if_neg h]
  rfl

theorem kind?_update_self (f : Context → Context) (k : ContextKind → ContextKind)
    (h : ∀ ctx, (f ctx).kind = k ctx.kind) : (g.update c f).kind? c = (g.kind? c).map k := by
  rw [kind?, kind?, context?_update, if_pos rfl]
  cases g.context? c with
  | none => rfl
  | some ctx => exact congrArg some (h ctx)

theorem kind?_update_same (f : Context → Context) (h : ∀ ctx, (f ctx).kind = ctx.kind) :
    (g.update d f).kind? c = g.kind? c := by
  by_cases hd : d = c
  · subst hd
    rw [kind?_update_self f id h, Option.map_id]
    rfl
  · exact kind?_update_of_ne f hd

/-- A change of Worlds alone. -/
theorem kind?_update_of_isObject {k : ContextKind → ContextKind}
    (same : ∀ kind, kind.isObject = true → k kind = kind) (object : g.isObject c = true) :
    (g.update d fun ctx => { ctx with kind := k ctx.kind }).kind? c = g.kind? c := by
  by_cases hd : d = c
  · subst hd
    obtain ⟨kind, hk, object⟩ := (Option.any_eq_true ..).mp object
    rw [kind?_update_self _ k fun _ => rfl, hk, Option.map_some, same kind object]
  · exact kind?_update_of_ne _ hd

end Graph

/-- An instance outside the footprint keeps its kind. -/
theorem Store.Step.kind?_eq (h : Step f s t) (object : s.graph.isObject c = true)
    (out : f.context? ≠ some c) : t.graph.kind? c = s.graph.kind? c := by
  cases h with
  | contextAdded kind =>
    obtain ⟨kind', hk, -⟩ := (Option.any_eq_true ..).mp object
    show (s.graph.add kind).2.kind? c = _
    rw [Graph.kind?, Graph.context?_add_of_lt kind (Graph.lt_of_kind? hk)]
    rfl
  | cellAdded | cellWritten | closureMade => rfl
  | classDeclared =>
    exact Graph.kind?_update_of_isObject (fun kind h => by cases kind <;> first | rfl | cases h) object
  | moduleDeclared =>
    exact Graph.kind?_update_of_isObject (fun kind h => by cases kind <;> first | rfl | cases h) object
  | moduleNamed =>
    exact Graph.kind?_update_of_isObject (fun kind h => by cases kind <;> first | rfl | cases h) object
  | scopeOpened | scopeClosed | funcDeclared => exact Graph.kind?_update_same _ fun _ => rfl
  | @varDeclared _ d | @varBound _ d | @memberRecorded _ d | @argumentDeclared _ d
  | @argumentsCleared _ d =>
    have hd : d ≠ c := fun e => out (congrArg some e)
    exact Graph.kind?_update_of_ne _ hd

theorem Machine.Step.kind?_eq (h : Step f m m') (object : m.store.graph.isObject c = true)
    (out : f.context? ≠ some c) : m'.store.graph.kind? c = m.store.graph.kind? c := by
  cases h with
  | store step => exact step.kind?_eq object out
  | released =>
    exact Store.kind?_release m.store _ c
  | held | disk | output | input | callEntered | callLeft | importStarted | importEnded => rfl

/-- Steps above `n` leave the kind of an instance below `n` alone. -/
theorem Machine.Later.kind?_eq (h : m.Later n m') (object : m.store.graph.isObject c = true)
    (below : c < n) : m'.store.graph.kind? c = m.store.graph.kind? c := by
  refine h.keeps_below (P := fun m₁ => m₁.store.graph.kind? c = m.store.graph.kind? c) below
    (fun _ step out same => ?_) rfl
  have still : _ = true := (congrArg (Option.any ContextKind.isObject) same).trans object
  exact (step.kind?_eq still out).trans same

/-- A run without a footprint goes in steps that touch nothing that was there. -/
theorem Run.Logical.later {run : Evaluator → Run α} (logical : Run.Logical .clean run)
    (config : Config) (fuel : Nat) (m : Machine) :
    m.Later m.store.graph.size ((run (evaluator config fuel)).after m) :=
  (logical _ (Run.Logic.evaluator_relates (.after _ m (Nat.le_refl _)) config fuel) m .refl
    (by rintro _ ⟨⟩)).later

/-- The instance has these methods and members so far, in the order of their declaration. Each
member has a cell of its own, with a number from `n` on. -/
structure Store.Makes (s : Store) (n : CellId) (o world : CtxId) (decl : ClassDecl)
    (given : List (Param × Arg)) (members : List (MemberDecl × CellId)) (methods : List FuncDecl) :
    Prop where
  kind : ∃ arguments,
    s.graph.kind? o = some (.object world decl given arguments (members.map (·.1.name)))
  scopes : s.graph.scopes? o = some
    ⟨⟨(members.map fun e => (e.1.name, e.2)).reverse, []⟩,
      ⟨(methods.map fun d => (d.name, ⟨d, o⟩)).reverse, []⟩⟩
  names : (members.map (·.1.name)).Nodup
  methodNames : (methods.map (·.name)).Nodup
  cells : ∀ e ∈ members, n ≤ e.2 ∧ e.2 < s.cells.size ∧ (s.cell e.2).attrs = e.1.attrs
  distinct : (members.map Prod.snd).Nodup

namespace Store.Makes

variable {decl : ClassDecl} {members : List (MemberDecl × CellId)} {methods : List FuncDecl}
  {k : CellId}

theorem isObject (h : s.Makes k o world decl given members methods) : s.graph.isObject o = true := by
  obtain ⟨arguments, kind⟩ := h.kind
  rw [Graph.isObject, kind]
  rfl

theorem lt (h : s.Makes k o world decl given members methods) : o < s.graph.size := by
  obtain ⟨arguments, kind⟩ := h.kind
  exact Graph.lt_of_kind? kind

/-- What leaves the instance, and the attributes of cells, leaves the making as it is. -/
theorem of_eq (h : s.Makes k o world decl given members methods)
    (kind : t.graph.kind? o = s.graph.kind? o) (scopes : t.graph.scopes? o = s.graph.scopes? o)
    (kept : s.KeepsConstants t) : t.Makes k o world decl given members methods where
  kind := by
    rw [kind]
    exact h.kind
  scopes := scopes.trans h.scopes
  names := h.names
  methodNames := h.methodNames
  cells e he := by
    obtain ⟨ge, lt, attrs⟩ := h.cells e he
    exact ⟨ge, Nat.lt_of_lt_of_le lt kept.cells, (kept.attrs e.2 lt).trans attrs⟩
  distinct := h.distinct

theorem later (h : m.store.Makes k o world decl given members methods) (later : m.Later n m')
    (below : o < n) : m'.store.Makes k o world decl given members methods :=
  h.of_eq (later.kind?_eq h.isObject below) (later.scopes?_eq h.lt below) later.keepsConstants

theorem begin (s : Store) (world : CtxId) (decl : ClassDecl) (given : List (Param × Arg)) :
    (s.addContext (.object world decl given [] [])).2.Makes s.cells.size s.graph.size world decl given
      [] [] where
  kind := ⟨[], Graph.kind?_add_self _⟩
  scopes := by
    rw [Graph.scopes?]
    exact congrArg (·.map Context.scopes) (Graph.context?_add_self _)
  names := List.nodup_nil
  methodNames := List.nodup_nil
  cells := nofun
  distinct := List.nodup_nil

theorem addCell (h : s.Makes k o world decl given members methods) (cell : Cell) :
    (s.addCell cell).2.Makes k o world decl given members methods := h.of_eq rfl rfl (.addCell s cell)

/-- A constructor argument is no member. -/
theorem addArgument (h : s.Makes k o world decl given members methods) (name : String) (i : CellId) :
    (s.modifyGraph (Declaration.ofArgument o name i).apply).Makes k o world decl given members
      methods where
  kind := by
    obtain ⟨arguments, kind⟩ := h.kind
    have changed : ((Declaration.ofArgument o name i).apply s.graph).kind? o =
        (s.graph.kind? o).map (Declaration.addArgument name i) :=
      Graph.kind?_update_self _ _ fun _ => rfl
    rw [kind] at changed
    exact ⟨(name, i) :: arguments, changed⟩
  scopes := (Graph.scopes?_update_same _ (by exact fun _ => rfl)).trans h.scopes
  names := h.names
  methodNames := h.methodNames
  cells := h.cells
  distinct := h.distinct

/-- A method is declared under a name that no other has. -/
theorem declareMethod (h : s.Makes k o world decl given members methods) {method : FuncDecl}
    (free : (Declaration.ofFunc o ⟨method, o⟩).obstacle? s.graph = none) :
    (s.modifyGraph (Declaration.ofFunc o ⟨method, o⟩).apply).Makes k o world decl given members
      (methods ++ [method]) where
  kind := by
    have same : ((Declaration.ofFunc o ⟨method, o⟩).apply s.graph).kind? o = s.graph.kind? o :=
      Graph.kind?_update_same _ fun _ => rfl
    exact same ▸ h.kind
  scopes := by
    refine (Graph.scopes?_ofFunc ⟨method, o⟩).trans ?_
    rw [h.scopes, List.map_append, List.reverse_append]
    rfl
  names := h.names
  methodNames := by
    have unbound := nodup_of_unbound (by simpa [Function.comp_def] using h.methodNames)
      (Graph.ofFunc_free_iff.mp free _ h.scopes)
    simpa [Function.comp_def] using unbound
  cells := h.cells
  distinct := h.distinct

/-- A member gets a cell of its own, under a name that no other has. -/
theorem declareMember (h : s.Makes k o world decl given members methods) (later : k ≤ s.cells.size)
    {member : MemberDecl} {v : Value}
    (free : (Declaration.ofVar o member.name member.name s.cells.size).obstacle? s.graph = none) :
    (s.bindNew o ⟨member.name, v, member.attrs⟩).Makes k o world decl given
      (members ++ [(member, s.cells.size)]) methods where
  kind := by
    obtain ⟨arguments, kind⟩ := h.kind
    have changed : ((Declaration.ofVar o member.name member.name s.cells.size).apply s.graph).kind? o
        = (s.graph.kind? o).map (Declaration.recordMember member.name) :=
      Graph.kind?_update_self _ _ fun _ => rfl
    rw [kind] at changed
    refine ⟨arguments, changed.trans ?_⟩
    rw [List.map_append]
    rfl
  scopes := by
    have changed := Graph.scopes?_ofVar (g := s.graph) (c := o) member.name member.name s.cells.size
    rw [h.scopes] at changed
    refine changed.trans ?_
    rw [List.map_append, List.reverse_append]
    rfl
  names := by
    have unbound := nodup_of_unbound (by simpa [Function.comp_def] using h.names)
      (Graph.ofVar_free_iff.mp free _ h.scopes)
    simpa [Function.comp_def] using unbound
  methodNames := h.methodNames
  cells := by
    have grown := KeepsConstants.addCell s ⟨member.name, v, member.attrs⟩
    have new : s.cells.size < (s.addCell ⟨member.name, v, member.attrs⟩).2.cells.size := by
      rw [Store.addCell, Array.size_push]
      exact Nat.lt_succ_self _
    intro e he
    rcases List.mem_append.mp he with he | he
    · obtain ⟨ge, lt, attrs⟩ := h.cells e he
      exact ⟨ge, Nat.lt_of_lt_of_le lt grown.cells, (grown.attrs e.2 lt).trans attrs⟩
    · obtain rfl := List.mem_singleton.mp he
      exact ⟨later, new, congrArg Cell.attrs (cell_addCell_self s _)⟩
  distinct := by
    rw [List.map_append, List.map_singleton, ← List.concat_eq_append, List.nodup_concat]
    refine ⟨fun mem => ?_, h.distinct⟩
    obtain ⟨e, he, same⟩ := List.mem_map.mp mem
    exact Nat.ne_of_lt (h.cells e he).2.1 same

end Store.Makes

namespace Eval

variable {config : Config} {fuel : Nat} {decl : ClassDecl} {members : List (MemberDecl × CellId)}
  {methods : List FuncDecl} {k : CellId}

/-- A constructor argument is bound. -/
theorem makes_argument (h : m.store.Makes k o world decl given members methods) (param : Param)
    (arg : Arg) :
    Run.Ends (paramCell param arg >>= fun i => Run.declare (.ofArgument o param.name i)) m
      (fun _ m' => m'.store.Makes k o world decl given members methods ∧
        m.store.cells.size ≤ m'.store.cells.size) fun _ => True := by
  have declared (i : CellId) (m' : Machine)
      (h : m'.store.Makes k o world decl given members methods)
      (grown : m.store.cells.size ≤ m'.store.cells.size) :
      Run.Ends (Run.declare (.ofArgument o param.name i)) m'
        (fun _ m' => m'.store.Makes k o world decl given members methods ∧
          m.store.cells.size ≤ m'.store.cells.size) fun _ => True := by
    rw [Run.Ends, Run.declare_apply]
    cases (Declaration.ofArgument o param.name i).obstacle? m'.store.graph with
    | none => exact ⟨h.addArgument param.name i, grown⟩
    | some fault => trivial
  refine Run.Ends.bind (P := fun _ m' => m'.store.Makes k o world decl given members methods ∧
    m.store.cells.size ≤ m'.store.cells.size) ?_ fun i m' made => declared i m' made.1 made.2
  rw [Run.Ends]
  rcases Run.paramCell_cases param arg m with ⟨i, run, -⟩ | ⟨v, run, -⟩ | ⟨fault, run, -⟩
  · rw [run]
    exact ⟨h, Nat.le_refl _⟩
  · rw [run]
    exact ⟨h.addCell _, (Store.KeepsConstants.addCell m.store _).cells⟩
  · rw [run]
    trivial

theorem makes_arguments : ∀ {m : Machine} (params : List Param) (args : List Arg),
    m.store.Makes k o world decl given members methods →
    Run.Ends (bindParams (fun name i => Run.declare (.ofArgument o name i)) params args) m
      (fun _ m' => m'.store.Makes k o world decl given members methods ∧
        m.store.cells.size ≤ m'.store.cells.size) fun _ => True
  | m, [], _, h | m, _ :: _, [], h => ⟨h, Nat.le_refl _⟩
  | m, param :: params, arg :: args, h => by
    rw [bindParams, ← bind_assoc]
    refine (makes_argument h param arg).bind fun _ m' made => ?_
    exact (makes_arguments params args made.1).mono
      (fun _ _ rest => ⟨rest.1, Nat.le_trans made.2 rest.2⟩) fun _ _ => trivial

theorem makes_methods : ∀ {m : Machine} {methods : List FuncDecl} (rest : List FuncDecl),
    m.store.Makes k o world decl given members methods →
    Run.Ends (declareMethods o rest) m
      (fun _ m' => m'.store.Makes k o world decl given members (methods ++ rest) ∧
        m'.store.cells = m.store.cells) fun _ => True
  | m, methods, [], h => by
    rw [List.append_nil]
    exact ⟨h, rfl⟩
  | m, methods, method :: rest, h => by
    refine Run.Ends.bind (P := fun _ m' =>
      m'.store.Makes k o world decl given members (methods ++ [method]) ∧
        m'.store.cells = m.store.cells) ?_ fun _ m' ⟨h', same⟩ => ?_
    · rw [Run.Ends, Run.declare_apply]
      cases free : (Declaration.ofFunc o ⟨method, o⟩).obstacle? m.store.graph with
      | none => exact ⟨h.declareMethod free, rfl⟩
      | some fault => trivial
    · have others := makes_methods rest h'
      rw [List.append_assoc] at others
      exact others.mono (fun _ _ rest => ⟨rest.1, rest.2.trans same⟩) fun _ _ => trivial

/-- Code that the construction runs leaves the instance alone. -/
theorem makes_after {run : Evaluator → Run α} (logical : Run.Logical .clean run) (config : Config)
    (fuel : Nat) (h : m.store.Makes k o world decl given members methods)
    (grown : k ≤ m.store.cells.size) :
    Run.Ends (run (evaluator config fuel)) m
      (fun _ m' => m'.store.Makes k o world decl given members methods ∧ k ≤ m'.store.cells.size)
      fun _ => True := by
  have later := logical.later config fuel m
  exact .of_after (fun _ => ⟨h.later later h.lt, Nat.le_trans grown later.extends.cells⟩) trivial

theorem makes_member (h : m.store.Makes k o world decl given members methods)
    (grown : k ≤ m.store.cells.size) (member : MemberDecl) :
    Run.Ends (initMember (evaluator config fuel) o member) m
      (fun _ m' => k ≤ m'.store.cells.size ∧
        ∃ i, m'.store.Makes k o world decl given (members ++ [(member, i)]) methods)
      fun _ => True := by
  have logical : Run.Logical .clean (·.expr member.value o) :=
    fun _ _ _ related => related.expr member.value o
  refine (makes_after logical config fuel h grown).bind fun v m₁ ⟨h₁, grown₁⟩ => ?_
  refine Run.Ends.bind (P := fun _ m' => m' = m₁) ?_ fun v' m₂ same => ?_
  · refine .mapFailure _ ?_
    show Run.Ends (Run.ofExcept (v.annotate m₁.handles member.type)) m₁ _ _
    cases v.annotate m₁.handles member.type <;> trivial
  · obtain rfl := same
    let cell : Cell := ⟨member.name, v', member.attrs⟩
    have run : Run.declareVar o cell = Run.declareNew o cell fun _ => pure () := by
      simp [Run.declareVar, Run.declareNew]
    rw [Run.Ends, run, Run.declareNew_apply]
    cases free : (Declaration.ofVar o cell.name cell.name m₂.store.cells.size).obstacle?
      m₂.store.graph with
    | some fault => trivial
    | none =>
      exact ⟨Nat.le_trans grown₁ (Store.KeepsConstants.addCell m₂.store cell).cells, _,
        h₁.declareMember grown₁ free⟩

theorem makes_members : ∀ {m : Machine} {members : List (MemberDecl × CellId)}
    (rest : List MemberDecl), m.store.Makes k o world decl given members methods →
    k ≤ m.store.cells.size →
    Run.Ends (initMembers (evaluator config fuel) o rest) m
      (fun _ m' => k ≤ m'.store.cells.size ∧
        ∃ made, made.map Prod.fst = rest ∧
          m'.store.Makes k o world decl given (members ++ made) methods)
      fun _ => True
  | m, members, [], h, grown => ⟨grown, [], rfl, by rwa [List.append_nil]⟩
  | m, members, member :: rest, h, grown => by
    rw [initMembers_cons]
    refine (makes_member h grown member).bind fun _ m₁ first => ?_
    obtain ⟨grown₁, i, h₁⟩ := first
    refine (makes_members rest h₁ grown₁).mono (fun _ m' others => ?_) fun _ _ => trivial
    obtain ⟨grown', made, declared, h'⟩ := others
    rw [List.append_assoc] at h'
    exact ⟨grown', (member, i) :: made, congrArg (member :: ·) declared, h'⟩

theorem makes_construct {span : Span} (h : m.store.Makes k o world decl given [] methods)
    (grown : k ≤ m.store.cells.size) :
    Run.Ends (construct (evaluator config fuel) o decl span) m
      (fun _ m' => ∃ made, made.map Prod.fst = decl.members ∧
        m'.store.Makes k o world decl given made methods)
      fun _ => True := by
  refine (makes_members decl.members h grown).bind fun _ m₁ ⟨grown₁, made, declared, h₁⟩ => ?_
  refine .graph ?_
  cases m₁.store.graph.localFunc? o "constructor" with
  | none => exact ⟨made, declared, h₁⟩
  | some func =>
    have logical : Run.Logical .clean (callFunc · func [] span) := fun L _ _ related =>
      Run.Tracking.callFunc (T := L.tracking) (w := ()) related.tracked func [] span trivial
        fit_argNames_nil
    refine (makes_after logical config fuel h₁ grown₁).bind fun _ m₂ ⟨h₂, _⟩ => ?_
    exact ⟨made, declared, h₂⟩

end Eval

/-- The instance has just been made with the arguments: it has the members and the methods that its
class declares, and no constructor arguments. Each member has a cell of its own, with a number from
`n` on. -/
structure Store.Made (s : Store) (n : CellId) (o world : CtxId) (decl : ClassDecl)
    (args : List Arg) : Prop where
  kind : s.graph.kind? o =
    some (.object world decl (decl.params.zip args) [] (decl.members.map (·.name)))
  members : ∃ made : List (MemberDecl × CellId), made.map Prod.fst = decl.members ∧
    (made.map Prod.snd).Nodup ∧
    (∀ e ∈ made, n ≤ e.2 ∧ e.2 < s.cells.size ∧ (s.cell e.2).attrs = e.1.attrs) ∧
    ∀ name i, s.graph.member? o name = some i ↔ ∃ e ∈ made, e.1.name = name ∧ e.2 = i
  methods : ∀ name func, s.graph.localFunc? o name = some func ↔
    ∃ method ∈ decl.methods, method.name = name ∧ func = ⟨method, o⟩

/-- When the constructor arguments go, the instance is made. -/
theorem Store.Makes.made {decl : ClassDecl} {args : List Arg} {made : List (MemberDecl × CellId)}
    {k : CellId} (h : s.Makes k o world decl (decl.params.zip args) made decl.methods)
    (declared : made.map Prod.fst = decl.members) :
    (s.modifyGraph (·.clearArguments o)).Made k o world decl args := by
  let t := s.modifyGraph (·.clearArguments o)
  have kind : t.graph.kind? o =
      some (.object world decl (decl.params.zip args) [] (decl.members.map (·.name))) := by
    obtain ⟨arguments, kind⟩ := h.kind
    have changed : t.graph.kind? o = (s.graph.kind? o).map Graph.dropArguments :=
      Graph.kind?_update_self _ _ fun _ => rfl
    rw [kind] at changed
    rw [changed, ← declared, List.map_map]
    rfl
  have scopes : t.graph.scopes? o = _ :=
    (Graph.scopes?_update_same _ (by exact fun _ => rfl)).trans h.scopes
  obtain ⟨ctx, hctx, same⟩ := Option.map_eq_some_iff.mp scopes
  refine ⟨kind, ⟨made, declared, h.distinct, h.cells, fun name i => ?_⟩, fun name func => ?_⟩
  · have object : t.graph.isObject o = true := by
      rw [Graph.isObject, kind]
      rfl
    have looked : t.graph.member? o name =
        ((made.map fun e => (e.1.name, e.2)).reverse).lookup name := by
      rw [Graph.member?, if_pos object, Graph.localVar?, hctx, Option.bind_some,
        show ctx.vars = _ from congrArg Scopes.vars same]
      simp [ScopeStack.get?, ScopeStack.frames]
    rw [looked, lookup_reverse_iff (by simpa [Function.comp_def] using h.names), List.mem_map]
    simp only [Prod.mk.injEq]
  · have looked : t.graph.localFunc? o name =
        ((decl.methods.map fun d => (d.name, (⟨d, o⟩ : Func))).reverse).lookup name := by
      rw [Graph.localFunc?, hctx, Option.bind_some,
        show ctx.funcs = _ from congrArg Scopes.funcs same]
      simp [ScopeStack.get?, ScopeStack.frames]
    rw [looked, lookup_reverse_iff (by simpa [Function.comp_def] using h.methodNames), List.mem_map]
    simp only [Prod.mk.injEq, eq_comm (a := func)]

namespace Eval

variable {config : Config} {fuel : Nat} {decl : ClassDecl}

/-- What a successful construction gives. -/
theorem makes_instantiate (config : Config) (fuel : Nat) (decl : ClassDecl) (world : CtxId)
    (args : List Arg) (span : Span) (m : Machine) :
    Run.Ends (instantiate (evaluator config fuel) decl world args span) m
      (fun v m' => v = .object m.store.graph.size ∧
        m'.store.Made m.store.cells.size m.store.graph.size world decl args)
      fun _ => True := by
  refine (checkArity_ends decl.name decl.params args).bind fun _ m₀ same => ?_
  obtain rfl := same
  refine .newContext (.bind (P := fun _ m' =>
    m'.store.Made m₀.store.cells.size m₀.store.graph.size world decl args) (.ensuring ?_)
    fun _ _ made => ⟨rfl, made⟩)
  let given := decl.params.zip args
  refine (makes_arguments
    (m := { m₀ with store := (m₀.store.addContext (.object world decl given [] [])).2 })
    decl.params args (.begin m₀.store world decl given)).bind fun _ m₁ ⟨h₁, grown⟩ => ?_
  refine (makes_methods decl.methods h₁).bind fun _ m₂ ⟨h₂, same⟩ => ?_
  have grown : m₀.store.cells.size ≤ m₂.store.cells.size := by
    rw [same]
    exact grown
  refine .holding (.inCall trivial fun calls => ?_)
  refine (makes_construct
    (m := { m₂ with held := [.context world, .context m₀.store.graph.size] ++ m₂.held, calls })
    h₂ grown).mono (fun _ m₃ ⟨made, declared, h₃⟩ => ?_) fun _ _ => trivial
  exact h₃.made declared

end Eval

/-- **Constructor arguments.** In every session, however it has been used, no instance has
constructor arguments, and at every moment of a use only such instances have any as that use is
building. However any work ends, what was there has the constructor arguments that it had, and
nothing else has any; the same goes for every single construction, whether it succeeds or fails. One
that succeeds gives a new instance, which is as its class declares it. -/
theorem constructor_arguments_transient (config : Config) (fuel : Nat) :
    (∀ m s, m.store.Settled → Session.Reachable config fuel m s → s.machine.store.Settled ∧
      ∀ work, s.MayDo work → Throughout s.config s.fuel
        (fun _ m' => ∀ c, m'.store.arguments c ≠ [] →
          s.machine.store.graph.size ≤ c ∧ m'.scene.Builds c) work.run s.machine) ∧
    (∀ (work : Work) (m : Machine),
      Throughout config fuel (fun _ m' =>
        (∀ c < m.store.graph.size, m'.store.arguments c = m.store.arguments c) ∧
        ∀ c, m.store.graph.size ≤ c → m'.store.arguments c ≠ [] → m'.scene.Builds c) work.run m ∧
      m.store.Settles (work.after config fuel m).store ∧ (work.after config fuel m).held = m.held) ∧
    ∀ (decl : ClassDecl) (world : CtxId) (args : List Arg) (span : Span) (m : Machine),
      let build := Eval.instantiate (evaluator config fuel) decl world args span
      m.store.Settles (build.after m).store ∧ (build.after m).held = m.held ∧
      Run.Ends build m
        (fun v m' => v = .object m.store.graph.size ∧
          m'.store.Made m.store.cells.size m.store.graph.size world decl args)
        fun _ => True := by
  have works (config : Config) (fuel : Nat) (work : Work) (m : Machine) :
      m.store.Settles (work.after config fuel m).store ∧
        (work.after config fuel m).held = m.held :=
    Yard.settles_after (fun related => work.tracked _ _ related (fun _ _ => trivial)
      (Names.fit_anything _)) config fuel
  refine ⟨fun m s settled steps => ?_, fun work m => ⟨Yard.throughout work.tracked, works _ _ _ _⟩,
    fun decl world args span m => ?_⟩
  · have settled : s.machine.store.Settled := by
      induction steps with
      | refl => exact (Store.Settles.addContext m.store rfl).settled settled
      | tail _ step ih =>
        rcases step.used.machine with same | ⟨work, -, left⟩
        · rw [same]
          exact ih
        · rw [left]
          exact (works _ _ work _).1.settled ih
    refine ⟨settled, fun work _ => (Yard.throughout work.tracked).mono ?_⟩
    intro _ m' ⟨old, new⟩ c some
    rcases Nat.lt_or_ge c s.machine.store.graph.size with lt | ge
    · exact absurd ((old c lt).trans (settled c)) some
    · exact ⟨ge, new c ge some⟩
  · obtain ⟨settles, held⟩ := Yard.settles_after (m := m)
      (fun related => Run.Tracking.instantiate related decl world args span trivial
        (Names.fit_anything _)) config fuel
    exact ⟨settles, held, Eval.makes_instantiate config fuel decl world args span m⟩

/-- An instance that hands itself to a variable of the program before its constructor fails: it had
constructor arguments once, it is still there, and it has none now. -/
theorem constructor_arguments_transient_escaped :
    let span : Span := ⟨0, 1⟩
    let expr (node : ExprNode) : Expr := ⟨node, span⟩
    let escape : Block :=
      [⟨.assign (expr (.name "kept")) .plain (expr (.call "some" [expr (.name "this")])), span⟩,
        ⟨.expr (expr (.name "unknown")), span⟩]
    let classDecl : ClassDecl := ⟨"P", [⟨"a", none, .none⟩],
      [⟨"n", none, expr (.name "a"), .none, span⟩], [⟨"constructor", [], none, escape, .none⟩], .none⟩
    let program : Program := [⟨.letVar "kept" none (expr .none) .none, span⟩,
      ⟨.defClass classDecl, span⟩, ⟨.expr (expr (.call "P" [expr (.int 5)])), span⟩]
    let start := Session.start ⟨[], none⟩ 8 (.start .empty .silent [] none)
    let s := (start.runProgram program).2
    (s.machine.store.cell 0).value.contexts = [1] ∧ s.machine.store.graph.memberNames 1 = ["n"] ∧
      Sometime start.config start.fuel (fun _ m => m.store.arguments 1 ≠ [])
        (Work.batch program start.world).run start.machine ∧
      Throughout start.config start.fuel (fun _ m => m.store.arguments 1 ≠ [] → m.scene.Builds 1)
        (Work.batch program start.world).run start.machine ∧
      s.machine.store.Settled := by
  intro span expr escape classDecl program start s
  obtain ⟨sessions, -⟩ := constructor_arguments_transient ⟨[], none⟩ 8
  have settled : Store.Settled Store.empty := fun _ => Store.arguments_of_ge (Nat.zero_le _)
  have building := (sessions _ start settled .refl).2 (.batch program start.world) rfl
  refine ⟨by decide +kernel, by decide +kernel, ?_, building.mono fun _ m h some => (h 1 some).2,
    (sessions _ s settled (.single (.batch start program))).1⟩
  refine .of_alarm (fun _ m => !(m.store.arguments 1).isEmpty) (fun _ m sees => ?_) ?_
  · simpa using sees
  · decide +kernel

end TreeScript
