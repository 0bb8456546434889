import Mathlib.Data.Finset.Card
import TreeScript.Proofs.Termination.Builtin

/-!
# Calls settle

Every call and every import leaves less room for others: there may be one call less before the limit
is met, or one path less to import. So if bounded code settles wherever there is less room, calls of
bounded code settle.
-/
namespace TreeScript

variable {paths : Finset String} {r r' : Standing} {k : Nat} {c : CtxId}

namespace Standing

/-- How many calls and how many imports may still begin. -/
def room (paths : Finset String) (r : Standing) : Nat :=
  (r.calls.limit.getD 0 - r.calls.depth) + (paths \ r.importing.toFinset).card

/-- There is less room, with the same limit for calls. -/
structure Below (paths : Finset String) (r' r : Standing) : Prop where
  limit : r'.calls.limit = r.calls.limit
  room : r'.room paths < r.room paths

theorem Below.trans {r'' : Standing} (h : Below paths r'' r') (h' : Below paths r' r) :
    Below paths r'' r := ⟨h.limit.trans h'.limit, Nat.lt_trans h.room h'.room⟩

/-- A call that begins leaves less room. -/
theorem below_of_push {frame : CallFrame} {calls : CallStack} (limited : r.calls.limit.isSome)
    (h : r.calls.push frame = .ok calls) : Below paths { r with calls } r := by
  obtain ⟨rfl, hasRoom⟩ := CallStack.of_push h
  obtain ⟨limit, hlimit⟩ := Option.isSome_iff_exists.mp limited
  refine ⟨rfl, ?_⟩
  have less := hasRoom limit hlimit
  rw [CallStack.depth] at less
  simp only [room, hlimit, Option.getD_some, CallStack.depth, List.length_cons]
  omega

/-- A path whose import begins leaves less room. -/
theorem below_of_import {path : String} (known : path ∈ paths) (idle : path ∉ r.importing) :
    Below paths { r with importing := path :: r.importing } r := by
  refine ⟨rfl, Nat.add_lt_add_left ?_ _⟩
  refine Finset.card_lt_card ⟨fun p hp => ?_, fun all => ?_⟩
  · rw [Finset.mem_sdiff, List.mem_toFinset] at hp ⊢
    exact ⟨hp.1, fun begun => hp.2 (List.mem_cons_of_mem path begun)⟩
  · have mem : path ∈ paths \ r.importing.toFinset := by
      rw [Finset.mem_sdiff, List.mem_toFinset]
      exact ⟨known, idle⟩
    have left := all mem
    rw [Finset.mem_sdiff, List.mem_toFinset] at left
    exact left.2 List.mem_cons_self

end Standing

/-- A statement ends with a value that code of the part may have. -/
abbrev Part.Flow (p : Part) (flow : TreeScript.Flow) : Prop := p.Val flow.value

/-- Evaluators of more and more fuel settle there on bounded code that is smaller than `k`. -/
structure Calm (ev : Nat → Evaluator) (r : Standing) (k : Nat) : Prop where
  expr (e : Expr) (c : CtxId) : r.part.Ctx c → sizeOf e < k → e.isBounded = true →
    Run.Settles r r.part.Val fun n => (ev n).expr e c
  stmt (s : Stmt) (c : CtxId) : r.part.Ctx c → sizeOf s < k → s.isBounded = true →
    Run.Settles r r.part.Flow fun n => (ev n).stmt s c

/-- The number of calls is limited, and evaluators settle on all bounded code where there is less
room. -/
structure CalmBelow (ev : Nat → Evaluator) (paths : Finset String) (r : Standing) : Prop where
  limited : r.calls.limit.isSome
  calm : ∀ r', r'.Below paths r → ∀ k, Calm ev r' k

theorem CalmBelow.lower {ev : Nat → Evaluator} (h : CalmBelow ev paths r) (lower : r'.Below paths r) :
    CalmBelow ev paths r' :=
  ⟨lower.limit ▸ h.limited, fun _ lower' => h.calm _ (lower'.trans lower)⟩

/-- The value of the argument and its variable are such that code of the part may have them. -/
structure Part.Takes (p : Part) (arg : Arg) : Prop where
  value : p.Val arg.value
  cell : ∀ i, arg.cell = some i → p.Cell i

namespace Run.Settles

open Value (Hereditary)

variable {ev : Nat → Evaluator}

theorem block (calm : Calm ev r k) (hc : r.part.Ctx c) : ∀ b, sizeOf b ≤ k →
    blockBounded b = true →
    Settles r r.part.Flow fun n => Eval.block (ev n) c b
  | [], _, _ => pure Hereditary.unit
  | s :: rest, hk, hb => by
    rw [blockBounded, Bool.and_eq_true] at hb
    rw [List.cons.sizeOf_spec] at hk
    refine bind (calm.stmt s c hc (by omega) hb.1) fun flow hf => ?_
    cases flow with
    | normal v => exact block calm hc rest (by omega) hb.2
    | ret v => exact pure hf

theorem scopedBlock (calm : Calm ev r k) (hc : r.part.Ctx c) (b : Block) (hk : sizeOf b ≤ k)
    (hb : blockBounded b = true) :
    Settles r r.part.Flow fun n => Eval.scopedBlock (ev n) c b :=
  inScope c (block calm hc b hk hb)

theorem program (calm : Calm ev r k) (hc : r.part.Ctx c) : ∀ p, sizeOf p ≤ k →
    blockBounded p = true → Done r fun n => Eval.program (ev n) c p
  | [], _, _ => pure trivial
  | s :: rest, hk, hb => by
    rw [blockBounded, Bool.and_eq_true] at hb
    rw [List.cons.sizeOf_spec] at hk
    exact bind (calm.stmt s c hc (by omega) hb.1) fun _ _ => program calm hc rest (by omega) hb.2

/-- The body of a call. -/
theorem body (calm : ∀ k, Calm ev r k) (hc : r.part.Ctx c) {b : Block}
    (hb : blockBounded b = true) : Settles r r.part.Val fun n => Eval.body (ev n) c b := by
  refine bind (block (calm _) hc b (Nat.le_refl _) hb) fun flow hf => ?_
  cases flow with
  | normal v => exact pure Hereditary.unit
  | ret v => exact pure hf

variable {args : List Arg}

theorem values (ha : ∀ arg ∈ args, r.part.Takes arg) : r.part.Vals (args.map (·.value)) := by
  intro v hv
  obtain ⟨arg, harg, rfl⟩ := List.mem_map.mp hv
  exact (ha arg harg).value

theorem checkArity (name : String) (params : List Param) (args : List Arg) :
    Done r fun _ => Eval.checkArity name params args := by
  unfold Eval.checkArity
  split
  · exact pure trivial
  · exact raise _

theorem annotated {v : Value} (hv : r.part.Val v) (type : Option TypeAnn) :
    Settles r r.part.Val fun _ => (do Run.ofExcept (v.annotate (← Run.handles) type)) :=
  handles fun _ => ofExcept (Value.gives_annotate hv type)

theorem paramCell (param : Param) {arg : Arg} (ha : r.part.Takes arg) :
    Settles r r.part.Cell fun _ => Eval.paramCell param arg := by
  unfold Eval.paramCell
  split
  · rename_i i found
    have hi : r.part.Cell i := by
      split at found
      · exact ha.cell i found
      · cases found
    refine readCell hi fun v hv => handles fun h => ?_
    exact given (Value.gives_annotate hv param.type) fun _ _ => pure hi
  · exact handles fun h => given (Value.gives_annotate ha.value param.type) fun v hv => newCell hv

theorem bindParams {bindName : String → CellId → Run Unit}
    (h : ∀ name i, r.part.Cell i → Done r fun _ => bindName name i) :
    ∀ params {args : List Arg}, (∀ arg ∈ args, r.part.Takes arg) →
      Done r fun _ => Eval.bindParams bindName params args
  | [], _, _ => pure trivial
  | _ :: _, [], _ => pure trivial
  | param :: params, arg :: args, ha => by
    obtain ⟨harg, hargs⟩ := List.forall_mem_cons.mp ha
    refine bind (paramCell param harg) fun i hi => bind (h param.name i hi) fun _ _ => ?_
    exact bindParams h params hargs

theorem bindCell (name : String) (i : CellId) (hi : r.part.Cell i) :
    Done r fun _ => Run.bindCell c name i :=
  store fun _ _ => declare fun _ hs => hs.ofVar _ hi

theorem declareVar {cell : Cell} (hv : r.part.Val cell.value) :
    Done r fun _ => Run.declareVar c cell :=
  bind (newCell hv) fun _ hi => declare fun _ hs => hs.ofVar _ hi

/-- The body of a function or a closure, if there is room for the call. -/
theorem called (h : CalmBelow ev paths r) (hc : r.part.Ctx c) {b : Block}
    (hb : blockBounded b = true) (holds : List Hold) (name : String) (span : Span) :
    Settles r r.part.Val fun n =>
      Run.holding holds (Run.inCall name span (Eval.body (ev n) c b)) :=
  holding _ (inCall _ _ fun _ hp => body (h.calm _ (Standing.below_of_push h.limited hp)) hc hb)

theorem callFunc (h : CalmBelow ev paths r) {func : Func} (hf : r.part.MayCall func)
    (ha : ∀ arg ∈ args, r.part.Takes arg) (span : Span) :
    Settles r r.part.Val fun n => Eval.callFunc (ev n) func args span := by
  unfold Eval.callFunc
  refine bind (checkArity _ _ _) fun _ _ => bind ((letGo _).holding _) fun _ _ => graph fun s _ => ?_
  split
  · exact raise _
  · refine bind (newContext (fun o ho => Option.some.inj ho ▸ hf.1) ⟨rfl, rfl, rfl⟩) fun c hc => ?_
    refine bind (bindParams bindCell _ ha) fun _ _ => ?_
    refine bind (called h hc (func.decl.isBounded_eq ▸ hf.2) _ _ span) fun v hv => ?_
    exact (annotated hv _).locating span

theorem callClosure (h : CalmBelow ev paths r) {closure : Closure}
    (hcl : r.part.Val (.closure closure)) (ha : ∀ arg ∈ args, r.part.Takes arg) (span : Span) :
    Settles r r.part.Val fun n => Eval.callClosure (ev n) closure args span := by
  obtain ⟨hcl, bounded⟩ := Part.val_closure.mp hcl
  unfold Eval.callClosure
  refine bind (checkArity _ _ _) fun _ _ => bind ((letGo _).holding _) fun _ _ => graph fun s _ => ?_
  split
  · exact raise _
  · rename_i owner followed
    obtain rfl := Graph.eq_of_follow followed
    refine bind (newContext (fun o ho => Option.some.inj ho ▸ hcl) ⟨rfl, rfl, rfl⟩) fun c hc => ?_
    exact bind (bindParams bindCell _ ha) fun _ _ => called h hc bounded _ _ span

theorem callback (h : CalmBelow ev paths r) (span : Span) :
    OfCallback r fun n => Eval.callback (ev n) span := by
  intro closure args hcl ha
  refine callClosure h hcl (fun arg harg => ?_) span
  obtain ⟨v, hv, rfl⟩ := List.mem_map.mp harg
  exact ⟨ha v hv, nofun⟩

theorem declareMethods (hc : r.part.Ctx c) : ∀ methods, funcsBounded methods = true →
    Done r fun _ => Eval.declareMethods c methods
  | [], _ => pure trivial
  | decl :: rest, hm => by
    rw [funcsBounded, Bool.and_eq_true] at hm
    exact bind (declare fun _ hs => hs.ofFunc ⟨hc, hm.1⟩) fun _ _ => declareMethods hc rest hm.2

theorem initMembers (calm : ∀ k, Calm ev r k) (hc : r.part.Ctx c) : ∀ members,
    membersBounded members = true → Done r fun n => Eval.initMembers (ev n) c members
  | [], _ => pure trivial
  | member :: rest, hm => by
    rw [membersBounded, MemberDecl.isBounded_eq, Bool.and_eq_true] at hm
    refine bind ((calm _).expr member.value c hc (Nat.lt_succ_self _) hm.1) fun v hv => ?_
    refine bind ((annotated hv member.type).locating member.span) fun v hv => ?_
    exact bind (declareVar hv) fun _ _ => initMembers calm hc rest hm.2

theorem construct (h : CalmBelow ev paths r) (calm : ∀ k, Calm ev r k) (hc : r.part.Ctx c)
    {decl : ClassDecl} (hd : decl.isBounded = true) (span : Span) :
    Done r fun n => Eval.construct (ev n) c decl span := by
  have members := (ClassDecl.isBounded_iff.mp hd).1
  refine bind (initMembers calm hc _ members) fun _ _ => graph fun s hs => ?_
  cases hf : s.graph.localFunc? c "constructor" with
  | none => exact pure trivial
  | some func =>
    have none : ∀ arg ∈ [], r.part.Takes arg := fun _ hin => nomatch hin
    exact bind (callFunc h (hs.localFunc? hc hf) none span) fun _ _ => pure trivial

theorem instantiate (h : CalmBelow ev paths r) {decl : ClassDecl} (hd : decl.isBounded = true)
    {world : CtxId} (hw : r.part.Ctx world) (ha : ∀ arg ∈ args, r.part.Takes arg) (span : Span) :
    Settles r r.part.Val fun n => Eval.instantiate (ev n) decl world args span := by
  have methods := (ClassDecl.isBounded_iff.mp hd).2
  refine bind (checkArity _ _ _) fun _ _ =>
    bind (newContext (fun o ho => Option.some.inj ho ▸ hw) ⟨rfl, rfl, rfl⟩) fun c hc => ?_
  refine bind (P := fun _ => True) (ensuring ?_ fun m hm => hm.withStore hm.store.clearArguments)
    fun _ _ => pure (Part.val_object.mpr hc)
  refine bind (bindParams (fun _ _ hi => declare fun _ hs => hs.ofArgument hi) _ ha) fun _ _ => ?_
  refine bind (declareMethods hc _ methods) fun _ _ => holding _ (inCall _ _ fun calls hp => ?_)
  have below : Standing.Below paths { r with calls } r := Standing.below_of_push h.limited hp
  exact construct (h.lower below) (h.calm _ below) hc hd span

theorem storeFrom {β : Type} {R : β → Prop} {x : Nat → Store → Run β}
    (hx : ∀ s, r.part.Open s → Settles r R fun n => x n s) :
    Settles r R fun n => Run.storeFrom c >>= x n := by
  unfold Run.storeFrom
  simp only [bind_assoc]
  exact bind (letGo _) fun _ _ => store hx

theorem holdingStoreFrom {β : Type} {R : β → Prop} {x : Nat → Store → Run β} (holds : List Hold)
    (hx : ∀ s, r.part.Open s → Settles r R fun n => x n s) :
    Settles r R fun n => Run.holding holds (Run.storeFrom c) >>= x n := by
  simp only [Run.holding_storeFrom, bind_assoc]
  exact bind ((letGo _).holding _) fun _ _ => store hx

theorem callName (h : CalmBelow ev paths r) (config : Config) (hc : r.part.Ctx c) {name : String}
    (other : name ≠ "copy") (ha : ∀ arg ∈ args, r.part.Takes arg) (span : Span) :
    Settles r r.part.Val fun n => Eval.callName config (ev n) name args c span := by
  unfold Eval.callName
  cases hi : Intrinsic.find? name with
  | some i => exact intrinsic hi other r config _ (values ha)
  | none =>
    refine holdingStoreFrom _ fun s hs => ?_
    cases hd : s.graph.class? c name with
    | some decl => exact instantiate h (hs.class? hc hd) (hs.closed.root hc) ha span
    | none =>
      cases hf : s.graph.func? c name with
      | some func => exact callFunc h (hs.func? hc hf) ha span
      | none =>
        cases hv : s.graph.var? c name with
        | none => exact raise _
        | some i =>
          have held := hs.values i (hs.closed.var? hc hv)
          cases hcl : (s.cell i).value with
          | closure closure =>
            rw [hcl] at held
            simpa only [hcl] using callClosure h held ha span
          | _ => simpa only [hcl] using handles fun _ => raise _

theorem checkAccess (isPub inside : Bool) (name owner : String) :
    Done r fun _ => Eval.checkAccess isPub inside name owner := by
  unfold Eval.checkAccess
  split
  · exact pure trivial
  · exact raise _

theorem callCell (h : CalmBelow ev paths r) {i : CellId} (hi : r.part.Cell i) (name : String)
    (ha : ∀ arg ∈ args, r.part.Takes arg) (span : Span) :
    Settles r r.part.Val fun n => Eval.callCell (ev n) i name args span := by
  refine readCell hi fun v hv => ?_
  cases v with
  | closure closure => exact callClosure h hv ha span
  | _ => exact handles fun _ => raise _

theorem callMethod (h : CalmBelow ev paths r) {object : CtxId} (ho : r.part.Ctx object)
    (name : String) (ha : ∀ arg ∈ args, r.part.Takes arg) (span : Span) :
    Settles r r.part.Val fun n => Eval.callMethod (ev n) object name args c span := by
  refine holdingStoreFrom _ fun s hs => handles fun _ => ?_
  cases hf : s.graph.localFunc? object name with
  | some func =>
    exact bind (checkAccess _ _ _ _) fun _ _ => callFunc h (hs.localFunc? ho hf) ha span
  | none =>
    cases hm : s.graph.member? object name with
    | some i =>
      exact bind (checkAccess _ _ _ _) fun _ _ => callCell h (hs.closed.member? ho hm) name ha span
    | none => exact raise _

theorem callModuleMember (h : CalmBelow ev paths r) {world : CtxId} (hw : r.part.Ctx world)
    (name : String) (ha : ∀ arg ∈ args, r.part.Takes arg) (span : Span) :
    Settles r r.part.Val fun n => Eval.callModuleMember (ev n) world name args c span := by
  refine holdingStoreFrom _ fun s hs => ?_
  cases hf : s.graph.localFunc? world name with
  | some func =>
    exact bind (checkAccess _ _ _ _) fun _ _ => callFunc h (hs.localFunc? hw hf) ha span
  | none =>
    cases hd : s.graph.class? world name with
    | some decl =>
      exact bind (checkAccess _ _ _ _) fun _ _ => instantiate h (hs.class? hw hd) hw ha span
    | none =>
      cases hv : s.graph.localVar? world name with
      | some i =>
        exact bind (checkAccess _ _ _ _) fun _ _ =>
          callCell h (hs.closed.localVar? hw hv) name ha span
      | none => exact raise _

end Run.Settles

end TreeScript
