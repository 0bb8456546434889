import TreeScript.Proofs.Termination.Calls

/-!
# Bounded code settles

If bounded code settles that is smaller than a tree or runs where there is less room, then the tree
settles, too, if it is bounded: a loop that counts has as many rounds as its bounds say, and a module
is imported only where its import is not in progress yet.
-/
namespace TreeScript

/-- The place is a variable of the part, or in a value that code of the part may have. -/
def Part.At (p : Part) (place : Place) : Prop :=
  match place.root with
  | .inl i => p.Cell i
  | .inr v => p.Val v

/-- All modules that can be loaded have one of the paths, and their code is bounded. -/
def Config.LoadsBounded (config : Config) (paths : Finset String) : Prop :=
  ∀ loader ∈ config.loader, ∀ tree path code, loader tree path = .ok code →
    path ∈ paths ∧ blockBounded code = true

namespace Run.Settles

open Value (Hereditary)

variable {paths : Finset String} {r : Standing} {k : Nat} {c : CtxId} {ev : Nat → Evaluator}
  {config : Config} {β : Type} {R : β → Prop}

/-- Going on with what stands at a place. -/
theorem readPlace {p : Place} {x : Nat → Value → Run β} (hp : r.part.At p)
    (hx : ∀ v, r.part.Val v → Settles r R fun n => x n v) :
    Settles r R fun n => p.read >>= x n := by
  obtain ⟨root, path⟩ := p
  unfold Place.read
  simp only [bind_assoc]
  refine handles fun h => ?_
  cases root with
  | inl i => exact readCell hp fun v hv => given (Value.gives_read path hv) hx
  | inr v => exact given (Value.gives_read path hp) hx

theorem readingPlace {p : Place} (hp : r.part.At p) : Settles r r.part.Val fun _ => p.read := by
  simpa using readPlace hp fun v hv => pure (r := r) (Q := r.part.Val) hv

theorem editRoot {α : Type} {q : α → Prop} {p : Place} {f : Handles → Edit α} (hp : r.part.At p)
    (sound : ∀ h, (f h).Sound h r.part.Val q) : Settles r q fun _ => p.editRoot f := by
  obtain ⟨root, path⟩ := p
  cases root with
  | inl i => exact editCell hp sound
  | inr v =>
    refine handles fun h => ?_
    have outcome := sound h v hp
    cases hv : f h v with
    | ok a _ =>
      rw [hv] at outcome
      exact pure outcome.1
    | error fault _ => exact raise fault

theorem fieldOf {v : Value} (hv : r.part.Val v) (field : String) :
    Settles r r.part.At fun _ => Eval.fieldOf v field c := by
  refine holdingStoreFrom _ fun s hs => handles fun h => ?_
  cases v with
  | object object =>
    dsimp only
    cases hm : s.graph.member? object field with
    | none => exact raise _
    | some i =>
      have hi := hs.closed.member? (Part.val_object.mp hv) hm
      exact bind (checkAccess _ _ _ _) fun _ _ => pure hi
  | module world =>
    dsimp only
    cases hm : s.graph.localVar? world field with
    | none => exact raise _
    | some i =>
      have hi := hs.closed.localVar? (Part.val_module.mp hv) hm
      exact bind (checkAccess _ _ _ _) fun _ _ => pure hi
  | _ => exact raise _

theorem nameValue (hc : r.part.Ctx c) (name : String) :
    Settles r r.part.Val fun _ => Eval.nameValue name c := by
  refine storeFrom fun s hs => ?_
  cases hi : s.graph.import? c name with
  | some world => exact pure (Part.val_module.mpr (hs.closed.import? hc hi))
  | none =>
    cases hv : s.graph.var? c name with
    | some i => exact pure (hs.values i (hs.closed.var? hc hv))
    | none =>
      cases ho : (if name = "this" then s.graph.enclosingObject? c else none) with
      | none => exact raise _
      | some object =>
        refine pure (Part.val_object.mpr ?_)
        split at ho
        · exact hs.closed.enclosingObject? hc ho
        · cases ho

theorem callBuiltin (h : CalmBelow ev paths r) {receiver : Place} (hp : r.part.At receiver)
    (kind : Kind) (name : String) {vs : List Value} (hvs : r.part.Vals vs) (span : Span) :
    Settles r r.part.Val fun n => Eval.callBuiltin (ev n) receiver kind name vs span := by
  unfold Eval.callBuiltin
  cases hm : Member.find? kind name with
  | none => exact raise _
  | some m =>
    have plain := Member.namesNothingNew hm
    cases m with
    | read g => exact handles fun h => readPlace hp fun v hv => ofExcept (plain _ h v vs hv hvs)
    | edit g => exact editRoot hp fun h => (plain _ h vs hvs).edit receiver.path
    | apply g =>
      exact readPlace hp fun v hv => holding _ (member hm r _ v vs (callback h span) hv hvs)
    | file g => exact readPlace hp fun v _ => member hm r v vs

theorem callMember (h : CalmBelow ev paths r) {receiver : Place} (hp : r.part.At receiver)
    (name : String) {args : List Arg} (ha : ∀ arg ∈ args, r.part.Takes arg) (span : Span) :
    Settles r r.part.Val fun n => Eval.callMember (ev n) receiver name args c span := by
  refine readPlace hp fun v hv => ?_
  cases v with
  | object object => exact holding _ (callMethod h (Part.val_object.mp hv) name ha span)
  | module world => exact holding _ (callModuleMember h (Part.val_module.mp hv) name ha span)
  | _ => exact callBuiltin h hp _ name (values ha) span

theorem exprs (calm : Calm ev r k) (hc : r.part.Ctx c) : ∀ es, sizeOf es ≤ k →
    exprsBounded es = true → Settles r r.part.Vals fun n => Eval.exprs (ev n) c es
  | [], _, _ => pure nofun
  | e :: rest, hk, hb => by
    rw [exprsBounded, Bool.and_eq_true] at hb
    rw [List.cons.sizeOf_spec] at hk
    refine bind (calm.expr e c hc (by omega) hb.1) fun v hv => ?_
    refine bind ((exprs calm hc rest (by omega) hb.2).holding _) fun vs hvs => ?_
    exact pure (List.forall_mem_cons.mpr ⟨hv, hvs⟩)

theorem args (calm : Calm ev r k) (hc : r.part.Ctx c) : ∀ es, sizeOf es ≤ k →
    exprsBounded es = true →
    Settles r (fun args => ∀ arg ∈ args, r.part.Takes arg) fun n => Eval.args (ev n) c es
  | [], _, _ => pure nofun
  | e :: rest, hk, hb => by
    rw [exprsBounded, Bool.and_eq_true] at hb
    rw [List.cons.sizeOf_spec] at hk
    refine bind (calm.expr e c hc (by omega) hb.1) fun v hv => ?_
    have more (arg : Arg) (harg : r.part.Takes arg) :
        Settles r (fun args => ∀ arg ∈ args, r.part.Takes arg) fun n =>
          (do return arg :: (← Run.holding arg.holds (Eval.args (ev n) c rest))) :=
      bind ((args calm hc rest (by omega) hb.2).holding _) fun _ others =>
        pure (List.forall_mem_cons.mpr ⟨harg, others⟩)
    cases e.name? with
    | none => exact more ⟨v, none⟩ ⟨hv, nofun⟩
    | some name =>
      simp only [Run.graphFrom, Run.holding_map, bind_assoc, pure_bind]
      refine holdingStoreFrom _ fun s hs => more ⟨v, _⟩ ⟨hv, fun i hi => ?_⟩
      -- a bare name gives its variable
      split at hi
      · exact hs.closed.var? hc hi
      · cases hi

theorem entries (calm : Calm ev r k) (hc : r.part.Ctx c) : ∀ d items, sizeOf items ≤ k →
    entriesBounded items = true → r.part.Val (.dict d) →
    Settles r (fun d => r.part.Val (.dict d)) fun n => Eval.entries (ev n) c d items
  | d, [], _, _, hd => pure hd
  | d, (key, value) :: rest, hk, hb, hd => by
    simp only [entriesBounded, Bool.and_eq_true] at hb
    rw [List.cons.sizeOf_spec, Prod.mk.sizeOf_spec] at hk
    refine bind ((calm.expr key c hc (by omega) hb.1.1).holding _) fun key _ => ?_
    refine bind ((calm.expr value c hc (by omega) hb.1.2).holding _) fun value hv => ?_
    refine handles fun h => given (Value.gives_keyOf d key) fun k takes => ?_
    exact entries calm hc _ rest (by omega) hb.2 (Hereditary.insert takes hd hv)

theorem binary (calm : Calm ev r k) (hc : r.part.Ctx c) (op : BinaryOp) {left right : Expr}
    (hl : sizeOf left < k) (hr : sizeOf right < k) (hb : left.isBounded = true)
    (hb' : right.isBounded = true) :
    Settles r r.part.Val fun n => Eval.binary (ev n) op left right c := by
  have second {v : Value} := (calm.expr right c hc hr hb').holding [.value v]
  have bool (b : Bool) : Settles r r.part.Val fun _ => Pure.pure (.bool b) := pure (Hereditary.bool b)
  refine bind (calm.expr left c hc hl hb) fun v hv => ?_
  cases op with
  | and =>
    refine handles fun h => ?_
    split
    · exact bind second fun _ _ => handles fun _ => bool _
    · exact bool _
  | or =>
    refine handles fun h => ?_
    split
    · exact bool _
    · exact bind second fun _ _ => handles fun _ => bool _
  | _ => exact bind second fun w hw => handles fun h => ofExcept (Value.gives_binary hv hw _)

/-- The place at an index of a place. -/
theorem itemOf (calm : Calm ev r k) (hc : r.part.Ctx c) {p : Place} (hp : r.part.At p)
    {index : Expr} (hk : sizeOf index < k) (hb : index.isBounded = true) :
    Settles r r.part.At fun n =>
      (do return p.item (← Run.holding p.holds ((ev n).expr index c))) :=
  bind ((calm.expr index c hc hk hb).holding _) fun _ _ => pure hp

theorem place (calm : Calm ev r k) (hc : r.part.Ctx c) (e : Expr) : sizeOf e < k →
    e.isBounded = true → Settles r r.part.At fun n => Eval.place (ev n) c e := by
  fun_induction Eval.place (ev 0) c e with
  | case1 name =>
    intro _ _
    simp only [Eval.place, Run.graphFrom, bind_assoc, pure_bind]
    refine storeFrom fun s hs => ?_
    split
    · rename_i hv
      exact pure (hs.closed.var? hc hv)
    · exact bind (nameValue hc name) fun v hv => pure hv
  | case2 left index _ ih =>
    intro hk hb
    simp only [Expr.isBounded, ExprNode.isBounded, Bool.and_eq_true] at hb
    simp only [Expr.mk.sizeOf_spec, ExprNode.index.sizeOf_spec] at hk
    simp only [Eval.place]
    exact bind (ih (by omega) hb.1) fun p hp => itemOf calm hc hp (by omega) hb.2
  | case3 left field =>
    intro hk hb
    simp only [Expr.isBounded, ExprNode.isBounded] at hb
    simp only [Expr.mk.sizeOf_spec, ExprNode.member.sizeOf_spec] at hk
    simp only [Eval.place]
    exact bind (calm.expr left c hc (by omega) hb) fun v hv => fieldOf hv field
  | case4 e h1 h2 h3 =>
    intro hk hb
    have value (n : Nat) := Eval.place.eq_4 (ev n) c e h1 h2 h3
    simp only [value]
    exact bind (calm.expr e c hc hk hb) fun v hv => pure hv

theorem target (calm : Calm ev r k) (hc : r.part.Ctx c) (e : Expr) : sizeOf e < k →
    e.isBounded = true → Settles r r.part.At fun n => Eval.target (ev n) c e := by
  fun_induction Eval.target (ev 0) c e with
  | case1 name =>
    intro _ _
    simp only [Eval.target, Run.graphFrom, bind_assoc, pure_bind]
    refine storeFrom fun s hs => ?_
    split
    · exact raise _
    · rename_i hv
      exact pure (hs.closed.var? hc hv)
    · split
      · exact raise _
      · exact raise _
  | case2 left index _ ih =>
    intro hk hb
    simp only [Expr.isBounded, ExprNode.isBounded, Bool.and_eq_true] at hb
    simp only [Expr.mk.sizeOf_spec, ExprNode.index.sizeOf_spec] at hk
    simp only [Eval.target]
    exact bind (ih (by omega) hb.1) fun p hp => itemOf calm hc hp (by omega) hb.2
  | case3 left field =>
    intro hk hb
    simp only [Expr.isBounded, ExprNode.isBounded] at hb
    simp only [Expr.mk.sizeOf_spec, ExprNode.member.sizeOf_spec] at hk
    simp only [Eval.target]
    exact bind (calm.expr left c hc (by omega) hb) fun v hv => fieldOf hv field
  | case4 e h1 h2 h3 =>
    intro _ _
    have refused (n : Nat) := Eval.target.eq_4 (ev n) c e h1 h2 h3
    simp only [refused]
    exact raise _

theorem node (h : CalmBelow ev paths r) (calm : Calm ev r k) (hc : r.part.Ctx c) (e : Expr)
    (hk : sizeOf e ≤ k) (hb : e.isBounded = true) :
    Settles r r.part.Val fun n => Eval.node config (ev n) e c := by
  obtain ⟨node, span⟩ := e
  rw [Expr.isBounded] at hb
  rw [Expr.mk.sizeOf_spec] at hk
  unfold Eval.node
  cases node with
  | name name => exact nameValue hc name
  | int n | float x | str s | char ch | bool b | none => exact pure (Hereditary.bare rfl)
  | binary op left right =>
    rw [ExprNode.isBounded, Bool.and_eq_true] at hb
    rw [ExprNode.binary.sizeOf_spec] at hk
    exact binary calm hc op (by omega) (by omega) hb.1 hb.2
  | unary op operand =>
    rw [ExprNode.unary.sizeOf_spec] at hk
    refine bind (calm.expr operand c hc (by omega) hb) fun v _ => handles fun h => ?_
    exact ofExcept (Value.gives_unary op)
  | call name arguments =>
    rw [ExprNode.isBounded, Bool.and_eq_true, bne_iff_ne] at hb
    rw [ExprNode.call.sizeOf_spec] at hk
    exact bind (args calm hc arguments (by omega) hb.2) fun vs ha =>
      callName h config hc hb.1 ha span
  | member left right =>
    obtain ⟨right, rightSpan⟩ := right
    rw [ExprNode.member.sizeOf_spec, Expr.mk.sizeOf_spec] at hk
    cases right with
    | name field =>
      refine bind (calm.expr left c hc (by omega) hb) fun v hv => ?_
      exact bind (fieldOf hv field) fun p hp => readingPlace hp
    | call name arguments =>
      rw [ExprNode.isBounded, Bool.and_eq_true] at hb
      rw [ExprNode.call.sizeOf_spec] at hk
      refine bind (place calm hc left (by omega) hb.1) fun receiver hp => holding _ ?_
      exact bind (args calm hc arguments (by omega) hb.2) fun vs ha =>
        callMember h hp name ha rightSpan
    | _ => exact raise _
  | index left index =>
    rw [ExprNode.isBounded, Bool.and_eq_true] at hb
    rw [ExprNode.index.sizeOf_spec] at hk
    have found : Settles r r.part.At fun n => Eval.place (ev n) c ⟨.index left index, span⟩ :=
      bind (place calm hc left (by omega) hb.1) fun p hp => itemOf calm hc hp (by omega) hb.2
    exact bind found fun p hp => readingPlace hp
  | list items =>
    rw [ExprNode.list.sizeOf_spec] at hk
    exact bind (exprs calm hc items (by omega) hb) fun vs hvs => pure (Hereditary.list.mpr hvs)
  | tuple items =>
    rw [ExprNode.tuple.sizeOf_spec] at hk
    exact bind (exprs calm hc items (by omega) hb) fun vs hvs => pure (Hereditary.tuple.mpr hvs)
  | dict keyType items =>
    rw [ExprNode.dict.sizeOf_spec] at hk
    refine given (Tracking.plain_keyKind keyType) fun kind _ => ?_
    have none : r.part.Val (.dict (.empty kind)) := Hereditary.emptyDict kind
    exact bind (entries calm hc _ items (by omega) hb none) fun d hd => pure hd
  | closure params body => exact newClosure hc hb

theorem expr (h : CalmBelow ev paths r) (calm : Calm ev r k) (hc : r.part.Ctx c) (e : Expr)
    (hk : sizeOf e ≤ k) (hb : e.isBounded = true) :
    Settles r r.part.Val fun n => Eval.expr config (ev n) e c :=
  locating _ (node h calm hc e hk hb)

theorem silently {x : Nat → Run Unit} (h : Done r x) :
    Settles r r.part.Flow fun n => Eval.silently (x n) :=
  bind h fun _ _ => pure Hereditary.unit

theorem declareFrom {d : Declaration}
    (keeps : ∀ s, r.part.Open s → r.part.Open (s.modifyGraph d.apply)) :
    Done r fun _ => Run.declareFrom c d :=
  bind (letGo _) fun _ _ => declare keeps

theorem letVar (calm : Calm ev r k) (hc : r.part.Ctx c) (name : String) (type : Option TypeAnn)
    {value : Expr} (attrs : Attrs) (hk : sizeOf value < k) (hb : value.isBounded = true) :
    Done r fun n => Eval.letVar (ev n) name type value attrs c := by
  refine bind (calm.expr value c hc hk hb) fun v hv => handles fun h => ?_
  exact given (Value.gives_annotate hv type) fun v hv => declareVar hv

theorem ifElse (calm : Calm ev r k) (hc : r.part.Ctx c) {condition : Expr} {body : Block}
    {otherwise : Option Block} (hk : sizeOf condition < k) (hbody : sizeOf body ≤ k)
    (hother : ∀ b ∈ otherwise, sizeOf b ≤ k ∧ blockBounded b = true)
    (hb : condition.isBounded = true) (bounded : blockBounded body = true) :
    Settles r r.part.Flow fun n =>
      Eval.ifElse (ev n) condition body otherwise c := by
  refine bind (calm.expr condition c hc hk hb) fun v _ => handles fun h => ?_
  split
  · exact scopedBlock calm hc body hbody bounded
  · cases otherwise with
    | some b => exact scopedBlock calm hc b (hother b rfl).1 (hother b rfl).2
    | none => exact pure Hereditary.unit

theorem countLoop (calm : Calm ev r k) (hc : r.part.Ctx c) (cell : CellId) {body : Block}
    (hk : sizeOf body ≤ k) (hb : blockBounded body = true) : ∀ rounds first,
    Settles r r.part.Flow fun n =>
      Eval.countLoop (ev n) cell body c rounds first
  | 0, _ => pure Hereditary.unit
  | rounds + 1, first => by
    refine bind (count first) fun _ _ => bind (scopedBlock calm hc body hk hb) fun flow hf => ?_
    cases flow with
    | ret v => exact pure hf
    | normal v => exact countLoop calm hc cell hk hb rounds (first + 1)

theorem forRange (calm : Calm ev r k) (hc : r.part.Ctx c) (name : String) {first last : Expr}
    {body : Block} (hfirst : sizeOf first < k) (hlast : sizeOf last < k) (hk : sizeOf body ≤ k)
    (hb : (first.isBounded && last.isBounded && blockBounded body) = true) :
    Settles r r.part.Flow fun n =>
      Eval.forRange (ev n) name first last body c := by
  simp only [Bool.and_eq_true] at hb
  refine bind (calm.expr first c hc hfirst hb.1.1) fun v _ => ?_
  refine bind ((calm.expr last c hc hlast hb.1.2).holding _) fun w _ => handles fun h => ?_
  refine given (Tracking.plain_bounds h v w) fun limits _ => inScope c ?_
  refine bind (newCell (Hereditary.int _)) fun cell hcell => ?_
  refine bind (declare fun _ hs => hs.ofVar _ hcell) fun _ _ => ?_
  exact countLoop calm hc cell hk hb.2 _ _

theorem load (loads : config.LoadsBounded paths) (path : String) :
    Settles r (fun code => path ∈ paths ∧ blockBounded code = true) fun _ =>
      Eval.load config path := by
  unfold Eval.load
  cases hl : config.loader with
  | none => exact raise _
  | some loader =>
    refine look (fun m => m) fun m _ => ?_
    cases code : loader m.disk.tree path with
    | ok code' => exact pure (loads loader hl _ _ _ code)
    | error fault => exact raise fault

theorem nameImport (path : String) {world : CtxId} (hw : r.part.Ctx world) :
    Done r fun _ => Eval.nameImport path c world :=
  graph fun _ _ => declareFrom fun _ hs => hs.ofModule hw

theorem importPath (h : CalmBelow ev paths r) (loads : config.LoadsBounded paths) (path : String) :
    Done r fun n => Eval.importPath config (ev n) path c := by
  refine look (fun m => m) fun m hm => ?_
  dsimp only
  split
  · exact raise _
  · rename_i idle
    have idle : path ∉ r.importing := by simpa [hm.importing] using idle
    refine bind (load loads path) fun code found => ?_
    obtain ⟨known, bounded⟩ := found
    refine bind (newContext (by rintro _ ⟨⟩) ⟨rfl, rfl, rfl⟩) fun world hw => ?_
    have ran := (program (h.calm _ (Standing.below_of_import known idle) _) hw code (Nat.le_refl _)
      bounded).importing path
    exact (bind ran fun _ _ => nameImport path hw).holding [.context world]

theorem stmtNode (h : CalmBelow ev paths r) (loads : config.LoadsBounded paths)
    (calm : Calm ev r k) (hc : r.part.Ctx c) (s : StmtNode) (hk : sizeOf s ≤ k)
    (hb : s.isBounded = true) :
    Settles r r.part.Flow fun n => Eval.stmtNode config (ev n) s c := by
  cases s with
  | letVar name type value attrs =>
    rw [StmtNode.letVar.sizeOf_spec] at hk
    exact silently (letVar calm hc name type attrs (by omega) hb)
  | assign left op right =>
    rw [StmtNode.isBounded, Bool.and_eq_true] at hb
    rw [StmtNode.assign.sizeOf_spec] at hk
    refine silently (bind (calm.expr right c hc (by omega) hb.2) fun v hv => ?_)
    refine bind ((target calm hc left (by omega) hb.1).holding _) fun p hp => ?_
    exact editRoot hp fun h => Edit.Sound.assignAt op p.path hv
  | defFunc decl => exact silently (declare fun _ hs => hs.ofFunc ⟨hc, hb⟩)
  | defClass decl => exact silently (declareFrom fun _ hs => hs.ofClass hb)
  | ifElse condition body otherwise =>
    rw [StmtNode.ifElse.sizeOf_spec] at hk
    cases otherwise with
    | none =>
      rw [StmtNode.isBounded, Bool.and_eq_true] at hb
      have other : ∀ b ∈ (none : Option Block), sizeOf b ≤ k ∧ blockBounded b = true := nofun
      exact ifElse calm hc (by omega) (by omega) other hb.1 hb.2
    | some b =>
      simp only [StmtNode.isBounded, Bool.and_eq_true] at hb
      rw [Option.some.sizeOf_spec] at hk
      have other : ∀ b' ∈ some b, sizeOf b' ≤ k ∧ blockBounded b' = true := by
        rintro b' ⟨⟩
        exact ⟨by omega, hb.2⟩
      exact ifElse calm hc (by omega) (by omega) other hb.1.1 hb.1.2
  | whileLoop condition body => cases hb
  | forRange name first last body =>
    rw [StmtNode.forRange.sizeOf_spec] at hk
    exact forRange calm hc name (by omega) (by omega) (by omega) hb
  | ret value =>
    cases value with
    | none => exact pure Hereditary.unit
    | some e =>
      rw [StmtNode.ret.sizeOf_spec, Option.some.sizeOf_spec] at hk
      exact bind (calm.expr e c hc (by omega) hb) fun v hv => pure hv
  | expr e =>
    rw [StmtNode.expr.sizeOf_spec] at hk
    exact bind (calm.expr e c hc (by omega) hb) fun v hv => pure hv
  | importPath path => exact silently (importPath h loads path)
  | nameModule name =>
    exact silently (bind (letGo _) fun _ _ => modifyGraph fun _ hs => hs.nameModule)
  | block body =>
    rw [StmtNode.block.sizeOf_spec] at hk
    exact scopedBlock calm hc body (by omega) hb

theorem stmt (h : CalmBelow ev paths r) (loads : config.LoadsBounded paths) (calm : Calm ev r k)
    (hc : r.part.Ctx c) (s : Stmt) (hk : sizeOf s ≤ k) (hb : s.isBounded = true) :
    Settles r r.part.Flow fun n => Eval.stmt config (ev n) s c := by
  obtain ⟨node, span⟩ := s
  rw [Stmt.mk.sizeOf_spec] at hk
  exact locating _ (stmtNode h loads calm hc node (by omega) hb)

end Run.Settles

/-- Evaluators settle on all bounded code, as long as the number of calls is limited: by induction on
the room that is left, and on the size of the code. -/
theorem evaluator_calm {config : Config} {paths : Finset String} (loads : config.LoadsBounded paths)
    (r : Standing) (limited : r.calls.limit.isSome) (k : Nat) : Calm (evaluator config) r k := by
  induction hroom : r.room paths using Nat.strong_induction_on generalizing r k with
  | _ room less =>
    subst hroom
    have below : CalmBelow (evaluator config) paths r :=
      ⟨limited, fun r' hr k => less _ hr.room r' (hr.limit ▸ limited) k rfl⟩
    induction k with
    | zero => exact ⟨fun _ _ _ h => absurd h (Nat.not_lt_zero _), fun _ _ _ h =>
        absurd h (Nat.not_lt_zero _)⟩
    | succ k calm =>
      exact ⟨fun e c hc hk hb => .shift (.expr below calm hc e (Nat.le_of_lt_succ hk) hb),
        fun s c hc hk hb => .shift (.stmt below loads calm hc s (Nat.le_of_lt_succ hk) hb)⟩

end TreeScript
