import TreeScript.Proofs.Run.Builtin

/-!
# Evaluation and what runs get hold of

Every form of the language respects every tracking: if a tracking relates two evaluators on the
parts of a tree, then it relates them on the tree, and what the tree gives is in hand. What a form
still needs of the parts that it has evaluated it holds while it evaluates the others. Expressions
have a clean footprint; a statement declares names in its own context at most, and any statement but
a declaration only opens scopes.
-/
namespace TreeScript

theorem Graph.eq_of_follow {g : Graph} {target owner : CtxId} (h : g.follow target = some owner) :
    target = owner := by
  unfold follow at h
  split at h
  · cases h
  · exact Option.some.inj h

namespace Run.Tracking

open Eval
open Value (Hereditary)

/-- The tracking relates two evaluators. -/
structure Relates (T : Tracking) (ev₁ ev₂ : Evaluator) : Prop where
  fuel : ev₁.fuel = ev₂.fuel
  expr (w : T.World) (e : Expr) (c : CtxId) : T.Kept w c →
    T.Rel w .clean Value.names (ev₁.expr e c) (ev₂.expr e c)
  stmt (w : T.World) (s : Stmt) (c : CtxId) : T.Kept w c →
    T.Rel w (.names c) Flow.names (ev₁.stmt s c) (ev₂.stmt s c)

variable {T : Tracking} {w : T.World} {f : Footprint} {c : CtxId} {ev₁ ev₂ : Evaluator}

theorem kept_next {w' : T.World} (next : T.Next w w') (hc : T.Kept w c) : T.Kept w' c :=
  (T.lasts next).kept hc

theorem unit {w : T.World} : T.Fits w (Value.names .unit) := fit_value.mpr Hereditary.unit

theorem rootValue {p : Place} (hp : T.Fits w p.names) : T.Keeps w f Value.names p.rootValue := by
  obtain ⟨root, path⟩ := p
  cases root with
  | inl i => exact readCell (hp.cells i List.mem_cons_self)
  | inr v => exact ret (fit_value.mpr (hp.values v List.mem_cons_self))

theorem readPlace {p : Place} (hp : T.Fits w p.names) : T.Keeps w f Value.names p.read := by
  refine handles fun h => T.bind (rootValue hp) fun v w' _ hv => ?_
  exact ofExcept (gives_names (Value.gives_read p.path (fit_value.mp hv)))

/-- Reading a place leaves the world as it is. -/
theorem readingPlace {β : Type} {ν : β → Names} {p : Place} {k l : Value → Run β}
    (hp : T.Fits w p.names) (h : ∀ v, T.Val w v → T.Rel w f ν (k v) (l v)) :
    T.Rel w f ν (p.read >>= k) (p.read >>= l) := by
  obtain ⟨root, path⟩ := p
  have found (v : Value) (hs : Handles) (hv : T.Val w v) :
      T.Rel w f ν (Run.ofExcept (Value.read hs path v) >>= k)
        (Run.ofExcept (Value.read hs path v) >>= l) :=
    given (Value.gives_read path hv) h
  unfold Place.read
  rw [bind_assoc, bind_assoc]
  refine handles fun hs => ?_
  rw [bind_assoc, bind_assoc]
  cases root with
  | inl i =>
    exact T.look (fun m => (m.store.cell i).value) fun m shows =>
      found _ hs (shows.value i (hp.cells i List.mem_cons_self))
  | inr v => exact found v hs (hp.values v List.mem_cons_self)

theorem editRoot {α : Type} {κ : α → List Value} {p : Place} {edit : Handles → Edit α}
    {operands : List Value} (hp : T.Fits w p.names) (ho : ∀ v ∈ operands, T.Val w v)
    (he : ∀ h (V : Value → Prop) [Hereditary V], (∀ v ∈ operands, V v) →
      (edit h).Sound h V fun a => ∀ v ∈ κ a, V v) :
    T.Keeps w f (fun a => .ofValues (κ a)) (p.editRoot edit) := by
  obtain ⟨root, path⟩ := p
  cases root with
  | inl i => exact of_clean (T.editCell (hp.cells i List.mem_cons_self) ho he)
  | inr v =>
    refine handles fun h => ?_
    have sound := he h (T.Val w) ho v (hp.values v List.mem_cons_self)
    cases hv : edit h v with
    | ok a _ =>
      rw [hv] at sound
      exact ret (Names.fit_ofValues.mpr sound.1)
    | error e _ =>
      rw [hv] at sound
      exact plainFault sound.1

theorem vals_args {args : List Arg} (ha : T.Fits w (argNames args)) :
    ∀ v ∈ args.map (·.value), T.Val w v := ha.values

/-- Going on after the number of arguments has been checked. -/
theorem checkArity {β : Type} {ν : β → Names} (name : String) (params : List Param)
    (args : List Arg) {x y : Run β} (h : T.Rel w f ν x y) :
    T.Rel w f ν (Eval.checkArity name params args >>= fun _ => x)
      (Eval.checkArity name params args >>= fun _ => y) := by
  unfold Eval.checkArity
  split
  · exact h
  · exact plainFault rfl

theorem block (h : T.Relates ev₁ ev₂) : ∀ {w : T.World} (b : Block), T.Kept w c →
    T.Rel w (.names c) Flow.names (block ev₁ c b) (block ev₂ c b)
  | _, [], _ => ret unit
  | w, stmt :: rest, hc => by
    refine T.bind (h.stmt w stmt c hc) fun flow w' next hf => ?_
    cases flow with
    | normal v => exact block h rest (kept_next next hc)
    | ret v => exact ret hf

theorem scopedBlock (h : T.Relates ev₁ ev₂) (b : Block) (hc : T.Kept w c) :
    T.Rel w (.blocks c) Flow.names (scopedBlock ev₁ c b) (scopedBlock ev₂ c b) :=
  T.inScope hc fun _ next => block h b (kept_next next hc)

theorem program (h : T.Relates ev₁ ev₂) : ∀ {w : T.World} (p : Program), T.Kept w c →
    T.Rel w (.names c) (fun _ => .none) (Eval.program ev₁ c p) (Eval.program ev₂ c p)
  | _, [], _ => ret fits_none
  | w, stmt :: rest, hc =>
    andThen (h.stmt w stmt c hc) fun _ _ next => program h rest (kept_next next hc)

theorem body (h : T.Relates ev₁ ev₂) (b : Block) (hc : T.Kept w c) :
    T.Rel w (.names c) Value.names (body ev₁ c b) (body ev₂ c b) := by
  refine T.bind (block h b hc) fun flow w' next hf => ?_
  cases flow with
  | normal v => exact ret unit
  | ret v => exact ret hf

/-- A result as its annotation has it. -/
theorem annotated {v : Value} (hv : T.Val w v) (span : Span) (type : Option TypeAnn) :
    T.Keeps w f Value.names
      (Run.locating span do Run.ofExcept (v.annotate (← Run.handles) type)) :=
  T.locating span (ofHandles fun _ => gives_names (Value.gives_annotate hv type))

theorem callFunc (h : T.Relates ev₁ ev₂) (func : Func) (args : List Arg) (span : Span)
    (ho : T.Kept w func.owner) (ha : T.Fits w (argNames args)) :
    T.Rel w .clean Value.names (callFunc ev₁ func args span) (callFunc ev₂ func args span) := by
  refine checkArity _ _ _ ?_
  refine holdingLetGo (mayHold_args ha) heldBy_args ha fun w₁ next₁ fits => ?_
  have ho := kept_next next₁ ho
  refine graph fun m shows => raiseIf (fun gone => ?_) ?_
  · exact shows.live _ ho (Bool.not_eq_true _ ▸ (by simpa using gone))
  have run (c : CtxId) (w' : T.World) (hc : T.Kept w' c) :=
    T.inCall func.decl.name span (body h func.decl.body hc)
  have call := T.callWith (show (Callee.func func).IsCode from trivial) ho fits run
  have both := T.bind call (k := fun v => Run.locating span do
      Run.ofExcept (v.annotate (← Run.handles) func.decl.result))
    (l := fun v => Run.locating span do
      Run.ofExcept (v.annotate (← Run.handles) func.decl.result)) fun v w' _ hv =>
    annotated (fit_value.mp hv) span _
  simp only [Eval.callWith, bind_assoc] at both
  exact both

theorem callClosure (h : T.Relates ev₁ ev₂) (closure : Closure) (args : List Arg) (span : Span)
    (ho : T.Val w (.closure closure)) (ha : T.Fits w (argNames args)) :
    T.Rel w .clean Value.names (callClosure ev₁ closure args span)
      (callClosure ev₂ closure args span) := by
  refine checkArity _ _ _ ?_
  refine holdingLetGo (N := closure.names ++ argNames args)
    (List.forall_mem_cons.mpr ⟨ho, mayHold_args ha⟩) ?_
    (Names.fit_append.mpr ⟨fit_value.mpr ho, ha⟩) fun w₁ next₁ fits => ?_
  · exact (heldBy_value List.mem_cons_self).append (heldBy_args.mono (List.subset_cons_self _ _))
  obtain ⟨ho, fits⟩ := Names.fit_append.mp fits
  have ho := fit_value.mp ho
  refine graph fun m shows => ?_
  cases hf : m.store.graph.follow closure.captured with
  | none => exact fault (shows.followed ho hf)
  | some owner =>
    obtain rfl := Graph.eq_of_follow hf
    exact T.callWith (show (Callee.closure closure).IsCode from trivial) ho fits
      fun c w' hc => T.inCall _ _ (body h _ hc)

theorem fits_ofValues {vs : List Value} (hv : ∀ v ∈ vs, T.Val w v) :
    T.Fits w (argNames (vs.map Arg.ofValue)) := by
  induction vs with
  | nil => exact fit_argNames_nil
  | cons v vs ih =>
    obtain ⟨hv, hvs⟩ := List.forall_mem_cons.mp hv
    exact fit_argNames_cons.mpr ⟨⟨List.forall_mem_singleton.mpr hv, nofun⟩, ih hvs⟩

theorem callback (h : T.Relates ev₁ ev₂) (span : Span) :
    T.OfCallback (callback ev₁ span) (callback ev₂ span) :=
  fun _ closure _ hc ha => callClosure h closure _ span hc (fits_ofValues ha)

theorem declareVar {cell : TreeScript.Cell} (hc : T.Kept w c) (hv : T.Val w cell.value) :
    T.Keeps w (.names c) (fun _ => .none) (Run.declareVar c cell) := by
  have declared := T.declareNew cell (x := fun _ => Pure.pure ()) (y := fun _ => Pure.pure ())
    (ν := fun _ => .none) hc hv fun _ _ _ _ => ret fits_none
  simpa [Run.declareVar, Run.declareNew] using declared

theorem initMembers (h : T.Relates ev₁ ev₂) : ∀ {w : T.World} members, T.Kept w c →
    T.Rel w (.names c) (fun _ => .none) (initMembers ev₁ c members) (initMembers ev₂ c members)
  | _, [], _ => ret fits_none
  | w, member :: rest, hc => by
    refine T.bind (of_clean (h.expr w _ _ hc)) fun v w₁ next₁ hv => ?_
    refine T.bind (annotated (fit_value.mp hv) _ _) fun v w₂ next₂ hv => ?_
    have hc := kept_next next₂ (kept_next next₁ hc)
    exact andThen (declareVar hc (fit_value.mp hv)) fun _ _ next₃ =>
      initMembers h rest (kept_next next₃ hc)

theorem construct (h : T.Relates ev₁ ev₂) (decl : ClassDecl) (span : Span) (hc : T.Kept w c) :
    T.Rel w (.names c) (fun _ => .none) (construct ev₁ c decl span) (construct ev₂ c decl span) := by
  refine andThen (initMembers h _ hc) fun _ w' next => graph fun m shows => ?_
  cases hf : m.store.graph.localFunc? c "constructor" with
  | none => exact ret fits_none
  | some func =>
    have ho := shows.localFunc (kept_next next hc) hf
    exact map _ (of_clean (callFunc h func [] span ho fit_argNames_nil))
      fun _ _ _ => fits_none

theorem instantiate (h : T.Relates ev₁ ev₂) (decl : ClassDecl) (world : CtxId) (args : List Arg)
    (span : Span) (hw : T.Kept w world) (ha : T.Fits w (argNames args)) :
    T.Rel w .clean Value.names (instantiate ev₁ decl world args span)
      (instantiate ev₂ decl world args span) := by
  rw [instantiate_eq, instantiate_eq]
  exact checkArity _ _ _ (T.instantiateWith hw ha fun c w' hc =>
    T.inCall _ _ (construct h decl span hc))

theorem callName (h : T.Relates ev₁ ev₂) (config : Config) (name : String) (args : List Arg)
    (span : Span) (hc : T.Kept w c) (ha : T.Fits w (argNames args)) :
    T.Rel w .clean Value.names (callName config ev₁ name args c span)
      (callName config ev₂ name args c span) := by
  unfold Eval.callName
  cases hi : Intrinsic.find? name with
  | some i => exact intrinsic hi w config _ (vals_args ha)
  | none =>
    refine holdingStoreFrom (mayHold_args ha) heldBy_args ha fun w' m next ha shows => ?_
    have hc := kept_next next hc
    cases hd : m.store.graph.class? c name with
    | some decl =>
      exact instantiate h decl _ args span (shows.root hc) ha
    | none =>
      cases hf : m.store.graph.func? c name with
      | some func =>
        exact callFunc h func args span (shows.func hc hf) ha
      | none =>
        cases hv : m.store.graph.var? c name with
        | none => exact plainFault rfl
        | some i =>
          have held := shows.value i (shows.var hc hv)
          cases hcl : (m.store.cell i).value with
          | closure closure =>
            rw [hcl] at held
            simpa only [hcl] using callClosure h closure args span held ha
          | _ => simpa only [hcl] using handles fun _ => plainFault rfl

/-- Going on after the access has been checked. -/
theorem checkAccess {β : Type} {ν : β → Names} (isPub inside : Bool) (name owner : String)
    {x y : Run β} (h : T.Rel w f ν x y) :
    T.Rel w f ν (Eval.checkAccess isPub inside name owner >>= fun _ => x)
      (Eval.checkAccess isPub inside name owner >>= fun _ => y) := by
  unfold Eval.checkAccess
  split
  · exact h
  · exact plainFault rfl

theorem fits_ofCell {i : CellId} (hi : (T.grasp w).Cell i) : T.Fits w (Place.ofCell i).names :=
  ⟨nofun, fun _ hj => List.mem_singleton.mp hj ▸ hi⟩

theorem fieldOf (v : Value) (field : String) (hv : T.Val w v) :
    T.Keeps w f Place.names (fieldOf v field c) := by
  refine holdingStoreFrom (N := v.names) (List.forall_mem_singleton.mpr hv)
    (heldBy_value List.mem_cons_self) (fit_value.mpr hv) fun w' m next hv shows => ?_
  have hv := fit_value.mp hv
  refine handles fun h => ?_
  split
  · split
    · exact plainFault rfl
    · rename_i hm
      exact checkAccess _ _ _ _ (ret (fits_ofCell (shows.member hv hm)))
  · split
    · exact plainFault rfl
    · rename_i hm
      exact checkAccess _ _ _ _ (ret (fits_ofCell (shows.global hv hm)))
  · exact plainFault rfl

theorem callCell (h : T.Relates ev₁ ev₂) (i : CellId) (name : String) (args : List Arg)
    (span : Span) (hi : (T.grasp w).Cell i) (ha : T.Fits w (argNames args)) :
    T.Rel w .clean Value.names (callCell ev₁ i name args span) (callCell ev₂ i name args span) := by
  refine T.look (fun m => (m.store.cell i).value) fun m shows => ?_
  have hv := shows.value i hi
  cases hcl : (m.store.cell i).value with
  | closure closure =>
    rw [hcl] at hv
    exact callClosure h closure args span hv ha
  | _ => exact handles fun _ => plainFault rfl

theorem callMethod (h : T.Relates ev₁ ev₂) (object : CtxId) (name : String) (args : List Arg)
    (span : Span) (ho : T.Held w (.object object)) (ha : T.Fits w (argNames args)) :
    T.Rel w .clean Value.names (callMethod ev₁ object name args c span)
      (callMethod ev₂ object name args c span) := by
  refine holdingStoreFrom (mayHold_args ha) heldBy_args ha fun w' m next ha shows => ?_
  have ho := (T.lasts next).held ho
  refine handles fun _ => ?_
  cases hf : m.store.graph.localFunc? object name with
  | some func =>
    exact checkAccess _ _ _ _
      (callFunc h func args span (shows.localFunc ((T.lawful w').kept_of_object ho) hf) ha)
  | none =>
    cases hm : m.store.graph.member? object name with
    | some i =>
      exact checkAccess _ _ _ _ (callCell h i name args span (shows.member (val_of_held ho) hm) ha)
    | none => exact plainFault rfl

theorem callModuleMember (h : T.Relates ev₁ ev₂) (world : CtxId) (name : String)
    (args : List Arg) (span : Span) (hw : T.Held w (.module world)) (ha : T.Fits w (argNames args)) :
    T.Rel w .clean Value.names (callModuleMember ev₁ world name args c span)
      (callModuleMember ev₂ world name args c span) := by
  refine holdingStoreFrom (mayHold_args ha) heldBy_args ha fun w' m next ha shows => ?_
  have hw := (T.lasts next).held hw
  have kept := (T.lawful w').kept_of_module hw
  cases hf : m.store.graph.localFunc? world name with
  | some func =>
    exact checkAccess _ _ _ _ (callFunc h func args span (shows.localFunc kept hf) ha)
  | none =>
    cases hd : m.store.graph.class? world name with
    | some decl =>
      exact checkAccess _ _ _ _ (instantiate h decl world args span kept ha)
    | none =>
      cases hv : m.store.graph.localVar? world name with
      | some i =>
        exact checkAccess _ _ _ _
          (callCell h i name args span (shows.global (val_of_held hw) hv) ha)
      | none => exact plainFault rfl

theorem callBuiltin (h : T.Relates ev₁ ev₂) (receiver : Place) (kind : Kind) (name : String)
    (args : List Value) (span : Span) (hr : T.Fits w receiver.names)
    (ha : ∀ v ∈ args, T.Val w v) :
    T.Rel w .clean Value.names (callBuiltin ev₁ receiver kind name args span)
      (callBuiltin ev₂ receiver kind name args span) := by
  unfold Eval.callBuiltin
  cases hm : Member.find? kind name with
  | none => exact plainFault rfl
  | some m =>
    have plain := Member.namesNothingNew hm
    cases m with
    | read g =>
      exact handles fun hs => readingPlace hr fun v hv =>
        ofExcept (gives_names (plain _ hs v args hv ha))
    | edit g =>
      refine editRoot (κ := fun v => [v]) hr ha fun hs V _ hV => ?_
      exact ((plain V hs args hV).edit receiver.path).mono fun _ => List.forall_mem_singleton.mpr
    | apply g =>
      refine readingPlace hr fun v hv => ?_
      have held {u : Value} (hu : T.Val w u) (mem : .value u ∈ .value v :: args.map Hold.value) :=
        held_enter hu mem
      refine during (List.forall_mem_cons.mpr ⟨hv, fun hold hh => ?_⟩)
        (member hm _ _ _ v args (callback h span) (held hv List.mem_cons_self) fun u hu => ?_)
      · obtain ⟨u, hu, rfl⟩ := List.mem_map.mp hh
        exact ha u hu
      · exact held (ha u hu) (List.mem_cons_of_mem _ (List.mem_map.mpr ⟨u, hu, rfl⟩))
    | file g => exact readingPlace hr fun v _ => member hm w v args

theorem callMember (h : T.Relates ev₁ ev₂) (receiver : Place) (name : String) (args : List Arg)
    (span : Span) (hr : T.Fits w receiver.names) (ha : T.Fits w (argNames args)) :
    T.Rel w .clean Value.names (callMember ev₁ receiver name args c span)
      (callMember ev₂ receiver name args c span) := by
  refine readingPlace hr fun v hv => ?_
  cases v with
  | object object =>
    exact during (List.forall_mem_singleton.mpr hv) (callMethod h object name args span
      (held_enter hv List.mem_cons_self) (fits_enter _ ha))
  | module world =>
    exact during (List.forall_mem_singleton.mpr hv) (callModuleMember h world name args span
      (held_enter hv List.mem_cons_self) (fits_enter _ ha))
  | _ => exact callBuiltin h receiver _ name _ span hr (vals_args ha)

theorem nameValue (name : String) (hc : T.Kept w c) :
    T.Keeps w f Value.names (nameValue name c) := by
  refine storeFrom fun w' m next shows => ?_
  have hc := kept_next next hc
  cases hi : m.store.graph.import? c name with
  | some world => exact ret (fit_value.mpr (shows.imported hc hi))
  | none =>
    cases hv : m.store.graph.var? c name with
    | some i => exact ret (fit_value.mpr (shows.value i (shows.var hc hv)))
    | none =>
      cases ho : (if name = "this" then m.store.graph.enclosingObject? c else none) with
      | some object =>
        refine ret (fit_value.mpr ?_)
        split at ho
        · exact shows.enclosing hc ho
        · cases ho
      | none => exact plainFault rfl

theorem exprs (h : T.Relates ev₁ ev₂) : ∀ {w : T.World} es, T.Kept w c →
    T.Rel w .clean Names.ofValues (exprs ev₁ c es) (exprs ev₂ c es)
  | _, [], _ => ret (Names.fit_ofValues.mpr nofun)
  | w, e :: rest, hc => by
    refine T.bind (h.expr w e c hc) fun v w₁ next₁ hv => ?_
    have more := exprs h rest (kept_enter [.value v] (kept_next next₁ hc))
    refine T.bind (holdingValue (fit_value.mp hv) more) fun vs w₂ _ hvs => ?_
    obtain ⟨hvs, hv⟩ := Names.fit_append.mp hvs
    exact ret (Names.fit_ofValues.mpr
      (List.forall_mem_cons.mpr ⟨fit_value.mp hv, Names.fit_ofValues.mp hvs⟩))

theorem args (h : T.Relates ev₁ ev₂) : ∀ {w : T.World} es, T.Kept w c →
    T.Rel w .clean argNames (args ev₁ c es) (args ev₂ c es)
  | _, [], _ => ret fit_argNames_nil
  | w, e :: rest, hc => by
    refine T.bind (h.expr w e c hc) fun v w₁ next₁ hv => ?_
    have hc := kept_next next₁ hc
    have more {w₂ : T.World} (next₂ : T.Next w₁ w₂) (arg : Arg) (harg : T.Fits w₂ arg.names) :
        T.Rel w₂ .clean argNames
          (do return arg :: (← Run.holding arg.holds (Eval.args ev₁ c rest)))
          (do return arg :: (← Run.holding arg.holds (Eval.args ev₂ c rest))) := by
      have others := args h rest (kept_enter arg.holds (kept_next next₂ hc))
      refine T.bind (T.holding (mayHold_arg harg) heldBy_arg harg others) fun vs w₃ _ hvs => ret ?_
      obtain ⟨hvs, harg⟩ := Names.fit_append.mp hvs
      exact fit_argNames_cons.mpr ⟨harg, hvs⟩
    cases e.name? with
    | none => exact more (T.next_refl _) ⟨v, none⟩ ⟨hv.values, nofun⟩
    | some name =>
      refine holdingGraphFrom (N := v.names) (List.forall_mem_singleton.mpr (fit_value.mp hv))
        (heldBy_value List.mem_cons_self) hv fun w₂ m next₂ hv shows => ?_
      rw [pure_bind, pure_bind]
      -- the variable of an argument is what a bare name means
      have named : ∀ i ∈ (if (m.store.graph.import? c name).isNone then m.store.graph.var? c name
          else none).toList, (T.grasp w₂).Cell i := by
        intro i hi
        have hi := Option.mem_toList.mp hi
        split at hi
        · exact shows.var (kept_next next₂ hc) hi
        · cases hi
      exact more next₂ ⟨v, _⟩ ⟨hv.values, named⟩

theorem plain_keyKind (type : Option TypeAnn) : Plain (keyKind type) := by
  unfold keyKind
  split <;> first | exact .ok trivial | exact .error rfl

theorem entries (h : T.Relates ev₁ ev₂) : ∀ {w : T.World} d items, T.Kept w c →
    T.Val w (.dict d) →
      T.Rel w .clean (fun d => (Value.dict d).names) (entries ev₁ c d items) (entries ev₂ c d items)
  | _, d, [], _, hd => ret (fit_value.mpr hd)
  | w, d, (key, value) :: rest, hc, hd => by
    have first := holdingValue hd (h.expr _ key c (kept_enter [.value (.dict d)] hc))
    refine T.bind first fun key w₁ next₁ fits => ?_
    obtain ⟨hk, hd⟩ := Names.fit_append.mp fits
    have hc := kept_next next₁ hc
    have may : ∀ hold ∈ [.value (.dict d), .value key], (T.grasp w₁).MayHold hold :=
      List.forall_mem_cons.mpr ⟨fit_value.mp hd, List.forall_mem_singleton.mpr (fit_value.mp hk)⟩
    have second := T.holding may (heldBy_value List.mem_cons_self) hd
      (h.expr _ value c (kept_enter _ hc))
    refine T.bind second fun value w₂ next₂ fits => ?_
    obtain ⟨hv, hd⟩ := Names.fit_append.mp fits
    refine handles fun hs => given (Value.gives_keyOf d key) fun k takes => ?_
    exact entries h _ rest (kept_next next₂ hc)
      (Hereditary.insert takes (fit_value.mp hd) (fit_value.mp hv))

theorem binary (h : T.Relates ev₁ ev₂) (op : BinaryOp) (left right : Expr) (hc : T.Kept w c) :
    T.Rel w .clean Value.names (binary ev₁ op left right c) (binary ev₂ op left right c) := by
  refine T.bind (h.expr w left c hc) fun v w₁ next₁ hv => ?_
  have hc := kept_next next₁ hc
  have right' := holdingValue (fit_value.mp hv) (h.expr _ right c (kept_enter [.value v] hc))
  have bool (b : Bool) {w : T.World} : T.Keeps w .clean Value.names (Pure.pure (.bool b)) :=
    ret (fit_value.mpr (Hereditary.bool b))
  cases op with
  | and =>
    refine handles fun _ => ?_
    split
    · exact andThen right' fun _ _ _ => handles fun _ => bool _
    · exact bool _
  | or =>
    refine handles fun _ => ?_
    split
    · exact bool _
    · exact andThen right' fun _ _ _ => handles fun _ => bool _
  | _ =>
    refine T.bind right' fun u w₂ next₂ fits => ofHandles fun hs => ?_
    obtain ⟨hu, hv⟩ := Names.fit_append.mp fits
    exact gives_names (Value.gives_binary (fit_value.mp hv) (fit_value.mp hu) _)

theorem fits_item {p : Place} {i : Value} (hp : T.Fits w p.names) (hi : T.Val w i) :
    T.Fits w (p.item i).names := by
  obtain ⟨root, path⟩ := p
  have onPath (hv : ∀ v ∈ path, T.Val w v) : ∀ v ∈ path ++ [i], T.Val w v :=
    List.forall_mem_append.mpr ⟨hv, List.forall_mem_singleton.mpr hi⟩
  cases root with
  | inl j => exact ⟨onPath hp.values, hp.cells⟩
  | inr v =>
    obtain ⟨hv, hpath⟩ := List.forall_mem_cons.mp hp.values
    exact Names.fit_ofValues.mpr (List.forall_mem_cons.mpr ⟨hv, onPath hpath⟩)

/-- The place at an index of a place. -/
theorem itemOf (h : T.Relates ev₁ ev₂) {p : Place} (index : Expr) (hp : T.Fits w p.names)
    (hc : T.Kept w c) :
    T.Rel w .clean Place.names
      (do return p.item (← Run.holding p.holds (ev₁.expr index c)))
      (do return p.item (← Run.holding p.holds (ev₂.expr index c))) := by
  have evaluated := T.holding (mayHold_place hp) heldBy_place hp
    (h.expr _ index c (kept_enter p.holds hc))
  refine T.bind evaluated fun i w' _ fits => ret ?_
  obtain ⟨hi, hp⟩ := Names.fit_append.mp fits
  exact fits_item hp (fit_value.mp hi)

theorem place (h : T.Relates ev₁ ev₂) : ∀ {w : T.World} e, T.Kept w c →
    T.Rel w .clean Place.names (place ev₁ c e) (place ev₂ c e) := by
  intro w e
  fun_induction Eval.place ev₁ c e generalizing w with
  | case1 name =>
    intro hc
    refine graphFrom fun w' m next shows => ?_
    have hc := kept_next next hc
    split
    · rename_i hv
      exact ret (fits_ofCell (shows.var hc hv))
    · exact T.bind (nameValue name hc) fun v w'' later hv => ret hv
  | case2 left index _ ih =>
    intro hc
    exact T.bind (ih hc) fun p w₁ next₁ hp => itemOf h index hp (kept_next next₁ hc)
  | case3 left field =>
    intro hc
    exact T.bind (h.expr w left c hc) fun v w' next hv => fieldOf v field (fit_value.mp hv)
  | case4 e h1 h2 h3 =>
    intro hc
    rw [Eval.place.eq_4 ev₂ c e h1 h2 h3]
    exact T.bind (h.expr w e c hc) fun v w' next hv => ret hv

theorem target (h : T.Relates ev₁ ev₂) : ∀ {w : T.World} e, T.Kept w c →
    T.Rel w .clean Place.names (target ev₁ c e) (target ev₂ c e) := by
  intro w e
  fun_induction Eval.target ev₁ c e generalizing w with
  | case1 name =>
    intro hc
    refine graphFrom fun w' m next shows => ?_
    split
    · exact plainFault rfl
    · rename_i hv
      exact ret (fits_ofCell (shows.var (kept_next next hc) hv))
    · split
      · exact plainFault rfl
      · exact plainFault rfl
  | case2 left index _ ih =>
    intro hc
    exact T.bind (ih hc) fun p w₁ next₁ hp => itemOf h index hp (kept_next next₁ hc)
  | case3 left field =>
    intro hc
    exact T.bind (h.expr w left c hc) fun v w' next hv => fieldOf v field (fit_value.mp hv)
  | case4 e h1 h2 h3 =>
    intro hc
    rw [Eval.target.eq_4 ev₂ c e h1 h2 h3]
    exact plainFault rfl

theorem node (h : T.Relates ev₁ ev₂) (config : Config) (e : Expr) (hc : T.Kept w c) :
    T.Rel w .clean Value.names (node config ev₁ e c) (node config ev₂ e c) := by
  unfold Eval.node
  cases e.node with
  | name name => exact nameValue name hc
  | int n | float x | str s | char ch | bool b | none =>
    exact ret (fit_value.mpr (Hereditary.bare rfl))
  | binary op left right => exact binary h op left right hc
  | unary op operand =>
    refine andThen (h.expr w operand c hc) fun v _ _ => ofHandles fun hs => ?_
    exact gives_names (Value.gives_unary op)
  | call name arguments =>
    refine T.bind (args h arguments hc) fun vs w' next ha => ?_
    exact callName h config name vs e.span (kept_next next hc) ha
  | member left right =>
    dsimp only
    cases right.node with
    | name field =>
      refine T.bind (h.expr w left c hc) fun v w₁ next₁ hv => ?_
      exact T.bind (fieldOf v field (fit_value.mp hv)) fun p w₂ next₂ hp => readPlace hp
    | call name arguments =>
      refine T.bind (place h left hc) fun receiver w₁ next₁ hr => ?_
      have hc := kept_enter receiver.holds (kept_next next₁ hc)
      have held := hr.held heldBy_place (T.enters receiver.holds w₁)
      refine during (mayHold_place hr) (T.bind (args h arguments hc) fun vs w₂ next₂ ha => ?_)
      have hr := (held.lasts (T.lasts next₂)).fit (T.lawful w₂)
      exact callMember h receiver name vs right.span hr ha
    | _ => exact plainFault rfl
  | index left index => exact T.bind (place h e hc) fun p w' next hp => readPlace hp
  | list items =>
    exact T.bind (exprs h items hc) fun vs w' next hvs =>
      ret (fit_value.mpr (Hereditary.list.mpr (Names.fit_ofValues.mp hvs)))
  | tuple items =>
    exact T.bind (exprs h items hc) fun vs w' next hvs =>
      ret (fit_value.mpr (Hereditary.tuple.mpr (Names.fit_ofValues.mp hvs)))
  | dict keyType items =>
    refine given (plain_keyKind keyType) fun kind _ => ?_
    have none : T.Val w (.dict (.empty kind)) := Hereditary.emptyDict kind
    exact T.bind (entries h _ items hc none) fun d w' _ hd => ret hd
  | closure params body => exact T.newClosure params body hc

theorem expr (h : T.Relates ev₁ ev₂) (config : Config) (e : Expr) (hc : T.Kept w c) :
    T.Rel w .clean Value.names (expr config ev₁ e c) (expr config ev₂ e c) :=
  T.locating _ (node h config e hc)

theorem importPath (h : T.Relates ev₁ ev₂) {config : Config} (loads : T.Loads config)
    (path : String) (hc : T.Kept w c) :
    T.Rel w .clean (fun _ => .none) (importPath config ev₁ path c)
      (importPath config ev₂ path c) := by
  rw [importPath_eq, importPath_eq]
  exact T.importWith path loads hc fun code world w' hw => program h code hw

theorem letVar (h : T.Relates ev₁ ev₂) (name : String) (type : Option TypeAnn) (value : Expr)
    (attrs : Attrs) (hc : T.Kept w c) :
    T.Rel w (.names c) (fun _ => .none) (letVar ev₁ name type value attrs c)
      (letVar ev₂ name type value attrs c) := by
  refine T.bind (of_clean (h.expr w value c hc)) fun v w₁ next₁ hv => handles fun hs => ?_
  refine given (Value.gives_annotate (fit_value.mp hv) type) fun v hv => ?_
  exact declareVar (kept_next next₁ hc) hv

theorem ifElse (h : T.Relates ev₁ ev₂) (condition : Expr) (b : Block) (otherwise : Option Block)
    (hc : T.Kept w c) :
    T.Rel w (.blocks c) Flow.names (ifElse ev₁ condition b otherwise c)
      (ifElse ev₂ condition b otherwise c) := by
  refine andThen (of_clean (h.expr w condition c hc)) fun v w' next => handles fun _ => ?_
  have hc := kept_next next hc
  split
  · exact scopedBlock h b hc
  · cases otherwise with
    | some b => exact scopedBlock h b hc
    | none => exact ret unit

theorem whileLoop (h : T.Relates ev₁ ev₂) (condition : Expr) (b : Block) :
    ∀ {w : T.World} rounds, T.Kept w c → T.Rel w (.blocks c) Flow.names
      (whileLoop ev₁ condition b c rounds) (whileLoop ev₂ condition b c rounds)
  | _, 0, _ => of_clean T.outOfFuel
  | w, rounds + 1, hc => by
    refine andThen (of_clean (h.expr w condition c hc)) fun v w₁ next₁ => handles fun _ => ?_
    have hc := kept_next next₁ hc
    split
    · refine T.bind (scopedBlock h b hc) fun flow w₂ next₂ hf => ?_
      cases flow with
      | ret v => exact ret hf
      | normal v => exact whileLoop h condition b rounds (kept_next next₂ hc)
    · exact ret unit

theorem countLoop (h : T.Relates ev₁ ev₂) (cell : CellId) (b : Block) :
    ∀ {w : T.World} rounds n, T.Kept w c → (T.grasp w).Counter cell → T.Rel w (.blocks c) Flow.names
      (countLoop ev₁ cell b c rounds n) (countLoop ev₂ cell b c rounds n)
  | _, 0, _, _, _ => ret unit
  | w, rounds + 1, n, hc, hi => by
    refine andThen (of_clean (T.count n hi)) fun _ w₁ next₁ => ?_
    have hc := kept_next next₁ hc
    refine T.bind (scopedBlock h b hc) fun flow w₂ next₂ hf => ?_
    cases flow with
    | ret v => exact ret hf
    | normal v =>
      exact countLoop h cell b rounds (n + 1) (kept_next next₂ hc)
        ((T.lasts next₂).counter ((T.lasts next₁).counter hi))

theorem plain_bounds (hs : Handles) (v u : Value) : Plain (bounds hs v u) := by
  unfold bounds
  split <;> first | exact .ok trivial | exact .error rfl

theorem forRange (h : T.Relates ev₁ ev₂) (name : String) (first last : Expr) (b : Block)
    (hc : T.Kept w c) :
    T.Rel w (.blocks c) Flow.names (forRange ev₁ name first last b c)
      (forRange ev₂ name first last b c) := by
  refine T.bind (of_clean (h.expr w first c hc)) fun v w₁ next₁ hv => ?_
  have hc := kept_next next₁ hc
  have second := holdingValue (fit_value.mp hv) (h.expr _ last c (kept_enter [.value v] hc))
  refine andThen (of_clean second) fun u w₂ next₂ => ?_
  have hc := kept_next next₂ hc
  refine handles fun hs => given (plain_bounds hs v u) fun limits _ => ?_
  refine T.inScope hc fun w₃ next₃ => ?_
  have hc := kept_next next₃ hc
  refine T.declareNew _ hc (Hereditary.int _) fun cell w₄ next₄ counter => ?_
  exact T.names_of_blocks (countLoop h cell b _ _ (kept_next next₄ hc) (counter rfl))

theorem silently {x y : Run Unit} (h : T.Rel w f (fun _ => .none) x y) :
    T.Rel w f Flow.names (silently x) (silently y) :=
  andThen h fun _ _ _ => ret unit

end Run.Tracking

/-- What a statement may do to the scopes of its context. -/
def Run.Logic.footprint (c : CtxId) : StmtNode → Footprint
  | .letVar .. | .defFunc _ => .names c
  | _ => .blocks c

namespace Run.Tracking

open Eval
open Run.Logic (footprint)

variable {T : Tracking} {w : T.World} {f : Footprint} {c : CtxId} {ev₁ ev₂ : Evaluator}
  {config : Config}

theorem stmtNode (h : T.Relates ev₁ ev₂) (loads : T.Loads config) (s : StmtNode)
    (hc : T.Kept w c) :
    T.Rel w (footprint c s) Flow.names (stmtNode config ev₁ s c) (stmtNode config ev₂ s c) := by
  cases s with
  | letVar name type value attrs => exact silently (letVar h name type value attrs hc)
  | assign left op right =>
    refine silently (T.bind (of_clean (h.expr w right c hc)) fun v w₁ next₁ hv => ?_)
    have hc := kept_next next₁ hc
    have found := holdingValue (fit_value.mp hv) (target h left (kept_enter [.value v] hc))
    refine T.bind (of_clean found) fun p w₂ _ fits => ?_
    obtain ⟨hp, hv⟩ := Names.fit_append.mp fits
    refine editRoot (κ := fun _ => []) hp hv.values fun hs V _ ho => ?_
    have operand : V v := ho v List.mem_cons_self
    exact (Edit.Sound.assignAt op p.path operand).mono fun _ _ => nofun
  | defFunc decl => exact silently (T.declareFunc decl hc)
  | defClass decl =>
    exact silently (declareFrom fun _ next => T.declareClass decl (kept_next next hc))
  | ifElse condition b otherwise => exact ifElse h condition b otherwise hc
  | whileLoop condition b =>
    show T.Rel w (.blocks c) Flow.names (Eval.whileLoop ev₁ condition b c ev₁.fuel)
      (Eval.whileLoop ev₂ condition b c ev₂.fuel)
    rw [h.fuel]
    exact whileLoop h condition b ev₂.fuel hc
  | forRange name first last b => exact forRange h name first last b hc
  | ret value =>
    cases value with
    | none => exact ret unit
    | some e => exact T.bind (of_clean (h.expr w e c hc)) fun v w' next hv => ret hv
  | expr e => exact T.bind (of_clean (h.expr w e c hc)) fun v w' next hv => ret hv
  | importPath path => exact silently (of_clean (importPath h loads path hc))
  | nameModule name =>
    refine silently (andThen (of_clean (T.letGo _)) fun _ _ next => ?_)
    exact of_clean (T.nameModule name (kept_next next hc))
  | block b => exact scopedBlock h b hc

theorem stmt (h : T.Relates ev₁ ev₂) (loads : T.Loads config) (s : Stmt) (hc : T.Kept w c) :
    T.Rel w (footprint c s.node) Flow.names (stmt config ev₁ s c) (stmt config ev₂ s c) :=
  T.locating _ (stmtNode h loads s.node hc)

theorem names_of_footprint {s : StmtNode} {α : Type} {μ : α → Names} {x y : Run α}
    (h : T.Rel w (footprint c s) μ x y) : T.Rel w (.names c) μ x y := by
  cases s with
  | letVar | defFunc => exact h
  | _ => exact T.names_of_blocks h

end Run.Tracking

/-- Anything may be in hand. -/
def Grasp.anything : Grasp :=
  ⟨fun _ => True, fun _ => True, fun _ => True, fun _ => True, fun _ => True, fun _ => True⟩

namespace Grasp

variable {G : Grasp} {m : Machine} {May : Fault → Prop}

theorem lawful_anything : anything.Lawful where
  val := inferInstanceAs (Value.Hereditary fun _ => True)
  held := inferInstanceAs (Value.Hereditary fun _ => True)
  val_of_held _ := trivial
  cell_of_held _ := trivial
  kept_of_object _ := trivial
  kept_of_module _ := trivial

theorem lasts_refl : G.Lasts G := ⟨id, id, id, id⟩

theorem enters_anything (holds : List Hold) : anything.Enters holds anything where
  toLasts := lasts_refl
  val := id
  cell := id
  held_of_mem _ _ := trivial
  heldCell_of_mem _ _ := trivial

theorem shows_anything (may : ∀ fault, May fault) : m.Shows anything May where
  value _ _ := trivial
  var _ _ := trivial
  imported _ _ := trivial
  enclosing _ _ := trivial
  root _ := trivial
  func _ _ := trivial
  localFunc _ _ := trivial
  member _ _ := trivial
  global _ _ := trivial
  live _ _ _ := may _
  followed _ _ := may _

end Grasp

theorem Names.fit_anything (N : Names) : N.Fit .anything :=
  ⟨fun _ _ => trivial, fun _ _ => trivial⟩

namespace Run.Logic

/-- A logic of runs as a tracking that keeps track of nothing. -/
def tracking (L : Logic) : Tracking where
  World := Unit
  Next _ _ := True
  enter _ w := w
  grasp _ := .anything
  May _ := True
  Loads _ := True
  next_refl _ := trivial
  next_trans _ _ := trivial
  lawful _ := Grasp.lawful_anything
  lasts _ := Grasp.lasts_refl
  enters holds _ := Grasp.enters_anything holds
  may_of_plain _ := trivial
  Rel _ f _ _ x y := L.Rel f x y
  blocks_of_clean := L.blocks_of_clean
  names_of_blocks := L.names_of_blocks
  setup_of_names := L.setup_of_names
  pure a _ := L.pure a
  raise _ := L.raise _
  panic := L.panic
  outOfFuel := L.outOfFuel
  look g _ _ h := L.look g fun m => h m (Grasp.shows_anything fun _ => trivial)
  bind h hk := L.bind h fun a => hk a () trivial (Names.fit_anything _)
  locating := L.locating
  holding _ _ _ h := L.holding _ h
  inScope _ h := L.inScope (h () trivial)
  inCall := L.inCall
  letGo := L.letGo
  callWith _ _ _ h := L.newContext _ fun c =>
    L.bind (bindParams L.bindCell _ _) fun _ => L.holding _ (L.setup_of_names (h c () trivial))
  instantiateWith _ _ h := L.newContext _ fun c =>
    L.bind (L.clearingArguments (L.bind (bindParams L.declareArgument _ _) fun _ =>
      L.bind (L.setup_of_names (declareMethods _)) fun _ =>
        L.holding _ (L.setup_of_names (h c () trivial)))) fun _ => ret _
  editCell _ _ _ := L.editCell _ _
  count _ _ := L.editCell _ _
  newClosure params body _ := L.newClosure params body _
  copy _ := L.copy _
  declareNew cell _ _ _ _ h := L.declareNew cell fun i => h i () trivial fun _ => trivial
  declareFunc _ _ := L.declareFunc _
  declareClass decl _ := L.declareClass _ decl
  nameModule name _ := L.nameModule _ name
  importWith path _ _ _ _ h := L.importWith _ path _ fun code world => h code world () trivial
  onDisk g _ := L.onDisk g
  modifyOutput := L.modifyOutput
  nextLine := L.nextLine

/-- The logic relates two evaluators. -/
structure Relates (L : Logic) (ev₁ ev₂ : Evaluator) : Prop where
  fuel : ev₁.fuel = ev₂.fuel
  expr (e : Expr) (c : CtxId) : L.Rel .clean (ev₁.expr e c) (ev₂.expr e c)
  stmt (s : Stmt) (c : CtxId) : L.Rel (.names c) (ev₁.stmt s c) (ev₂.stmt s c)

variable {L : Logic} {f : Footprint} {c : CtxId} {ev₁ ev₂ : Evaluator}

theorem Relates.tracked (h : L.Relates ev₁ ev₂) : L.tracking.Relates ev₁ ev₂ :=
  ⟨h.fuel, fun _ e c _ => h.expr e c, fun _ s c _ => h.stmt s c⟩

theorem Relates.of_tracked (h : L.tracking.Relates ev₁ ev₂) : L.Relates ev₁ ev₂ :=
  ⟨h.fuel, fun e c => h.expr () e c trivial, fun s c => h.stmt () s c trivial⟩

theorem checkArity (name : String) (params : List Param) (args : List Arg) :
    L.Keeps f (Eval.checkArity name params args) := by
  unfold Eval.checkArity
  split
  · exact ret _
  · exact fault _

theorem body (h : L.Relates ev₁ ev₂) (b : Block) :
    L.Rel (.names c) (Eval.body ev₁ c b) (Eval.body ev₂ c b) :=
  Tracking.body (w := ()) h.tracked b trivial

theorem scopedBlock (h : L.Relates ev₁ ev₂) (b : Block) :
    L.Rel (.blocks c) (Eval.scopedBlock ev₁ c b) (Eval.scopedBlock ev₂ c b) :=
  Tracking.scopedBlock (w := ()) h.tracked b trivial

theorem construct (h : L.Relates ev₁ ev₂) (decl : ClassDecl) (span : Span) :
    L.Rel (.names c) (Eval.construct ev₁ c decl span) (Eval.construct ev₂ c decl span) :=
  Tracking.construct (w := ()) h.tracked decl span trivial

theorem callback (h : L.Relates ev₁ ev₂) (span : Span) (closure : Closure) (args : List Value) :
    L.Rel .clean (Eval.callback ev₁ span closure args) (Eval.callback ev₂ span closure args) :=
  Tracking.callback h.tracked span () closure args trivial fun _ _ => trivial

theorem args (h : L.Relates ev₁ ev₂) (es : List Expr) :
    L.Rel .clean (Eval.args ev₁ c es) (Eval.args ev₂ c es) :=
  Tracking.args (w := ()) h.tracked es trivial

theorem place (h : L.Relates ev₁ ev₂) (e : Expr) :
    L.Rel .clean (Eval.place ev₁ c e) (Eval.place ev₂ c e) :=
  Tracking.place (w := ()) h.tracked e trivial

theorem target (h : L.Relates ev₁ ev₂) (e : Expr) :
    L.Rel .clean (Eval.target ev₁ c e) (Eval.target ev₂ c e) :=
  Tracking.target (w := ()) h.tracked e trivial

theorem initMembers (h : L.Relates ev₁ ev₂) (members : List MemberDecl) :
    L.Rel (.names c) (Eval.initMembers ev₁ c members) (Eval.initMembers ev₂ c members) :=
  Tracking.initMembers (w := ()) h.tracked members trivial

theorem expr (h : L.Relates ev₁ ev₂) (config : Config) (e : Expr) :
    L.Rel .clean (Eval.expr config ev₁ e c) (Eval.expr config ev₂ e c) :=
  Tracking.expr (w := ()) h.tracked config e trivial

theorem stmt (h : L.Relates ev₁ ev₂) (config : Config) (s : Stmt) :
    L.Rel (footprint c s.node) (Eval.stmt config ev₁ s c) (Eval.stmt config ev₂ s c) :=
  Tracking.stmt (w := ()) h.tracked trivial s trivial

theorem names_of_footprint {s : StmtNode} {α : Type} {x y : Run α}
    (h : L.Rel (footprint c s) x y) : L.Rel (.names c) x y :=
  Tracking.names_of_footprint (T := L.tracking) (w := ()) (μ := fun _ => .none) h

theorem evaluator_relates (L : Logic) (config : Config) :
    ∀ fuel, L.Relates (evaluator config fuel) (evaluator config fuel)
  | 0 => ⟨rfl, fun _ _ => L.outOfFuel, fun _ _ => of_clean L.outOfFuel⟩
  | fuel + 1 => by
    have parts := evaluator_relates L config fuel
    exact ⟨rfl, fun e _ => expr parts config e,
      fun s _ => names_of_footprint (stmt parts config s)⟩

end Run.Logic

end TreeScript
