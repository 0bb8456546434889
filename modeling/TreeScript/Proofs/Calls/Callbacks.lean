import TreeScript.Proofs.Run.Rounds

/-!
# Members that call back

`map`, `filter`, `foreach` and `fold` read their receiver once, before the first call, and go through
what they found. Nothing that the closure does to the receiver changes which calls are made, and the
members themselves write nothing.
-/
namespace TreeScript

namespace Member

variable {call : Value → Run Value}

namespace Items

theorem mapItems_visits (items : List Value) (first : Value) (m : Machine) :
    Visits (fun _ => call) first items (fun rounds results => results = rounds.map Round.result) m
      (mapItems call items m) := by
  induction items generalizing first m with
  | nil => exact .nil rfl
  | cons v items ih =>
    refine .cons fun result m₁ => .returns (.holding (ih result _)) fun rounds results _ given => ?_
    rw [given, List.map_cons]

theorem filterItems_visits (items : List Value) (first : Value) (m : Machine) :
    Visits (fun _ => call) first items (fun rounds kept => kept = Round.kept rounds) m
      (filterItems call items m) := by
  induction items generalizing first m with
  | nil => exact .nil rfl
  | cons v items ih =>
    refine .cons fun result m₁ => ?_
    exact .returns (ih result m₁) fun rounds kept _ given => by rw [given, Round.kept_cons]; rfl

theorem forItems_visits (items : List Value) (first : Value) (m : Machine) :
    Visits (fun _ => call) first items (fun _ _ => True) m (forItems call items m) := by
  induction items generalizing first m with
  | nil => exact .nil trivial
  | cons v items ih => exact .cons fun result m₁ => ih result m₁

theorem foldItems_visits {call : Value → Value → Run Value} (items : List Value) (first : Value)
    (m : Machine) :
    Visits call first items (fun rounds v => v = Round.lastGiven first rounds) m
      (foldItems call first items m) := by
  induction items generalizing first m with
  | nil => exact .nil rfl
  | cons v items ih => exact .cons fun result m₁ => ih result m₁

end Items

namespace Chars

theorem filterChars_visits (cs : List Char) (first : Value) (m : Machine) :
    Visits (fun _ => call) first (cs.map .char)
      (fun rounds (kept : List Char) => kept.map Value.char = Round.kept rounds ∧ kept.Sublist cs) m
      (filterChars call cs m) := by
  induction cs generalizing first m with
  | nil => exact .nil ⟨rfl, .slnil⟩
  | cons c cs ih =>
    refine .cons fun result m₁ => .returns (ih result m₁) fun rounds kept _ given => ?_
    obtain ⟨same, sub⟩ := given
    rw [Round.kept_cons, ← same]
    show (if (⟨.char c, m, result, m₁⟩ : Round).passes then c :: kept else kept).map Value.char = _ ∧
      (if (⟨.char c, m, result, m₁⟩ : Round).passes then c :: kept else kept).Sublist (c :: cs)
    split
    · exact ⟨rfl, sub.cons_cons c⟩
    · exact ⟨rfl, sub.cons c⟩

theorem forChars_visits (cs : List Char) (first : Value) (m : Machine) :
    Visits (fun _ => call) first (cs.map .char) (fun _ _ => True) m (forChars call cs m) := by
  induction cs generalizing first m with
  | nil => exact .nil trivial
  | cons c cs ih => exact .cons fun result m₁ => ih result m₁

end Chars

end Member

namespace Eval

section Receivers

variable {ev : Evaluator} {receiver : Place} {name : String} {args : List Arg} {span : Span}
  {m : Machine} {v : Value}

/-- A member is looked for by what the receiver is when the call begins. -/
theorem callMember_of_find? {member : Member} (c : CtxId) (read : receiver.read m = .ok v m)
    (found : Member.find? v.kind name = some member) :
    callMember ev receiver name args c span m =
      useMember ev receiver (args.map (·.value)) span member m := by
  have builtin : callMember ev receiver name args c span m =
      callBuiltin ev receiver v.kind name (args.map (·.value)) span m := by
    rw [callMember, Run.bind_apply, read]
    cases v with
    | object | module => cases found
    | _ => rfl
  rw [builtin, callBuiltin, found]

/-- A member that only reads gives what it makes of the receiver, and leaves the machine alone. -/
theorem callMember_of_read {f : Handles → Value → List Value → Except Fault Value} (c : CtxId)
    (read : receiver.read m = .ok v m) (found : Member.find? v.kind name = some (.read f)) :
    callMember ev receiver name args c span m =
      Run.ofExcept (f m.handles v (args.map (·.value))) m := by
  rw [callMember_of_find? c read found, useMember, Run.bind_apply]
  show (receiver.read >>= _) m = _
  rw [Run.bind_apply, read]

/-- A member that calls back is used on what the receiver is when the call begins. -/
theorem callMember_of_apply {f : Callback → Value → List Value → Run Value} (c : CtxId)
    (read : receiver.read m = .ok v m) (found : Member.find? v.kind name = some (.apply f)) :
    callMember ev receiver name args c span m =
      Run.holding (.value v :: (args.map (·.value)).map .value)
        (f (callback ev span) v (args.map (·.value))) m := by
  rw [callMember_of_find? c read found, useMember, Run.bind_apply, read]

end Receivers

/-- Calls of a closure with one item each. -/
def callEach (ev : Evaluator) (span : Span) (f : Closure) (_ v : Value) : Run Value :=
  callback ev span f [v]

/-- Calls of a closure with what the call before gave, and an item. -/
def callOnto (ev : Evaluator) (span : Span) (f : Closure) (last v : Value) : Run Value :=
  callback ev span f [last, v]

section Members

variable {ev : Evaluator} {receiver : Place} {f : Closure} {args : List Arg} {span : Span}
  {m : Machine}

theorem map_visits {items : List Value} (c : CtxId) (read : receiver.read m = .ok (.list items) m)
    (closure : args.map (·.value) = [.closure f]) :
    Visits (callEach ev span f) .unit items
      (fun rounds v => v = .list (rounds.map Round.result) ∧ rounds.length = items.length) m
      (callMember ev receiver "map" args c span m) := by
  rw [callMember_of_apply c read rfl, closure]
  refine .holding (.returns (Member.Items.mapItems_visits items .unit _) ?_)
  intro rounds results all given
  exact ⟨congrArg Value.list given, by rw [← all, List.length_map]⟩

theorem filter_visits {items : List Value} (c : CtxId)
    (read : receiver.read m = .ok (.list items) m)
    (closure : args.map (·.value) = [.closure f]) :
    Visits (callEach ev span f) .unit items
      (fun rounds v => v = .list (Round.kept rounds) ∧ (Round.kept rounds).Sublist items) m
      (callMember ev receiver "filter" args c span m) := by
  rw [callMember_of_apply c read rfl, closure]
  refine .holding (.returns (Member.Items.filterItems_visits items .unit _) ?_)
  intro rounds kept all given
  exact ⟨congrArg Value.list given, all ▸ Round.kept_sublist rounds⟩

theorem foreach_visits {items : List Value} (c : CtxId)
    (read : receiver.read m = .ok (.list items) m)
    (closure : args.map (·.value) = [.closure f]) :
    Visits (callEach ev span f) .unit items (fun _ v => v = .unit) m
      (callMember ev receiver "foreach" args c span m) := by
  rw [callMember_of_apply c read rfl, closure]
  exact .holding (.returns (Member.Items.forItems_visits items .unit _) fun _ _ _ _ => rfl)

theorem fold_visits {items : List Value} {first : Value} (c : CtxId)
    (read : receiver.read m = .ok (.list items) m)
    (closure : args.map (·.value) = [.closure f, first]) :
    Visits (callOnto ev span f) first items (fun rounds v => v = Round.lastGiven first rounds) m
      (callMember ev receiver "fold" args c span m) := by
  rw [callMember_of_apply c read rfl, closure]
  exact .holding (Member.Items.foldItems_visits items first _)

theorem filter_visits_str {s : String} (c : CtxId) (read : receiver.read m = .ok (.str s) m)
    (closure : args.map (·.value) = [.closure f]) :
    Visits (callEach ev span f) .unit (s.toList.map .char)
      (fun rounds v => ∃ kept : List Char, v = .ofChars kept ∧
        kept.map Value.char = Round.kept rounds ∧ kept.Sublist s.toList) m
      (callMember ev receiver "filter" args c span m) := by
  rw [callMember_of_apply c read rfl, closure]
  refine .holding (.returns (Member.Chars.filterChars_visits s.toList .unit _) ?_)
  exact fun rounds kept all given => ⟨kept, rfl, given⟩

theorem foreach_visits_str {s : String} (c : CtxId) (read : receiver.read m = .ok (.str s) m)
    (closure : args.map (·.value) = [.closure f]) :
    Visits (callEach ev span f) .unit (s.toList.map .char) (fun _ v => v = .unit) m
      (callMember ev receiver "foreach" args c span m) := by
  rw [callMember_of_apply c read rfl, closure]
  exact .holding (.returns (Member.Chars.forChars_visits s.toList .unit _) fun _ _ _ _ => rfl)

end Members

/-- **Callbacks.** What is gone through are the items or characters that the receiver has when the
call begins, each in one call, in order, up to the first call that fails. `map` gives a result for
each, `filter` those whose call gave a true value, and `fold` what the last call gave. The machine
that is left is the one that the last call left, so the receiver is what the calls made of it. -/
theorem callbacks_visit_snapshot (ev : Evaluator) (receiver : Place) (f : Closure)
    (args : List Arg) (c : CtxId) (span : Span) (m : Machine) :
    (∀ items, receiver.read m = .ok (.list items) m →
      (args.map (·.value) = [.closure f] →
        Visits (callEach ev span f) .unit items
          (fun rounds v => v = .list (rounds.map Round.result) ∧ rounds.length = items.length) m
          (callMember ev receiver "map" args c span m) ∧
        Visits (callEach ev span f) .unit items
          (fun rounds v => v = .list (Round.kept rounds) ∧ (Round.kept rounds).Sublist items) m
          (callMember ev receiver "filter" args c span m) ∧
        Visits (callEach ev span f) .unit items (fun _ v => v = .unit) m
          (callMember ev receiver "foreach" args c span m)) ∧
      ∀ first, args.map (·.value) = [.closure f, first] →
        Visits (callOnto ev span f) first items (fun rounds v => v = Round.lastGiven first rounds) m
          (callMember ev receiver "fold" args c span m)) ∧
    ∀ s, receiver.read m = .ok (.str s) m → args.map (·.value) = [.closure f] →
      Visits (callEach ev span f) .unit (s.toList.map .char)
        (fun rounds v => ∃ kept : List Char, v = .ofChars kept ∧
          kept.map Value.char = Round.kept rounds ∧ kept.Sublist s.toList) m
        (callMember ev receiver "filter" args c span m) ∧
      Visits (callEach ev span f) .unit (s.toList.map .char) (fun _ v => v = .unit) m
        (callMember ev receiver "foreach" args c span m) := by
  refine ⟨fun items read => ⟨fun closure => ?_, fun first closure => fold_visits c read closure⟩,
    fun s read closure => ?_⟩
  · exact ⟨map_visits c read closure, filter_visits c read closure, foreach_visits c read closure⟩
  · exact ⟨filter_visits_str c read closure, foreach_visits_str c read closure⟩

/-- The closure `|x| { xs.append(x); return x; }` is called once for each of the two items of `xs`,
which has four of them in the end. -/
theorem map_while_appending :
    let span : Span := ⟨0, 1⟩
    let expr (node : ExprNode) : Expr := ⟨node, span⟩
    let append := expr (.member (expr (.name "xs")) (expr (.call "append" [expr (.name "x")])))
    let f : Closure := ⟨0, [⟨"x", none, .none⟩],
      [⟨.expr append, span⟩, ⟨.ret (some (expr (.name "x"))), span⟩], 0⟩
    let graph := (Declaration.ofVar 0 "xs" "xs" 0).apply (Graph.empty.add .emptyWorld).2
    let store : Store := ⟨graph, #[⟨"xs", .list [.int 1, .int 2], .none⟩], 1⟩
    let m := { Machine.start .empty .silent [] none with store }
    let ev := evaluator ⟨[], none⟩ 6
    let out := callMember ev (.ofCell 0) "map" [.ofValue (.closure f)] 0 span m
    Visits (callEach ev span f) .unit [.int 1, .int 2]
        (fun rounds v => v = .list (rounds.map Round.result) ∧ rounds.length = 2) m out ∧
      (match out with
        | .ok v m' => v.equals (.list [.int 1, .int 2]) &&
          (m'.store.cell 0).value.equals (.list [.int 1, .int 2, .int 1, .int 2])
        | .error _ _ => false) = true := by
  intro span expr append f graph store m ev out
  have visits := callbacks_visit_snapshot ev (.ofCell 0) f [.ofValue (.closure f)] 0 span m
  exact ⟨((visits.1 [.int 1, .int 2] rfl).1 rfl).1, by decide +kernel⟩

end Eval

end TreeScript
