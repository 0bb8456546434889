import TreeScript.Proofs.Calls.Callee
import TreeScript.Proofs.Run.Work

/-!
# Live calls and imports in progress

However a run ends, the calls that are live and the imports in progress are what they were before.
On the way there no more calls are live than the limit allows, and no path is imported twice. A call
that is prepared is refused only when there is no room for it.
-/
namespace TreeScript

variable {f : Footprint} {n : Nat} {m m' m₁ : Machine} {c : CtxId} {α : Type}
variable {config : Config} {fuel : Nat} {limit : Option Nat}

/-- No more calls are live than the limit allows, and no import is in progress twice. -/
structure Machine.Tidy (limit : Option Nat) (m : Machine) : Prop where
  limit_eq : m.calls.limit = limit
  depth_le : ∀ n, limit = some n → m.calls.depth ≤ n
  nodup : m.importing.Nodup

namespace CallStack

variable {s : CallStack} {frame : CallFrame}

/-- A call is refused when as many calls are live as may be. -/
theorem push_eq_error_iff {fault : Fault} :
    s.push frame = .error fault ↔
      ∃ n, s.limit = some n ∧ n ≤ s.depth ∧ fault = .stackOverflow n := by
  unfold push
  cases hl : s.limit with
  | none => simp
  | some n =>
    by_cases hn : n ≤ s.depth
    · simp [hn, eq_comm]
    · simp [hn]

theorem depth_pop_le (s : CallStack) : s.pop.depth ≤ s.depth := by
  show s.frames.tail.length ≤ s.frames.length
  rw [List.length_tail]
  exact Nat.sub_le _ _

end CallStack

theorem Machine.Step.tidy (step : Step f m m') (h : m.Tidy limit) : m'.Tidy limit := by
  cases step with
  | store | released | held | disk | output | input => exact ⟨h.limit_eq, h.depth_le, h.nodup⟩
  | callEntered room =>
    obtain ⟨rfl, hroom⟩ := CallStack.of_push room
    refine ⟨h.limit_eq, fun n hn => ?_, h.nodup⟩
    exact hroom n (h.limit_eq.trans hn)
  | callLeft =>
    refine ⟨h.limit_eq, fun n hn => ?_, h.nodup⟩
    exact Nat.le_trans (CallStack.depth_pop_le _) (h.depth_le n hn)
  | importStarted idle => exact ⟨h.limit_eq, h.depth_le, List.nodup_cons.mpr ⟨idle, h.nodup⟩⟩
  | importEnded => exact ⟨h.limit_eq, h.depth_le, h.nodup.tail⟩

theorem Machine.Later.tidy (steps : m.Later n m') (h : m.Tidy limit) : m'.Tidy limit := by
  induction steps with
  | refl => exact h
  | tail _ step ih =>
    obtain ⟨f, -, step⟩ := step
    exact step.tidy ih

/-- What keeps a machine tidy keeps it so at every moment. -/
theorem Machine.Tidy.throughout {run : Evaluator → Run α} (h : m.Tidy limit)
    (hf : ∀ c, f.context? = some c → c < m.store.graph.size)
    (hrun : Run.Logical f run) : Throughout config fuel (fun _ => Tidy limit) run m :=
  .of_later (n := 0) (Nat.zero_le _) (fun c hc => ⟨Nat.zero_le c, hf c hc⟩) hrun
    fun _ _ later => later.tidy h

theorem Failure.backtrace_locate (span : Span) (e : Failure) :
    (e.locate span).backtrace = e.backtrace := by
  unfold locate
  split
  · rfl
  · split <;> rfl

theorem CallStack.backtrace_attach {s : CallStack} (h : s.frames ≠ []) (e : Failure) :
    (s.attach e).backtrace ≠ none := by
  unfold attach Failure.trace
  split
  · rename_i calls hb
    simp [hb]
  · rw [List.isEmpty_eq_false_iff.mpr h]
    simp

/-- The run is refused for want of room: it stops at once, and no call tells of it. -/
def Run.IsRefused (n : Nat) : EStateM.Result Stop Machine α → Prop
  | .error (.failed e _) _ => e = .ofFault (.stackOverflow n)
  | _ => False

namespace Run

/-- A failure inside a call tells of the call. -/
theorem backtrace_inCall {name : String} {span : Span} {x : Run α} {calls : CallStack} {e : Failure}
    {raised : Raised} (hp : m.calls.push ⟨name, some span⟩ = .ok calls)
    (kept : (x.after { m with calls }).calls = calls)
    (h : inCall name span x m = .error (.failed e raised) m') : e.backtrace ≠ none := by
  rw [inCall_apply, hp] at h
  dsimp only at h
  rw [ensuring, mapFailure] at h
  rw [after] at kept
  cases hx : x { m with calls } with
  | ok a m₂ =>
    rw [hx] at h
    cases h
  | error stop m₂ =>
    rw [hx] at h kept
    cases stop with
    | outOfFuel | panicked => cases h
    | failed e₀ =>
      cases h
      rw [Failure.backtrace_locate]
      refine CallStack.backtrace_attach ?_ e₀
      dsimp only at kept ⊢
      rw [kept, (CallStack.of_push hp).1]
      exact List.cons_ne_nil _ _

/-- Entering a call is refused exactly when there is no room. -/
theorem isRefused_inCall {name : String} {span : Span} {x : Run α}
    (kept : ∀ calls, m.calls.push ⟨name, some span⟩ = .ok calls →
      (x.after { m with calls }).calls = calls) :
    IsRefused n (inCall name span x m) ↔ m.calls.limit = some n ∧ n ≤ m.calls.depth := by
  cases hp : m.calls.push ⟨name, some span⟩ with
  | error fault =>
    obtain ⟨n', hl, hn, rfl⟩ := CallStack.push_eq_error_iff.mp hp
    rw [inCall_apply, hp]
    show Failure.ofFault (.stackOverflow n') = Failure.ofFault (.stackOverflow n) ↔ _
    constructor
    · intro h
      cases h
      exact ⟨hl, hn⟩
    · rintro ⟨hl', -⟩
      cases hl.symm.trans hl'
      rfl
  | ok calls =>
    constructor
    · intro h
      cases hx : inCall name span x m with
      | ok a m' =>
        rw [hx] at h
        cases h
      | error stop m' =>
        rw [hx] at h
        cases stop with
        | outOfFuel | panicked => cases h
        | failed e =>
          have told := backtrace_inCall hp (kept calls hp) hx
          rw [show e = _ from h] at told
          exact absurd rfl told
    · rintro ⟨hl, hn⟩
      have := (CallStack.of_push hp).2 n hl
      omega

theorem isRefused_ensuring {x : Run α} {undo : Machine → Machine} :
    IsRefused n (x.ensuring undo m) ↔ IsRefused n (x m) := by
  rw [ensuring]
  cases x m with
  | ok a m' => exact Iff.rfl
  | error stop m' => cases stop <;> exact Iff.rfl

theorem isRefused_bind {β : Type} {x : Run α} {k : α → Run β}
    (hk : ∀ a m', ¬IsRefused n (k a m')) : IsRefused n ((x >>= k) m) ↔ IsRefused n (x m) := by
  rw [bind_apply]
  cases hx : x m with
  | ok a m' => exact ⟨fun h => absurd h (hk a m'), fun h => h.elim⟩
  | error stop m' => cases stop <;> exact Iff.rfl

theorem isRefused_holding {holds : List Hold} {x : Run α} :
    IsRefused n (holding holds x m) ↔ IsRefused n (x { m with held := holds ++ m.held }) :=
  isRefused_ensuring

/-- A result that does not fit its annotation is no refusal. -/
theorem not_isRefused_annotate (span : Span) (type : Option TypeAnn) (v : Value) :
    ¬IsRefused n (locating span (do ofExcept (v.annotate (← handles) type)) m) := by
  have run : (do ofExcept (v.annotate (← handles) type) : Run Value) m =
      ofExcept (v.annotate m.handles type) m := rfl
  rw [locating, mapFailure, run]
  cases ha : v.annotate m.handles type with
  | ok w => exact id
  | error fault =>
    have mismatch : fault ≠ .stackOverflow n := by
      unfold Value.annotate at ha
      split at ha
      · cases ha
      · cases ha
      · split at ha
        · cases ha
        · cases ha
          exact Fault.noConfusion
    intro h
    have hf : ((Failure.ofFault fault).locate span).fault = (Failure.ofFault fault).fault := by
      unfold Failure.locate
      split
      · rfl
      · split <;> rfl
    exact mismatch (hf.symm.trans (congrArg Failure.fault h))

end Run

namespace Callee

open Run

/-- The code of a call leaves the live calls as they are. -/
theorem calls_of_rel {x : Run α} {calls : CallStack} (hc : c < m.store.graph.size)
    (h : ∀ L : Run.Logic, L.Keeps (.names c) x) :
    (x.after { m with calls }).calls = calls :=
  (agree_of_rel (m := { m with calls }) (h (Run.Logic.after 0 _ (Nat.zero_le _)))
    (by rintro _ ⟨⟩; exact hc)).kept.calls

/-- A call is refused exactly when there is no room for it. -/
theorem isRefused_enter (callee : Callee) (span : Span) (hc : c < m.store.graph.size) :
    IsRefused n (callee.enter (evaluator config fuel) c span m) ↔
      m.calls.limit = some n ∧ n ≤ m.calls.depth := by
  have same (L : Run.Logic) := Run.Logic.evaluator_relates L config fuel
  cases callee with
  | func f =>
    refine (isRefused_bind fun v m' => not_isRefused_annotate span _ v).trans ?_
    refine isRefused_holding.trans (isRefused_inCall fun calls _ => ?_)
    exact calls_of_rel hc fun L => Run.Logic.body (same L) _
  | closure cl =>
    refine isRefused_holding.trans (isRefused_inCall fun calls _ => ?_)
    exact calls_of_rel hc fun L => Run.Logic.body (same L) _
  | «class» decl world =>
    refine (isRefused_bind fun _ m' => id).trans (isRefused_ensuring.trans ?_)
    refine isRefused_holding.trans (isRefused_inCall fun calls _ => ?_)
    exact calls_of_rel hc fun L => Run.Logic.construct (same L) decl span

end Callee

namespace Session

/-- Between two uses of a session no call is live and no import is in progress, and nothing has been
let go. -/
structure Idle (limit : Option Nat) (s : Session) : Prop where
  world : s.world < s.machine.store.graph.size
  calls : s.machine.calls = .empty limit
  importing : s.machine.importing = []
  outside : s.machine.outside = none

/-- An idle session starts its next run tidily. -/
theorem Idle.tidy {s : Session} (h : s.Idle limit) : s.machine.Tidy limit where
  limit_eq := by
    rw [h.calls]
    rfl
  depth_le n _ := by
    rw [h.calls]
    exact Nat.zero_le n
  nodup := by
    rw [h.importing]
    exact List.nodup_nil

theorem Step.idle {s t : Session} (step : Step s t) (h : s.Idle limit) : t.Idle limit := by
  obtain ⟨setting, machine⟩ := step.used
  rcases machine with same | ⟨work, may, left⟩
  · constructor <;> rw [same]
    · rw [setting.world]
      exact h.world
    · exact h.calls
    · exact h.importing
    · exact h.outside
  · have agree : Run.Agree _ 0 _ (work.run (evaluator s.config s.fuel)) s.machine :=
      Work.agree (may.there h.world)
    constructor
    · rw [setting.world, left]
      exact Nat.lt_of_lt_of_le h.world agree.kept.store.contexts
    · rw [left]
      exact agree.kept.calls.trans h.calls
    · rw [left]
      exact agree.kept.importing.trans h.importing
    · rw [left]
      exact agree.later.outside_eq.trans h.outside

theorem idle_start (disk : Files.Disk) (output : Output) (input : List String) :
    (start config fuel (.start disk output input limit)).Idle limit := by
  refine ⟨?_, rfl, rfl, rfl⟩
  show 0 < (Graph.empty.add .emptyWorld).2.size
  rw [Graph.size_add]
  exact Nat.succ_pos _

theorem Reachable.idle {disk : Files.Disk} {output : Output} {input : List String} {s : Session}
    (h : Reachable config fuel (.start disk output input limit) s) : s.Idle limit := by
  induction h with
  | refl => exact idle_start disk output input
  | tail _ step ih => exact step.idle ih

end Session

/-- The same calls are live and the same imports in progress. -/
def Machine.SameBooks (m m' : Machine) : Prop :=
  m'.calls = m.calls ∧ m'.importing = m.importing

theorem Machine.Kept.sameBooks (h : m.Kept f m') : m.SameBooks m' := ⟨h.calls, h.importing⟩

/-- **Bookkeeping.** Statements, expressions and calls of closures leave the live calls and the
imports in progress as they were, however they end. At every moment no more calls are live than the
limit allows, and no import is in progress twice. A call that has been prepared is refused exactly
when as many calls are live as may be. So no call is live and no import is in progress between two
uses of a session. -/
theorem bookkeeping (config : Config) (fuel : Nat) :
    (∀ m : Machine,
      (∀ s c, c < m.store.graph.size → m.SameBooks (((evaluator config fuel).stmt s c).after m)) ∧
      (∀ e c, m.SameBooks (((evaluator config fuel).expr e c).after m)) ∧
      ∀ closure args span, m.SameBooks ((Run.closure config fuel closure args span).after m)) ∧
    (∀ (limit : Option Nat) (m : Machine), m.Tidy limit →
      (∀ s c, c < m.store.graph.size →
        Throughout config fuel (fun _ => Machine.Tidy limit) (·.stmt s c) m) ∧
      (∀ e c, Throughout config fuel (fun _ => Machine.Tidy limit) (·.expr e c) m) ∧
      ∀ closure args span, Throughout config fuel (fun _ => Machine.Tidy limit)
        (fun ev => Eval.callback ev span closure args) m) ∧
    (∀ (callee : Callee) args span n m c m₁, m.Tidy (some n) →
      callee.prepare args m = .ok c m₁ →
      (Run.IsRefused n (callee.call (evaluator config fuel) args span m) ↔ m.calls.depth = n)) ∧
    ∀ limit disk output input s,
      Session.Reachable config fuel (.start disk output input limit) s →
      s.machine.Tidy limit ∧ s.machine.calls = .empty limit ∧ s.machine.importing = [] := by
  refine ⟨fun m => ⟨?_, ?_, ?_⟩, fun limit m tidy => ⟨?_, ?_, ?_⟩, ?_, ?_⟩
  · intro s c hc
    exact (Run.agree_stmt s hc).kept.sameBooks
  · intro e c
    exact (Run.agree_expr e c).kept.sameBooks
  · intro closure args span
    exact (Run.agree_closure closure args span).kept.sameBooks
  · intro s c hc
    exact tidy.throughout (f := .names c) (by rintro _ ⟨⟩; exact hc) fun L _ _ h => h.stmt s c
  · intro e c
    exact tidy.throughout (f := .clean) nofun fun L _ _ h => h.expr e c
  · intro closure args span
    exact tidy.throughout (f := .clean) nofun fun L _ _ h =>
      Run.Logic.callback h span closure args
  · intro callee args span n m c m₁ tidy h
    have ready := Callee.prepared h
    rw [Callee.call_of_prepare h, Callee.isRefused_enter callee span ready.there,
      ready.kept.calls]
    have full := tidy.depth_le n rfl
    constructor
    · rintro ⟨-, hn⟩
      exact Nat.le_antisymm full hn
    · intro hn
      exact ⟨tidy.limit_eq, Nat.le_of_eq hn.symm⟩
  · intro limit disk output input s h
    exact ⟨h.idle.tidy, h.idle.calls, h.idle.importing⟩

/-- With one call live and room for one, a closure is refused. -/
theorem bookkeeping_full :
    let m : Machine :=
      { (Session.start ⟨[], none⟩ 2 (.start .empty .silent [] (some 1))).machine with
        calls := ⟨[⟨"f", none⟩], some 1⟩ }
    let callee : Callee := .closure ⟨0, [], [], 0⟩
    m.Tidy (some 1) ∧ (∃ m₁, callee.prepare [] m = .ok 1 m₁) ∧
      Run.IsRefused 1 (callee.call (evaluator ⟨[], none⟩ 2) [] ⟨0, 1⟩ m) := by
  intro m callee
  have tidy : m.Tidy (some 1) := ⟨rfl, fun n hn => by cases hn; exact Nat.le_refl 1, List.nodup_nil⟩
  refine ⟨tidy, ⟨_, rfl⟩, ?_⟩
  exact ((bookkeeping ⟨[], none⟩ 2).2.2.1 callee [] ⟨0, 1⟩ 1 m 1 _ tidy rfl).mpr rfl

end TreeScript
