import TreeScript.Proofs.Cells.Constants
import TreeScript.Proofs.Places.Lenses

/-!
# Counting loops

A counting loop evaluates its bounds, opens a scope for its counter and runs its body in rounds. The
counter is an ordinary variable that the body may write, but the loop keeps its own count and writes
the variable before each round. What the rounds need of the machine, the cell of the counter and the
scopes of the context, is an invariant that no body can break.
-/
namespace TreeScript

namespace Machine

def openScope (c : CtxId) (m : Machine) : Machine :=
  { m with store := m.store.modifyGraph (·.pushScope c) }

def closeScope (c : CtxId) (m : Machine) : Machine :=
  { m with store := m.store.modifyGraph (·.popScope c) }

/-- Writes the counter of a loop. -/
def count (cell : CellId) (n : Int64) (m : Machine) : Machine :=
  { m with store := m.store.setValue cell (.int n) }

/-- The machine that a round begins on: the counter is written, and the body has a scope. -/
def beginRound (c : CtxId) (cell : CellId) (n : Int64) (m : Machine) : Machine :=
  (m.count cell n).openScope c

/-- The machine that the rounds begin on: the counter is a new variable in a scope of the loop. -/
def enterLoop (c : CtxId) (name : String) (n : Int64) (m : Machine) : Machine :=
  { m with store := (m.openScope c).store.bindNew c ⟨name, .int n, .none⟩ }

end Machine

/-- The scopes of a context in a loop: around the body there is a frame that binds the counter
alone. -/
def Scopes.withCounter (scopes : Scopes) (name : String) (cell : CellId) : Scopes :=
  scopes.push.bindVar name cell

/-- Rounds of a loop that fell through, from a count on. -/
inductive Counted (ev : Evaluator) (c : CtxId) (body : Block) (cell : CellId) :
    Int → Nat → Machine → Machine → Prop
  | none {n : Int} {m : Machine} : Counted ev c body cell n 0 m m
  | next {n : Int} {rounds : Nat} {m m₁ m' : Machine} {v : Value}
    (ran : Eval.block ev c body (m.beginRound c cell (.ofInt n)) = .ok (.normal v) m₁)
    (rest : Counted ev c body cell (n + 1) rounds (m₁.closeScope c) m') :
    Counted ev c body cell n (rounds + 1) m m'

/-- How a loop comes out that is to run so many rounds: all of them fell through, or one of them
returned or failed, and then it was the last. The scope of the loop is closed in the end. -/
inductive Counts (ev : Evaluator) (c : CtxId) (body : Block) (cell : CellId) (first : Int)
    (rounds : Nat) (m : Machine) : EStateM.Result Stop Machine Flow → Prop
  | finished {m' : Machine} (ran : Counted ev c body cell first rounds m m') :
    Counts ev c body cell first rounds m (.ok (.normal .unit) (m'.closeScope c))
  | returned {k : Nat} {m₁ m₂ : Machine} {v : Value} (early : k < rounds)
    (ran : Counted ev c body cell first k m m₁)
    (returns : Eval.block ev c body (m₁.beginRound c cell (.ofInt (first + k))) = .ok (.ret v) m₂) :
    Counts ev c body cell first rounds m (.ok (.ret v) ((m₂.closeScope c).closeScope c))
  | failed {k : Nat} {m₁ m₂ : Machine} {stop : Stop} (early : k < rounds)
    (ran : Counted ev c body cell first k m m₁)
    (fails : Eval.block ev c body (m₁.beginRound c cell (.ofInt (first + k))) = .error stop m₂) :
    Counts ev c body cell first rounds m (.error stop ((m₂.closeScope c).closeScope c))

/-- A round that fell through, and what goes on from there. -/
theorem Counts.next {ev : Evaluator} {c : CtxId} {body : Block} {cell : CellId} {n : Int}
    {rounds : Nat} {m m₁ : Machine} {v : Value} {out : EStateM.Result Stop Machine Flow}
    (others : Counts ev c body cell (n + 1) rounds (m₁.closeScope c) out)
    (ran : Eval.block ev c body (m.beginRound c cell (.ofInt n)) = .ok (.normal v) m₁) :
    Counts ev c body cell n (rounds + 1) m out := by
  have count (k : Nat) : n + 1 + (k : Int) = n + (k + 1 : Nat) := by omega
  cases others with
  | finished rest => exact .finished (.next ran rest)
  | returned early rest returns =>
    exact .returned (Nat.succ_lt_succ early) (.next ran rest) (count _ ▸ returns)
  | failed early rest fails =>
    exact .failed (Nat.succ_lt_succ early) (.next ran rest) (count _ ▸ fails)

/-- What the rounds of a loop need: the cell of the counter is there and may be written, and the
context has the scopes of the loop. -/
structure Looping (c : CtxId) (cell : CellId) (scopes : Scopes) (m : Machine) : Prop where
  there : cell < m.store.cells.size
  writable : (m.store.cell cell).attrs.isConst = false
  scopes : m.store.graph.scopes? c = some scopes

namespace Looping

variable {c : CtxId} {cell : CellId} {scopes : Scopes} {m m₁ : Machine} {config : Config}
  {fuel : Nat} {body : Block}

theorem count (h : Looping c cell scopes m) (n : Int64) : Looping c cell scopes (m.count cell n) where
  there := by
    show cell < (m.store.cells.modify ..).size
    rw [Array.size_modify]
    exact h.there
  writable := (congrArg Attrs.isConst (Store.attrs_setValue _ _)).trans h.writable
  scopes := h.scopes

/-- A run of the body leaves the loop as it was, whatever the body does. -/
theorem after_body (h : Looping c cell scopes m) :
    Looping c cell scopes ((Eval.scopedBlock (evaluator config fuel) c body).after m) := by
  have there : c < m.store.graph.size := by
    obtain ⟨ctx, found, -⟩ := Option.map_eq_some_iff.mp h.scopes
    exact Graph.lt_of_context? found
  have agree : Run.Agree (.blocks c) 0 (Eval.scopedBlock (evaluator config fuel) c body) _ m :=
    Run.agree_scopedBlock body there
  have kept := agree.later.keepsConstants
  exact {
    there := Nat.lt_of_lt_of_le h.there kept.cells
    writable := (congrArg Attrs.isConst (kept.attrs cell h.there)).trans h.writable
    scopes := (agree.kept.store.scopes c there nofun).trans h.scopes }

/-- A round that fell through leaves a machine for the next one. -/
theorem next (h : Looping c cell scopes m) {n : Int64} {v : Value}
    (ran : Eval.block (evaluator config fuel) c body (m.beginRound c cell n) = .ok (.normal v) m₁) :
    Looping c cell scopes (m₁.closeScope c) := by
  have left : (Eval.scopedBlock (evaluator config fuel) c body).after (m.count cell n) =
      m₁.closeScope c := by
    refine (Run.after_ensuring _ (·.closeScope c) (m.beginRound c cell n)).trans ?_
    rw [Run.after, ran]
  exact left ▸ (h.count n).after_body

/-- Any number of rounds keep what a loop needs. -/
theorem counted (h : Looping c cell scopes m) {n : Int} {k : Nat} {m' : Machine}
    (ran : Counted (evaluator config fuel) c body cell n k m m') : Looping c cell scopes m' := by
  induction ran with
  | none => exact h
  | next ran _ ih => exact ih (h.next ran)

end Looping

namespace Eval

variable {config : Config} {fuel : Nat} {c : CtxId} {cell : CellId} {body : Block} {m : Machine}
  {scopes : Scopes}

theorem countLoop_succ (ev : Evaluator) (rounds : Nat) (n : Int64)
    (writable : (m.store.cell cell).attrs.isConst = false) :
    countLoop ev cell body c (rounds + 1) n m =
      match block ev c body (m.beginRound c cell n) with
      | .ok (.normal _) m₁ => countLoop ev cell body c rounds (n + 1) (m₁.closeScope c)
      | .ok (.ret v) m₁ => .ok (.ret v) (m₁.closeScope c)
      | .error stop m₁ => .error stop (m₁.closeScope c) := by
  have written : Run.editCell cell (fun _ => .replace fun _ => .ok (.int n)) m =
      .ok () (m.count cell n) := by
    simp only [Run.editCell, Place.checkWrite_of_not_const writable]
    rfl
  have inner : scopedBlock ev c body (m.count cell n) =
      (block ev c body).ensuring (·.closeScope c) (m.beginRound c cell n) := rfl
  rw [countLoop, Run.bind_apply, written]
  show (scopedBlock ev c body >>= _) (m.count cell n) = _
  rw [Run.bind_apply, inner, Run.ensuring]
  cases block ev c body (m.beginRound c cell n) with
  | ok flow m₁ => cases flow <;> rfl
  | error stop m₁ => rfl

/-- The rounds that a loop is to run, from a count on, and then its scope is closed. -/
theorem countLoop_counts (h : Looping c cell scopes m) (n : Int) (rounds : Nat) :
    Counts (evaluator config fuel) c body cell n rounds m
      (((countLoop (evaluator config fuel) cell body c rounds (.ofInt n)).ensuring
        (·.closeScope c)) m) := by
  induction rounds generalizing n m with
  | zero => exact .finished .none
  | succ rounds ih =>
    rw [Run.ensuring, countLoop_succ _ rounds _ h.writable]
    cases ran : block (evaluator config fuel) c body (m.beginRound c cell (.ofInt n)) with
    | error stop m₁ =>
      refine .failed (Nat.succ_pos rounds) .none ?_
      rwa [Int.natCast_zero, Int.add_zero]
    | ok flow m₁ =>
      cases flow with
      | ret v =>
        refine .returned (Nat.succ_pos rounds) .none ?_
        rwa [Int.natCast_zero, Int.add_zero]
      | normal v =>
        have others := ih (h.next ran) (n + 1)
        rw [Int64.ofInt_add] at others
        exact others.next ran

/-- A loop that has its bounds opens its scope and counts. -/
theorem forRange_apply {ev : Evaluator} {name : String} {first last : Expr} {a b : Int64}
    {m₁ m₂ : Machine} (evaluated : ev.expr first c m = .ok (.int a) m₁)
    (evaluated' : Run.holding [.value (.int a)] (ev.expr last c) m₁ = .ok (.int b) m₂) :
    forRange ev name first last body c m =
      ((countLoop ev m₂.store.cells.size body c (b.toInt - a.toInt).toNat a).ensuring
        (·.closeScope c)) (m₂.enterLoop c name a) := by
  let counter : Cell := ⟨name, .int a, .none⟩
  have free : (Declaration.ofVar c counter.name counter.name
      (m₂.openScope c).store.cells.size).obstacle? (m₂.openScope c).store.graph = none := by
    refine Graph.ofVar_free_iff.mpr fun scopes there => ?_
    rw [show (m₂.openScope c).store.graph.scopes? c = _ from Graph.scopes?_pushScope] at there
    obtain ⟨old, -, rfl⟩ := Option.map_eq_some_iff.mp there
    rfl
  have declared : Run.declareNew c counter
      (fun cell => countLoop ev cell body c (b.toInt - a.toInt).toNat a) (m₂.openScope c) =
      countLoop ev m₂.store.cells.size body c (b.toInt - a.toInt).toNat a
        (m₂.enterLoop c name a) := by
    rw [Run.declareNew_apply, free]
    rfl
  rw [forRange, Run.bind_apply, evaluated]
  show (Run.holding [.value (.int a)] (ev.expr last c) >>= _) m₁ = _
  rw [Run.bind_apply, evaluated']
  show (Run.declareNew c counter _).ensuring (·.closeScope c) (m₂.openScope c) = _
  rw [Run.ensuring, declared]
  rfl

end Eval

/-- The machine that the rounds begin on. -/
theorem Looping.begins {c : CtxId} {scopes : Scopes} {m : Machine} (name : String) (n : Int64)
    (there : m.store.graph.scopes? c = some scopes) :
    Looping c m.store.cells.size (scopes.withCounter name m.store.cells.size)
      (m.enterLoop c name n) := by
  have bound : (m.enterLoop c name n).store.cell m.store.cells.size = ⟨name, .int n, .none⟩ :=
    Store.cell_addCell_self ..
  constructor
  · show m.store.cells.size < (m.store.cells.push _).size
    rw [Array.size_push]
    exact Nat.lt_succ_self _
  · rw [bound]
    rfl
  · have opened : (m.store.graph.pushScope c).scopes? c = some scopes.push := by
      rw [Graph.scopes?_pushScope, there]
      rfl
    refine (Graph.scopes?_ofVar name name m.store.cells.size).trans ?_
    exact congrArg (Option.map (·.bindVar name m.store.cells.size)) opened

/-- How a round begins: the counter holds its number, without overflow, and the body has a scope of
its own, with nothing in it, in the scope of the loop, which binds the counter alone. -/
structure Machine.RoundBegins (c : CtxId) (name : String) (cell : CellId) (outer : Scopes) (n : Int)
    (m : Machine) : Prop where
  counter : ∃ x : Int64, (m.store.cell cell).value = .int x ∧ x.toInt = n
  scopes : ∃ scopes, m.store.graph.scopes? c = some scopes ∧
    scopes.vars.frames = [] :: [(name, cell)] :: outer.vars.frames ∧
    scopes.funcs.frames = [] :: [] :: outer.funcs.frames

theorem Looping.beginRound {c : CtxId} {name : String} {cell : CellId} {outer : Scopes} {m : Machine}
    (h : Looping c cell (outer.withCounter name cell) m) {n : Int} {a b : Int64}
    (low : a.toInt ≤ n) (high : n < b.toInt) :
    (m.beginRound c cell (.ofInt n)).RoundBegins c name cell outer n where
  counter := by
    have least := Int64.le_toInt a
    have most := Int64.toInt_lt b
    refine ⟨.ofInt n, ?_, Int64.toInt_ofInt_of_le (by omega) (by omega)⟩
    exact congrArg Cell.value (Store.cell_setValue_self _ h.there)
  scopes := by
    refine ⟨(outer.withCounter name cell).push, ?_, rfl, rfl⟩
    show (m.store.graph.pushScope c).scopes? c = _
    rw [Graph.scopes?_pushScope, h.scopes]
    rfl

/-- **Counting loops.** A loop evaluates its first bound, then its last one, each once; a bound that
fails ends it. With integers as bounds it runs its body as often as there are integers from the
first up to, but not including, the last, unless a round returns or fails, which is then the outcome
of the loop. Whatever the rounds before did, each begins with the next integer in the cell of the
counter and with a scope of its own. -/
theorem counting_loop (config : Config) (fuel : Nat) (name : String) (first last : Expr)
    (body : Block) (c : CtxId) (m : Machine) :
    let ev := evaluator config fuel
    (∀ stop m₁, ev.expr first c m = .error stop m₁ →
      Eval.forRange ev name first last body c m = .error stop m₁) ∧
    ∀ v m₁, ev.expr first c m = .ok v m₁ →
      (∀ stop m₂, Run.holding [.value v] (ev.expr last c) m₁ = .error stop m₂ →
        Eval.forRange ev name first last body c m = .error stop m₂) ∧
      ∀ a b m₂ outer, v = .int a → Run.holding [.value v] (ev.expr last c) m₁ = .ok (.int b) m₂ →
        m₂.store.graph.scopes? c = some outer →
        let cell := m₂.store.cells.size
        let begun := m₂.enterLoop c name a
        let rounds := (b.toInt - a.toInt).toNat
        Counts ev c body cell a.toInt rounds begun (Eval.forRange ev name first last body c m) ∧
        ∀ k < rounds, ∀ m', Counted ev c body cell a.toInt k begun m' →
          (m'.beginRound c cell (.ofInt (a.toInt + k))).RoundBegins c name cell outer
            (a.toInt + k) := by
  intro ev
  refine ⟨fun stop m₁ fails => ?_, fun v m₁ evaluated => ⟨fun stop m₂ fails => ?_, ?_⟩⟩
  · rw [Eval.forRange, Run.bind_apply, fails]
  · rw [Eval.forRange, Run.bind_apply, evaluated]
    show (Run.holding [.value v] (ev.expr last c) >>= _) m₁ = _
    rw [Run.bind_apply, fails]
  · rintro a b m₂ outer rfl evaluated' there
    have begins := Looping.begins name a there
    constructor
    · rw [Eval.forRange_apply evaluated evaluated']
      have counts : Counts ev c body _ a.toInt (b.toInt - a.toInt).toNat _ _ :=
        Eval.countLoop_counts begins a.toInt (b.toInt - a.toInt).toNat
      rwa [Int64.ofInt_toInt] at counts
    · intro k inside m' ran
      have low : a.toInt ≤ a.toInt + k := by omega
      have high : a.toInt + k < b.toInt := by omega
      exact (begins.counted ran).beginRound low high

/-- In `for i in 3..5 { i = 100; }` the second round begins with 4, though the first one leaves 100
in the counter. -/
theorem counting_overwritten_counter :
    let span : Span := ⟨0, 1⟩
    let expr (node : ExprNode) : Expr := ⟨node, span⟩
    let body : Block := [⟨.assign (expr (.name "i")) .plain (expr (.int 100)), span⟩]
    let ev := evaluator ⟨[], none⟩ 4
    let m := (Session.start ⟨[], none⟩ 4 (.start .empty .silent [] none)).machine
    let begun := m.enterLoop 0 "i" 3
    Counts ev 0 body 0 3 2 begun (Eval.forRange ev "i" (expr (.int 3)) (expr (.int 5)) body 0 m) ∧
      ∃ m', Counted ev 0 body 0 3 1 begun m' ∧ (m'.store.cell 0).value = .int 100 ∧
        (m'.beginRound 0 0 4).RoundBegins 0 "i" 0 ⟨.base, .base⟩ 4 := by
  intro span expr body ev m begun
  have loop := counting_loop ⟨[], none⟩ 4 "i" (expr (.int 3)) (expr (.int 5)) body 0 m
  obtain ⟨counts, begins⟩ := (loop.2 (.int 3) m rfl).2 3 5 m ⟨.base, .base⟩ rfl rfl rfl
  have ran : Counted ev 0 body 0 3 1 begun _ := .next rfl .none
  exact ⟨counts, _, ran, rfl, begins 1 (by decide) _ ran⟩

end TreeScript
