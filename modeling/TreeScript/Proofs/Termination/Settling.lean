import Mathlib.Order.Filter.AtTopBot.Basic
import TreeScript.Proofs.Run.Balance
import TreeScript.Proofs.Termination.Bounded
import TreeScript.Proofs.Value.Members

/-!
# Runs that settle

A run that depends on fuel settles if with enough fuel it always ends in the same way, and not for
want of fuel. Runs that are put together of runs that settle do so, too. Meanwhile a part of the
store stays bounded, and every run comes back to where it stood: to the same live calls and imports.
-/
namespace TreeScript

open Filter
open Value (Hereditary)

/-- Where a run stands: the calls that are live, the imports that are in progress, and the part of
the store that it works in. -/
structure Standing where
  calls : CallStack
  importing : List String
  part : Part

/-- The machine stands there, and the part of its store is bounded. -/
structure Machine.Stands (m : Machine) (r : Standing) : Prop where
  calls : m.calls = r.calls
  importing : m.importing = r.importing
  store : r.part.Open m.store

/-- Why a run may stop for good: with a failure, or in the midst of writing to a file a value whose
text names that file. -/
def Stop.Final : Stop → Prop
  | failed .. => True
  | panicked f v => v.shows f = true
  | outOfFuel => False

theorem Stop.final_mapFailure {stop : Stop} (g : Failure → Failure) :
    (stop.mapFailure g).Final ↔ stop.Final := by
  cases stop <;> rfl

/-- How a run may end: with a result or for good, and standing there. -/
def Standing.Ended {α : Type} (r : Standing) (Q : α → Prop) :
    EStateM.Result Stop Machine α → Prop
  | .ok a m => Q a ∧ m.Stands r
  | .error stop m => stop.Final ∧ m.Stands r

variable {r r' : Standing} {m : Machine} {α β : Type} {P Q : α → Prop} {R : β → Prop}

theorem Machine.Stands.withStore (h : m.Stands r) {s : Store} (store : r.part.Open s) :
    { m with store := s }.Stands r := ⟨h.calls, h.importing, store⟩

namespace Run

/-- With enough fuel the run always ends in the same way wherever it begins there. -/
def Settles (r : Standing) (Q : α → Prop) (x : Nat → Run α) : Prop :=
  ∀ m, m.Stands r → ∃ result, r.Ended Q result ∧ ∀ᶠ n in atTop, x n m = result

namespace Settles

variable {x y : Nat → Run α} {k : Nat → α → Run β}

/-- A run that needs no fuel. -/
theorem of_run {x : Run α} (h : ∀ m, m.Stands r → r.Ended Q (x m)) : Settles r Q fun _ => x :=
  fun m hm => ⟨x m, h m hm, .of_forall fun _ => rfl⟩

/-- What takes one more unit of fuel settles as well. -/
theorem shift (h : Settles r Q fun n => x (n + 1)) : Settles r Q x := by
  intro m hm
  obtain ⟨result, ended, always⟩ := h m hm
  refine ⟨result, ended, ?_⟩
  rw [← map_add_atTop_eq_nat 1]
  exact always

theorem bind (hx : Settles r P x) (hk : ∀ a, P a → Settles r R fun n => k n a) :
    Settles r R fun n => x n >>= k n := by
  intro m hm
  obtain ⟨result, ended, always⟩ := hx m hm
  cases result with
  | ok a m' =>
    obtain ⟨result, ended', always'⟩ := hk a ended.1 m' ended.2
    refine ⟨result, ended', always.mp (always'.mono fun n hn hx => ?_)⟩
    show (x n >>= k n) m = _
    rw [bind_apply, hx]
    exact hn
  | error stop m' =>
    refine ⟨.error stop m', ended, always.mono fun n hx => ?_⟩
    show (x n >>= k n) m = _
    rw [bind_apply, hx]

/-- A run within another that settles, begun and ended in some way. -/
theorem within (enter : Machine → Machine)
    (leave : Machine → EStateM.Result Stop Machine α → EStateM.Result Stop Machine β)
    {y : Nat → Run β} (hx : Settles r' P x) (begins : ∀ m, m.Stands r → (enter m).Stands r')
    (ends : ∀ m result, m.Stands r → r'.Ended P result → r.Ended R (leave m result))
    (run : ∀ n m, m.Stands r → y n m = leave m (x n (enter m))) : Settles r R y := by
  intro m hm
  obtain ⟨result, ended, always⟩ := hx (enter m) (begins m hm)
  refine ⟨leave m result, ends m result hm ended, always.mono fun n hn => ?_⟩
  rw [run n m hm, hn]

theorem pure {a : α} (ha : Q a) : Settles r Q fun _ => Pure.pure a := of_run fun _ hm => ⟨ha, hm⟩

theorem raise (fault : Fault) : Settles r Q fun _ => Run.raise fault :=
  of_run fun _ hm => ⟨trivial, hm⟩

theorem ofExcept {e : Except Fault α} (h : Gives Q e) : Settles r Q fun _ => Run.ofExcept e := by
  cases e with
  | ok a => exact pure (h.result a rfl)
  | error fault => exact raise fault

/-- Going on with what a computation gives. -/
theorem given {e : Except Fault α} (he : Gives P e) (hk : ∀ a, P a → Settles r R fun n => k n a) :
    Settles r R fun n => Run.ofExcept e >>= k n := bind (ofExcept he) hk

/-- Going on with what is seen of the machine. -/
theorem look (g : Machine → α) (hk : ∀ m, m.Stands r → Settles r R fun n => k n (g m)) :
    Settles r R fun n => peek g >>= k n := by
  intro m hm
  obtain ⟨result, ended, always⟩ := hk m hm m hm
  exact ⟨result, ended, always⟩

theorem handles {k : Nat → Handles → Run β} (hk : ∀ h, Settles r R fun n => k n h) :
    Settles r R fun n => Run.handles >>= k n := look _ fun m _ => hk m.handles

theorem store {k : Nat → Store → Run β}
    (hk : ∀ s, r.part.Open s → Settles r R fun n => k n s) :
    Settles r R fun n => Run.store >>= k n := look _ fun m hm => hk m.store hm.store

theorem graph {k : Nat → Graph → Run β}
    (hk : ∀ s, r.part.Open s → Settles r R fun n => k n s.graph) :
    Settles r R fun n => Run.graph >>= k n := look (·.store.graph) fun m hm => hk m.store hm.store

theorem readCell {k : Nat → Value → Run β} {i : CellId} (hi : r.part.Cell i)
    (hk : ∀ v, r.part.Val v → Settles r R fun n => k n v) :
    Settles r R fun n => Run.readCell i >>= k n :=
  look (fun m => (m.store.cell i).value) fun _ hm => hk _ (hm.store.values i hi)

/-- A step that always succeeds. -/
theorem step {x : Run α} (h : ∀ m, m.Stands r → ∃ a m', x m = .ok a m' ∧ Q a ∧ m'.Stands r) :
    Settles r Q fun _ => x := by
  refine of_run fun m hm => ?_
  obtain ⟨a, m', run, ha, hm'⟩ := h m hm
  rw [run]
  exact ⟨ha, hm'⟩

/-- Nothing is said of what a run gives that gives nothing. -/
abbrev Done (r : Standing) (x : Nat → Run Unit) : Prop := Settles r (fun _ => True) x

theorem modifyGraph {f : Graph → Graph}
    (keeps : ∀ s, r.part.Open s → r.part.Open (s.modifyGraph f)) :
    Done r fun _ => Run.modifyGraph f :=
  step fun _ hm => ⟨(), _, rfl, trivial, hm.withStore (keeps _ hm.store)⟩

theorem modifyOutput (f : Output → Output) :
    Done r fun _ => modify fun m => { m with output := f m.output } :=
  step fun _ hm => ⟨(), _, rfl, trivial, hm.calls, hm.importing, hm.store⟩

theorem nextLine : Settles r (fun _ => True) fun _ => Run.nextLine := by
  refine step fun m hm => ?_
  unfold Run.nextLine
  cases m.input with
  | nil => exact ⟨_, _, rfl, trivial, hm⟩
  | cons line rest => exact ⟨_, _, rfl, trivial, hm.calls, hm.importing, hm.store⟩

theorem letGo (sought : Graph → CtxId) : Done r fun _ => Run.letGo sought := by
  refine step fun m hm => ?_
  rcases letGo_apply sought m with run | ⟨outside, -, run⟩
  · exact ⟨(), m, run, trivial, hm⟩
  · exact ⟨(), _, run, trivial, hm.withStore (hm.store.release _)⟩

theorem newContext {kind : ContextKind} (owner : ∀ o, kind.owner? = some o → r.part.Ctx o)
    (bare : kind.imports = [] ∧ kind.arguments?.getD [] = [] ∧ kind.classes = []) :
    Settles r r.part.Ctx fun _ => Run.newContext kind :=
  step fun _ hm => ⟨_, _, rfl, hm.store.newContexts _ (Nat.le_refl _),
    hm.withStore (hm.store.addContext owner bare)⟩

theorem newCell {cell : Cell} (hv : r.part.Val cell.value) :
    Settles r r.part.Cell fun _ => Run.newCell cell :=
  step fun _ hm => ⟨_, _, rfl, hm.store.newCells _ (Nat.le_refl _),
    hm.withStore (hm.store.addCell hv)⟩

theorem newClosure {params : List Param} {body : Block} {c : CtxId} (hc : r.part.Ctx c)
    (bounded : blockBounded body = true) :
    Settles r r.part.Val fun _ => Eval.newClosure params body c :=
  step fun _ hm => ⟨_, _, rfl, Part.val_closure.mpr ⟨hc, bounded⟩,
    hm.withStore ⟨⟨hm.store.contexts, hm.store.values⟩, hm.store.newContexts, hm.store.newCells⟩⟩

theorem declare {d : Declaration}
    (keeps : ∀ s, r.part.Open s → r.part.Open (s.modifyGraph d.apply)) :
    Done r fun _ => Run.declare d := by
  refine of_run fun m hm => ?_
  rw [declare_apply]
  cases d.obstacle? m.store.graph with
  | some fault => exact ⟨trivial, hm⟩
  | none => exact ⟨trivial, hm.withStore (keeps _ hm.store)⟩

theorem editCell {i : CellId} {f : Handles → Edit α} {q : α → Prop} (hi : r.part.Cell i)
    (sound : ∀ h, (f h).Sound h r.part.Val q) : Settles r q fun _ => Run.editCell i f := by
  refine of_run fun m hm => ?_
  unfold Run.editCell
  cases (m.store.cell i).checkWrite false with
  | error fault => exact ⟨trivial, hm⟩
  | ok _ =>
    have outcome := sound m.handles _ (hm.store.values i hi)
    dsimp only
    cases he : f m.handles (m.store.cell i).value with
    | ok a v =>
      rw [he] at outcome
      exact ⟨outcome.1, hm.withStore (hm.store.setValue outcome.2.fits)⟩
    | error fault v =>
      rw [he] at outcome
      exact ⟨trivial, hm.withStore (hm.store.setValue outcome.2.fits)⟩

/-- The counter of a loop may be set. -/
theorem count {i : CellId} (n : Int64) :
    Done r fun _ => Run.editCell i fun _ => .replace fun _ => .ok (.int n) := by
  refine of_run fun m hm => ?_
  unfold Run.editCell
  cases (m.store.cell i).checkWrite false with
  | error fault => exact ⟨trivial, hm⟩
  | ok _ => exact ⟨trivial, hm.withStore (hm.store.setValue (Hereditary.int n))⟩

theorem onDisk {f : Files.Disk → Except Fault α × Files.Disk} (hf : ∀ d, Gives Q (f d).1) :
    Settles r Q fun _ => Run.onDisk f := by
  refine of_run fun m hm => ?_
  have gives := hf m.disk
  unfold Run.onDisk
  rcases he : f m.disk with ⟨result, disk⟩
  rw [he] at gives
  cases result with
  | ok a => exact ⟨gives.result a rfl, hm.calls, hm.importing, hm.store⟩
  | error fault => exact ⟨trivial, hm.calls, hm.importing, hm.store⟩

theorem mapFailure (g : Machine → Failure → Failure) (h : Settles r Q x) :
    Settles r Q fun n => (x n).mapFailure g := by
  refine h.within id (fun m result => Run.mapFailure g (fun _ => result) m) (fun _ hm => hm) ?_
    fun _ _ _ => rfl
  intro m result _ ended
  cases result with
  | ok a m' => exact ended
  | error stop m' => exact ⟨(Stop.final_mapFailure _).mpr ended.1, ended.2⟩

theorem locating (span : Span) (h : Settles r Q x) : Settles r Q fun n => (x n).locating span :=
  h.mapFailure fun _ => Failure.locate span

/-- A run somewhere else, that comes back. -/
theorem detour (enter : Machine → Machine) (back : Machine → Machine → Machine)
    {y : Nat → Run α} (h : Settles r' Q x) (begins : ∀ m, m.Stands r → (enter m).Stands r')
    (ends : ∀ m m', m.Stands r → m'.Stands r' → (back m m').Stands r)
    (run : ∀ n m, m.Stands r → y n m = (x n).ensuring (back m) (enter m)) : Settles r Q y := by
  refine h.within enter (fun m result => Run.ensuring (fun _ => result) (back m) m) begins ?_ run
  intro m result hm ended
  cases result with
  | ok a m' => exact ⟨ended.1, ends m m' hm ended.2⟩
  | error stop m' => exact ⟨ended.1, ends m m' hm ended.2⟩

theorem ensuring {undo : Machine → Machine} (h : Settles r Q x)
    (undone : ∀ m, m.Stands r → (undo m).Stands r) :
    Settles r Q fun n => (x n).ensuring undo :=
  h.detour id (fun _ => undo) (fun _ hm => hm) (fun _ _ _ hm => undone _ hm)
    fun _ _ _ => rfl

theorem holding (holds : List Hold) (h : Settles r Q x) :
    Settles r Q fun n => Run.holding holds (x n) :=
  h.detour (fun m => { m with held := holds ++ m.held }) (fun m m' => { m' with held := m.held })
    (fun _ hm => ⟨hm.calls, hm.importing, hm.store⟩)
    (fun _ _ _ hm => ⟨hm.calls, hm.importing, hm.store⟩) fun _ _ _ => rfl

theorem inScope (c : CtxId) (h : Settles r Q x) : Settles r Q fun n => Run.inScope c (x n) := by
  refine bind (modifyGraph fun _ hs => hs.update fun _ => .push) fun _ _ => h.ensuring fun _ hm => ?_
  exact hm.withStore (hm.store.update fun _ => .pop)

/-- A call, if there is room for it. -/
theorem inCall (name : String) (span : Span)
    (h : ∀ calls, r.calls.push ⟨name, some span⟩ = .ok calls → Settles { r with calls } Q x) :
    Settles r Q fun n => Run.inCall name span (x n) := by
  cases hp : r.calls.push ⟨name, some span⟩ with
  | error fault =>
    intro m hm
    refine ⟨.error (m.raised fault) m, ⟨trivial, hm⟩, .of_forall fun n => ?_⟩
    show Run.inCall name span (x n) m = _
    rw [inCall_apply, hm.calls, hp]
  | ok calls =>
    have inside := (h calls hp).mapFailure fun m e => (m.calls.attach e).locate span
    refine inside.detour (fun m => { m with calls }) (fun _ m => { m with calls := m.calls.pop })
      (fun _ hm => ⟨rfl, hm.importing, hm.store⟩) (fun m m' hm hm' => ?_) fun n m hm => ?_
    · exact ⟨(congrArg CallStack.pop hm'.calls).trans (CallStack.pop_of_push hp), hm'.importing,
        hm'.store⟩
    · show Run.inCall name span (x n) m = _
      rw [inCall_apply, hm.calls, hp]

/-- Code of a module, whose import is in progress meanwhile. -/
theorem importing (path : String)
    (h : Settles { r with importing := path :: r.importing } Q x) :
    Settles r Q fun n => Run.importing path (x n) :=
  h.detour (fun m => { m with importing := path :: m.importing })
    (fun _ m => { m with importing := m.importing.tail })
    (fun _ hm => ⟨hm.calls, congrArg (path :: ·) hm.importing, hm.store⟩)
    (fun _ _ _ hm => ⟨hm.calls, congrArg List.tail hm.importing, hm.store⟩) fun _ _ _ => rfl

end Settles

end Run

end TreeScript
