import TreeScript.Proofs.Run.Work

/-!
# Constant cells

Every write of a cell asks first whether the cell is constant. So a constant cell is never written,
by whatever way a program gets at it.
-/
namespace TreeScript

variable {f : Footprint} {n : Nat} {m m' : Machine} {s t u : Store} {i : CellId}

namespace Store

/-- The cells stay, with their attributes, and the constant ones with all that they hold. -/
structure KeepsConstants (s t : Store) : Prop where
  cells : s.cells.size ≤ t.cells.size
  attrs : ∀ i < s.cells.size, (t.cell i).attrs = (s.cell i).attrs
  constants : ∀ i < s.cells.size, (s.cell i).attrs.isConst = true → t.cell i = s.cell i

/-- A cell of both stores is constant in both or in neither, and the constant ones are the same. -/
def SameConstants (s t : Store) : Prop :=
  ∀ i < s.cells.size, i < t.cells.size → (t.cell i).attrs = (s.cell i).attrs ∧
    ((s.cell i).attrs.isConst = true → t.cell i = s.cell i)

namespace KeepsConstants

theorem refl (s : Store) : s.KeepsConstants s := ⟨Nat.le_refl _, fun _ _ => rfl, fun _ _ _ => rfl⟩

theorem trans (h : s.KeepsConstants t) (h' : t.KeepsConstants u) : s.KeepsConstants u where
  cells := Nat.le_trans h.cells h'.cells
  attrs i hi := (h'.attrs i (Nat.lt_of_lt_of_le hi h.cells)).trans (h.attrs i hi)
  constants i hi const := by
    have const' : (t.cell i).attrs.isConst = true := by rw [h.attrs i hi, const]
    exact (h'.constants i (Nat.lt_of_lt_of_le hi h.cells) const').trans (h.constants i hi const)

theorem of_cells (h : t.cells = s.cells) : s.KeepsConstants t where
  cells := Nat.le_of_eq (congrArg Array.size h.symm)
  attrs i _ := by simp only [Store.cell, cell?, h]
  constants i _ _ := by simp only [Store.cell, cell?, h]

theorem addCell (s : Store) (cell : Cell) : s.KeepsConstants (s.addCell cell).2 where
  cells := by simp [Store.addCell]
  attrs i hi := by rw [cell_addCell_of_lt cell hi]
  constants i hi _ := cell_addCell_of_lt cell hi

/-- A cell that may be written is no constant. -/
theorem setValue (value : Value) (writable : (s.cell i).checkWrite false = .ok ()) :
    s.KeepsConstants (s.setValue i value) where
  cells := by simp [Store.setValue]
  attrs j _ := attrs_setValue value j
  constants j _ const := by
    refine cell_setValue_of_ne value ?_
    rintro rfl
    rw [Cell.checkWrite, if_pos const] at writable
    cases writable

/-- Two stores on the way to a third one have the same constants. -/
theorem sameConstants (h : s.KeepsConstants u) (h' : t.KeepsConstants u) : s.SameConstants t := by
  intro i hs ht
  have attrs : (t.cell i).attrs = (s.cell i).attrs := (h'.attrs i ht).symm.trans (h.attrs i hs)
  refine ⟨attrs, fun const => ?_⟩
  exact (h'.constants i ht (attrs ▸ const)).symm.trans (h.constants i hs const)

end KeepsConstants

theorem Step.keepsConstants (h : Step f s t) : s.KeepsConstants t := by
  cases h with
  | cellAdded cell => exact .addCell s cell
  | @varDeclared _ c cell _ => exact (KeepsConstants.addCell s cell).trans (.of_cells rfl)
  | cellWritten value writable => exact .setValue value writable
  | contextAdded | closureMade | classDeclared | moduleDeclared | moduleNamed | scopeOpened
  | scopeClosed | funcDeclared | varBound | memberRecorded | argumentDeclared
  | argumentsCleared => exact .of_cells rfl

end Store

theorem Machine.Step.keepsConstants (h : Step f m m') : m.store.KeepsConstants m'.store := by
  cases h with
  | store step => exact step.keepsConstants
  | released => exact .of_cells rfl
  | held | disk | output | input | callEntered | callLeft | importStarted | importEnded =>
    exact .refl _

theorem Machine.Later.keepsConstants (h : m.Later n m') : m.store.KeepsConstants m'.store := by
  induction h with
  | refl => exact .refl _
  | tail _ step ih =>
    obtain ⟨f, -, step⟩ := step
    exact ih.trans step.keepsConstants

namespace Session

variable {s t : Session}

theorem UsedFor.keepsConstants (h : s.Used t) (hw : s.WorldThere) :
    s.machine.store.KeepsConstants t.machine.store := by
  rcases h.machine with same | ⟨work, may, left⟩
  · rw [same]
    exact .refl _
  · rw [left]
    exact (Work.later (may.there hw)).keepsConstants

theorem keepsConstants_of_steps (h : Relation.ReflTransGen Step s t) (hw : s.WorldThere) :
    s.machine.store.KeepsConstants t.machine.store ∧ t.WorldThere := by
  induction h with
  | refl => exact ⟨.refl _, hw⟩
  | tail _ step ih => exact ⟨ih.1.trans (step.used.keepsConstants ih.2), step.used.worldThere ih.2⟩

end Session

/-- **Constants.** At every moment of any work the constant cells that there were at its beginning
are as they were, and the ones that there are then are so at its end. Any two moments have the same
constants. So a constant cell is the same at every later moment of a session, in all its later
uses. -/
theorem constants_never_change (config : Config) (fuel : Nat) :
    (∀ (work : Work) (m : Machine), work.There m →
      Throughout config fuel (fun _ m₁ =>
        m.store.KeepsConstants m₁.store ∧
        m₁.store.KeepsConstants (work.after config fuel m).store ∧
        Throughout config fuel (fun _ m₂ => m₁.store.SameConstants m₂.store) work.run m)
        work.run m) ∧
    ∀ (m : Machine) (s t : Session), Session.Reachable config fuel m s →
      Relation.ReflTransGen Session.Step s t →
      s.machine.store.KeepsConstants t.machine.store ∧
      ∀ work, t.MayDo work →
        Throughout t.config t.fuel (fun _ m' => s.machine.store.KeepsConstants m'.store) work.run
          t.machine := by
  constructor
  · intro work m there
    have ends : Throughout config fuel (fun _ m' =>
        m'.store.KeepsConstants (work.after config fuel m).store) work.run m :=
      Work.throughout there fun _ _ _ later => later.keepsConstants
    refine Work.throughout there fun c m₁ before behind => ?_
    exact ⟨before.keepsConstants, behind.keepsConstants,
      ends.mono fun _ m₂ h => behind.keepsConstants.sameConstants h⟩
  · intro m s t reached steps
    obtain ⟨kept, open_⟩ := Session.keepsConstants_of_steps steps reached.worldThere
    refine ⟨kept, fun work may => ?_⟩
    exact Work.throughout (may.there open_) fun _ _ before _ => kept.trans before.keepsConstants

/-- A line makes a constant. Assigning to it leaves it, at every moment and after the line. -/
theorem constants_never_change_assign :
    let start := Session.start ⟨[], none⟩ 3 (.start .empty .silent [] none)
    let value (n : Int64) : Expr := ⟨.int n, ⟨0, 1⟩⟩
    let k : Cell := ⟨"k", .int 5, ⟨false, true, false⟩⟩
    let s := (start.runLine ⟨.letVar "k" none (value 5) k.attrs, ⟨0, 1⟩⟩).2
    let line : Stmt := ⟨.assign ⟨.name "k", ⟨0, 1⟩⟩ .plain (value 6), ⟨0, 1⟩⟩
    Throughout ⟨[], none⟩ 3 (fun _ m => m.store.cell 0 = k) (Work.line line s.world).run
      s.machine ∧ (s.runLine line).2.machine.store.cell 0 = k := by
  intro start value k s line
  obtain ⟨moments, sessions⟩ := constants_never_change ⟨[], none⟩ 3
  constructor
  · refine (moments (.line line s.world) s.machine ?_).mono fun _ m kept => ?_
    · rintro c ⟨⟩
      decide
    · exact (kept.1.constants 0 (by decide) rfl).trans rfl
  · have kept := (sessions _ s _ (.single (.line start _)) (.single (.line s line))).1
    exact (kept.constants 0 (by decide) rfl).trans rfl

end TreeScript
