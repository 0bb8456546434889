import TreeScript.Proofs.Places.Atomic
import TreeScript.Proofs.Run.Logic

/-!
# Compound assignment

To a place that is written by `op=`, the value that stands there is read, the operator applied and
the result stored by `=`. The place is gone to only once and something may be appended to a text or
a list where it stands, but that is all the same, and so is what fails.
-/
namespace TreeScript

variable {h : Handles} {op : AssignOp} {operator : BinaryOp} {v whole whole' part : Value}
  {path : List Value} {put : Value → Except Fault Value} {α : Type}

namespace Value

/-- Compound assignment to what is there. -/
theorem Opens.assignAt_compound (opens : Opens h path whole part put)
    (compound : op.binary? = Option.some operator) (v : Value) :
    assignAt h op path v whole =
      Edit.set (binary h operator part v >>= fun r => assign h part r >>= put) whole := by
  rw [Value.assignAt_compound compound, opens.edit_replace, assignWith_compound compound, bind_assoc]

/-- Compound assignment is plain assignment of what the operator gives, or both fail. -/
theorem assignAt_compound_cases (compound : op.binary? = Option.some operator) (h : Handles)
    (path : List Value) (v whole : Value) :
    (∃ x r, read h path whole = .ok x ∧ binary h operator x v = .ok r ∧
      assignAt h op path v whole = assignAt h .plain path r whole) ∨
    ((∃ fault, assignAt h op path v whole = .error fault whole) ∧
      ∀ x r, read h path whole = .ok x → binary h operator x v = .ok r →
        ∃ fault, assignAt h .plain path r whole = .error fault whole) := by
  rcases opens_or_stops h path whole with ⟨part, put, opens⟩ | stops
  · rw [opens.assignAt_compound compound]
    cases combined : binary h operator part v with
    | ok r => exact .inl ⟨part, r, opens.read_eq, combined, (opens.assignAt_eq r).symm⟩
    | error fault =>
      refine .inr ⟨⟨fault, rfl⟩, fun x r there combined' => ?_⟩
      rw [opens.read_eq] at there
      cases there
      rw [combined] at combined'
      cases combined'
  · rw [assignAt_compound compound]
    refine .inr ⟨stops _, fun x r there _ => ?_⟩
    rcases assignAt_plain_cases h path r whole with ⟨whole', -, stores⟩ | fails
    · cases stores with
      | replaced opens => exact absurd stops opens.not_stops
      | added opens named absent =>
        -- an entry that is added was not there to be read
        rw [opens.read_absent named absent] at there
        cases there
    · exact fails

theorem assignAt_compound_iff (compound : op.binary? = Option.some operator) (h : Handles)
    (path : List Value) (v whole whole' : Value) :
    assignAt h op path v whole = .ok () whole' ↔
      ∃ x r, read h path whole = .ok x ∧ binary h operator x v = .ok r ∧
        assignAt h .plain path r whole = .ok () whole' := by
  rcases assignAt_compound_cases compound h path v whole with
    ⟨x, r, there, combined, same⟩ | ⟨⟨fault, fails⟩, plain⟩
  · rw [same]
    refine ⟨fun done => ⟨x, r, there, combined, done⟩, ?_⟩
    rintro ⟨x', r', there', combined', done⟩
    rw [there] at there'
    cases there'
    rw [combined] at combined'
    cases combined'
    exact done
  · rw [fails]
    refine iff_of_false (fun done => ?_) ?_
    · cases done
    · rintro ⟨x, r, there, combined, done⟩
      obtain ⟨fault', fails'⟩ := plain x r there combined
      rw [fails'] at done
      cases done

end Value

theorem Run.editCell_eq_ok_iff {m m' : Machine} {i : CellId} {f : Handles → Edit α} {a : α} :
    Run.editCell i f m = .ok a m' ↔ (m.store.cell i).checkWrite false = .ok () ∧
      ∃ new, f m.handles (m.store.cell i).value = .ok a new ∧
        m' = { m with store := m.store.setValue i new } := by
  rw [Run.editCell]
  cases (m.store.cell i).checkWrite false with
  | error fault => simp
  | ok _ =>
    cases f m.handles (m.store.cell i).value with
    | ok b new =>
      constructor
      · intro done
        cases done
        exact ⟨rfl, new, rfl, rfl⟩
      · rintro ⟨-, new', same, rfl⟩
        cases same
        rfl
    | error fault new => simp

namespace Place

variable {p : Place} {m m' : Machine}

/-- The value that the place lies in. -/
def rootOn (p : Place) (m : Machine) : Value :=
  match p.root with
  | .inl i => (m.store.cell i).value
  | .inr v => v

theorem read_apply : p.read m = Run.ofExcept (Value.read m.handles p.path (p.rootOn m)) m := by
  obtain ⟨root, path⟩ := p
  cases root <;> rfl

theorem read_eq_ok_iff {x : Value} :
    p.read m = .ok x m ↔ Value.read m.handles p.path (p.rootOn m) = .ok x := by
  rw [read_apply]
  cases Value.read m.handles p.path (p.rootOn m) with
  | ok y =>
    constructor <;> intro same <;> cases same <;> rfl
  | error fault =>
    refine iff_of_false ?_ ?_ <;> rintro ⟨⟩

/-- Whether the root of the place may be written. A value that nothing names always may. -/
def Writable (p : Place) (m : Machine) : Prop :=
  ∀ i, p.root = .inl i → (m.store.cell i).checkWrite false = .ok ()

/-- The machine once there is another value at the root of the place. -/
def writtenOn (p : Place) (m : Machine) (new : Value) : Machine :=
  match p.root with
  | .inl i => { m with store := m.store.setValue i new }
  | .inr _ => m

/-- An edit of a place is one of its root. -/
theorem editRoot_eq_ok_iff {f : Handles → Edit α} {a : α} : p.editRoot f m = .ok a m' ↔
    p.Writable m ∧ ∃ new, f m.handles (p.rootOn m) = .ok a new ∧ m' = p.writtenOn m new := by
  obtain ⟨root, path⟩ := p
  cases root with
  | inl i =>
    have allowed : (⟨.inl i, path⟩ : Place).Writable m ↔
        (m.store.cell i).checkWrite false = .ok () :=
      ⟨fun h => h i rfl, fun h j same => by cases same; exact h⟩
    rw [allowed]
    exact Run.editCell_eq_ok_iff
  | inr v =>
    have allowed : (⟨.inr v, path⟩ : Place).Writable m := by rintro i ⟨⟩
    simp only [allowed, true_and, editRoot, Run.bind_apply, Run.handles]
    show _ ↔ ∃ new, f m.handles v = .ok a new ∧ m' = m
    cases f m.handles v with
    | ok b new =>
      constructor
      · intro done
        cases done
        exact ⟨new, rfl, rfl⟩
      · rintro ⟨new', same, rfl⟩
        cases same
        rfl
    | error fault new =>
      constructor
      · intro done
        cases done
      · rintro ⟨new', same, -⟩
        cases same

theorem assign_eq_ok_iff {x : Value} : p.assign op x m = .ok () m' ↔ p.Writable m ∧
    ∃ new, Value.assignAt m.handles op p.path x (p.rootOn m) = .ok () new ∧
      m' = p.writtenOn m new := editRoot_eq_ok_iff

/-- To assign to a place with an operator is to read it, apply the operator and store the result. -/
theorem assign_compound_iff (compound : op.binary? = some operator) (v : Value) :
    p.assign op v m = .ok () m' ↔ ∃ x r, p.read m = .ok x m ∧
      Value.binary m.handles operator x v = .ok r ∧ p.assign .plain r m = .ok () m' := by
  simp only [assign_eq_ok_iff, read_eq_ok_iff, Value.assignAt_compound_iff compound]
  constructor
  · rintro ⟨allowed, new, ⟨x, r, there, combined, stored⟩, same⟩
    exact ⟨x, r, there, combined, allowed, new, stored, same⟩
  · rintro ⟨x, r, there, combined, allowed, new, stored, same⟩
    exact ⟨allowed, new, ⟨x, r, there, combined, stored⟩, same⟩

end Place

/-- A compound assignment reads the place, applies the operator and stores the result. This is so of
the values at the roots of places and of the places themselves. What is appended where it stands is
what the operator and an assignment give. An assignment that fails, be it on the way along the path,
by the operator or by what is stored, leaves the whole value and the machine as they were. -/
theorem compound_assignment (compound : op.binary? = some operator) (v : Value) :
    (∀ h path whole whole', Value.assignAt h op path v whole = .ok () whole' ↔
      ∃ x r, Value.read h path whole = .ok x ∧ Value.binary h operator x v = .ok r ∧
        Value.assignAt h .plain path r whole = .ok () whole') ∧
    (∀ (p : Place) (m m' : Machine), p.assign op v m = .ok () m' ↔
      ∃ x r, p.read m = .ok x m ∧ Value.binary m.handles operator x v = .ok r ∧
        p.assign .plain r m = .ok () m') ∧
    (∀ h old new, Value.appended? old v = some new →
      Value.assignWith h .add old v = .ok new ∧
        (Value.binary h .add old v >>= Value.assign h old) = .ok new) ∧
    (∀ h path whole whole' fault,
      Value.assignAt h op path v whole = .error fault whole' → whole' = whole) ∧
    (∀ (p : Place) (m m' : Machine) (stop : Stop),
      p.assign op v m = .error stop m' → m' = m) := by
  refine ⟨fun h path whole whole' => Value.assignAt_compound_iff compound h path v whole whole',
    fun p m m' => Place.assign_compound_iff compound v, fun h old new grown => ?_,
    fun h path whole whole' fault => Value.assignAt_error, fun p m m' stop => Place.assign_error⟩
  obtain ⟨combined, stored⟩ := Value.binary_add_of_appended? (h := h) grown
  have whole : (Value.binary h .add old v >>= Value.assign h old) = .ok new := by
    rw [combined]
    exact stored
  exact ⟨(Value.assignWith_compound rfl).trans whole, whole⟩

/-- A text in a list is appended to. -/
theorem appended_item :
    let h := handlesOf .empty #[]
    let m : Machine := ⟨⟨.empty, #[⟨"x", .list [.str "ab"], .none⟩], 0⟩, .empty, .silent, [],
      .empty none, [], [], none⟩
    Value.assignAt h .add [.int 0] (.str "c") (.list [.str "ab"]) = .ok () (.list [.str "abc"]) ∧
      (∃ m', (⟨.inl 0, [.int 0]⟩ : Place).assign .add (.str "c") m = .ok () m') ∧
      (Value.binary h .add (.str "ab") (.str "c") >>= Value.assign h (.str "ab")) =
        .ok (.str "abc") := by
  intro h m
  have compound : AssignOp.add.binary? = some .add := rfl
  obtain ⟨values, places, appended, -⟩ := compound_assignment compound (.str "c")
  refine ⟨(values h _ _ _).mpr ⟨.str "ab", .str "abc", rfl, rfl, rfl⟩, ?_,
    (appended h _ _ rfl).2⟩
  exact ⟨_, (places _ m _).mpr ⟨.str "ab", .str "abc", rfl, rfl, rfl⟩⟩

end TreeScript
