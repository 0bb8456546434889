import TreeScript.Value.Operator

/-!
# Writing to a value's place

A place keeps the type of the value in it: a new value has to be of that type, and only an integer
that meets a floating-point number is converted. A compound assignment applies its operator first.
-/
namespace TreeScript.Value

/-- Whether a place that holds `old` takes `new`. -/
def accepts (h : Handles) : Value → Value → Bool
  | float _, int _ => true
  | object a, object b => h.className a == h.className b
  | old, new => old.kind == new.kind

/-- A value as a place that holds `old` keeps it. -/
def convertFor : Value → Value → Value
  | float _, int n => float n.toFloat
  | _, new => new

/-- What a place that holds `old` holds after `= new`. -/
def assign (h : Handles) (old new : Value) : Except Fault Value :=
  if old.accepts h new then .ok (convertFor old new)
  else .error (.typeMismatch (old.typeName h) (new.typeName h))

/-- What becomes of a text or a list that something is appended to where it stands. -/
def appended? : Value → Value → Option Value
  | str s, str tail => Option.some (str (s ++ tail))
  | str s, char c => Option.some (str (s.push c))
  | list items, list more => Option.some (list (items ++ more))
  | _, _ => Option.none

/-- What a place that holds `old` holds after `op= operand`. What can be appended in place by `+=`
needs neither the operator nor the rules of assignment. -/
def assignWith (h : Handles) (op : AssignOp) (old operand : Value) : Except Fault Value :=
  match op.binary? with
  | Option.none => assign h old operand
  | Option.some operator =>
    match (if op = .add then appended? old operand else Option.none) with
    | Option.some new => .ok new
    | Option.none =>
      match binary h operator old operand with
      | .ok new => assign h old new
      | .error fault => .error fault

/-- A value as it is bound under an annotation: an integer becomes a floating-point number where
one is wanted, and any other value has to fit as it is. -/
def annotate (h : Handles) (type : Option TypeAnn) (v : Value) : Except Fault Value :=
  match type, v with
  | Option.none, v => .ok v
  | Option.some .float, int n => .ok (float n.toFloat)
  | Option.some type, v =>
    if v.hasType h type then .ok v else .error (.typeMismatch type.text (v.typeName h))

variable {h : Handles} {old operand new : Value} {op : AssignOp} {operator : BinaryOp}

theorem binary_add_of_appended? (grown : appended? old operand = Option.some new) :
    binary h .add old operand = .ok new ∧ assign h old new = .ok new := by
  unfold appended? at grown
  split at grown <;> cases grown <;> exact ⟨rfl, rfl⟩

theorem assignWith_compound (compound : op.binary? = Option.some operator) :
    assignWith h op old operand = binary h operator old operand >>= assign h old := by
  simp only [assignWith, compound]
  split
  · rename_i new grown
    -- only `+=` appends
    split at grown
    · rename_i add
      subst add
      cases compound
      obtain ⟨combined, stored⟩ := binary_add_of_appended? (h := h) grown
      rw [combined]
      exact stored.symm
    · cases grown
  · cases binary h operator old operand <;> rfl

end TreeScript.Value
