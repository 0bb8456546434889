import TreeScript.Text.Bytes
import TreeScript.Value.Text
import TreeScript.Value.Write

/-!
# Places inside a value

A path of indices leads from a value to a place inside it. Reading follows the path; an edit
changes what it leads to and nothing else. The characters of a text are places, the items of a
tuple can only be read, and plain assignment at a missing key of a dictionary adds an entry.
-/
namespace TreeScript

/-- A change of a value in its place. A change that fails leaves what it did up to there. -/
abbrev Edit := EStateM Fault Value

namespace Edit

/-- Fails and leaves the value alone. -/
def fail {α : Type} (fault : Fault) : Edit α := fun v => .error fault v

/-- Replaces the value by what is made of it. -/
def replace (f : Value → Except Fault Value) : Edit Unit := fun v =>
  match f v with
  | .ok new => .ok () new
  | .error fault => .error fault v

/-- Reads the value and leaves it as it is. -/
def check {α : Type} (f : Value → Except Fault α) : Edit α := fun v =>
  match f v with
  | .ok a => .ok a v
  | .error fault => .error fault v

/-- Edits a part of a value, which `rebuild` puts back into the whole. -/
def within {α : Type} (part : Value) (rebuild : Value → Value) (f : Edit α) : Edit α := fun _ =>
  match f part with
  | .ok a new => .ok a (rebuild new)
  | .error fault new => .error fault (rebuild new)

end Edit

namespace Value

/-- The fault of indexing a value of the first type with one of the second. -/
def cannotIndex (receiver index : String) : Fault :=
  .typeMismatch "an indexable value" (receiver ++ "[" ++ index ++ "]")

/-- An index into something of the given length. -/
def checkIndex (i : Int64) (length : Nat) : Except Fault Nat :=
  match Integer.index? i length with
  | Option.some at_ => .ok at_
  | Option.none => .error (.indexOutOfBounds i length)

/-- The value as a key that the dictionary takes. -/
def keyOf {α : Type} (h : Handles) (d : Dict α) (v : Value) : Except Fault Key :=
  match v.asKey? with
  | Option.none => .error (.typeMismatch "a hashable dict key" (v.typeName h))
  | Option.some key =>
    match d.keyKind with
    | Option.none => .ok key
    | Option.some kind =>
      if kind = key.kind then .ok key else .error (.typeMismatch kind.name (v.typeName h))

/-- The position that an index names in a text. -/
def charIndex (h : Handles) (cs : List Char) : Value → Except Fault Nat
  | int i => checkIndex i cs.length
  | index => .error (cannotIndex "str" (index.typeName h))

/-- What stands at an index. -/
def element (h : Handles) (v index : Value) : Except Fault Value :=
  match v, index with
  | list items, int i => (checkIndex i items.length).map fun at_ => items.getD at_ unit
  | tuple items, int i => (checkIndex i items.length).map fun at_ => items.getD at_ unit
  | str s, index => (charIndex h s.toList index).map fun at_ => char (s.toList.getD at_ ' ')
  | dict d, index =>
    match keyOf h d index with
    | .error fault => .error fault
    | .ok key =>
      match d.get? key with
      | Option.some v => .ok v
      | Option.none => .error (.keyNotFound (index.quoted h))
  | v, index => .error (cannotIndex (v.typeName h) (index.typeName h))

/-- What stands at the end of a path. -/
def read (h : Handles) : List Value → Value → Except Fault Value
  | [], v => .ok v
  | index :: path, v =>
    match element h v index with
    | .ok v => read h path v
    | .error fault => .error fault

/-- Edits what stands at an index of a list or a dictionary. -/
def editElement {α : Type} (h : Handles) (index : Value) (f : Edit α) : Edit α := fun v =>
  match v, index with
  | list items, int i =>
    match checkIndex i items.length with
    | .error fault => .error fault v
    | .ok at_ => f.within (items.getD at_ unit) (fun new => list (items.set at_ new)) v
  | tuple _, _ => .error (.typeMismatch "a mutable collection" "tuple") v
  | dict d, index =>
    match keyOf h d index with
    | .error fault => .error fault v
    | .ok key =>
      match d.get? key with
      | Option.some old => f.within old (fun new => dict (d.insert key new)) v
      | Option.none => .error (.keyNotFound (index.quoted h)) v
  | v, index => .error (cannotIndex (v.typeName h) (index.typeName h)) v

/-- Edits a character of a text. Only a character takes its place, and an edit that fails leaves
the text alone. -/
def editChar {α : Type} (h : Handles) (s : String) (index : Value) (f : Edit α) : Edit α := fun v =>
  match charIndex h s.toList index with
  | .error fault => .error fault v
  | .ok at_ =>
    match f (char (s.toList.getD at_ ' ')) with
    -- the bytes of a character can always be replaced
    | .ok a (char c) => .ok a (str ((Text.replaceChar? s at_ c).getD s))
    | .ok _ new => .error (.typeMismatch "char" (new.typeName h)) v
    | .error fault _ => .error fault v

/-- Edits what stands at the last index of a path. Only here it may be a character of a text. -/
def editLast {α : Type} (h : Handles) (index : Value) (f : Edit α) : Edit α := fun v =>
  match v with
  | str s => editChar h s index f v
  | v => editElement h index f v

/-- Edits what stands at the end of a path. -/
def edit {α : Type} (h : Handles) : List Value → Edit α → Edit α
  | [], f => f
  | [index], f => editLast h index f
  | index :: path, f => editElement h index (edit h path f)

/-- Stores a value at an index. -/
def assignElement (h : Handles) (index new : Value) : Edit Unit := fun v =>
  match v with
  | dict d =>
    match keyOf h d index with
    | .error fault => .error fault v
    | .ok key =>
      if d.contains key then editElement h index (.replace (assign h · new)) v
      else .ok () (dict (d.insert key new))
  | str s => editChar h s index (.replace fun _ => .ok new) v
  | v => editElement h index (.replace (assign h · new)) v

/-- The path without its last index, and that index. -/
def splitLast : List Value → Option (List Value × Value)
  | [] => Option.none
  | [index] => Option.some ([], index)
  | index :: path => (splitLast path).map fun (parents, last) => (index :: parents, last)

/-- Assigns to what stands at the end of a path. -/
def assignAt (h : Handles) (op : AssignOp) (path : List Value) (operand : Value) : Edit Unit :=
  match op, splitLast path with
  | .plain, Option.some (parents, index) => edit h parents (assignElement h index operand)
  | op, _ => edit h path (.replace (assignWith h op · operand))

end Value

end TreeScript
