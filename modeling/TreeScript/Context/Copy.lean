import TreeScript.Store

/-!
# Copies

A copy of a value shares nothing with it that can be written: collections are copied item by item,
and an instance becomes a new instance with copied members and methods of its own. Closures, files
and modules stay what they are.

An instance that holds itself has no copy. The depth says how many instances may hold one another.
-/
namespace TreeScript.Store

/-- Declares methods on an instance; of two with one name the first stays. -/
def declareMethods (s : Store) (c : CtxId) : List FuncDecl → Store
  | [] => s
  | decl :: rest =>
    match s.declare (.ofFunc c ⟨decl, c⟩) with
    | .ok s => declareMethods s c rest
    | .error _ => declareMethods s c rest

/-- Declares a member. The list of members gets the name even when it is bound already. -/
def declareMember (s : Store) (c : CtxId) (cell : Cell) : Store :=
  match s.declareVar c cell with
  | .ok s => s
  | .error _ =>
    { s with
      graph := s.graph.update c fun ctx =>
        { ctx with kind := Declaration.recordMember cell.name ctx.kind } }

/-- Copies members one after the other onto a new instance. -/
def copyMembers (copyValue : Value → Store → Option (Value × Store)) (source target : CtxId) :
    List String → Store → Option Store
  | [], s => some s
  | name :: rest, s =>
    match (s.graph.localVar? source name).bind s.cell? with
    | none => copyMembers copyValue source target rest s
    | some cell =>
      match copyValue cell.value s with
      | none => none
      | some (value, s) =>
        copyMembers copyValue source target rest
          (s.declareMember target { cell with name, value })

/-- Copies an instance. Any other context is not copied. -/
def copyObject (copyValue : Value → Store → Option (Value × Store)) (c : CtxId) (s : Store) :
    Option (CtxId × Store) :=
  match s.graph.kind? c with
  | some (.object owner decl _ _ members) =>
    let (target, s) := s.addContext (.object owner decl [] [] [])
    (copyMembers copyValue c target members s).map fun s =>
      (target, s.declareMethods target decl.methods)
  | _ => some (c, s)

mutual

/-- Copies a value; instances in it are copied by `copyInstance`. -/
def copyWith (copyInstance : CtxId → Store → Option (CtxId × Store)) :
    Value → Store → Option (Value × Store)
  | .list items, s => (copyItems copyInstance items s).map fun (items, s) => (.list items, s)
  | .tuple items, s => (copyItems copyInstance items s).map fun (items, s) => (.tuple items, s)
  | .dict (.ofKind kind entries), s =>
    (copyEntries copyInstance entries s).map fun (entries, s) => (.dict (.ofKind kind entries), s)
  | .some v, s => (copyWith copyInstance v s).map fun (v, s) => (.some v, s)
  | .object c, s => (copyInstance c s).map fun (c, s) => (.object c, s)
  | v, s => some (v, s)

def copyItems (copyInstance : CtxId → Store → Option (CtxId × Store)) :
    List Value → Store → Option (List Value × Store)
  | [], s => some ([], s)
  | v :: rest, s =>
    match copyWith copyInstance v s with
    | none => none
    | some (v, s) => (copyItems copyInstance rest s).map fun (rest, s) => (v :: rest, s)

def copyEntries (copyInstance : CtxId → Store → Option (CtxId × Store)) :
    List (Key × Value) → Store → Option (List (Key × Value) × Store)
  | [], s => some ([], s)
  | (k, v) :: rest, s =>
    match copyWith copyInstance v s with
    | none => none
    | some (v, s) => (copyEntries copyInstance rest s).map fun (rest, s) => ((k, v) :: rest, s)

end

/-- Copies an instance in which at most `depth` instances hold one another. -/
def copyInstance : Nat → CtxId → Store → Option (CtxId × Store)
  | 0, _, _ => none
  | depth + 1, c, s => copyObject (copyWith (copyInstance depth)) c s

/-- Copies a value in which at most `depth` instances hold one another. -/
def copy (depth : Nat) : Value → Store → Option (Value × Store) := copyWith (copyInstance depth)

end TreeScript.Store
