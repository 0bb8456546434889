import TreeScript.Member.Basic
import TreeScript.Text.Blank
import TreeScript.Text.Bytes
import TreeScript.Text.Split

/-!
# Members of text and characters

Positions count characters.
-/
namespace TreeScript.Member.Chars

open Value (checkIndex)

def textOf (h : Handles) : Value → Except Fault String
  | .str s => .ok s
  | v => .error (.typeMismatch "str" (v.typeName h))

/-- The characters of a text. -/
def charsOf (h : Handles) (v : Value) : Except Fault (List Char) := do
  return (← textOf h v).toList

def len (h : Handles) (recv : Value) : List Value → Except Fault Value
  | [] => return .ofLength (← charsOf h recv).length
  | args => arity "len" 0 args

def nth (h : Handles) (recv : Value) : List Value → Except Fault Value
  | [index] => do
    let cs ← charsOf h recv
    let i ← checkIndex (← intArg "nth" index) cs.length
    return .char (cs.getD i ' ')
  | args => arity "nth" 1 args

/-- The delimiter that an argument gives. It is not empty. -/
def delimiter : Value → Except Fault { d : List Char // d ≠ [] }
  | .char c => .ok ⟨[c], by simp⟩
  | .str s =>
    if h : s.toList ≠ [] then .ok ⟨s.toList, h⟩
    else .error (.invalidArgument "split" "a non-empty str or char delimiter")
  | _ => .error (.invalidArgument "split" "a non-empty str or char delimiter")

/-- The pieces between the occurrences of a delimiter, the empty ones too. -/
def split (h : Handles) (recv : Value) : List Value → Except Fault Value
  | [d] => do
    let cs ← charsOf h recv
    let d ← delimiter d
    return .list ((Text.split d.1 d.2 cs).map Value.ofChars)
  | args => arity "split" 1 args

/-- So many characters from a position on, or as many as there are. -/
def substr (h : Handles) (recv : Value) : List Value → Except Fault Value
  | [start, count] => do
    let cs ← charsOf h recv
    let start ← intArg "substr" start
    let count ← intArg "substr" count
    match Integer.index? start (cs.length + 1), Integer.natural? count with
    | none, _ => .error (.indexOutOfBounds start cs.length)
    | _, none => .error (.invalidArgument "substr" "a non-negative length")
    | some start, some count => return .ofChars ((cs.drop start).take count)
  | args => arity "substr" 2 args

/-- The last character, or `none`. -/
def back (h : Handles) (recv : Value) : List Value → Except Fault Value
  | [] => return match (← charsOf h recv).getLast? with
    | some c => .char c
    | none => .none
  | args => arity "back" 0 args

def rev (h : Handles) (recv : Value) : List Value → Except Fault Value
  | [] => return .ofChars (← charsOf h recv).reverse
  | args => arity "rev" 0 args

def contains (h : Handles) (recv : Value) : List Value → Except Fault Value
  | [wanted] => do
    let cs ← charsOf h recv
    match wanted with
    | .char c => return .bool (cs.contains c)
    | .str s => return .bool (Text.containsText s.toList cs)
    | _ => .error (.invalidArgument "contains" "a char or str argument")
  | args => arity "contains" 1 args

/-- The text without the blanks at its ends. -/
def trim (h : Handles) (recv : Value) : List Value → Except Fault Value
  | [] => return .ofChars (Text.trim (← charsOf h recv))
  | args => arity "trim" 0 args

/-- Takes the character at an index out of a text. -/
def popAt (h : Handles) (index : Value) (recv : Value) : Except Fault Value := do
  let s ← textOf h recv
  let i ← checkIndex (← intArg "pop" index) s.toList.length
  -- a character starts at the offset of an index of the text, so it is always there to take out
  return .str ((Text.removeAt? s (Text.byteOffset s i)).getD s)

def pop (h : Handles) : List Value → Edit Value
  | [index] => do
    Edit.replace (popAt h index)
    return .unit
  | args => Edit.fail (.arity "pop" 1 args.length)

/-- Adds text and characters at the end of a text, one after the other. What comes before an
argument that is neither stays added. -/
def appendEach (h : Handles) : List Value → Edit Value
  | [] => pure .unit
  | .str tail :: rest => fun v =>
    match v with
    | .str s => appendEach h rest (.str (s ++ tail))
    | v => .error (.typeMismatch "str" (v.typeName h)) v
  | .char c :: rest => fun v =>
    match v with
    | .str s => appendEach h rest (.str (s.push c))
    | v => .error (.typeMismatch "str" (v.typeName h)) v
  | other :: _ => Edit.fail (.typeMismatch "str or char" (other.typeName h))

def append (h : Handles) (args : List Value) : Edit Value := do
  let _ ← Edit.check (charsOf h)
  appendEach h args

/-- The characters whose call gives a true value. -/
def filterChars (call : Value → Run Value) : List Char → Run (List Char)
  | [] => pure []
  | c :: rest => do
    let keep := (← call (.char c)).truthy (← Run.handles)
    let kept ← filterChars call rest
    return if keep then c :: kept else kept

def filter (call : Callback) (recv : Value) : List Value → Run Value
  | [f] => do
    let f ← Run.ofExcept (closureArg "filter" f)
    let cs ← Run.ofExcept (charsOf (← Run.handles) recv)
    return .ofChars (← filterChars (fun v => call f [v]) cs)
  | args => Run.ofExcept (arity "filter" 1 args)

def forChars (call : Value → Run Value) : List Char → Run Unit
  | [] => pure ()
  | c :: rest => do
    let _ ← call (.char c)
    forChars call rest

def foreach (call : Callback) (recv : Value) : List Value → Run Value
  | [f] => do
    let f ← Run.ofExcept (closureArg "foreach" f)
    let cs ← Run.ofExcept (charsOf (← Run.handles) recv)
    forChars (fun v => call f [v]) cs
    return .unit
  | args => Run.ofExcept (arity "foreach" 1 args)

/-- The number of a character. -/
def ascii (h : Handles) (recv : Value) : List Value → Except Fault Value
  | [] =>
    match recv with
    | .char c => .ok (.int (Int64.ofNat c.toNat))
    | v => .error (.typeMismatch "char" (v.typeName h))
  | args => arity "ascii" 0 args

def ofStr : List (String × Member) :=
  [("len", .read len), ("nth", .read nth), ("split", .read split), ("substr", .read substr),
    ("back", .read back), ("rev", .read rev), ("contains", .read contains), ("trim", .read trim),
    ("pop", .edit pop), ("append", .edit append), ("filter", .apply filter),
    ("foreach", .apply foreach)]

def ofChar : List (String × Member) := [("ascii", .read ascii)]

end TreeScript.Member.Chars
