import TreeScript.Number.Decimal
import TreeScript.Text.Quoted
import TreeScript.Value.Basic

/-!
# Text of values

What `print` and `str` make of a value. Text and characters stand bare on their own and quoted
inside collections.
-/
namespace TreeScript.Value

/-- Pieces of text with a comma and a space between them. -/
def commaSeparated : List (List Char) → List Char
  | [] => []
  | [piece] => piece
  | piece :: rest => piece ++ ',' :: ' ' :: commaSeparated rest

def writeKey : Key → List Char
  | .int n => Integer.write n
  | .bool b => (if b then "true" else "false").toList
  | .char c => Text.quoteChar c
  | .str s => Text.quoteString s.toList

mutual

/-- The value as it stands inside a collection. -/
def nested (h : Handles) : Value → List Char
  | .int n => Integer.write n
  | .float x => Decimal.write x
  | .bool b => (if b then "true" else "false").toList
  | .char c => Text.quoteChar c
  | .str s => Text.quoteString s.toList
  | .list items => '[' :: (commaSeparated (nestedItems h items) ++ [']'])
  | .tuple items => '(' :: (commaSeparated (nestedItems h items) ++ [')'])
  | .dict .undetermined => ['\x7b', '\x7d']
  | .dict (.ofKind _ entries) =>
    '\x7b' :: (commaSeparated (nestedEntries h entries) ++ ['\x7d'])
  | .none => "none".toList
  | .some v => "some(".toList ++ nested h v ++ [')']
  | .file f => "<file ".toList ++ (h.filePath f).toList ++ ['>']
  | .closure _ => "<closure>".toList
  | .object c => '<' :: ((h.className c).toList ++ ['>'])
  | .module w => "<module ".toList ++ ((h.moduleName w).getD "").toList ++ ['>']
  | .unit => "<unit>".toList

def nestedItems (h : Handles) : List Value → List (List Char)
  | [] => []
  | v :: rest => nested h v :: nestedItems h rest

def nestedEntries (h : Handles) : List (Key × Value) → List (List Char)
  | [] => []
  | (k, v) :: rest => (writeKey k ++ ':' :: ' ' :: nested h v) :: nestedEntries h rest

end

mutual

/-- Whether the text of the value names the file, whose handle is asked for it. -/
def shows (f : FileId) : Value → Bool
  | .list items => showsItems f items
  | .tuple items => showsItems f items
  | .dict (.ofKind _ entries) => showsEntries f entries
  | .some v => shows f v
  | .file g => g == f
  | _ => false

def showsItems (f : FileId) : List Value → Bool
  | [] => false
  | v :: rest => shows f v || showsItems f rest

def showsEntries (f : FileId) : List (Key × Value) → Bool
  | [] => false
  | (_, v) :: rest => shows f v || showsEntries f rest

end

/-- The text of a value. -/
def text (h : Handles) : Value → String
  | .str s => s
  | .char c => String.ofList [c]
  | v => String.ofList (nested h v)

/-- The text of a value with quotes around text and characters. -/
def quoted (h : Handles) (v : Value) : String := String.ofList (nested h v)

/-- The texts of values, back to back. -/
def textAll (h : Handles) (vs : List Value) : String := String.join (vs.map (text h))

end TreeScript.Value
