import TreeScript.Store
import TreeScript.Value.Text

/-!
# Descriptions

One line for somebody who looks into a context: what a variable holds, what a function takes and
what kind of context it is.
-/
namespace TreeScript

/-- A name in quotes. -/
def quotedName (name : String) : String := String.ofList (Text.quoteString name.toList)

/-- The fields of a description, in braces after the name of what is described. -/
def describeFields (what : String) (fields : List String) : String :=
  what ++ " \x7b " ++ String.intercalate ", " fields ++ " \x7d"

/-- The variable with its value and attributes. -/
def Cell.describe (h : Handles) (cell : Cell) : String :=
  describeFields "Variable" ["name: " ++ quotedName cell.name,
    "value: " ++ cell.value.quoted h, "attrs: Attrs(" ++ cell.attrs.text ++ ")"]

/-- The function with the number of its parameters. -/
def Func.describe (f : Func) : String :=
  describeFields "Function" ["name: " ++ quotedName f.decl.name,
    "arity: " ++ toString f.decl.params.length, ".."]

namespace ContextKind

def name : ContextKind → String
  | world .. => "World"
  | call .. => "Function"
  | object .. => "Class"
  | closure .. => "Closure"

/-- The kind of context with the name of its module, function or class. -/
def describe (k : ContextKind) : String :=
  match k with
  | world none _ _ => k.name ++ "(None)"
  | world (some module) _ _ => k.name ++ "(Some(" ++ quotedName module ++ "))"
  | call _ function _ => k.name ++ "(" ++ function ++ ")"
  | object _ decl .. => k.name ++ "(" ++ decl.name ++ ")"
  | closure .. => k.name

end ContextKind

end TreeScript
