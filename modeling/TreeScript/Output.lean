/-!
# Output

Where `print` and the prompt of `input` write: into a text that is kept, or nowhere.
-/
namespace TreeScript

inductive Output where
  | kept (text : String)
  | silent
  deriving Repr, DecidableEq

namespace Output

/-- Writes a text as it is. -/
def print (text : String) : Output → Output
  | kept before => kept (before ++ text)
  | silent => silent

/-- Writes a text and a line feed. -/
def printLine (text : String) : Output → Output
  | kept before => kept (before ++ text ++ "\n")
  | silent => silent

/-- All that was kept so far. -/
def text : Output → String
  | kept text => text
  | silent => ""

/-- Forgets what was kept. -/
def clear : Output → Output
  | kept _ => kept ""
  | silent => silent

end Output

end TreeScript
