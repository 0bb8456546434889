import TreeScript.Eval.Basic
import TreeScript.Files.Stem

/-!
# Imports

A module runs in a World of its own and is then known by its name: the one that it gives itself, or
else the stem of its path.
-/
namespace TreeScript

namespace Loader

/-- Programs that are given from the start. -/
def ofList (programs : List (String × Program)) : Loader := fun _ path =>
  match programs.lookup path with
  | some program => .ok program
  | none => .error (.io ("no module at " ++ path))

/-- The path of a module below a directory. -/
def pathBelow (root path : String) : String :=
  if path.startsWith "/" || root = "" then path
  else if root.endsWith "/" then root ++ path
  else root ++ "/" ++ path

/-- Programs that are read from files below a directory. -/
def ofDirectory (root : String) (parse : String → Except String Program) : Loader :=
  fun files path =>
    match files.readText (pathBelow root path) with
    | .error e => .error (Files.fault ("cannot import " ++ path) e)
    | .ok text =>
      match parse text with
      | .ok program => .ok program
      | .error message => .error (.importRejected path message)

end Loader

namespace Eval

/-- The program at a path. -/
def load (config : Config) (path : String) : Run Program := do
  match config.loader with
  | none => Run.raise (.io ("cannot import " ++ path ++ ": no module loader configured"))
  | some loader => Run.ofExcept (loader (← get).disk.tree path)

/-- Imports the module at a path into the World of the code. A path whose import is still in
progress is not imported once more. -/
def importPath (config : Config) (ev : Evaluator) (path : String) (c : CtxId) : Run Unit := do
  let importing := (← get).importing
  if importing.contains path then
    Run.raise (.circularImport (importing.reverse ++ [path]))
  let code ← load config path
  let world ← Run.newContext .emptyWorld
  modify fun m => { m with importing := path :: m.importing }
  Run.holding [.context world] do
    (program ev world code).ensuring fun m => { m with importing := m.importing.tail }
    let name := ((← Run.graph).moduleName? world).getD ((Files.stem? path).getD path)
    Run.declareFrom c (.ofModule c name world)

end Eval

end TreeScript
