/-!
# The stem of a path

The last name of a path without its extension, which starts at the last point. A point at the
start of a name starts no extension.
-/
namespace TreeScript.Files

/-- The last name of a path, unless the path ends by going up or has no name. -/
def lastName? (path : String) : Option String :=
  match (((path.splitOn "/").filter fun name => name ≠ "" ∧ name ≠ ".").reverse) with
  | [] => none
  | name :: _ => if name = ".." then none else some name

/-- A name without its extension. -/
def dropExtension (name : String) : String :=
  match name.toList.reverse.dropWhile (· ≠ '.') with
  | _ :: c :: before => String.ofList (c :: before).reverse
  | _ => name

def stem? (path : String) : Option String := (lastName? path).map dropExtension

end TreeScript.Files
