import TreeScript.Member.Chars
import TreeScript.Member.Entries
import TreeScript.Member.Items
import TreeScript.Member.OpenFile

/-!
# The members of each kind of value
-/
namespace TreeScript.Member

/-- The members of a kind of value with their names. -/
def table : Kind → List (String × Member)
  | .list => Items.ofList
  | .tuple => Items.shared
  | .str => Chars.ofStr
  | .char => Chars.ofChar
  | .dict => Entries.ofDict
  | .option => Entries.ofOption
  | .file => OpenFile.ofFile
  | _ => []

def find? (kind : Kind) (name : String) : Option Member := (table kind).lookup name

/-- The names of a kind's members, in order. -/
def names (kind : Kind) : List String := ((table kind).map Prod.fst).mergeSort (· ≤ ·)

end TreeScript.Member
