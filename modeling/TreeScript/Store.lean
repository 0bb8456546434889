import TreeScript.Context.Declare
import TreeScript.Value.Write

/-!
# The store

Contexts bind names to cells, and cells hold values. A name bound to the cell of another name is an
alias of it. Nothing is ever taken out of the store.
-/
namespace TreeScript

/-- A variable. -/
structure Cell where
  name : String
  value : Value
  attrs : Attrs
  deriving Inhabited

structure Store where
  graph : Graph
  cells : Array Cell
  /-- The identity of the next closure. -/
  nextClosure : Nat

namespace Store

def empty : Store := ⟨.empty, #[], 0⟩

def cell? (s : Store) (i : CellId) : Option Cell := s.cells[i]?

/-- The cell of a number. A number that is no cell's stands for a nameless unit. -/
def cell (s : Store) (i : CellId) : Cell := (s.cell? i).getD ⟨"", .unit, .none⟩

def addContext (s : Store) (kind : ContextKind) : CtxId × Store :=
  (s.graph.contexts.size, { s with graph := (s.graph.add kind).2 })

def addWorld (s : Store) : CtxId × Store := s.addContext .emptyWorld

/-- Adds a cell and gives its number. -/
def addCell (s : Store) (cell : Cell) : CellId × Store :=
  (s.cells.size, { s with cells := s.cells.push cell })

def setValue (s : Store) (i : CellId) (value : Value) : Store :=
  { s with cells := s.cells.modify i fun cell => { cell with value } }

/-- Makes a declaration in the graph. -/
def declare (s : Store) (d : Declaration) : Except Fault Store :=
  match d.run s.graph with
  | .error fault => .error fault
  | .ok graph => .ok { s with graph }

/-- Binds a name to a cell of its own. -/
def declareVar (s : Store) (c : CtxId) (cell : Cell) : Except Fault Store :=
  let (i, s) := s.addCell cell
  s.declare (.ofVar c cell.name cell.name i)

end Store

/-- Whether a cell may be written now. A constant never is, and no cell is written while it is
being read. -/
def Cell.checkWrite (cell : Cell) (beingRead : Bool) : Except Fault Unit :=
  if cell.attrs.isConst then .error (.constMutation cell.name)
  else if beingRead then .error (.inUse cell.name)
  else .ok ()

end TreeScript
