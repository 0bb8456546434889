import TreeScript.CallStack
import TreeScript.Context.Copy
import TreeScript.Context.Release
import TreeScript.Files.Handle
import TreeScript.Output
import TreeScript.Value.Place

/-!
# The machine

All that a running program can see and change, and runs on it. A run ends with a result or stops,
and either way it leaves a machine.
-/
namespace TreeScript

/-- What supplies the programs that are imported, from the files as they are. -/
abbrev Loader := Files.Tree → String → Except Fault Program

/-- What a program is run with and never changes. -/
structure Config where
  argv : List String
  loader : Option Loader

structure Machine where
  store : Store
  disk : Files.Disk
  output : Output
  /-- The lines that `input` has still to read. -/
  input : List String
  calls : CallStack
  /-- The paths of the imports in progress, innermost first. -/
  importing : List String
  /-- What work in progress holds, the latest first. -/
  held : List Hold
  /-- What is held from outside. As long as that is not known, nothing is let go. -/
  outside : Option (List Hold)

/-- What is known of the things that values name by handle. -/
def handlesOf (g : Graph) (files : Array Files.Handle) : Handles where
  className c := (g.className? c).getD ""
  moduleName w := g.moduleName? w
  filePath f := (files[f]?.map (·.path)).getD ""
  fileIsOpen f := files[f]?.any (·.isOpen)

def Machine.handles (m : Machine) : Handles := handlesOf m.store.graph m.disk.handles

/-- How a failure was raised: what went wrong, and the calls that were live then. -/
structure Raised where
  fault : Fault
  calls : Backtrace
  deriving DecidableEq, Repr

/-- Why a run stops. Only a failure is one of the program. -/
inductive Stop where
  /-- More may be said of the failure on its way out; how it was raised stays. -/
  | failed (e : Failure) (raised : Raised)
  /-- The text of a value that names a file was wanted in the midst of writing to that file. The
  program that runs the language ends there and then. -/
  | panicked (f : FileId) (v : Value)
  /-- Nothing is wrong, but the run is too long. -/
  | outOfFuel

def Stop.mapFailure (f : Failure → Failure) : Stop → Stop
  | failed e raised => failed (f e) raised
  | stop => stop

/-- A failure that is raised on the machine. -/
def Machine.raised (m : Machine) (fault : Fault) : Stop :=
  .failed (.ofFault fault) ⟨fault, m.calls.frames⟩

abbrev Run := EStateM Stop Machine

namespace Run

variable {α : Type}

def raise (fault : Fault) : Run α := fun m => .error (m.raised fault) m

def panic (f : FileId) (v : Value) : Run α := fun m => .error (.panicked f v) m

def outOfFuel : Run α := fun m => .error .outOfFuel m

def ofExcept : Except Fault α → Run α
  | .ok a => pure a
  | .error fault => raise fault

def handles : Run Handles := fun m => .ok m.handles m

def store : Run Store := fun m => .ok m.store m

def graph : Run Graph := fun m => .ok m.store.graph m

/-- Changes the graph of contexts. -/
def modifyGraph (f : Graph → Graph) : Run Unit := fun m =>
  .ok () { m with store := { m.store with graph := f m.store.graph } }

/-- Changes the failure that a run stops with. -/
def mapFailure (f : Machine → Failure → Failure) (x : Run α) : Run α := fun m =>
  match x m with
  | .ok a m => .ok a m
  | .error stop m => .error (stop.mapFailure (f m)) m

/-- Names the place of a failure. -/
def locating (span : Span) (x : Run α) : Run α := mapFailure (fun _ => Failure.locate span) x

/-- Undoes something at the end of a run, however it ends. -/
def ensuring (x : Run α) (undo : Machine → Machine) : Run α := fun m =>
  match x m with
  | .ok a m => .ok a (undo m)
  | .error stop m => .error stop (undo m)

/-- Runs with more held meanwhile. -/
def holding (holds : List Hold) (x : Run α) : Run α := fun m =>
  (x.ensuring fun after => { after with held := m.held }) { m with held := holds ++ m.held }

/-- Lets go what nothing holds any more, before a context is looked for. If that context is held
itself, the answer does not hang on it. -/
def letGo (sought : Graph → CtxId) : Run Unit := fun m =>
  match m.outside with
  | none => .ok () m
  | some outside =>
    let c := sought m.store.graph
    if m.held.any (·.isOf c) || outside.any (·.isOf c) then .ok () m
    else .ok () { m with store := m.store.release (m.held ++ outside) }

/-- The store as code finds it that looks names up from a context on. -/
def storeFrom (c : CtxId) : Run Store := do
  letGo (·.origin c)
  store

/-- The graph as code finds it that looks names up from a context on. -/
def graphFrom (c : CtxId) : Run Graph := return (← storeFrom c).graph

/-- Makes a declaration. -/
def declare (d : Declaration) : Run Unit := do
  match d.obstacle? (← graph) with
  | some fault => raise fault
  | none => modifyGraph d.apply

/-- Makes a declaration in the World of the code. -/
def declareFrom (c : CtxId) (d : Declaration) : Run Unit := do
  letGo (·.origin c)
  declare d

def newContext (kind : ContextKind) : Run CtxId := fun m =>
  let c := m.store.graph.contexts.size
  .ok c { m with store := { m.store with graph := (m.store.graph.add kind).2 } }

def newCell (cell : Cell) : Run CellId := fun m =>
  .ok m.store.cells.size
    { m with store := { m.store with cells := m.store.cells.push cell } }

/-- Binds a name to a cell. -/
def bindCell (c : CtxId) (name : String) (i : CellId) : Run Unit := do
  declare (.ofVar c name ((← store).cell i).name i)

/-- Declares a variable. -/
def declareVar (c : CtxId) (cell : Cell) : Run Unit := do
  let i ← newCell cell
  declare (.ofVar c cell.name cell.name i)

def readCell (i : CellId) : Run Value := fun m =>
  .ok (m.store.cell i).value m

/-- Edits the value of a cell, unless it is constant. -/
def editCell (i : CellId) (f : Handles → Edit α) : Run α := fun m =>
  match (m.store.cell i).checkWrite false with
  | .error fault => .error (m.raised fault) m
  | .ok () =>
    match f m.handles (m.store.cell i).value with
    | .ok a value => .ok a { m with store := m.store.setValue i value }
    | .error fault value => .error (m.raised fault) { m with store := m.store.setValue i value }

/-- Runs with an inner scope of a context open. -/
def inScope (c : CtxId) (x : Run α) : Run α := do
  modifyGraph (·.pushScope c)
  x.ensuring fun m =>
    { m with store := { m.store with graph := m.store.graph.popScope c } }

/-- Runs a call: it is live meanwhile, and a failure inside it is traced and located. -/
def inCall (name : String) (span : Span) (x : Run α) : Run α := do
  match (← get).calls.push ⟨name, some span⟩ with
  | .error fault => raise fault
  | .ok calls =>
    modify fun m => { m with calls }
    (x.mapFailure fun m e => (m.calls.attach e).locate span).ensuring fun m =>
      { m with calls := m.calls.pop }

/-- Works on the files. -/
def onDisk (f : Files.Disk → Except Fault α × Files.Disk) : Run α := fun m =>
  match f m.disk with
  | (.ok a, disk) => .ok a { m with disk }
  | (.error fault, disk) => .error (m.raised fault) { m with disk }

/-- Changes the files. -/
def changeDisk (f : Files.Disk → Except Fault Files.Disk) : Run Unit :=
  onDisk fun d =>
    match f d with
    | .ok d => (.ok (), d)
    | .error fault => (.error fault, d)

def printLine (text : String) : Run Unit :=
  modify fun m => { m with output := m.output.printLine text }

def print (text : String) : Run Unit :=
  modify fun m => { m with output := m.output.print text }

/-- The next line of input. At the end there is none. -/
def nextLine : Run (Option String) := fun m =>
  match m.input with
  | [] => .ok none m
  | line :: rest => .ok (some line) { m with input := rest }

/-- Copies a value. An instance that holds itself is never copied to the end. -/
def copy (v : Value) : Run Value := fun m =>
  match m.store.copy (m.store.graph.contexts.size + 1) v with
  | some (v, store) => .ok v { m with store }
  | none => .error .outOfFuel m

end Run

end TreeScript
