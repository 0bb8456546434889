import TreeScript.Eval.Run

/-!
# Sessions

A session runs programs and single lines in one World. A batch run ends at its first failure and
hands it back; a line that fails is reported, its report is kept, and the session goes on. The
World is there as long as the session, and so is all that its programs can name: nothing is let go.
-/
namespace TreeScript

structure Session where
  config : Config
  /-- Bounds how deep evaluation goes. -/
  fuel : Nat
  machine : Machine
  world : CtxId
  /-- The text that reports find lines and columns in. -/
  source : Option String
  /-- The reports of failed lines, oldest first. -/
  errors : List String

/-- How a batch run ends. After a panic there is no one left to tell how. -/
inductive RunOutcome where
  | completed
  | exited (code : Int32)
  | failed (e : Failure)
  | panicked (f : FileId)
  | outOfFuel
  deriving DecidableEq, Repr

/-- The exit code of a process that runs the program and nothing else. -/
def RunOutcome.exitCode : RunOutcome → Int32
  | exited code => code
  | _ => 0

/-- How running a file ends: it may not get as far as running. -/
inductive FileOutcome where
  | ran (outcome : RunOutcome)
  | unreadable (path : String) (e : Files.OsError)
  | rejected (path message : String)
  deriving DecidableEq, Repr

/-- The text of a run that failed, or did not come about. -/
def FileOutcome.text : FileOutcome → String
  | ran (.failed e) => e.text
  | ran _ => ""
  | unreadable path e => "cannot read " ++ path ++ ": " ++ e.text
  | rejected path message => "parse error in " ++ path ++ ": " ++ message

/-- How a line ends. -/
inductive LineOutcome where
  | value (v : Value)
  | report (text : String)
  | exited (code : Int32)
  | panicked (f : FileId)
  | outOfFuel

namespace Session

/-- A session with an empty World. -/
def start (config : Config) (fuel : Nat) (machine : Machine) : Session :=
  let (world, store) := machine.store.addWorld
  ⟨config, fuel, { machine with store }, world, none, []⟩

def setSource (s : Session) (text : String) : Session := { s with source := some text }

/-- The report of a failure, against the current source. -/
def report (s : Session) (e : Failure) : String := e.report s.source

/-- Runs a program up to its first failure. -/
def runProgram (s : Session) (p : Program) : RunOutcome × Session :=
  match Run.program s.config s.fuel p s.world s.machine with
  | .ok _ machine => (.completed, { s with machine })
  | .error .outOfFuel machine => (.outOfFuel, { s with machine })
  | .error (.panicked f _) machine => (.panicked f, { s with machine })
  | .error (.failed e _) machine =>
    match e.fault.exitCode? with
    | some code => (.exited code, { s with machine })
    | none => (.failed e, { s with machine })

/-- Reads a file and runs it as a program. Its text becomes the source. -/
def runFile (s : Session) (parse : String → Except String Program) (path : String) :
    FileOutcome × Session :=
  match s.machine.disk.tree.readText path with
  | .error e => (.unreadable path e, s)
  | .ok text =>
    match parse text with
    | .error message => (.rejected path message, s)
    | .ok p =>
      let (outcome, s) := (s.setSource text).runProgram p
      (.ran outcome, s)

/-- Runs one statement. What it declared before it failed stays declared. -/
def runLine (s : Session) (line : Stmt) : LineOutcome × Session :=
  match Run.statement s.config s.fuel line s.world s.machine with
  | .ok v machine => (.value v, { s with machine })
  | .error .outOfFuel machine => (.outOfFuel, { s with machine })
  | .error (.panicked f _) machine => (.panicked f, { s with machine })
  | .error (.failed e _) machine =>
    match e.fault.exitCode? with
    | some code => (.exited code, { s with machine })
    | none =>
      let text := s.report e
      (.report text, { s with machine, errors := s.errors ++ [text] })

end Session

end TreeScript
