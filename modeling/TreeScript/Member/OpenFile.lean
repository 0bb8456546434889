import TreeScript.Member.Basic

/-!
# Members of files

A file is locked while it is written to, and what is written is made into text only then. So text
that names the file itself cannot be made.
-/
namespace TreeScript.Member.OpenFile

def fileOf : Value → Except Fault FileId
  | .file f => .ok f
  | _ => .error (.invalidArgument "file member" "a file receiver")

/-- The rest of the file as a text. -/
def read (recv : Value) : List Value → Run Value
  | [] => do
    let f ← Run.ofExcept (fileOf recv)
    return .str (← Run.onDisk (·.read f))
  | args => Run.ofExcept (arity "read" 0 args)

/-- Writes a value, as `print` shows it, to a file. -/
def put (f : FileId) (v : Value) : Run Unit := do
  if v.shows f then Run.panic f v
  else
    let h ← Run.handles
    Run.changeDisk (·.write f (v.text h))

def write (recv : Value) : List Value → Run Value
  | [v] => do
    put (← Run.ofExcept (fileOf recv)) v
    return .unit
  | args => Run.ofExcept (arity "write" 1 args)

/-- Writes values to a file, each on a line. -/
def putLines (f : FileId) : List Value → Run Unit
  | [] => pure ()
  | line :: rest => do
    put f line
    Run.changeDisk (·.write f "\n")
    putLines f rest

def writeLines (recv : Value) : List Value → Run Value
  | [.list lines] => do
    putLines (← Run.ofExcept (fileOf recv)) lines
    return .unit
  | [_] => Run.ofExcept (.error (.invalidArgument "writelines" "a list argument"))
  | args => Run.ofExcept (arity "writelines" 1 args)

def close (recv : Value) : List Value → Run Value
  | [] => do
    let f ← Run.ofExcept (fileOf recv)
    Run.onDisk fun d => (.ok .unit, d.close f)
  | args => Run.ofExcept (arity "close" 0 args)

def isOpen (recv : Value) : List Value → Run Value
  | [] => do
    let f ← Run.ofExcept (fileOf recv)
    return .bool ((← Run.handles).fileIsOpen f)
  | args => Run.ofExcept (arity "is_open" 0 args)

def ofFile : List (String × Member) :=
  [("read", .file read), ("write", .file write), ("writelines", .file writeLines),
    ("close", .file close), ("is_open", .file isOpen)]

end TreeScript.Member.OpenFile
