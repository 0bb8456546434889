import TreeScript.Failure
import TreeScript.Files.Mode
import TreeScript.Files.Tree
import TreeScript.Value.Basic

/-!
# Open files

A handle names a file by the path and the mode it was opened with and keeps a position in it.
Closing a handle leaves the path and the mode.
-/
namespace TreeScript.Files

structure Handle where
  path : String
  mode : Mode
  node : NodeId
  position : Nat
  isOpen : Bool

/-- The file tree with every handle that was ever opened. -/
structure Disk where
  tree : Tree
  handles : Array Handle

/-- A fault of the system, told with what was being done. -/
def fault (context : String) (e : OsError) : Fault := .io (context ++ ": " ++ e.text)

namespace Disk

def empty : Disk := ⟨.empty, #[]⟩

def handle? (d : Disk) (f : FileId) : Option Handle := d.handles[f]?

/-- The node to be opened, made if it is missing and the mode wants that. -/
def locate (t : Tree) (mode : Mode) (path : String) : Except OsError (NodeId × Tree) := do
  let p ← Path.parse path
  if mode.create then
    let dir ← t.parentOf p
    if p.slash then throw .isDirectory
    match t.entry dir p.last with
    | .ok n => if t.isDirectory n then throw .isDirectory else return (n, t)
    | .error .notFound => return t.addNode dir p.last (.file .empty)
    | .error e => throw e
  else
    let n ← t.find p
    if mode.write && t.isDirectory n then throw .isDirectory
    return (n, t)

/-- Opens a file. -/
def openFile (d : Disk) (path modeText : String) : Except Fault (FileId × Disk) :=
  match Mode.parse? modeText with
  | none =>
    .error (.invalidArgument "open"
      "a mode of \"r\", \"w\", \"a\", \"r+\", \"w+\" or \"a+\"")
  | some mode =>
    match locate d.tree mode path with
    | .error e => .error (fault ("cannot open " ++ path) e)
    | .ok (node, tree) =>
      let tree := if mode.truncate then tree.setBytes node .empty else tree
      .ok (d.handles.size, ⟨tree, d.handles.push ⟨path, mode, node, 0, true⟩⟩)

def setHandle (d : Disk) (f : FileId) (h : Handle) : Disk :=
  { d with handles := d.handles.setIfInBounds f h }

/-- Reads from the position to the end. What is read is used up even when it is no text. -/
def read (d : Disk) (f : FileId) : Except Fault String × Disk :=
  match d.handle? f with
  | none => (.error (.io " is closed"), d)
  | some h =>
    if !h.mode.read then (.error (.io (h.path ++ " was not opened for reading")), d)
    else if !h.isOpen then (.error (.io (h.path ++ " is closed")), d)
    else
      let context := "cannot read " ++ h.path
      match d.tree.node? h.node with
      | some (.file bytes) =>
        let rest := bytes.extract h.position bytes.size
        let d := d.setHandle f { h with position := max h.position bytes.size }
        match Tree.decode rest with
        | .ok text => (.ok text, d)
        | .error e => (.error (fault context e), d)
      | _ => (.error (fault context .isDirectory), d)

/-- Bytes with others written over them from a position on; a gap is filled with zeros. -/
def overwrite (old new : ByteArray) (position : Nat) : ByteArray :=
  let gap : ByteArray := ⟨Array.replicate (position - old.size) 0⟩
  old.extract 0 position ++ gap ++ new ++ old.extract (position + new.size) old.size

/-- Writes text at the position, or at the end if the mode says so. -/
def write (d : Disk) (f : FileId) (text : String) : Except Fault Disk :=
  match d.handle? f with
  | none => .error (.io " is closed")
  | some h =>
    if !h.mode.write then .error (.io (h.path ++ " was not opened for writing"))
    else if !h.isOpen then .error (.io (h.path ++ " is closed"))
    else
      match d.tree.node? h.node with
      | some (.file bytes) =>
        let new := text.toUTF8
        let start := if h.mode.append then bytes.size else h.position
        if new.size = 0 then .ok d
        else
          let d := d.setHandle f { h with position := start + new.size }
          .ok { d with tree := d.tree.setBytes h.node (overwrite bytes new start) }
      | _ => .error (fault ("cannot write " ++ h.path) .isDirectory)

/-- Closes a handle; once closed it stays so. -/
def close (d : Disk) (f : FileId) : Disk :=
  match d.handle? f with
  | none => d
  | some h => d.setHandle f { h with isOpen := false }

/-- The paths of what is in a directory, in order. -/
def list (d : Disk) (path : String) : Except Fault (List String) :=
  match d.tree.names path with
  | .error e => .error (fault ("cannot list " ++ path) e)
  | .ok names =>
    let start := if path.endsWith "/" then path else path ++ "/"
    .ok ((names.map (start ++ ·)).mergeSort (· ≤ ·))

def makeDirectory (d : Disk) (path : String) : Except Fault Disk :=
  match d.tree.makeDirectory path with
  | .error e => .error (fault ("cannot create " ++ path) e)
  | .ok tree => .ok { d with tree }

def move (d : Disk) (source target : String) : Except Fault Disk :=
  match d.tree.move source target with
  | .error e => .error (fault ("cannot move " ++ source ++ " to " ++ target) e)
  | .ok tree => .ok { d with tree }

end Disk

end TreeScript.Files
