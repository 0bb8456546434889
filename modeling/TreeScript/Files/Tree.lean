/-!
# The file tree

Files and directories below the working directory. A node keeps its number when its name changes,
so an open file stays the same file. The working directory stands in another one, in which it is
alone as far as anybody knows.
-/
namespace TreeScript.Files

/-- What the system says when it refuses. -/
inductive OsError where
  | notFound | exists | notDirectory | isDirectory | busy | invalid | nameTooLong | notEmpty
  | nulInPath | notText
  deriving DecidableEq, Repr

def OsError.text : OsError → String
  | .notFound => "No such file or directory (os error 2)"
  | .busy => "Device or resource busy (os error 16)"
  | .exists => "File exists (os error 17)"
  | .notDirectory => "Not a directory (os error 20)"
  | .isDirectory => "Is a directory (os error 21)"
  | .invalid => "Invalid argument (os error 22)"
  | .nameTooLong => "File name too long (os error 36)"
  | .notEmpty => "Directory not empty (os error 39)"
  | .nulInPath => "file name contained an unexpected NUL byte"
  | .notText => "stream did not contain valid UTF-8"

abbrev NodeId := Nat

inductive Node where
  | file (bytes : ByteArray)
  | directory (parent : NodeId) (entries : List (String × NodeId))

/-- The nodes. The first is the working directory and the second the one above it. -/
structure Tree where
  nodes : Array Node

/-- A path cut at its slashes. -/
structure Path where
  /-- The names before the last. -/
  parents : List String
  last : String
  /-- Whether a slash follows the last name. -/
  slash : Bool

namespace Path

def hasNul (text : String) : Bool := text.toList.contains (Char.ofNat 0)

/-- Reads a relative path. An empty one names nothing, and nothing is known from the root on. -/
def parse (text : String) : Except OsError Path :=
  if hasNul text then .error .nulInPath
  else if 4096 ≤ text.utf8ByteSize then .error .nameTooLong
  else if text.startsWith "/" then .error .notFound
  else
    match (((text.splitOn "/").filter (· ≠ "")).reverse) with
    | [] => .error .notFound
    | last :: before => .ok ⟨before.reverse, last, text.endsWith "/"⟩

/-- Whether the last name leads to the directory itself or up. -/
def endsInDots (p : Path) : Bool := p.last == "." || p.last == ".."

end Path

namespace Tree

/-- An empty working directory. The one above it is the last on the way up. -/
def empty : Tree := ⟨#[.directory 1 [], .directory 1 []]⟩

def node? (t : Tree) (n : NodeId) : Option Node := t.nodes[n]?

def isDirectory (t : Tree) (n : NodeId) : Bool :=
  match t.node? n with
  | some (.directory ..) => true
  | _ => false

/-- The entry of a directory. -/
def entry (t : Tree) (dir : NodeId) (name : String) : Except OsError NodeId :=
  match t.node? dir with
  | some (.directory parent entries) =>
    if name = "." then .ok dir
    else if name = ".." then .ok parent
    else if 255 < name.utf8ByteSize then .error .nameTooLong
    else
      match entries.lookup name with
      | some n => .ok n
      | none => .error .notFound
  | _ => .error .notDirectory

/-- Follows names from a node. -/
def walk (t : Tree) : NodeId → List String → Except OsError NodeId
  | n, [] => .ok n
  | n, name :: rest =>
    match t.entry n name with
    | .ok n => walk t n rest
    | .error e => .error e

/-- The directory in which the last name of a path stands. -/
def parentOf (t : Tree) (p : Path) : Except OsError NodeId :=
  match t.walk 0 p.parents with
  | .ok n => if t.isDirectory n then .ok n else .error .notDirectory
  | .error e => .error e

/-- The node that a path names. A slash at the end wants a directory. -/
def find (t : Tree) (p : Path) : Except OsError NodeId :=
  t.walk 0 (p.parents ++ p.last :: (if p.slash then ["."] else []))

def setEntries (t : Tree) (dir : NodeId) (f : List (String × NodeId) → List (String × NodeId)) :
    Tree :=
  ⟨t.nodes.modify dir fun
    | .directory parent entries => .directory parent (f entries)
    | node => node⟩

/-- Adds a node under a name. -/
def addNode (t : Tree) (dir : NodeId) (name : String) (node : Node) : NodeId × Tree :=
  (t.nodes.size, (⟨t.nodes.push node⟩ : Tree).setEntries dir ((name, t.nodes.size) :: ·))

def setBytes (t : Tree) (n : NodeId) (bytes : ByteArray) : Tree :=
  ⟨t.nodes.modify n fun
    | .file _ => .file bytes
    | node => node⟩

/-- Whether `n` is `dir` or lies below it. The number of steps up is bounded. -/
def isBelow (t : Tree) (dir : NodeId) : Nat → NodeId → Bool
  | 0, n => n == dir
  | steps + 1, n =>
    n == dir ||
      match t.node? n with
      | some (.directory parent _) => n ≠ parent && isBelow t dir steps parent
      | _ => false

/-- Makes a directory. -/
def makeDirectory (t : Tree) (text : String) : Except OsError Tree := do
  let p ← Path.parse text
  let dir ← t.parentOf p
  match t.entry dir p.last with
  | .ok _ => .error .exists
  | .error .notFound => .ok (t.addNode dir p.last (.directory dir [])).2
  | .error e => .error e

/-- Whether what is at `source` may take the place of what is at `target`. -/
def checkReplace (t : Tree) (source target : NodeId) : Except OsError Unit :=
  match t.node? source, t.node? target with
  | some (.directory ..), some (.directory _ entries) =>
    if entries.isEmpty then .ok () else .error .notEmpty
  | some (.directory ..), _ => .error .notDirectory
  | _, some (.directory ..) => .error .isDirectory
  | _, _ => .ok ()

/-- Moves what one path names to another path. It takes the place of a file, or of an empty
directory if it is a directory. -/
def move (t : Tree) (fromText toText : String) : Except OsError Tree := do
  if Path.hasNul toText then throw .nulInPath
  let source ← Path.parse fromText
  let sourceDir ← t.parentOf source
  let target ← Path.parse toText
  let targetDir ← t.parentOf target
  if source.endsInDots || target.endsInDots then throw .busy
  let n ← t.entry sourceDir source.last
  let old ← match t.entry targetDir target.last with
    | .ok m => .ok (some m)
    | .error .notFound => .ok none
    | .error e => .error e
  if !t.isDirectory n && (source.slash || target.slash) then throw .notDirectory
  if t.isBelow n t.nodes.size targetDir then throw .invalid
  if let some m := old then
    if t.isBelow m t.nodes.size sourceDir then throw .notEmpty
    if m = n then return t
    t.checkReplace n m
  let t := t.setEntries sourceDir (·.filter (·.1 ≠ source.last))
  let t := t.setEntries targetDir fun entries =>
    (target.last, n) :: entries.filter (·.1 ≠ target.last)
  return ⟨t.nodes.modify n fun
    | .directory _ entries => .directory targetDir entries
    | node => node⟩

/-- The names in a directory. -/
def names (t : Tree) (text : String) : Except OsError (List String) := do
  let n ← t.find (← Path.parse text)
  match t.node? n with
  | some (.directory _ entries) => return entries.map Prod.fst
  | _ => throw .notDirectory

/-- The text of bytes that are UTF-8. -/
def decode (bytes : ByteArray) : Except OsError String :=
  match String.fromUTF8? bytes with
  | some text => .ok text
  | none => .error .notText

/-- The text of a whole file. -/
def readText (t : Tree) (text : String) : Except OsError String := do
  let n ← t.find (← Path.parse text)
  match t.node? n with
  | some (.file bytes) => decode bytes
  | _ => throw .isDirectory

/-- Follows names from a directory and makes what is missing. -/
def makePath (t : Tree) : NodeId → List String → NodeId × Tree
  | n, [] => (n, t)
  | n, name :: rest =>
    match t.entry n name with
    | .ok m => makePath t m rest
    | .error _ =>
      let (m, t) := t.addNode n name (.directory n [])
      makePath t m rest

/-- Puts a file, or a directory, at a path and makes the directories above it. -/
def place (t : Tree) (text : String) (content : Option ByteArray) : Tree :=
  match Path.parse text with
  | .error _ => t
  | .ok p =>
    let (dir, t) := t.makePath 0 p.parents
    match content with
    | some bytes => (t.addNode dir p.last (.file bytes)).2
    | none => (t.makePath dir [p.last]).2

end Tree

end TreeScript.Files
