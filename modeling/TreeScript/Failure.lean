import TreeScript.Syntax.Tree
import TreeScript.Number.Integer

/-!
# Failures

A fault is the cause of a failure and carries what its message needs. A failure adds the place
where it was raised and the calls that were live there. Ending the program with `exit` takes the
same way out.
-/
namespace TreeScript

inductive Fault where
  | undeclared (item name : String)
  | redeclared (item name : String)
  | typeMismatch (expected found : String)
  | binaryMismatch (op : BinaryOp) (left right : String)
  | invalidArgument (function expected : String)
  | notCallable (name typeName : String)
  | arity (name : String) (expected found : Nat)
  | indexOutOfBounds (index : Int64) (length : Nat)
  | keyNotFound (key : String)
  | divisionByZero
  | moduloByZero
  | exponentRange (exponent : Int64)
  | shiftRange (amount : Int64)
  | arithmetic (message : String)
  | constMutation (name : String)
  | assertionFailed (message : String)
  | invalidBinary (op : BinaryOp) (typeName : String)
  | invalidUnary (op : UnaryOp) (typeName : String)
  | noSuchMember (member typeName : String)
  | privateMember (member owner : String)
  | notAssignable (target : String)
  | stackOverflow (limit : Nat)
  /-- A variable is written while it is being read. -/
  | inUse (name : String)
  | unwrapNone
  /-- The right side of a member access is neither a name nor a call. -/
  | badMember
  | unimplemented (detail : String)
  | functionOutlived (name : String)
  | closureOutlived
  | classOutsideWorld
  | importOutsideWorld
  | argumentsOutsideClass
  | circularImport (chain : List String)
  /-- The text of a module is not a program. -/
  | importRejected (path message : String)
  | custom (message : String)
  | io (message : String)
  | exit (code : Int32)
  deriving DecidableEq, Repr

inductive Category where
  | undeclared | redeclared | type | arity | index | arithmetic | const | assertion | fatal | io
  | exit
  deriving DecidableEq, Repr

def Category.name : Category → String
  | .undeclared => "Undeclared"
  | .redeclared => "Redeclared"
  | .type => "TypeError"
  | .arity => "ArityError"
  | .index => "IndexError"
  | .arithmetic => "ArithmeticError"
  | .const => "ConstError"
  | .assertion => "AssertionError"
  | .fatal => "Fatal"
  | .io => "Io"
  | .exit => "Exit"

namespace Fault

def category : Fault → Category
  | undeclared .. => .undeclared
  | redeclared .. => .redeclared
  | typeMismatch .. | binaryMismatch .. | invalidArgument .. | notCallable .. => .type
  | arity .. => .arity
  | indexOutOfBounds .. | keyNotFound .. => .index
  | divisionByZero | moduloByZero | exponentRange .. | shiftRange .. | arithmetic .. => .arithmetic
  | constMutation .. => .const
  | assertionFailed .. => .assertion
  | io .. => .io
  | exit .. => .exit
  | invalidBinary .. | invalidUnary .. | noSuchMember .. | privateMember .. | notAssignable ..
  | stackOverflow .. | inUse .. | unwrapNone | badMember | unimplemented .. | functionOutlived ..
  | closureOutlived | classOutsideWorld | importOutsideWorld | argumentsOutsideClass
  | circularImport .. | importRejected .. | custom .. => .fatal

def message : Fault → String
  | undeclared item name => "undeclared " ++ item ++ " `" ++ name ++ "`"
  | redeclared item name => item ++ " `" ++ name ++ "` is already declared"
  | typeMismatch expected found => "type mismatch: expected " ++ expected ++ ", got " ++ found
  | binaryMismatch op left right =>
    "operator `" ++ op.symbol ++ "` cannot combine " ++ left ++ " and " ++ right
  | invalidArgument function expected => function ++ " expects " ++ expected
  | notCallable name typeName =>
    "`" ++ name ++ "` holds a " ++ typeName ++ ", which is not callable"
  | arity name expected found =>
    name ++ " expects " ++ toString expected
      ++ (if expected = 1 then " argument, got " else " arguments, got ") ++ toString found
  | indexOutOfBounds index length =>
    "index " ++ Integer.text index ++ " out of bounds for length " ++ toString length
  | keyNotFound key => "key not found: " ++ key
  | divisionByZero => "division by zero"
  | moduloByZero => "modulo by zero"
  | exponentRange exponent =>
    "exponent " ++ Integer.text exponent ++ " must be between 0 and 4294967295"
  | shiftRange amount => "shift amount " ++ Integer.text amount ++ " out of range (0-63)"
  | arithmetic message => message
  | constMutation name => "cannot mutate const binding `" ++ name ++ "`"
  | assertionFailed message => "assertion failed: " ++ message
  | invalidBinary op typeName =>
    "operator `" ++ op.symbol ++ "` cannot be applied to " ++ typeName
  | invalidUnary op typeName => "unary `" ++ op.symbol ++ "` cannot be applied to " ++ typeName
  | noSuchMember member typeName => "no member `" ++ member ++ "` on " ++ typeName
  | privateMember member owner => "`" ++ member ++ "` of " ++ owner ++ " is not public"
  | notAssignable target => "cannot assign to " ++ target
  | stackOverflow limit =>
    "maximum recursion depth exceeded (limit: " ++ toString limit ++ ")"
  | inUse name => "`" ++ name ++ "` is in use"
  | unwrapNone => "called unwrap on none"
  | badMember => "the right side of `.` must be a name or a call"
  | unimplemented detail =>
    if detail = "" then "unimplemented" else "unimplemented: " ++ detail
  | functionOutlived name => "`" ++ name ++ "` outlived its declaring context"
  | closureOutlived => "closure outlived its defining context"
  | classOutsideWorld => "class declared outside a world"
  | importOutsideWorld => "import outside a world"
  | argumentsOutsideClass => "constructor arguments outside a class"
  | circularImport chain => "circular import: " ++ String.intercalate " -> " chain
  | importRejected path message => "cannot import " ++ path ++ ": " ++ message
  | custom message => message
  | io message => message
  | exit code => "exit(" ++ toString code.toInt ++ ")"

def exitCode? : Fault → Option Int32
  | exit code => some code
  | _ => none

end Fault

/-- One live call: what is called, and where from. -/
structure CallFrame where
  name : String
  span : Option Span
  deriving DecidableEq, Repr

/-- The live calls at a failure, innermost first. -/
abbrev Backtrace := List CallFrame

structure Failure where
  fault : Fault
  span : Option Span
  backtrace : Option Backtrace
  deriving DecidableEq, Repr

namespace Failure

def ofFault (fault : Fault) : Failure := ⟨fault, none, none⟩

/-- Says where the failure was raised, unless that is said already. The first place named is the
innermost, and a tree without a source names none. -/
def locate (span : Span) (e : Failure) : Failure :=
  match e.span with
  | some _ => e
  | none => if span = .synthetic then e else { e with span := some span }

/-- Records the live calls, unless a deeper record is there already or no call is live. -/
def trace (calls : Backtrace) (e : Failure) : Failure :=
  match e.backtrace with
  | some _ => e
  | none => if calls.isEmpty then e else { e with backtrace := some calls }

def message (e : Failure) : String := e.fault.message

/-- The failure in one line. -/
def text (e : Failure) : String := e.fault.category.name ++ ": " ++ e.message

/-- The lines of frames, numbered from `n`. -/
def frameLines (source : Option String) : Nat → Backtrace → List String
  | _, [] => []
  | n, frame :: rest =>
    let place := match frame.span with
      | some span => " at " ++ span.locate source
      | none => ""
    ("  " ++ toString n ++ ": " ++ frame.name ++ place) :: frameLines source (n + 1) rest

/-- The full report of a failure, with places as lines and columns of the source if there is
one. -/
def report (e : Failure) (source : Option String) : String :=
  let place := match e.span with
    | some span => ["  --> " ++ span.locate source]
    | none => []
  let calls := match e.backtrace with
    | some (frame :: rest) => "stack backtrace:" :: frameLines source 0 (frame :: rest)
    | _ => []
  String.intercalate "\n"
    (("error[" ++ e.fault.category.name ++ "]: " ++ e.message) :: (place ++ calls))

end Failure

/-- A backtrace on its own, a line for each call. -/
def Backtrace.text (frames : Backtrace) : String :=
  if frames.isEmpty then ""
  else String.join (("stack backtrace:" :: Failure.frameLines none 0 frames).map (· ++ "\n"))

end TreeScript
