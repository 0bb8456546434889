/-!
# Operators

The binary, unary and assignment operators of the language with their symbols.
-/
namespace TreeScript

inductive BinaryOp where
  | add | sub | mul | div | rem | pow
  | eq | ne | lt | le | gt | ge
  | and | or
  | bitAnd | bitOr | bitXor | shl | shr
  deriving DecidableEq, Repr

namespace BinaryOp

def symbol : BinaryOp → String
  | add => "+" | sub => "-" | mul => "*" | div => "/" | rem => "%" | pow => "**"
  | eq => "==" | ne => "!=" | lt => "<" | le => "<=" | gt => ">" | ge => ">="
  | and => "&&" | or => "||"
  | bitAnd => "&" | bitOr => "|" | bitXor => "^" | shl => "<<" | shr => ">>"

/-- Every binary operator, in the order in which tables list them. -/
def all : List BinaryOp :=
  [add, sub, mul, div, rem, pow, eq, ne, lt, le, gt, ge, and, or,
    bitAnd, bitOr, bitXor, shl, shr]

def ofSymbol? (symbol : String) : Option BinaryOp := all.find? (·.symbol == symbol)

def isEquality : BinaryOp → Bool
  | eq | ne => true
  | _ => false

theorem mem_all (op : BinaryOp) : op ∈ all := by cases op <;> decide

end BinaryOp

inductive UnaryOp where
  | neg | not | bitNot
  deriving DecidableEq, Repr

namespace UnaryOp

def symbol : UnaryOp → String
  | neg => "-" | not => "!" | bitNot => "~"

def all : List UnaryOp := [neg, not, bitNot]

def ofSymbol? (symbol : String) : Option UnaryOp := all.find? (·.symbol == symbol)

theorem mem_all (op : UnaryOp) : op ∈ all := by cases op <;> decide

end UnaryOp

/-- An assignment either stores its right side or combines it with what is stored already. -/
inductive AssignOp where
  | plain
  | add | sub | mul | div | rem | bitAnd | bitOr | bitXor
  deriving DecidableEq, Repr

namespace AssignOp

def symbol : AssignOp → String
  | plain => "="
  | add => "+=" | sub => "-=" | mul => "*=" | div => "/=" | rem => "%="
  | bitAnd => "&=" | bitOr => "|=" | bitXor => "^="

def all : List AssignOp := [plain, add, sub, mul, div, rem, bitAnd, bitOr, bitXor]

def ofSymbol? (symbol : String) : Option AssignOp := all.find? (·.symbol == symbol)

/-- The operator that a compound assignment applies. -/
def binary? : AssignOp → Option BinaryOp
  | plain => none
  | add => some .add | sub => some .sub | mul => some .mul | div => some .div
  | rem => some .rem | bitAnd => some .bitAnd | bitOr => some .bitOr | bitXor => some .bitXor

theorem mem_all (op : AssignOp) : op ∈ all := by cases op <;> decide

theorem plain_or_compound (op : AssignOp) :
    op = plain ∨ ∃ operator, op.binary? = some operator := by
  cases op with
  | plain => exact .inl rfl
  | _ => exact .inr ⟨_, rfl⟩

end AssignOp

end TreeScript
