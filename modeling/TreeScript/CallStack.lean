import TreeScript.Failure

/-!
# The call stack

The calls that are live, and how many of them there may be.
-/
namespace TreeScript

structure CallStack where
  /-- The live calls, innermost first. -/
  frames : Backtrace
  limit : Option Nat
  deriving DecidableEq, Repr

namespace CallStack

def empty (limit : Option Nat) : CallStack := ⟨[], limit⟩

def depth (s : CallStack) : Nat := s.frames.length

/-- Enters a call, if there is room for it. -/
def push (s : CallStack) (frame : CallFrame) : Except Fault CallStack :=
  match s.limit with
  | none => .ok { s with frames := frame :: s.frames }
  | some limit =>
    if limit ≤ s.depth then .error (.stackOverflow limit)
    else .ok { s with frames := frame :: s.frames }

/-- Leaves the innermost call. -/
def pop (s : CallStack) : CallStack := { s with frames := s.frames.tail }

/-- Records the live calls in a failure that has no such record yet. -/
def attach (s : CallStack) (e : Failure) : Failure := e.trace s.frames

end CallStack

end TreeScript
