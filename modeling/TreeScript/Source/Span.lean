/-!
# Places in a source text

A span names a piece of source text by byte offsets. A report shows where a span starts as a
line and a column, counted in characters.
-/
namespace TreeScript

/-- The bytes from `start` up to, but not including, `stop`. -/
structure Span where
  start : UInt32
  stop : UInt32
  deriving DecidableEq, Repr, Inhabited

/-- Which end of a range does not fit a span. -/
inductive SpanRangeError where
  | start (offset : Nat)
  | stop (offset : Nat)
  deriving DecidableEq, Repr

namespace SpanRangeError

def message : SpanRangeError → String
  | .start offset => "span start " ++ toString offset ++ " exceeds u32::MAX"
  | .stop offset => "span end " ++ toString offset ++ " exceeds u32::MAX"

end SpanRangeError

namespace Span

/-- The span of trees that no source text was read for. -/
def synthetic : Span := ⟨0, 0⟩

/-- The span over a range of byte offsets, when both ends fit. -/
def ofRange? (start stop : Nat) : Except SpanRangeError Span :=
  if UInt32.size ≤ start then .error (.start start)
  else if UInt32.size ≤ stop then .error (.stop stop)
  else .ok ⟨start.toUInt32, stop.toUInt32⟩

/-- The number of bytes; nothing when the ends are the wrong way round. -/
def length (s : Span) : Nat := s.stop.toNat - s.start.toNat

def isEmpty (s : Span) : Bool := s.stop ≤ s.start

/-- The least span that covers both. -/
def merge (s t : Span) : Span := ⟨min s.start t.start, max s.stop t.stop⟩

def text (s : Span) : String := toString s.start.toNat ++ ".." ++ toString s.stop.toNat

end Span

/-- A line and a column, both counted from one. -/
structure Position where
  line : Nat
  column : Nat
  deriving DecidableEq, Repr

namespace Position

/-- The nearest boundary between characters at or before a byte offset, looked for byte by byte. -/
def boundary (source : String) (offset : Nat) : source.Pos :=
  if here : String.Pos.Raw.IsValid source ⟨offset⟩ then ⟨⟨offset⟩, here⟩
  else boundary source (offset - 1)
termination_by offset
decreasing_by
  -- the start of a text is a boundary, so there is a byte to go back by
  have : offset ≠ 0 := by
    rintro rfl
    exact here String.Pos.Raw.isValid_zero
  omega

/-- The position just behind a text: one line more than it has line feeds, one column more than
it has characters behind the last of them. -/
def behind (before : List Char) : Position where
  line := before.count '\n' + 1
  column := (before.reverse.takeWhile (· ≠ '\n')).length + 1

/-- The position of a byte offset. One past the end is the end, and one inside a character is the
start of that character. -/
def ofOffset (offset : Nat) (source : String) : Position :=
  let nearest := boundary source (min offset source.utf8ByteSize)
  behind (source.sliceTo nearest).copy.toList

def text (p : Position) : String := toString p.line ++ ":" ++ toString p.column

end Position

/-- Where the span starts in `source`. -/
def Span.position (s : Span) (source : String) : Position :=
  .ofOffset s.start.toNat source

/-- The place that a report shows: line and column when the source is known, the byte range
otherwise. -/
def Span.locate (s : Span) : Option String → String
  | some source => (s.position source).text
  | none => s.text

end TreeScript
