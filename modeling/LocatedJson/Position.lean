/-!
# Positions, spans and extents

Where a token or a node stands is said twice: by a range of offsets and
by the positions at its two ends. The two agree for everything read from
a text, but elements can also be supplied by hand, so neither is derived
from the other, and all coordinates are integers.
-/

namespace LocatedJson

/-- A place in a text: line and column from one, offset from zero. -/
structure Position where
  line : Int
  column : Int
  offset : Int
  deriving DecidableEq, Repr

/-- The places where an element starts and stops. -/
structure Span where
  start : Position
  stop : Position
  deriving DecidableEq, Repr

/-- The offsets from the first character of an element to just after its last. -/
structure Range where
  start : Int
  stop : Int
  deriving DecidableEq, Repr

/-- Where an element stands. -/
structure Extent where
  range : Range
  span : Span
  deriving DecidableEq, Repr

namespace Position

def origin : Position := ⟨1, 1, 0⟩

end Position

namespace Span

/-- Whether the two ends are on different lines. -/
def isMultiline (s : Span) : Bool := s.start.line != s.stop.line

end Span

namespace Extent

def between (start stop : Position) : Extent :=
  ⟨⟨start.offset, stop.offset⟩, ⟨start, stop⟩⟩

/-- The extent from the start of one element to the end of another. -/
def join (first last : Extent) : Extent :=
  ⟨⟨first.range.start, last.range.stop⟩, ⟨first.span.start, last.span.stop⟩⟩

end Extent

end LocatedJson
