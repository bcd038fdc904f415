import LocatedJson.Dialect
import LocatedJson.Position

/-!
# Lines

A text is lines with line ends between them; a carriage return with a
line feed after it is one line end. The table of line starts turns an
offset into a line and a column, and back.
-/

namespace LocatedJson

namespace Text

/-- The text up to the first line end, and what comes after that. -/
def lines : Text → List Text
  | [] => [[]]
  | c :: rest =>
    if isLineEnd c && !(c == '\r' && rest.head? == some '\n') then [] :: lines rest
    else if c == '\r' then lines rest
    else
      match lines rest with
      | [] => [[c]]
      | line :: others => (c :: line) :: others

/-- The offsets just after the line ends of a text that starts at an offset. -/
def lineStartsFrom (offset : Nat) : Text → List Nat
  | [] => []
  | c :: rest =>
    if isLineEnd c && !(c == '\r' && rest.head? == some '\n') then
      (offset + 1) :: lineStartsFrom (offset + 1) rest
    else lineStartsFrom (offset + 1) rest

/-- The offsets at which lines start. -/
def lineStarts (cs : Text) : List Nat := 0 :: lineStartsFrom 0 cs

end Text

/-- A coordinate as a caller gives it: a number, a truth value that counts as
zero or one, or something else. -/
inductive Coordinate where
  | int (n : Int)
  | bool (b : Bool)
  | other
  deriving DecidableEq, Repr

namespace Coordinate

def value? : Coordinate → Option Int
  | int n => some n
  | bool b => some (if b then 1 else 0)
  | other => none

def shown : Coordinate → String
  | int n => toString n
  | bool true => "True"
  | bool false => "False"
  | other => ""

end Coordinate

/-- Why an offset has no place, or a place no offset. -/
inductive PlaceFault where
  | indexExpected
  | indexOutOfRange (index : Int) (length : Nat)
  | placeExpected
  | lineOutOfRange (line : Coordinate) (count : Nat)
  | columnOutOfRange (column : Coordinate)
  deriving DecidableEq, Repr

namespace PlaceFault

def message : PlaceFault → String
  | indexExpected => "Expected an integer index"
  | indexOutOfRange index length =>
    s!"Index out of range (requested index {index}, but source text has length {length})"
  | placeExpected => "Expected a location with integer line and column"
  | lineOutOfRange line count =>
    s!"Line number out of range (line {line.shown} requested, but only {count} lines present)"
  | columnOutOfRange column =>
    s!"Column number out of range (column {column.shown} requested)"

end PlaceFault

namespace Text

/-- The place of an offset in a text whose lines start at given offsets: its line is the number
of lines that start at or before it. -/
def placeIn (starts : List Nat) (offset : Nat) : Position :=
  let before := starts.filter (· ≤ offset)
  ⟨before.length, offset - before.getLastD 0 + 1, offset⟩

def placeOf (cs : Text) (offset : Nat) : Position := placeIn (lineStarts cs) offset

/-- The offset that an index from a caller stands for in a text of a length. -/
def offsetOf (length : Nat) : Coordinate → Except PlaceFault Nat
  | .int n =>
    if n < 0 ∨ length < n then .error (.indexOutOfRange n length) else .ok n.toNat
  | _ => .error .indexExpected

def locate (cs : Text) (index : Coordinate) : Except PlaceFault Position :=
  (offsetOf cs.length index).map (placeOf cs)

def numbersOf (line column : Coordinate) : Except PlaceFault (Int × Int) :=
  match line.value?, column.value? with
  | some l, some c => .ok (l, c)
  | _, _ => .error .placeExpected

/-- The number of a line among those that start at given offsets, counted from zero. -/
def rowOf (starts : List Nat) (line : Coordinate) (l : Int) : Except PlaceFault Nat :=
  if l < 1 ∨ starts.length < l then .error (.lineOutOfRange line starts.length)
  else .ok (l.toNat - 1)

/-- The offset of a column in a row. A column may be one past the end of its line. -/
def columnIn (starts : List Nat) (lines : List Text) (row : Nat) (column : Coordinate) (c : Int) :
    Except PlaceFault Int :=
  let start := (starts[row]?).getD 0
  let size := ((lines[row]?).map List.length).getD 0
  if c < 1 ∨ size < c - 1 then .error (.columnOutOfRange column)
  else .ok (start + c - 1)

def indexOf (cs : Text) (line column : Coordinate) : Except PlaceFault Int :=
  match numbersOf line column with
  | .error fault => .error fault
  | .ok (l, c) =>
    match rowOf (lineStarts cs) line l with
    | .error fault => .error fault
    | .ok row => columnIn (lineStarts cs) (lines cs) row column c

end Text

end LocatedJson
