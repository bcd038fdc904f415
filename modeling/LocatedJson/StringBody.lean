import LocatedJson.Dialect
import LocatedJson.Numeral.Integer
import LocatedJson.Text.CodePoint

/-!
# The meaning of string bodies

A string body is what stands between the quotes. It is decoded piece by
piece: a bare character stands for itself, and a backslash opens an
escape. Every piece covers the character that it starts with, so
decoding ends with the body.

The digits of a numeric escape are read as an integer of base sixteen
with all the freedom that such integers have, signs included. A pair of
escapes for the two halves of a surrogate pair is one piece.
-/

namespace LocatedJson.StringBody

open LocatedJson.Text

/-- Why a body has no meaning. -/
inductive EscapeFault where
  | unknown (c : Char)
  | badUnicode
  | badHex
  | outOfRange
  deriving DecidableEq, Repr

/-- A stretch of a body: the code points that it stands for, and its size. -/
structure Piece where
  points : List CodePoint
  size : Nat
  deriving DecidableEq, Repr

/-- What a single letter after a backslash stands for. -/
def shortEscape? (c : Char) : Option CodePoint :=
  if c = '"' ∨ c = '\'' ∨ c = '\\' ∨ c = '/' then some (.ofChar c)
  else if c = 'b' then some 0x08
  else if c = 'f' then some 0x0C
  else if c = 'n' then some 0x0A
  else if c = 'r' then some 0x0D
  else if c = 't' then some 0x09
  else if c = 'v' then some 0x0B
  else if c = '0' then some 0x00
  else none

/-- The letters that only json5 has an escape for. -/
def isJson5Escape (c : Char) : Bool := c == '\'' || c == 'v' || c == '0'

/-- The number that hexadecimal digits stand for. -/
def hexNumber? (cs : Text) : Option Int := (Numeral.readInteger .sixteen cs).toOption

/-- The code point with a number that may be out of range. -/
def pointOfInt? (n : Int) : Option CodePoint := if n < 0 then none else CodePoint.ofNat? n.toNat

/-- The second half of a surrogate pair that a text spells at its front. -/
def lowSurrogate? : Text → Option Nat
  | '\\' :: 'u' :: a :: b :: c :: e :: _ =>
    match hexNumber? [a, b, c, e] with
    | some n => if 0 ≤ n ∧ CodePoint.isLowSurrogate n.toNat then some n.toNat else none
    | none => none
  | _ => none

/-- The piece of an escape by four digits, with the text that follows it. -/
def unicodePiece (digits after : Text) : Except EscapeFault Piece :=
  match hexNumber? digits with
  | none => .error .badUnicode
  | some n =>
    match pointOfInt? n with
    | none => .error .outOfRange
    | some p =>
      match if CodePoint.isHighSurrogate p.val then lowSurrogate? after else none with
      | some low => .ok ⟨(CodePoint.ofNat? (CodePoint.joinSurrogates p.val low)).toList, 12⟩
      | none => .ok ⟨[p], 6⟩

/-- The piece of an escape by two digits. -/
def hexPiece (digits : Text) : Except EscapeFault Piece :=
  match (hexNumber? digits).bind pointOfInt? with
  | some p => .ok ⟨[p], 4⟩
  | none => .error .badHex

/-- The piece of an escape that only json5 has: two digits, a line end that is
left out, or a character that stands for itself. -/
def json5Piece (c : Char) (rest : Text) : Except EscapeFault Piece :=
  if c = 'x' ∧ 2 ≤ rest.length then hexPiece (rest.take 2)
  else if c = '\r' ∧ rest.head? = some '\n' then .ok ⟨[], 3⟩
  else if isLineEnd c then .ok ⟨[], 2⟩
  else .ok ⟨[.ofChar c], 2⟩

/-- The piece of an escape, from the character after the backslash on. -/
def escapePiece (d : Dialect) (c : Char) (rest : Text) : Except EscapeFault Piece :=
  match shortEscape? c with
  | some p =>
    if isJson5Escape c && d != .json5 then .error (.unknown c) else .ok ⟨[p], 2⟩
  | none =>
    if c = 'u' ∧ 4 ≤ rest.length then unicodePiece (rest.take 4) (rest.drop 4)
    else if d = .json5 then json5Piece c rest
    else .error (.unknown c)

/-- The piece at the front of a body. A backslash that ends the body stands for itself. -/
def piece (d : Dialect) (c : Char) (rest : Text) : Except EscapeFault Piece :=
  match rest with
  | e :: after => if c = '\\' then escapePiece d e after else .ok ⟨[.ofChar c], 1⟩
  | [] => .ok ⟨[.ofChar c], 1⟩

/-- The code points that a body stands for. -/
def decode (d : Dialect) : Text → Except EscapeFault (List CodePoint)
  | [] => .ok []
  | c :: rest =>
    match piece d c rest with
    | .error fault => .error fault
    | .ok p =>
      match decode d (rest.drop (p.size - 1)) with
      | .error fault => .error fault
      | .ok later => .ok (p.points ++ later)
termination_by cs => cs.length
decreasing_by
  simp only [List.length_drop, List.length_cons]
  omega

end LocatedJson.StringBody
