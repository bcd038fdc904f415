import LocatedJson.Numeral.Binary64
import LocatedJson.Numeral.Integer

/-!
# Decimal fractions from text

A decimal fraction has a sign, digits around a point and an exponent;
the point and the exponent are optional, and at least one digit stands
before or after the point. Blanks may surround it and a single low line
may stand between two digits. Its value is the nearest binary number.
-/

namespace LocatedJson.Numeral

open LocatedJson.Text

/-- The text without the low lines between digits; none if a low line stands elsewhere. -/
def dropLowLines? : (afterDigit : Bool) → Text → Option Text
  | _, [] => some []
  | afterDigit, c :: rest =>
    if c = '_' then
      if afterDigit && (rest.head?.map isDecimal).getD false then dropLowLines? false rest
      else none
    else (dropLowLines? (isDecimal c) rest).map (c :: ·)

/-- The digits at the front, by their values, and what follows them. -/
def leadingDigits (cs : Text) : List Nat × Text :=
  ((cs.takeWhile isDecimal).filterMap decimalValue?, cs.dropWhile isDecimal)

/-- The exponent that a text spells from its mark to its end; an empty text spells zero. -/
def exponent? : Text → Option Int
  | [] => some 0
  | c :: rest =>
    if c = 'e' ∨ c = 'E' then
      let (negative, body) := splitSign rest
      match leadingDigits body with
      | ([], _) => none
      | (vs, []) => some (signed negative (ofDigits 10 vs))
      | (_, _ :: _) => none
    else none

/-- The fraction digits after a point, if there is a point. -/
def fraction : Text → List Nat × Text
  | '.' :: rest => leadingDigits rest
  | cs => ([], cs)

/-- Reads a text as a decimal fraction. -/
def readDecimal? (cs : Text) : Option Binary64 := do
  let body ← dropLowLines? false
    ((cs.dropWhile isNumberBlank).reverse.dropWhile isNumberBlank).reverse
  let (negative, body) := splitSign body
  let (whole, rest) := leadingDigits body
  let (part, rest) := fraction rest
  let e ← exponent? rest
  if whole = [] ∧ part = [] then none
  else some (.ofDecimal negative (ofDigits 10 (whole ++ part)) (e - part.length))

end LocatedJson.Numeral
