import LocatedJson.Text.Digit

/-!
# Sizes of number literals

How many characters at the front of a text belong to a number. Each
part of a number is measured by its own function, and a size of zero
says that the part is not there. No part looks back, so a literal is
the parts one after the other and always as long as it can be.

Two forms exist. The strict form has an optional minus, a whole part
without superfluous zeros, and fraction and exponent with at least one
digit each. The wide form has either sign, hexadecimal integers, whole
parts with any digits, and a point with digits on at least one side.
Which characters are digits is a parameter; the first digit of a strict
whole part and the hexadecimal digits are always ASCII.
-/

namespace LocatedJson.Numeral

open LocatedJson.Text

variable (digit : Char → Bool)

/-- Digits, none or more. -/
def digitsSize (cs : Text) : Nat := (cs.takeWhile digit).length

/-- A point and at least one digit. -/
def fractionSize : Text → Nat
  | '.' :: rest => if digitsSize digit rest = 0 then 0 else 1 + digitsSize digit rest
  | _ => 0

/-- A plus or a minus. -/
def signSize (cs : Text) : Nat := if cs.head? = some '+' ∨ cs.head? = some '-' then 1 else 0

/-- The letter of the exponent, an optional sign, and at least one digit. -/
def exponentSize : Text → Nat
  | [] => 0
  | c :: rest =>
    if c = 'e' ∨ c = 'E' then
      let digits := digitsSize digit (rest.drop (signSize rest))
      if digits = 0 then 0 else 1 + signSize rest + digits
    else 0

/-- A zero alone, or digits of which the first is an ASCII digit other than zero. -/
def wholeSize : Text → Nat
  | [] => 0
  | c :: rest =>
    if c = '0' then 1 else if '1' ≤ c ∧ c ≤ '9' then 1 + digitsSize digit rest else 0

/-- A number in the strict form. -/
def strictSize (cs : Text) : Nat :=
  let sign := if cs.head? = some '-' then 1 else 0
  let whole := wholeSize digit (cs.drop sign)
  if whole = 0 then 0
  else
    let fraction := fractionSize digit (cs.drop (sign + whole))
    sign + whole + fraction + exponentSize digit (cs.drop (sign + whole + fraction))

/-- The mark of base sixteen and at least one hexadecimal digit. -/
def hexSize : Text → Nat
  | '0' :: x :: rest =>
    let digits := (rest.takeWhile isAsciiHex).length
    if (x = 'x' ∨ x = 'X') ∧ digits ≠ 0 then 2 + digits else 0
  | _ => 0

/-- Digits with an optional point after or among them, or a point and digits. -/
def mantissaSize (cs : Text) : Nat :=
  let whole := digitsSize digit cs
  if whole = 0 then fractionSize digit cs
  else
    match cs.drop whole with
    | '.' :: rest => whole + 1 + digitsSize digit rest
    | _ => whole

/-- A decimal number without its sign, as wide as the form allows. -/
def wideDecimalSize (cs : Text) : Nat :=
  let mantissa := mantissaSize digit cs
  if mantissa = 0 then 0 else mantissa + exponentSize digit (cs.drop mantissa)

/-- A number in the wide form. -/
def wideSize (cs : Text) : Nat :=
  let sign := signSize cs
  let hex := hexSize (cs.drop sign)
  let decimal := wideDecimalSize digit (cs.drop sign)
  if hex ≠ 0 then sign + hex else if decimal ≠ 0 then sign + decimal else 0

end LocatedJson.Numeral
