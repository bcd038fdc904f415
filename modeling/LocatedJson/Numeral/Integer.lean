import LocatedJson.Text.Digit
import LocatedJson.Text.Blank

/-!
# Integers from text

The reading of an integer is generous: blanks on both sides, one sign,
in base sixteen a `0x` with an optional low line after it, digits of any
script, and a single low line between two digits. Only a decimal integer
has a bound on its length.
-/

namespace LocatedJson.Numeral

open LocatedJson.Text

inductive Base where
  | ten
  | sixteen
  deriving DecidableEq, Repr

namespace Base

def value : Base → Nat
  | ten => 10
  | sixteen => 16

/-- The value of a digit of the base, of any script. -/
def digit? : Base → Char → Option Nat
  | ten => decimalValue?
  | sixteen => hexValue?

end Base

inductive IntegerFault where
  | malformed
  | tooLong (digits : Nat)
  deriving DecidableEq, Repr

/-- The most digits that a decimal integer may have, leading zeros counted. -/
def maxDecimalDigits : Nat := 4300

/-- The blanks that may stand around a number: those of Unicode without the
four information separators. -/
def isNumberBlank (c : Char) : Bool := isBlank c && !(0x1C ≤ c.toNat && c.toNat ≤ 0x1F)

/-- The digits at the front and what follows them. A low line has to be
followed by a digit. -/
def digitRun (base : Base) : Text → Option (List Nat × Text)
  | [] => some ([], [])
  | c :: rest =>
    match base.digit? c with
    | some v => (digitRun base rest).map fun (vs, after) => (v :: vs, after)
    | none =>
      if c = '_' then
        if (rest.head?.bind base.digit?).isSome then digitRun base rest else none
      else some ([], c :: rest)

/-- The number that digits of a base stand for, the most significant first. -/
def ofDigits (base : Nat) (digits : List Nat) : Nat :=
  digits.foldl (fun n v => n * base + v) 0

/-- Whether the text starts with a minus, and the text without its sign. -/
def splitSign : Text → Bool × Text
  | '-' :: rest => (true, rest)
  | '+' :: rest => (false, rest)
  | cs => (false, cs)

/-- The text after the mark of its base, if it has one. -/
def dropMark : Base → Text → Text
  | .sixteen, z :: x :: rest =>
    if decimalValue? z = some 0 ∧ (x = 'x' ∨ x = 'X') then
      if rest.head? = some '_' then rest.drop 1 else rest
    else z :: x :: rest
  | _, cs => cs

def signed (negative : Bool) (n : Nat) : Int := if negative then -(n : Int) else n

def readInteger (base : Base) (cs : Text) : Except IntegerFault Int :=
  let (negative, body) := splitSign (cs.dropWhile isNumberBlank)
  let digits := dropMark base body
  if digits.head? = some '_' then .error .malformed
  else
    match digitRun base digits with
    | none => .error .malformed
    | some (vs, after) =>
      if base = .ten ∧ maxDecimalDigits < vs.length then .error (.tooLong vs.length)
      else if vs = [] ∨ !after.all isNumberBlank then .error .malformed
      else .ok (signed negative (ofDigits base.value vs))

end LocatedJson.Numeral
