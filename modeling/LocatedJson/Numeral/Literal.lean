import LocatedJson.Fault
import LocatedJson.Numeral

/-!
# The meaning of number literals

The signs at the front of a literal are taken off, and a minus at the
very front negates. What is left is an integer of base sixteen if it
starts with the mark of that base, a decimal fraction if it has a point
or the letter of an exponent, and a decimal integer otherwise.
-/

namespace LocatedJson.Numeral

/-- The literal without the signs at its front. -/
def unsigned (cs : Text) : Text := cs.dropWhile fun c => c == '+' || c == '-'

/-- Whether a literal without signs is written in base sixteen. -/
def hasHexMark : Text → Bool
  | '0' :: x :: _ => x == 'x' || x == 'X'
  | _ => false

/-- Whether a literal without signs is a decimal fraction. -/
def hasFractionMark (cs : Text) : Bool := cs.any fun c => c == '.' || c == 'e' || c == 'E'

def integerValue (base : Base) (cs : Text) : Except Unconvertible Int :=
  match readInteger base cs with
  | .ok n => .ok n
  | .error .malformed => .error (.integer base cs)
  | .error (.tooLong digits) => .error (.tooManyDigits digits)

def decimalValue (cs : Text) : Except Unconvertible Binary64 :=
  match readDecimal? cs with
  | some x => .ok x
  | none => .error (.decimal cs)

/-- The number that a literal stands for. -/
def literalValue (cs : Text) : Except Unconvertible Number :=
  let negative := cs.head? = some '-'
  let digits := unsigned cs
  if hasHexMark digits then
    (integerValue .sixteen digits).map fun n => .int (if negative then -n else n)
  else if hasFractionMark digits then
    (decimalValue digits).map fun x => .float (if negative then x.negate else x)
  else
    (integerValue .ten digits).map fun n => .int (if negative then -n else n)

end LocatedJson.Numeral
