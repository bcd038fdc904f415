import LocatedJson.Numeral.Decimal

/-!
# Numbers

A number of a document or of a rule setting is an exact integer or a
binary floating-point number; its spelling decides which.
-/

namespace LocatedJson

/-- A number, exact or rounded. -/
inductive Number where
  | int (n : Int)
  | float (x : Binary64)
  deriving DecidableEq, Repr

namespace Number

/-- Whether a number is equal to a natural one, whichever way it is held. -/
def equalsNat : Number → Nat → Bool
  | int k, n => k == n
  | float x, n => x.equalsNat n

end Number

end LocatedJson
