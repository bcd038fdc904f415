import LocatedJson.Numeral
import LocatedJson.Text.CodePoint

/-!
# Data

Values without places: what a rule setting or a strict JSON text stands
for. A map keeps its entries in the order of their first occurrence.
-/

namespace LocatedJson

/-- A value without a place. -/
inductive Datum where
  | null
  | bool (b : Bool)
  | number (n : Number)
  | text (points : List CodePoint)
  | list (items : List Datum)
  | map (entries : List (List CodePoint × Datum))
  deriving Repr

end LocatedJson
