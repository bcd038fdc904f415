import LocatedJson.Dialect
import LocatedJson.Limits

/-!
# Profiles

A profile is everything that decides how a text is read: its dialect,
the limits, and whether a comma before a closing bracket was asked for.
-/

namespace LocatedJson

structure Profile where
  dialect : Dialect := .json
  limits : Limits := {}
  trailingCommas : Bool := false
  deriving DecidableEq, Repr

namespace Profile

/-- A comma before a closing bracket is always allowed in json5, and in
jsonc when it was asked for. -/
def allowsTrailingCommas (p : Profile) : Bool :=
  match p.dialect with
  | .json => false
  | .jsonc => p.trailingCommas
  | .json5 => true

end Profile

end LocatedJson
