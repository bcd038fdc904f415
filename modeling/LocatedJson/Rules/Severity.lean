import LocatedJson.Datum

/-!
# Severities

A severity is one of the numbers zero, one and two, however they are
held, or one of their three names. A rule is set to a severity, or to a
list that starts with one.
-/

namespace LocatedJson.Rules

/-- Settings of rules, by the names of the rules. -/
abbrev Settings := List (List CodePoint × Datum)

def severityNames : List (List CodePoint) :=
  ["off", "warn", "error"].map fun name => CodePoint.ofText name.toList

/-- Whether a value is a severity. A truth value is none. -/
def isSeverity : Datum → Bool
  | .number n => [0, 1, 2].any n.equalsNat
  | .text points => severityNames.contains points
  | _ => false

/-- Whether a value sets a rule. -/
def isSetting : Datum → Bool
  | .list (first :: _) => isSeverity first
  | .list [] => false
  | value => isSeverity value

def allSet (settings : Settings) : Bool := settings.all fun (_, value) => isSetting value

end LocatedJson.Rules
