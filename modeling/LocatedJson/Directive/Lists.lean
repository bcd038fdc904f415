import LocatedJson.Pairs
import LocatedJson.Text.Blank

/-!
# Lists in directives

Two forms of list stand in the values of directives. A rule list has
names between commas, each with optional quotes around it. A name list
has names with optional values after a colon, separated by blanks and
commas.
-/

namespace LocatedJson.Directive

open LocatedJson.Text

/-! ## Rule lists -/

/-- The text without a pair of equal quotes around it. -/
def unquote (cs : Text) : Text :=
  match cs with
  | q :: rest =>
    if (q = '\'' ∨ q = '"') ∧ rest.getLast? = some q then rest.dropLast else cs
  | [] => []

/-- The names of a rule list, in the order of their first occurrence. -/
def ruleNames (cs : Text) : List Text :=
  (((cs.splitOnP (· == ',')).map fun item => unquote (trim item)).filter (· ≠ [])).eraseDups

/-! ## Name lists -/

/-- Whether a character divides a name from its value or from the next name. -/
def isDivider (c : Char) : Bool := c == ':' || c == ','

/-- A divider at the front of a text with any blanks before it, whether blanks follow
it, and the text after those. -/
def dividerAt? (cs : Text) : Option (Char × Bool × Text) :=
  match trimStart cs with
  | [] => none
  | c :: rest =>
    if isDivider c then some (c, (rest.head?.map isBlank).getD false, trimStart rest) else none

theorem length_trimStart_le (cs : Text) : (trimStart cs).length ≤ cs.length :=
  (List.dropWhile_sublist (p := isBlank) (l := cs)).length_le

theorem length_of_dividerAt? {cs after : Text} {c : Char} {b : Bool}
    (h : dividerAt? cs = some (c, b, after)) : after.length < cs.length := by
  have hcs := length_trimStart_le cs
  unfold dividerAt? at h
  split at h
  · cases h
  · rename_i d rest heq
    rw [heq, List.length_cons] at hcs
    split at h
    · cases h
      have := length_trimStart_le rest
      omega
    · cases h

/-- Takes away the blanks around dividers, from left to right. Blanks before a divider
go if a character that is not blank stands before them, and blanks after it go with it;
a divider right after blanks that went with the one before therefore keeps its own. -/
def closeDividers (afterBlank : Bool) (cs : Text) : Text :=
  match cs with
  | [] => []
  | c :: rest =>
    match _h : if afterBlank then none else dividerAt? (c :: rest) with
    | some (divider, blanks, after) => divider :: closeDividers blanks after
    | none => c :: closeDividers (isBlank c) rest
termination_by cs.length
decreasing_by
  · split at _h
    · cases _h
    · exact length_of_dividerAt? (by assumption)
  · simp

/-- A name with the value after its first colon, if it has a colon. -/
def nameValue (item : Text) : Text × Option Text :=
  let name := item.takeWhile (· != ':')
  (name, if item.contains ':' then some (item.drop (name.length + 1)) else none)

/-- The names of a name list with their values: names in the order of their first
occurrence, each with its last value. -/
def nameValues (cs : Text) : List (Text × Option Text) :=
  let items := (closeDividers false (trim cs)).splitOnP fun c => isBlank c || c == ','
  Pairs.ofList ((items.filter (· ≠ [])).map nameValue)

end LocatedJson.Directive
