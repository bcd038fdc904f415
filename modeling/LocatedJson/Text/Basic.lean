/-!
# Texts

A text is a list of characters. Every offset, length and column of the
library counts characters, so a list is the whole truth about a text:
the part before an offset is a `take`, the part after it a `drop`, and
no bridge between byte positions and characters is needed anywhere.
-/

namespace LocatedJson

/-- A text, one list entry for each character. A character is never half of a surrogate pair, so
a string that holds a half on its own is not a text. -/
abbrev Text := List Char

namespace Text

/-- Whether a code point lies in one of the closed intervals of a table. -/
def inIntervals (table : List (Nat × Nat)) (n : Nat) : Bool :=
  table.any fun (lo, hi) => lo ≤ n && n ≤ hi

end Text

end LocatedJson
