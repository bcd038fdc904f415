import LocatedJson.Text.Basic

/-!
# Dialects

The three dialects of a document and what sets them apart at the level
of characters: which white space they have, which quotes open a string,
and whether comments may stand between tokens.
-/

namespace LocatedJson

/-- The dialects, each accepting all documents of the one before. -/
inductive Dialect where
  | json
  | jsonc
  | json5
  deriving DecidableEq, Repr

namespace Dialect

def name : Dialect → String
  | json => "json"
  | jsonc => "jsonc"
  | json5 => "json5"

def ofName? (name : String) : Option Dialect :=
  [json, jsonc, json5].find? (·.name == name)

theorem ofName?_name (d : Dialect) : ofName? d.name = some d := by
  cases d <;> rfl

def allowsComments : Dialect → Bool
  | json => false
  | jsonc | json5 => true

def isSpace (d : Dialect) (c : Char) : Bool :=
  [' ', '\t', '\n', '\r'].contains c ||
    d == json5 && ['\x0b', '\x0c', '\u00a0', '\ufeff', '\u2028', '\u2029'].contains c

def isQuote (d : Dialect) (c : Char) : Bool := c == '"' || d == json5 && c == '\''

end Dialect

namespace Text

def isLineEnd (c : Char) : Bool := ['\n', '\r', '\u2028', '\u2029'].contains c

/-- Whether a character ends a line and may not stand bare in a string. -/
def isHardLineEnd (c : Char) : Bool := c == '\n' || c == '\r'

end Text

end LocatedJson
