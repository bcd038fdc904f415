import LocatedJson.Datum.Json
import LocatedJson.Rules.Lenient

/-!
# Rule settings

The text of rule settings is read leniently first. If that fails, or if
some value cannot set a rule, the text was not meant that way: it is
mended (bare names get quotes, and one missing comma is filled in) and
read as the inside of a strict JSON object, whatever the values are.
-/

namespace LocatedJson.Rules

open LocatedJson.Text

def isNamePart (c : Char) : Bool :=
  c == '-' || c == '/' || isAsciiDigit c || 'a' ≤ c && c ≤ 'z' || 'A' ≤ c && c ≤ 'Z'

/-- Quotes every bare name that stands directly before a colon. The characters of the
name under way are kept aside, last first. -/
def quoteNamesFrom (name : Text) : Text → Text
  | [] => name.reverse
  | c :: rest =>
    if isNamePart c then quoteNamesFrom (c :: name) rest
    else if c = ':' ∧ name ≠ [] then
      '"' :: name.reverse ++ '"' :: ':' :: quoteNamesFrom [] rest
    else name.reverse ++ c :: quoteNamesFrom [] rest

def quoteNames (cs : Text) : Text := quoteNamesFrom [] cs

/-- Puts a comma for the first blanks that stand between a closing bracket or a digit
and a double quote. -/
def fillComma : Text → Text
  | [] => []
  | c :: rest =>
    if (c = ']' ∨ isAsciiDigit c) ∧ (rest.head?.map isBlank).getD false ∧
        (trimStart rest).head? = some '"' then
      c :: ',' :: trimStart rest
    else c :: fillComma rest

/-- The text made ready for the strict reading. -/
def mend (cs : Text) : Text := fillComma (quoteNames cs)

inductive Rejection.Cause where
  | unreadable (failure : Json.Failure)
  | noObject
  deriving DecidableEq, Repr

/-- Why a text holds no settings. -/
structure Rejection where
  mended : Text
  cause : Rejection.Cause
  deriving DecidableEq, Repr

def braced (mended : Text) : Text := '\x7b' :: mended ++ ['\x7d']

def Rejection.message (r : Rejection) : String :=
  "Failed to parse JSON from '" ++ String.ofList r.mended ++ "': " ++
    match r.cause with
    | .unreadable failure => failure.message (braced r.mended)
    | .noObject => "expected an object"

/-- The strict reading of a mended text, with room for so many brackets inside each other. -/
def strict (depth : Nat) (mended : Text) : Except Unconvertible (Except Rejection Settings) :=
  match Json.read depth (braced mended) with
  | .ok (.map entries) => .ok (.ok entries)
  | .ok _ => .ok (.error ⟨mended, .noObject⟩)
  | .error (.unconvertible cause) => .error cause
  | .error failure => .ok (.error ⟨mended, .unreadable failure⟩)

/-- The room that the strict reading usually has. How much it is depends on how deep the
reading is called, so whoever asks for settings may say otherwise. -/
def usualDepth : Nat := 990

/-- The settings of a text. A text that holds none is rejected; a number that is too
long for the strict reading is not a matter of the text's form and is handed on. -/
def read (cs : Text) (depth : Nat := usualDepth) :
    Except Unconvertible (Except Rejection Settings) :=
  match (lenient? cs).filter allSet with
  | some settings => .ok (.ok settings)
  | none => strict depth (mend cs)

end LocatedJson.Rules
