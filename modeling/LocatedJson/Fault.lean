import LocatedJson.Limits
import LocatedJson.Numeral.Integer
import LocatedJson.Position
import LocatedJson.Text.Display

/-!
# Faults

What can go wrong with a document, as causes. A malformation is found at
a place of the text and an excess is about the text as a whole: both are
complaints about the text, which a reading reports in its result. A
literal without a value is kept apart, because it is the one fault that
a reading hands on instead. The wording of each cause stands in one
function.
-/

namespace LocatedJson

/-- Why a text is not a document of its dialect. -/
inductive Malformation where
  | commentForbidden
  | unclosedComment
  | unclosedString
  | strayCharacter (c : Char)
  | bareWord (word : Text)
  | missingToken
  | expected (what : String)
  | missingValue
  | misplacedToken (text : Text)
  | extraToken (text : Text)
  | missingKey
  | trailingComma
  | unknownEscape (c : Char)
  | badUnicodeEscape
  | badHexEscape
  deriving DecidableEq, Repr

namespace Malformation

def message : Malformation → String
  | commentForbidden => "Comments are not allowed in JSON"
  | unclosedComment => "Unterminated block comment"
  | unclosedString => "Unterminated string"
  | strayCharacter c => "Unexpected character '" ++ c.toString ++ "'"
  | bareWord word => "Unexpected identifier '" ++ String.ofList word ++ "'"
  | missingToken => "Unexpected end of input"
  | expected what => "Expected " ++ what
  | missingValue => "Unexpected end of input, expected a value"
  | misplacedToken text => "Unexpected token '" ++ String.ofList text ++ "'"
  | extraToken text => "Unexpected token '" ++ String.ofList text ++ "' after document body"
  | missingKey => "Expected object key"
  | trailingComma => "Unexpected trailing comma"
  | unknownEscape c => "Invalid escape sequence '\\" ++ c.toString ++ "'"
  | badUnicodeEscape => "Invalid unicode escape sequence"
  | badHexEscape => "Invalid hex escape sequence"

def suggestions : Malformation → List String
  | commentForbidden => ["Use the jsonc or json5 mode for documents with comments"]
  | unclosedString => ["Check for a missing closing quote"]
  | bareWord _ => ["Quote keys and string values", "Use the json5 mode for unquoted keys"]
  | extraToken _ => ["A document holds exactly one value"]
  | missingKey => ["Object keys must be strings", "Check for a trailing comma"]
  | trailingComma => ["Remove the comma before the closing bracket"]
  | _ => []

end Malformation

/-- Why a literal has no value. -/
inductive Unconvertible where
  | integer (base : Numeral.Base) (text : Text)
  | decimal (text : Text)
  | tooManyDigits (count : Nat)
  | codePoint
  deriving DecidableEq, Repr

namespace Unconvertible

/-- The most characters of a displayed text that the message about an integer shows. -/
def shownCharacters : Nat := 200

def message : Unconvertible → String
  | integer base text =>
    s!"invalid literal for int() with base {base.value}: " ++
      String.ofList ((Text.display text).take shownCharacters)
  | decimal text => "could not convert string to float: " ++ String.ofList (Text.display text)
  | tooManyDigits count =>
    s!"Exceeds the limit ({Numeral.maxDecimalDigits} digits) for integer string conversion: " ++
      s!"value has {count} digits; use sys.set_int_max_str_digits() to increase the limit"
  | codePoint => "chr() arg not in range(0x110000)"

end Unconvertible

/-- A fault as it is shown: a message, where it was found, and what may help. -/
structure Report where
  message : String
  position : Option Position := none
  suggestions : List String := []
  deriving DecidableEq, Repr

namespace Report

/-- The report as one text: the message, the line and column if there are any,
and a list of suggestions if there are any. -/
def render (r : Report) : String :=
  let place := match r.position with
    | some p => s!" at line {p.line}, column {p.column}"
    | none => ""
  let advice := if r.suggestions.isEmpty then "" else
    "\n\nSuggestions:" ++ String.join (r.suggestions.map fun s => "\n  - " ++ s)
  r.message ++ place ++ advice

end Report

/-- What is reported about a text. -/
inductive Complaint where
  | malformed (cause : Malformation) (position : Position)
  | exceeded (cause : Excess)
  deriving DecidableEq, Repr

def Complaint.report : Complaint → Report
  | malformed cause position => ⟨cause.message, some position, cause.suggestions⟩
  | exceeded cause => { message := cause.message }

/-- What stopped the reading of a document. -/
inductive Fault where
  | complaint (about : Complaint)
  | unconvertible (cause : Unconvertible)
  deriving DecidableEq, Repr

/-- The message about a token or node that is read as a comment and is none. -/
def notCommentMessage (typeName : String) : String :=
  "Unexpected comment type '" ++ typeName ++ "'"

end LocatedJson
