import LocatedJson.Datum
import LocatedJson.Numeral.Literal
import LocatedJson.Numeral.Size
import LocatedJson.Pairs
import LocatedJson.StringBody

/-!
# Data from strict JSON

A text is read as one value with white space around it. Numbers have
ASCII digits only, strings hold no control characters, and three names
for numbers without digits are accepted beside the usual three words.
Objects keep the first place and the last value of a repeated key.

A fault carries the part of the text that starts at its place, so its
offset is a difference of two lengths and the readers need not count.
-/

namespace LocatedJson.Json

open LocatedJson.Text

/-- What was wrong at a place of the text. -/
inductive Cause where
  | value
  | comma
  | colon
  | name
  | unclosedString
  | controlCharacter
  | escape
  | unicodeEscape
  | extra
  deriving DecidableEq, Repr

inductive Form where
  | array
  | object
  deriving DecidableEq, Repr

/-- Why a text is not strict JSON, or cannot be read. -/
inductive Failure where
  | malformed (cause : Cause) (rest : Text)
  | tooDeep (form : Form)
  | unconvertible (cause : Unconvertible)
  deriving DecidableEq, Repr

namespace Cause

def message : Cause → String
  | value => "Expecting value"
  | comma => "Expecting ',' delimiter"
  | colon => "Expecting ':' delimiter"
  | name => "Expecting property name enclosed in double quotes"
  | unclosedString => "Unterminated string starting at"
  | controlCharacter => "Invalid control character at"
  | escape => "Invalid \\escape"
  | unicodeEscape => "Invalid \\uXXXX escape"
  | extra => "Extra data"

end Cause

namespace Form

def name : Form → String
  | array => "array"
  | object => "object"

end Form

/-- The line and the column after the characters of a text, both from one. Only a
line feed ends a line. -/
def lineColumn (before : Text) : Nat × Nat :=
  (before.count '\n' + 1, (before.reverse.takeWhile (· != '\n')).length + 1)

/-- The message of a failure to read a text; a literal without a value has its own. -/
def Failure.message (text : Text) : Failure → String
  | malformed cause rest =>
    let offset := text.length - rest.length
    let (line, column) := lineColumn (text.take offset)
    s!"{cause.message}: line {line} column {column} (char {offset})"
  | tooDeep form =>
    s!"maximum recursion depth exceeded while decoding a JSON {form.name} from a unicode string"
  | unconvertible cause => cause.message

def isSpace (c : Char) : Bool := c == ' ' || c == '\t' || c == '\n' || c == '\r'

def skipSpace (cs : Text) : Text := cs.dropWhile isSpace

/-! ## Strings -/

/-- The number that four ASCII hexadecimal digits spell at the front. -/
def hexQuad? : Text → Option Nat
  | a :: b :: c :: e :: _ => do
    let digits := [← asciiHexValue? a, ← asciiHexValue? b, ← asciiHexValue? c, ← asciiHexValue? e]
    return Numeral.ofDigits 16 digits
  | _ => none

def shortEscape? (c : Char) : Option CodePoint :=
  if StringBody.isJson5Escape c then none else StringBody.shortEscape? c

/-- The second half of a surrogate pair that a text spells at its front. At least
one character has to follow it. -/
def lowSurrogate? : Text → Option Nat
  | '\\' :: 'u' :: digits =>
    if 4 < digits.length then (hexQuad? digits).filter CodePoint.isLowSurrogate else none
  | _ => none

/-- The piece of an escape by four digits, from the letter on. -/
def unicodePiece (letter digits : Text) : Except Failure StringBody.Piece :=
  match if 4 < digits.length then hexQuad? digits else none with
  | none => .error (.malformed .unicodeEscape letter)
  | some n =>
    match if CodePoint.isHighSurrogate n then lowSurrogate? (digits.drop 4) else none with
    | some low => .ok ⟨(CodePoint.ofNat? (CodePoint.joinSurrogates n low)).toList, 12⟩
    | none => .ok ⟨(CodePoint.ofNat? n).toList, 6⟩

/-- The piece at the front of what is left of a string that was opened somewhere. -/
def piece (opened : Text) (c : Char) (rest : Text) : Except Failure StringBody.Piece :=
  if c = '\\' then
    match rest with
    | [] => .error (.malformed .unclosedString opened)
    | e :: after =>
      if e = 'u' then unicodePiece rest after
      else
        match shortEscape? e with
        | some p => .ok ⟨[p], 2⟩
        | none => .error (.malformed .escape (c :: rest))
  else if c.toNat ≤ 0x1F then .error (.malformed .controlCharacter (c :: rest))
  else .ok ⟨[.ofChar c], 1⟩

/-- The code points up to the closing quote, and the text after it. -/
def stringTail (opened : Text) : Text → Except Failure (List CodePoint × Text)
  | [] => .error (.malformed .unclosedString opened)
  | c :: rest =>
    if c = '"' then .ok ([], rest)
    else
      match piece opened c rest with
      | .error failure => .error failure
      | .ok p =>
        match stringTail opened (rest.drop (p.size - 1)) with
        | .error failure => .error failure
        | .ok (later, after) => .ok (p.points ++ later, after)
termination_by cs => cs.length
decreasing_by
  simp only [List.length_drop, List.length_cons]
  omega

/-! ## Words and numbers -/

def words : List (String × Datum) :=
  [("null", .null), ("true", .bool true), ("false", .bool false),
   ("NaN", .number (.float .nan)), ("Infinity", .number (.float (.infinity false))),
   ("-Infinity", .number (.float (.infinity true)))]

/-- The value of a word at the front, and the text after it. -/
def word? (cs : Text) : Option (Datum × Text) :=
  (words.find? fun (w, _) => w.toList.isPrefixOf cs).map fun (w, value) =>
    (value, cs.drop w.length)

/-- A word or a number at the front, and the text after it. -/
def scalar (cs : Text) : Except Failure (Datum × Text) :=
  match word? cs with
  | some found => .ok found
  | none =>
    let size := Numeral.strictSize isAsciiDigit cs
    if size = 0 then .error (.malformed .value cs)
    else
      match Numeral.literalValue (cs.take size) with
      | .ok n => .ok (.number n, cs.drop size)
      | .error cause => .error (.unconvertible cause)

/-! ## Structures -/

mutual

/-- A value at the front and the text after it, within a bound on the work and
with so many brackets still allowed. -/
def valueWithin : Nat → Nat → Text → Except Failure (Datum × Text)
  | 0, _, cs => .error (.malformed .value cs)
  | _ + 1, _, [] => .error (.malformed .value [])
  | bound + 1, depth, c :: rest =>
    if c = '"' then
      (stringTail (c :: rest) rest).map fun (points, after) => (.text points, after)
    else if c = '\x7b' then
      match depth with
      | 0 => .error (.tooDeep .object)
      | depth + 1 =>
        match skipSpace rest with
        | '\x7d' :: after => .ok (.map [], after)
        | cs => (membersWithin bound depth [] cs).map fun (entries, after) => (.map entries, after)
    else if c = '[' then
      match depth with
      | 0 => .error (.tooDeep .array)
      | depth + 1 =>
        match skipSpace rest with
        | ']' :: after => .ok (.list [], after)
        | cs => (itemsWithin bound depth cs).map fun (items, after) => (.list items, after)
    else scalar (c :: rest)

/-- The members up to the closing brace, added to those already read. -/
def membersWithin : Nat → Nat → List (List CodePoint × Datum) → Text →
    Except Failure (List (List CodePoint × Datum) × Text)
  | 0, _, _, cs => .error (.malformed .value cs)
  | bound + 1, depth, entries, cs =>
    match cs with
    | '"' :: rest =>
      match stringTail cs rest with
      | .error failure => .error failure
      | .ok (name, after) =>
        match skipSpace after with
        | ':' :: after =>
          match valueWithin bound depth (skipSpace after) with
          | .error failure => .error failure
          | .ok (value, after) =>
            match skipSpace after with
            | '\x7d' :: after => .ok (Pairs.put entries name value, after)
            | ',' :: after =>
              membersWithin bound depth (Pairs.put entries name value) (skipSpace after)
            | other => .error (.malformed .comma other)
        | other => .error (.malformed .colon other)
    | other => .error (.malformed .name other)

/-- The items up to the closing bracket. -/
def itemsWithin : Nat → Nat → Text → Except Failure (List Datum × Text)
  | 0, _, cs => .error (.malformed .value cs)
  | bound + 1, depth, cs =>
    match valueWithin bound depth cs with
    | .error failure => .error failure
    | .ok (value, after) =>
      match skipSpace after with
      | ']' :: after => .ok ([value], after)
      | ',' :: after =>
        (itemsWithin bound depth (skipSpace after)).map fun (items, after) =>
          (value :: items, after)
      | other => .error (.malformed .comma other)

end

/-- A bound on the work that no text of a size meets. -/
def boundFor (size : Nat) : Nat := 2 * size + 2

/-- Reads a text as one value, with at most so many brackets open at once. -/
def read (maxDepth : Nat) (text : Text) : Except Failure Datum :=
  match valueWithin (boundFor text.length) maxDepth (skipSpace text) with
  | .error failure => .error failure
  | .ok (value, after) =>
    match skipSpace after with
    | [] => .ok value
    | other => .error (.malformed .extra other)

end LocatedJson.Json
