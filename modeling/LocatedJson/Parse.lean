import LocatedJson.Fault
import LocatedJson.Node
import LocatedJson.Numeral.Literal
import LocatedJson.Profile
import LocatedJson.StringBody
import LocatedJson.Text.Slice
import LocatedJson.Token.Lex

/-!
# Trees from tokens

A tree is read from the code tokens by descent: a value is a scalar or a
bracket, an object is members between braces, an array is values between
brackets. The state is how many tokens have been taken, what is left of
them, and how many brackets are open; a fault keeps the state that it
was found in.

The descent is recursive on a bound that the entry points compute from
the number of tokens left. Every round trip through the functions takes
at least one token, so the bound is never met.
-/

namespace LocatedJson.Parse

open LocatedJson.Text

/-- What stays fixed while tokens are read. -/
structure Setting where
  profile : Profile
  stop : Position
  deriving DecidableEq, Repr

/-- How far the reading has come. -/
structure Progress where
  taken : Nat
  rest : List Token
  depth : Nat
  deriving DecidableEq, Repr

/-- A reading of tokens. -/
abbrev Reading := EStateM Fault Progress

variable (s : Setting)

/-! ## Single tokens -/

/-- The next token, which stays where it is. -/
def current : Reading (Option Token) := do return (← get).rest.head?

/-- Fails at a token, or at the end of the text if there is none. -/
def failAt {α : Type} (t : Option Token) (cause : Malformation) : Reading α :=
  throw (.complaint (.malformed cause ((t.map Token.start).getD s.stop)))

def take : Reading Token := do
  let p ← get
  match p.rest with
  | [] => failAt s none .missingToken
  | t :: rest =>
    set ({ p with taken := p.taken + 1, rest := rest } : Progress)
    return t

/-- Takes the next token if it has a kind, and fails otherwise. -/
def expect (kind : Token.Kind) (what : String) : Reading Token := do
  let t ← current
  if t.map Token.kind = some kind then take s else failAt s t (.expected what)

def isNext (kind : Token.Kind) : Reading Bool := do
  return (← current).map Token.kind = some kind

/-- Counts a bracket that opens. -/
def enter : Reading Unit := do
  let p ← get
  let (depth, excess?) := s.profile.limits.enter p.depth
  set ({ p with depth := depth } : Progress)
  match excess? with
  | some excess => throw (.complaint (.exceeded excess))
  | none => return ()

/-- Counts a bracket that closes. -/
def leave : Reading Unit := modify fun p => { p with depth := Limits.leave p.depth }

/-- Takes a comma if there is one, and says whether another item follows it.
A comma before the closing bracket is a fault unless the profile allows it. -/
def continues (closing : Token.Kind) : Reading Bool := do
  let t ← current
  if t.map Token.kind = some .comma then
    let _ ← take s
    if ← isNext closing then
      if s.profile.allowsTrailingCommas then return false else failAt s t .trailingComma
    else return true
  else return false

/-! ## Scalars -/

def stringValue (t : Token) : Reading (List CodePoint) :=
  match StringBody.decode s.profile.dialect (slice t.text 1 (-1)) with
  | .ok points => pure points
  | .error (.unknown c) => failAt s (some t) (.unknownEscape c)
  | .error .badUnicode => failAt s (some t) .badUnicodeEscape
  | .error .badHex => failAt s (some t) .badHexEscape
  | .error .outOfRange => throw (.unconvertible .codePoint)

def numberValue (t : Token) : Reading Number :=
  match Numeral.literalValue t.text with
  | .ok n => pure n
  | .error cause => throw (.unconvertible cause)

/-- The value of a token that is a value by itself. -/
def scalar (t : Token) : Reading Node :=
  match t.kind with
  | .string => return .string t.extent (← stringValue s t)
  | .number => return .number t.extent (← numberValue t)
  | .boolean => return .boolean t.extent (t.text = ['t', 'r', 'u', 'e'])
  | .null => return .null t.extent
  | .nan => return .nan t.extent (sliceTo t.text (-3))
  | .infinity => return .infinity t.extent (sliceTo t.text (-8))
  | _ => failAt s (some t) (.misplacedToken t.text)

/-- Whether a token other than a string is the name of a member in a dialect. -/
def isBareKey (d : Dialect) (kind : Token.Kind) : Bool :=
  d == .json5 && [.identifier, .nan, .infinity, .boolean, .null].contains kind

def key : Reading Key := do
  match ← current with
  | some t =>
    if t.kind = .string then
      let _ ← take s
      return .quoted t.extent (← stringValue s t)
    else if isBareKey s.profile.dialect t.kind then
      let _ ← take s
      return .bare t.extent t.text
    else failAt s (some t) .missingKey
  | none => failAt s none .missingKey

/-! ## Structures -/

mutual

/-- Any value, within a bound. -/
def valueWithin : Nat → Reading Node
  | 0 => failAt s none .missingValue
  | bound + 1 => do
    match ← current with
    | none => failAt s none .missingValue
    | some t =>
      if t.kind = .leftBrace then objectWithin bound
      else if t.kind = .leftBracket then arrayWithin bound
      else
        let t ← take s
        scalar s t

def objectWithin : Nat → Reading Node
  | 0 => failAt s none .missingValue
  | bound + 1 => do
    let first ← expect s .leftBrace "'\x7b'"
    enter s
    let members ← membersWithin bound
    let last ← expect s .rightBrace "'\x7d' to close object"
    leave
    return .object (first.extent.join last.extent) members

/-- The members up to the closing brace or the last comma, within a bound. -/
def membersWithin : Nat → Reading (List (Key × Node))
  | 0 => failAt s none .missingValue
  | bound + 1 => do
    if ← isNext .rightBrace then return []
    else
      let name ← key s
      let _ ← expect s .colon "':' after key"
      let value ← valueWithin bound
      if ← continues s .rightBrace then return (name, value) :: (← membersWithin bound)
      else return [(name, value)]

def arrayWithin : Nat → Reading Node
  | 0 => failAt s none .missingValue
  | bound + 1 => do
    let first ← expect s .leftBracket "'['"
    enter s
    let elements ← elementsWithin bound
    let last ← expect s .rightBracket "']' to close array"
    leave
    return .array (first.extent.join last.extent) elements

/-- The elements up to the closing bracket or the last comma, within a bound. -/
def elementsWithin : Nat → Reading (List Node)
  | 0 => failAt s none .missingValue
  | bound + 1 => do
    if ← isNext .rightBracket then return []
    else
      let value ← valueWithin bound
      if ← continues s .rightBracket then return value :: (← elementsWithin bound)
      else return [value]

end

/-! ## Entry points -/

/-- A bound that no reading of so many tokens meets. -/
def boundFor (tokens : Nat) : Nat := 3 * tokens + 3

def value : Reading Node := do valueWithin s (boundFor (← get).rest.length)

def object : Reading Node := do objectWithin s (boundFor (← get).rest.length)

def array : Reading Node := do arrayWithin s (boundFor (← get).rest.length)

/-- The start of a reading: the code tokens, none taken and no bracket open. -/
def start (tokens : List Token) : Progress := ⟨0, tokens.filter Token.isCode, 0⟩

/-- Reads the rest of the tokens as one document, with the depth counted from zero. -/
def document (text : Text) (tokens : List Token) : Reading Document := do
  modify fun p => { p with depth := 0 }
  let body ← value s
  match ← current with
  | some t => failAt s (some t) (.extraToken t.text)
  | none => return ⟨⟨⟨0, text.length⟩, ⟨.origin, s.stop⟩⟩, body, tokens⟩

def Setting.ofText (profile : Profile) (text : Text) : Setting := ⟨profile, Cursor.endOf text⟩

end LocatedJson.Parse

namespace LocatedJson

/-- The outcome of a reading without its state. -/
def Parse.Reading.outcome {α : Type} (reading : Parse.Reading α) (p : Parse.Progress) :
    Except Fault α :=
  match reading.run p with
  | .ok a _ => .ok a
  | .error fault _ => .error fault

/-- Reads tokens of a text as a document. -/
def Document.ofTokens (profile : Profile) (text : Text) (tokens : List Token) :
    Except Fault Document :=
  (Parse.document (.ofText profile text) text tokens).outcome (Parse.start tokens)

/-- Reads a text as a document. The size is examined first, then the tokens, then
the tree. -/
def Document.ofText (profile : Profile) (text : Text) : Except Fault Document :=
  match profile.limits.sizeExcess? text.length with
  | some excess => .error (.complaint (.exceeded excess))
  | none =>
    let lexed := Lexed.ofText profile.dialect text
    match lexed.fault? with
    | some (cause, position) => .error (.complaint (.malformed cause position))
    | none => Document.ofTokens profile text lexed.tokens

end LocatedJson
