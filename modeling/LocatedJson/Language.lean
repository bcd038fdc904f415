import LocatedJson.Parse
import LocatedJson.SourceFile

/-!
# Languages

A language is a dialect under limits, as a lint engine holds it. It
checks the options of a caller, reads texts, and makes source files of
what it has read. A complaint about a text is part of the outcome and is
logged; options that the dialect cannot honour and literals without a
value are refusals.
-/

namespace LocatedJson

/-- The option for a comma before a closing bracket, as a caller gives it. -/
inductive CommaOption where
  | unset
  | given (wanted : Bool)
  | other
  deriving DecidableEq, Repr

/-- Why a request is not carried out. -/
inductive Refusal where
  | unknownDialect (name : Text)
  | limits (fault : LimitsFault)
  | commasNotBoolean
  | commasUnavailable
  | noDocument
  | unconvertible (cause : Unconvertible)
  deriving DecidableEq, Repr

namespace Refusal

def message : Refusal → String
  | unknownDialect name => String.ofList (Text.display name) ++ " is not a valid Mode"
  | limits fault => fault.message
  | commasNotBoolean => "allow_trailing_commas must be a boolean if provided."
  | commasUnavailable => "allow_trailing_commas option is only available in JSONC."
  | noDocument => "Cannot create source code from a failed parse"
  | unconvertible cause => cause.message

end Refusal

/-- What came of reading a text: a document, or one complaint. -/
inductive Outcome where
  | document (d : Document)
  | rejected (about : Complaint)
  deriving Repr

structure Language where
  dialect : Dialect := .json
  limits : Limits := {}
  deriving DecidableEq, Repr

namespace Language

def lineStart : Nat := 1

def columnStart : Nat := 1

def nodeTypeKey : String := "type"

/-- Whether the options of a caller can be honoured. -/
def validate (l : Language) : CommaOption → Except Refusal Unit
  | .other => .error .commasNotBoolean
  | .given true => if l.dialect = .jsonc then .ok () else .error .commasUnavailable
  | .given false | .unset => .ok ()

def profile (l : Language) (commas : CommaOption) : Profile :=
  ⟨l.dialect, l.limits, commas = .given true⟩

def read (l : Language) (text : Text) (commas : CommaOption) : Except Refusal Outcome :=
  match l.validate commas with
  | .error refusal => .error refusal
  | .ok () =>
    match Document.ofText (l.profile commas) text with
    | .ok d => .ok (.document d)
    | .error (.complaint about) => .ok (.rejected about)
    | .error (.unconvertible cause) => .error (.unconvertible cause)

def log (l : Language) : Outcome → List String
  | .document _ => []
  | .rejected about =>
    ["Failed to parse " ++ l.dialect.name ++ " document: " ++ about.report.message]

def sourceFile (text : Text) : Outcome → Except Refusal SourceFile
  | .document d => .ok (.ofDocument text d)
  | .rejected _ => .error .noDocument

end Language

end LocatedJson
