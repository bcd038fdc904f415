import LocatedJson.Position
import LocatedJson.Text.Basic

/-!
# Tokens

A token is a kind, the characters it was written with, and its extent.
Comments are tokens too.
-/

namespace LocatedJson

inductive Token.Kind where
  | leftBrace
  | rightBrace
  | leftBracket
  | rightBracket
  | colon
  | comma
  | string
  | number
  | boolean
  | null
  | nan
  | infinity
  | identifier
  | lineComment
  | blockComment
  deriving DecidableEq, Repr

/-- A piece of a text. -/
structure Token where
  kind : Token.Kind
  text : Text
  extent : Extent
  deriving DecidableEq, Repr

namespace Token

namespace Kind

def all : List Kind :=
  [.leftBrace, .rightBrace, .leftBracket, .rightBracket, .colon, .comma,
   .string, .number, .boolean, .null, .nan, .infinity,
   .identifier, .lineComment, .blockComment]

def name : Kind → String
  | leftBrace => "LBrace"
  | rightBrace => "RBrace"
  | leftBracket => "LBracket"
  | rightBracket => "RBracket"
  | colon => "Colon"
  | comma => "Comma"
  | string => "String"
  | number => "Number"
  | boolean => "Boolean"
  | null => "Null"
  | nan => "NaN"
  | infinity => "Infinity"
  | identifier => "Identifier"
  | lineComment => "LineComment"
  | blockComment => "BlockComment"

def ofName? (name : String) : Option Kind := all.find? (·.name == name)

theorem ofName?_name (k : Kind) : ofName? k.name = some k := by
  cases k <;> rfl

def isComment : Kind → Bool
  | lineComment | blockComment => true
  | _ => false

end Kind

def isComment (t : Token) : Bool := t.kind.isComment

/-- Whether the token is part of the document proper. -/
def isCode (t : Token) : Bool := !t.isComment

def start (t : Token) : Position := t.extent.span.start

end Token

end LocatedJson
