import LocatedJson.Directive
import LocatedJson.Lines
import LocatedJson.Neighbour
import LocatedJson.Text.Slice
import LocatedJson.Walk

/-!
# Source files

A source file is a text with its outline and its tokens. What a lint
engine asks about it is a function of these three. They are normally
those of one parsed document, but nothing here depends on that: an
outline and tokens supplied by hand are answered about as they are.
-/

namespace LocatedJson

structure SourceFile where
  text : Text
  outline : Outline
  tokens : List Token
  deriving DecidableEq, Repr

inductive CommentForm where
  | line
  | block
  deriving DecidableEq, Repr

def Token.Kind.commentForm? : Token.Kind → Option CommentForm
  | .lineComment => some .line
  | .blockComment => some .block
  | _ => none

/-- What a question may be about: a node or a token of the file, a token from
elsewhere, or nothing. -/
inductive Ref where
  | node (id : Nat)
  | token (index : Nat)
  | stray (typeName : String) (extent : Extent)
  | absent
  deriving DecidableEq, Repr

/-- What a reference leads to. -/
structure Element where
  typeName : String
  commentForm? : Option CommentForm
  extent : Extent
  deriving DecidableEq, Repr

namespace SourceFile

def ofDocument (text : Text) (d : Document) : SourceFile := ⟨text, .ofDocument d, d.tokens⟩

variable (f : SourceFile)

def element? : Ref → Option Element
  | .node id => (f.outline.entries[id]?).map fun e => ⟨e.type.name, none, e.extent⟩
  | .token index => (f.tokens[index]?).map fun t => ⟨t.kind.name, t.kind.commentForm?, t.extent⟩
  | .stray typeName extent =>
    some ⟨typeName, (Token.Kind.ofName? typeName).bind (·.commentForm?), extent⟩
  | .absent => none

/-- The text of a range, with so many more characters on either side. -/
def textOf (range : Range) (before after : Int) : Text :=
  Text.slice f.text (max (range.start - before) 0) (range.stop + after)

/-- The text of a comment without its delimiters. The range decides, not the
characters of the token. -/
def commentText (form : CommentForm) (range : Range) : Text :=
  match form with
  | .line => Text.sliceFrom (f.textOf range 0 0) 2
  | .block => Text.slice (f.textOf range 0 0) 2 (-2)

/-- The comments that bear directives, by their places among the tokens. -/
def bearers : List Directive.Bearer :=
  (f.tokens.zipIdx.filterMap fun (t, index) =>
    t.kind.commentForm?.map fun form =>
      ⟨index, t.extent.span, f.commentText form t.extent.range⟩).filter
    fun b => Directive.isInline b.text

end SourceFile

end LocatedJson
