import LocatedJson.Numeral
import LocatedJson.Text.CodePoint
import LocatedJson.Token

/-!
# Document trees

The tree of a document: values with their extents, members and elements
in the order of the text, equal keys kept. A member reaches from its key
to its value and an element has the extent of its value, so neither
stores an extent of its own.
-/

namespace LocatedJson

/-- The name of a member: a string, or in json5 a bare word. -/
inductive Key where
  | quoted (extent : Extent) (value : List CodePoint)
  | bare (extent : Extent) (name : Text)
  deriving DecidableEq, Repr

/-- A value of a document. -/
inductive Node where
  | string (extent : Extent) (value : List CodePoint)
  | number (extent : Extent) (value : Number)
  | boolean (extent : Extent) (value : Bool)
  | null (extent : Extent)
  | nan (extent : Extent) (sign : Text)
  | infinity (extent : Extent) (sign : Text)
  | object (extent : Extent) (members : List (Key × Node))
  | array (extent : Extent) (elements : List Node)
  deriving Repr

/-- A document: its value and all tokens of its text, comments included. -/
structure Document where
  extent : Extent
  body : Node
  tokens : List Token
  deriving Repr

namespace Key

def extent : Key → Extent
  | quoted e _ | bare e _ => e

end Key

namespace Node

def extent : Node → Extent
  | string e _ | number e _ | boolean e _ | null e | nan e _ | infinity e _
  | object e _ | array e _ => e

/-- Where a member stands: from its key to its value. -/
def memberExtent (name : Key) (value : Node) : Extent := name.extent.join value.extent

end Node

end LocatedJson
