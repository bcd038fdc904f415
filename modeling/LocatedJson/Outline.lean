import LocatedJson.Node

/-!
# Outlines

An outline is a table of nodes that refer to each other by number, with
the root at number zero. The outline of a document lists its nodes in
the order in which they start, each before its children. Outlines can
also be supplied by hand: a node may then be the child of several
others, a child may be missing, and a type may be unknown.

The children of a node are what it holds under the keys of its type, in
the order of the keys; a type without keys has none, whatever the node
holds.
-/

namespace LocatedJson

/-- The types of nodes; a type that is not known is kept by its name. -/
inductive NodeType where
  | document
  | object
  | member
  | array
  | element
  | string
  | number
  | boolean
  | null
  | nan
  | infinity
  | identifier
  | unknown (name : String)
  deriving DecidableEq, Repr

/-- The keys under which a node holds children. -/
inductive ChildKey where
  | body
  | name
  | value
  | members
  | elements
  deriving DecidableEq, Repr

namespace NodeType

def known : List NodeType :=
  [document, object, member, array, element, string, number, boolean, null, nan, infinity,
   identifier]

def name : NodeType → String
  | document => "Document"
  | object => "Object"
  | member => "Member"
  | array => "Array"
  | element => "Element"
  | string => "String"
  | number => "Number"
  | boolean => "Boolean"
  | null => "Null"
  | nan => "NaN"
  | infinity => "Infinity"
  | identifier => "Identifier"
  | unknown name => name

def ofName (name : String) : NodeType := (known.find? (·.name == name)).getD (unknown name)

/-- The keys of a type, in the order of the text. -/
def childKeys : NodeType → List ChildKey
  | document => [.body]
  | object => [.members]
  | member => [.name, .value]
  | array => [.elements]
  | element => [.value]
  | _ => []

/-- The types whose nodes have children. -/
def parents : List NodeType := [document, object, member, array, element]

theorem childKeys_ne_nil_iff (t : NodeType) : t.childKeys ≠ [] ↔ t ∈ parents := by
  cases t <;> simp [childKeys, parents]

end NodeType

namespace ChildKey

def title : ChildKey → String
  | body => "body"
  | name => "name"
  | value => "value"
  | members => "members"
  | elements => "elements"

def all : List ChildKey := [body, name, value, members, elements]

end ChildKey

namespace Outline

/-- What a node holds under a key: one child or several, any of them missing. -/
inductive Slot where
  | one (child : Option Nat)
  | many (children : List (Option Nat))
  deriving DecidableEq, Repr

/-- The children in a slot that are not missing. -/
def Slot.present : Slot → List Nat
  | one child => child.toList
  | many children => children.filterMap id

/-- What a node without children says. -/
inductive Content where
  | nothing
  | text (points : List CodePoint)
  | number (n : Number)
  | boolean (b : Bool)
  | sign (sign : Text)
  | word (name : Text)
  | tokenCount (n : Nat)
  deriving DecidableEq, Repr

structure Entry where
  type : NodeType
  extent : Extent
  slots : List (ChildKey × Slot) := []
  content : Content := .nothing
  deriving DecidableEq, Repr

/-- The children of a node, in the order of the text. -/
def Entry.children (e : Entry) : List Nat :=
  e.type.childKeys.flatMap fun key => ((e.slots.lookup key).map Slot.present).getD []

end Outline

/-- A table of nodes. -/
structure Outline where
  entries : List Outline.Entry
  deriving DecidableEq, Repr

namespace Outline

def children (o : Outline) (id : Nat) : List Nat :=
  ((o.entries[id]?).map Entry.children).getD []

/-! ## The outline of a tree -/

def keyEntry : Key → Entry
  | .quoted e points => ⟨.string, e, [], .text points⟩
  | .bare e name => ⟨.identifier, e, [], .word name⟩

mutual

/-- The entries of a value whose own entry has a number. -/
def nodeEntries (id : Nat) : Node → List Entry
  | .string e points => [⟨.string, e, [], .text points⟩]
  | .number e n => [⟨.number, e, [], .number n⟩]
  | .boolean e b => [⟨.boolean, e, [], .boolean b⟩]
  | .null e => [⟨.null, e, [], .nothing⟩]
  | .nan e sign => [⟨.nan, e, [], .sign sign⟩]
  | .infinity e sign => [⟨.infinity, e, [], .sign sign⟩]
  | .object e members =>
    let (ids, below) := memberEntries (id + 1) members
    ⟨.object, e, [(.members, .many (ids.map some))], .nothing⟩ :: below
  | .array e elements =>
    let (ids, below) := elementEntries (id + 1) elements
    ⟨.array, e, [(.elements, .many (ids.map some))], .nothing⟩ :: below

/-- The numbers of the members, and the entries of them and of all below. -/
def memberEntries (id : Nat) : List (Key × Node) → List Nat × List Entry
  | [] => ([], [])
  | (name, value) :: rest =>
    let own : Entry :=
      ⟨.member, Node.memberExtent name value,
        [(.name, .one (some (id + 1))), (.value, .one (some (id + 2)))], .nothing⟩
    let below := nodeEntries (id + 2) value
    let (ids, others) := memberEntries (id + 2 + below.length) rest
    (id :: ids, own :: keyEntry name :: below ++ others)

/-- The numbers of the elements, and the entries of them and of all below. -/
def elementEntries (id : Nat) : List Node → List Nat × List Entry
  | [] => ([], [])
  | value :: rest =>
    let own : Entry := ⟨.element, value.extent, [(.value, .one (some (id + 1)))], .nothing⟩
    let below := nodeEntries (id + 1) value
    let (ids, others) := elementEntries (id + 1 + below.length) rest
    (id :: ids, own :: below ++ others)

end

def ofNode (node : Node) : Outline := ⟨nodeEntries 0 node⟩

def ofDocument (d : Document) : Outline :=
  ⟨⟨.document, d.extent, [(.body, .one (some 1))], .tokenCount d.tokens.length⟩ ::
    nodeEntries 1 d.body⟩

end Outline

end LocatedJson
