import LocatedJson.Token

/-!
# Neighbouring tokens

The token before an element is found through the token that starts where
the element starts, and the token after it through the one that ends
where it ends. When several tokens share a boundary the last of them
owns it. Comments are passed over unless they are asked for.
-/

namespace LocatedJson.Neighbour

/-- The last place in a list where a test holds. -/
def lastIndex? {α : Type} (test : α → Bool) : List α → Option Nat
  | [] => none
  | x :: rest =>
    match lastIndex? test rest with
    | some i => some (i + 1)
    | none => if test x then some 0 else none

variable (tokens : List Token)

/-- The token that owns a start. -/
def indexOfStart? (offset : Int) : Option Nat :=
  lastIndex? (fun t => t.extent.range.start == offset) tokens

/-- The token that owns an end. -/
def indexOfEnd? (offset : Int) : Option Nat :=
  lastIndex? (fun t => t.extent.range.stop == offset) tokens

/-- The nearest place of a token that is no comment, from a place on back to the first one. -/
def skipBack (i : Nat) : Option Nat :=
  if tokens[i]?.any Token.isComment then
    match i with
    | 0 => none
    | i + 1 => skipBack i
  else some i

/-- The nearest place of a token that is no comment, from a place on up to the last one. -/
def skipOn (i : Nat) : Option Nat :=
  if h : i < tokens.length then
    if tokens[i].isComment then skipOn (i + 1) else some i
  else none
termination_by tokens.length - i

/-- The token before a range. -/
def before? (range : Range) (withComments : Bool) : Option Nat :=
  (indexOfStart? tokens range.start).bind fun
    | 0 => none
    | i + 1 => if withComments then some i else skipBack tokens i

/-- The token after a range. -/
def after? (range : Range) (withComments : Bool) : Option Nat :=
  (indexOfEnd? tokens range.stop).bind fun i =>
    if tokens.length ≤ i + 1 then none
    else if withComments then some (i + 1) else skipOn tokens (i + 1)

/-- The comments, by their places in the list. -/
def comments : List Nat :=
  (tokens.zipIdx.filter fun (t, _) => t.isComment).map Prod.snd

/-- Every boundary of one side with the token that owns it, in rising order. -/
def boundaryTable (side : Token → Int) : List (Int × Nat) :=
  let offsets := ((tokens.map side).mergeSort (· ≤ ·)).eraseDups
  offsets.filterMap fun o => (lastIndex? (fun t => side t == o) tokens).map (o, ·)

def starts : List (Int × Nat) := boundaryTable tokens fun t => t.extent.range.start

def ends : List (Int × Nat) := boundaryTable tokens fun t => t.extent.range.stop

end LocatedJson.Neighbour
