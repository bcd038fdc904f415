import LocatedJson.Text.Blank

/-!
# Directive comments

A comment that directs a lint engine starts with a label, goes on with a
value, and may end with a justification after two or more dashes between
blanks. What stands after a second such separator is left out.
-/

namespace LocatedJson.Directive

open LocatedJson.Text

inductive Label where
  | settings
  | env
  | enable
  | disable
  | disableLine
  | disableNextLine
  | exported
  | global
  | globals
  deriving DecidableEq, Repr

namespace Label

def text : Label → String
  | settings => "eslint"
  | env => "eslint-env"
  | enable => "eslint-enable"
  | disable => "eslint-disable"
  | disableLine => "eslint-disable-line"
  | disableNextLine => "eslint-disable-next-line"
  | exported => "exported"
  | global => "global"
  | globals => "globals"

def all : List Label :=
  [settings, env, enable, disable, disableLine, disableNextLine, exported, global, globals]

def ofText? (cs : Text) : Option Label := all.find? fun l => l.text.toList == cs

/-- Whether comments with the label change the checks of the file that they stand in. -/
def isInline : Label → Bool
  | settings | enable | disable | disableLine | disableNextLine => true
  | env | exported | global | globals => false

end Label

structure Comment where
  label : Label
  value : Text
  justification : Text
  deriving DecidableEq, Repr

/-- What follows a separator at the front of a text: a blank, two or more dashes and a blank. -/
def afterSeparator? : Text → Option Text
  | [] => none
  | c :: rest =>
    let dashes := rest.takeWhile (· == '-')
    match rest.dropWhile (· == '-') with
    | b :: after => if isBlank c && 2 ≤ dashes.length && isBlank b then some after else none
    | [] => none

/-- The text before the first separator, and what follows the separator if there is one. -/
def splitAtSeparator : Text → Text × Option Text
  | [] => ([], none)
  | c :: rest =>
    match afterSeparator? (c :: rest) with
    | some after => ([], some after)
    | none =>
      let (front, after) := splitAtSeparator rest
      (c :: front, after)

/-- The directive and the justification of a comment, both without blanks around them. -/
def splitJustification (cs : Text) : Text × Text :=
  let (directive, after) := splitAtSeparator cs
  (trim directive, trim ((after.map fun rest => (splitAtSeparator rest).1).getD []))

/-- The parts of a comment, if its first word is a label. -/
def Comment.ofText? (cs : Text) : Option Comment :=
  let (directive, justification) := splitJustification cs
  let word := firstWord directive
  (Label.ofText? word).map fun label =>
    ⟨label, trim (directive.drop word.length), justification⟩

/-- Whether the first word of a comment is a label of the inline kind. -/
def isInline (cs : Text) : Bool :=
  ((Label.ofText? (firstWord (trimStart cs))).map Label.isInline).getD false

end LocatedJson.Directive
