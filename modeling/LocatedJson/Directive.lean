import LocatedJson.Directive.Comment
import LocatedJson.Directive.Lists
import LocatedJson.Position
import LocatedJson.Rules

/-!
# Directives of a file

The directive comments of a file yield four lists, each in the order of
the comments: directives that switch rules off and on, rule settings,
and the problems of either. A comment that is malformed is a problem of
its own and does not affect the others. Every problem is logged when it
is found.
-/

namespace LocatedJson

/-- What a directive that switches rules applies to. -/
inductive Directive.Scope where
  | disable
  | enable
  | disableNextLine
  | disableLine
  deriving DecidableEq, Repr

/-- A comment that may bear a directive: its number among the tokens, where it stands, and its text
without the delimiters. -/
structure Directive.Bearer where
  index : Nat
  span : Span
  text : Text
  deriving DecidableEq, Repr

/-- A directive that switches rules. -/
structure Directive where
  scope : Directive.Scope
  index : Nat
  value : Text
  justification : Text
  deriving DecidableEq, Repr

/-- A problem of the file that no rule reported. -/
structure Problem where
  message : String
  span : Span
  deriving DecidableEq, Repr

structure RuleSetting where
  rules : Rules.Settings
  span : Span
  deriving Repr

namespace Directive

namespace Scope

def name : Scope → String
  | disable => "disable"
  | enable => "enable"
  | disableNextLine => "disable-next-line"
  | disableLine => "disable-line"

end Scope

/-- The scope of the directives with a label, if they switch rules. -/
def Label.scope? : Label → Option Scope
  | disable => some .disable
  | enable => some .enable
  | disableNextLine => some .disableNextLine
  | disableLine => some .disableLine
  | _ => none

/-- The names of the rules that a directive switches; none stand for all rules. -/
def ruleIds (d : Directive) : List Text := ruleNames d.value

/-- The outcome of looking for directives that switch rules. -/
structure Found where
  directives : List Directive := []
  problems : List Problem := []
  log : List String := []
  deriving DecidableEq, Repr

/-- The outcome of looking at one comment. A directive for its own line has no such
line if the comment spans several. -/
def ofBearer (bearer : Bearer) : Found :=
  match Comment.ofText? bearer.text with
  | none => {}
  | some comment =>
    if comment.label = .disableLine ∧ bearer.span.isMultiline then
      let message := comment.label.text ++ " comment should not span multiple lines."
      { problems := [⟨message, bearer.span⟩]
        log := [s!"Rejected directive at line {bearer.span.start.line}: {message}"] }
    else
      match comment.label.scope? with
      | none => {}
      | some scope =>
        { directives := [⟨scope, bearer.index, comment.value, comment.justification⟩] }

def ofBearers (bearers : List Bearer) : Found :=
  let found := bearers.map ofBearer
  ⟨found.flatMap Found.directives, found.flatMap Found.problems, found.flatMap Found.log⟩

end Directive

namespace RuleSetting

/-- The outcome of looking for rule settings. -/
structure Found where
  settings : List RuleSetting := []
  problems : List Problem := []
  log : List String := []
  deriving Repr

/-- The outcome of one comment before that of the others. -/
def Found.append (first rest : Found) : Found :=
  ⟨first.settings ++ rest.settings, first.problems ++ rest.problems, first.log ++ rest.log⟩

/-- The outcome of looking at one comment, with room for so many brackets in its value. -/
def ofBearer (depth : Nat) (bearer : Directive.Bearer) : Except Unconvertible Found :=
  match Directive.Comment.ofText? bearer.text with
  | none => .ok {}
  | some comment =>
    if comment.label = .settings then
      match Rules.read comment.value depth with
      | .error cause => .error cause
      | .ok (.ok rules) => .ok { settings := [⟨rules, bearer.span⟩] }
      | .ok (.error rejection) =>
        .ok
          { problems := [⟨rejection.message, bearer.span⟩]
            log := ["Rejected rule configuration at line " ++ toString bearer.span.start.line ++
              ": " ++ rejection.message] }
    else .ok {}

/-- The outcome of looking at several comments. A number without a value ends the
search; what was logged before it stays logged. -/
def ofBearers (bearers : List Directive.Bearer) (depth : Nat := Rules.usualDepth) :
    Except (Unconvertible × List String) Found :=
  match bearers with
  | [] => .ok {}
  | bearer :: rest =>
    match ofBearer depth bearer with
    | .error cause => .error (cause, [])
    | .ok found =>
      match ofBearers rest depth with
      | .error (cause, log) => .error (cause, found.log ++ log)
      | .ok others => .ok (found.append others)

end RuleSetting

end LocatedJson
