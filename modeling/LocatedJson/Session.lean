import LocatedJson.SourceFile

/-!
# Sessions

A session answers questions about one source file, one after the other.
What is costly is kept once it has been found: the walk, the comments
that bear directives, the lines and where they start. Finding the walk
or the comments is logged, using them again is not. Replays of the walk
are kept under names and go on independently of each other. The parent
of a node is known only once the walk has been asked for.
-/

namespace LocatedJson

inductive Query where
  | tokens
  | comments
  | inlineComments
  | commentText (ref : Ref)
  | before (ref : Ref) (withComments : Bool)
  | after (ref : Ref) (withComments : Bool)
  | directives
  | ruleSettings (depth : Nat := Rules.usualDepth)
  | walk
  | startReplay (name : String)
  | nextStep (name : String)
  | cached
  | parent (ref : Ref)
  | ancestors (ref : Ref)
  | children (ref : Ref)
  | lines
  | text (ref : Ref) (before after : Int)
  | span (ref : Ref)
  | range (ref : Ref)
  | multiline (ref : Ref)
  | place (index : Coordinate)
  | index (line column : Coordinate)
  deriving DecidableEq, Repr

inductive Answer where
  | nothing
  | tokens (list : List Token)
  | numbers (list : List Nat)
  | number (n : Option Nat)
  | text (cs : Text)
  | texts (list : List Text)
  | directives (found : Directive.Found)
  | ruleSettings (found : RuleSetting.Found)
  | steps (list : List WalkStep)
  | step (s : Option WalkStep)
  | cached (known : Bool) (steps : Nat)
  | span (s : Span)
  | range (r : Range)
  | flag (b : Bool)
  | position (p : Position)
  | offset (n : Int)
  deriving Repr

/-- Why a question has no answer. -/
inductive QueryFault where
  | notComment (typeName : String) (position : Position)
  | place (fault : PlaceFault)
  | unconvertible (cause : Unconvertible)
  | absent (feature : String)
  deriving DecidableEq, Repr

/-- The fault as it is shown. Only a wrong comment has a place. -/
def QueryFault.report : QueryFault → Report
  | notComment typeName position => ⟨notCommentMessage typeName, some position, []⟩
  | place fault => { message := fault.message }
  | unconvertible cause => { message := cause.message }
  | absent feature => { message := "'NoneType' object has no attribute '" ++ feature ++ "'" }

/-- An answer with what was logged on the way to it. -/
structure Reply where
  result : Except QueryFault Answer
  log : List String := []

/-- A session and what it has found so far. -/
structure Session where
  file : SourceFile
  walk? : Option Walk := none
  bearers? : Option (List Directive.Bearer) := none
  lines? : Option (List Text) := none
  lineStarts? : Option (List Nat) := none
  replays : List (String × List WalkStep) := []
  deriving DecidableEq, Repr

namespace Session

def bearersMessage (count : Nat) : String := s!"Found {count} inline configuration comments"

def walkMessage (steps : Nat) : String := s!"Computed traversal of {steps} steps"

/-- The comments that bear directives, what was logged, and the session that knows them. -/
def findBearers (s : Session) : List Directive.Bearer × List String × Session :=
  match s.bearers? with
  | some bearers => (bearers, [], s)
  | none =>
    let bearers := s.file.bearers
    (bearers, [bearersMessage bearers.length], { s with bearers? := some bearers })

/-- The walk, what was logged, and the session that knows it. -/
def findWalk (s : Session) : Walk × List String × Session :=
  match s.walk? with
  | some walk => (walk, [], s)
  | none =>
    let walk := Walk.ofOutline s.file.outline
    (walk, [walkMessage walk.steps.length], { s with walk? := some walk })

def findLines (s : Session) : List Text × Session :=
  match s.lines? with
  | some lines => (lines, s)
  | none =>
    let lines := Text.lines s.file.text
    (lines, { s with lines? := some lines })

def findLineStarts (s : Session) : List Nat × Session :=
  match s.lineStarts? with
  | some starts => (starts, s)
  | none =>
    let starts := Text.lineStarts s.file.text
    (starts, { s with lineStarts? := some starts })

/-- The parent of what a reference leads to; only nodes have one. -/
def parent? (s : Session) : Ref → Option Nat
  | .node id => s.walk?.bind (·.parent? id)
  | _ => none

/-- The nodes above what a reference leads to, the root first. -/
def ancestors (s : Session) : Ref → List Nat
  | .node id => (s.walk?.map (·.ancestors id)).getD []
  | _ => []

def children (s : Session) : Ref → List Nat
  | .node id => s.file.outline.children id
  | _ => []

/-- The answer about what a reference leads to; without one, the named feature is missing. -/
def about (s : Session) (ref : Ref) (feature : String)
    (answer : Element → Except QueryFault Answer) : Except QueryFault Answer :=
  match s.file.element? ref with
  | some e => answer e
  | none => .error (.absent feature)

def commentText (s : Session) (e : Element) : Except QueryFault Answer :=
  match e.commentForm? with
  | some form => .ok (.text (s.file.commentText form e.extent.range))
  | none => .error (.notComment e.typeName e.extent.span.start)

/-- The text of an element and its surroundings; without an element, the whole text. -/
def text (s : Session) (ref : Ref) (before after : Int) : Text :=
  match s.file.element? ref with
  | some e => s.file.textOf e.extent.range before after
  | none => s.file.text

def place (s : Session) (index : Coordinate) : Except PlaceFault Position × Session :=
  match Text.offsetOf s.file.text.length index with
  | .error fault => (.error fault, s)
  | .ok offset =>
    let (starts, s) := s.findLineStarts
    (.ok (Text.placeIn starts offset), s)

def index (s : Session) (line column : Coordinate) : Except PlaceFault Int × Session :=
  match Text.numbersOf line column with
  | .error fault => (.error fault, s)
  | .ok (l, c) =>
    let (starts, s) := s.findLineStarts
    match Text.rowOf starts line l with
    | .error fault => (.error fault, s)
    | .ok row =>
      let (lines, s) := s.findLines
      (Text.columnIn starts lines row column c, s)

def ask (s : Session) : Query → Reply × Session
  | .tokens => (⟨.ok (.tokens s.file.tokens), []⟩, s)
  | .comments => (⟨.ok (.numbers (Neighbour.comments s.file.tokens)), []⟩, s)
  | .inlineComments =>
    let (bearers, log, s) := s.findBearers
    (⟨.ok (.numbers (bearers.map (·.index))), log⟩, s)
  | .commentText ref => (⟨s.about ref "type" s.commentText, []⟩, s)
  | .before ref withComments =>
    (⟨s.about ref "range" fun e =>
      .ok (.number (Neighbour.before? s.file.tokens e.extent.range withComments)), []⟩, s)
  | .after ref withComments =>
    (⟨s.about ref "range" fun e =>
      .ok (.number (Neighbour.after? s.file.tokens e.extent.range withComments)), []⟩, s)
  | .directives =>
    let (bearers, log, s) := s.findBearers
    let found := Directive.ofBearers bearers
    (⟨.ok (.directives found), log ++ found.log⟩, s)
  | .ruleSettings depth =>
    let (bearers, log, s) := s.findBearers
    match RuleSetting.ofBearers bearers depth with
    | .ok found => (⟨.ok (.ruleSettings found), log ++ found.log⟩, s)
    | .error (cause, more) => (⟨.error (.unconvertible cause), log ++ more⟩, s)
  | .walk =>
    let (walk, log, s) := s.findWalk
    (⟨.ok (.steps walk.steps), log⟩, s)
  | .startReplay name =>
    let (walk, log, s) := s.findWalk
    (⟨.ok .nothing, log⟩, { s with replays := Pairs.put s.replays name walk.steps })
  | .nextStep name =>
    match Pairs.get? s.replays name with
    | some (step :: rest) =>
      (⟨.ok (.step (some step)), []⟩, { s with replays := Pairs.put s.replays name rest })
    | _ => (⟨.ok (.step none), []⟩, s)
  | .cached =>
    (⟨.ok (.cached s.walk?.isSome ((s.walk?.map (·.steps.length)).getD 0)), []⟩, s)
  | .parent ref => (⟨.ok (.number (s.parent? ref)), []⟩, s)
  | .ancestors ref => (⟨.ok (.numbers (s.ancestors ref)), []⟩, s)
  | .children ref => (⟨.ok (.numbers (s.children ref)), []⟩, s)
  | .lines =>
    let (lines, s) := s.findLines
    (⟨.ok (.texts lines), []⟩, s)
  | .text ref before after => (⟨.ok (.text (s.text ref before after)), []⟩, s)
  | .span ref => (⟨s.about ref "loc" fun e => .ok (.span e.extent.span), []⟩, s)
  | .range ref => (⟨s.about ref "range" fun e => .ok (.range e.extent.range), []⟩, s)
  | .multiline ref =>
    (⟨s.about ref "loc" fun e => .ok (.flag e.extent.span.isMultiline), []⟩, s)
  | .place index =>
    let (found, s) := s.place index
    (⟨(found.mapError .place).map .position, []⟩, s)
  | .index line column =>
    let (found, s) := s.index line column
    (⟨(found.mapError .place).map .offset, []⟩, s)

end Session

end LocatedJson
