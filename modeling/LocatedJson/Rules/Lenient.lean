import LocatedJson.Numeral.Literal
import LocatedJson.Numeral.Size
import LocatedJson.Pairs
import LocatedJson.Rules.Severity
import LocatedJson.Text.Blank

/-!
# The lenient reading of rule settings

Rule settings are written as names and values with a colon between them.
Names and strings need quotes only if they hold blanks or marks, commas
are optional and may be repeated, and the braces around the whole may be
left out. The text is split into words, strings and marks, and these are
read by descent, as the grammar

    settings = members | "{" members "}"
    members  = ","* (name ":" value ","*)*
    name     = word | string
    value    = word | string | "[" ","* (value ","*)* "]" | "{" members "}"

has it. There is one way to fail: the text has no lenient reading.
-/

namespace LocatedJson.Rules

open LocatedJson.Text

/-- The parts of a text of rule settings; a string is kept without its quotes and
backslashes. -/
inductive Part where
  | quoted (body : Text)
  | word (chars : Text)
  | mark (c : Char)
  deriving DecidableEq, Repr

/-- Whether a character is a part by itself. -/
def isMark (c : Char) : Bool := ['\x7b', '\x7d', '[', ']', ':', ','].contains c

def isQuote (c : Char) : Bool := c == '"' || c == '\''

def isWordPart (c : Char) : Bool := !(isBlank c || isMark c || isQuote c)

/-- The body of a string up to its closing quote, and what follows. A backslash
stands for the character after it. -/
def quotedBody? (quote : Char) : Text → Option (Text × Text)
  | [] => none
  | c :: rest =>
    if c = quote then some ([], rest)
    else if c = '\\' then
      match rest with
      | [] => none
      | e :: after => (quotedBody? quote after).map fun (body, later) => (e :: body, later)
    else (quotedBody? quote rest).map fun (body, later) => (c :: body, later)

theorem length_of_quotedBody? {quote : Char} {cs body later : Text}
    (h : quotedBody? quote cs = some (body, later)) : later.length < cs.length := by
  fun_induction quotedBody? quote cs generalizing body with
  | case1 => cases h
  | case2 rest =>
      cases h
      simp
  | case3 => cases h
  | case4 e after _ ih =>
      obtain ⟨⟨b, l⟩, hb, he⟩ := Option.map_eq_some_iff.1 h
      cases he
      have := ih hb
      simp only [List.length_cons]
      omega
  | case5 c rest _ _ ih =>
      obtain ⟨⟨b, l⟩, hb, he⟩ := Option.map_eq_some_iff.1 h
      cases he
      have := ih hb
      simp only [List.length_cons]
      omega

/-- The parts of a text; none if a string is not closed. -/
def parts? : Text → Option (List Part)
  | [] => some []
  | c :: rest =>
    if isBlank c then parts? rest
    else if isMark c then (parts? rest).map (.mark c :: ·)
    else if isQuote c then
      match _h : quotedBody? c rest with
      | none => none
      | some (body, after) => (parts? after).map (.quoted body :: ·)
    else
      (parts? (rest.dropWhile isWordPart)).map (.word (c :: rest.takeWhile isWordPart) :: ·)
termination_by cs => cs.length
decreasing_by
  · simp
  · simp
  · have := length_of_quotedBody? (by assumption)
    simp only [List.length_cons]
    omega
  · have := (List.dropWhile_sublist (p := isWordPart) (l := rest)).length_le
    simp only [List.length_cons]
    omega

/-- Whether a word is a decimal number with an optional minus. -/
def isNumeric (word : Text) : Bool :=
  let body := if word.head? = some '-' then word.drop 1 else word
  !body.isEmpty && Numeral.wideDecimalSize isDecimal body == body.length

/-- The value that a word stands for; none if it is a number that is too long. -/
def wordValue? (word : Text) : Option Datum :=
  if word = "true".toList then some (.bool true)
  else if word = "false".toList then some (.bool false)
  else if word = "null".toList ∨ word = "undefined".toList then some .null
  else if isNumeric word then (Numeral.literalValue word).toOption.map .number
  else some (.text (CodePoint.ofText word))

def name? : Part → Option (List CodePoint)
  | .quoted body => some (CodePoint.ofText body)
  | .word chars => some (CodePoint.ofText chars)
  | .mark _ => none

mutual

/-- A value and what follows it, within a bound on the work and with so many
brackets still allowed. -/
def valueWithin : Nat → Nat → List Part → Option (Datum × List Part)
  | 0, _, _ => none
  | _ + 1, _, [] => none
  | bound + 1, depth, part :: rest =>
    match part with
    | .quoted body => some (.text (CodePoint.ofText body), rest)
    | .word chars => (wordValue? chars).map fun value => (value, rest)
    | .mark c =>
      match depth with
      | 0 => none
      | depth + 1 =>
        if c = '[' then
          (itemsWithin bound depth rest).map fun (items, after) => (.list items, after)
        else if c = '\x7b' then
          match membersWithin bound depth [] rest with
          | some (entries, .mark '\x7d' :: after) => some (.map entries, after)
          | _ => none
        else none

/-- The items up to the closing bracket, and what follows it. -/
def itemsWithin : Nat → Nat → List Part → Option (List Datum × List Part)
  | 0, _, _ => none
  | bound + 1, depth, list =>
    match list with
    | .mark ']' :: rest => some ([], rest)
    | .mark ',' :: rest => itemsWithin bound depth rest
    | list =>
      match valueWithin bound depth list with
      | none => none
      | some (value, after) =>
        (itemsWithin bound depth after).map fun (items, after) => (value :: items, after)

/-- The members up to a closing brace or the end, added to those already read, and
what follows from there on. -/
def membersWithin : Nat → Nat → Settings → List Part → Option (Settings × List Part)
  | 0, _, _, _ => none
  | bound + 1, depth, entries, list =>
    match list with
    | [] => some (entries, [])
    | .mark '\x7d' :: rest => some (entries, .mark '\x7d' :: rest)
    | .mark ',' :: rest => membersWithin bound depth entries rest
    | part :: .mark ':' :: rest =>
      match name? part, valueWithin bound depth rest with
      | some name, some (value, after) =>
        membersWithin bound depth (Pairs.put entries name value) after
      | _, _ => none
    | _ => none

end

/-- The most lists and maps that may be open at once, the outermost not counted. -/
def maxDepth : Nat := 100

/-- A bound on the work that no list of so many parts meets. -/
def boundFor (parts : Nat) : Nat := 2 * parts + 2

/-- The settings that all of the parts spell as members. -/
def members? (list : List Part) : Option Settings :=
  match membersWithin (boundFor list.length) maxDepth [] list with
  | some (entries, []) => some entries
  | _ => none

/-- The settings that parts spell. Braces around the whole are left out of account. -/
def ofParts? (list : List Part) : Option Settings :=
  if list.head? = some (.mark '\x7b') ∧ list.getLast? = some (.mark '\x7d') then
    members? (list.drop 1).dropLast
  else members? list

def lenient? (cs : Text) : Option Settings := (parts? cs).bind ofParts?

end LocatedJson.Rules
