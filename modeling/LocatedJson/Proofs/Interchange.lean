import LocatedJson.Node

/-!
# The interchange grammar

The JSON that programs exchange, which all dialects have in common. The
derivations are data, so everything about a text can be computed from one:
what it spells, what it means, and how deep its brackets go.

    json     = ws value ws
    value    = 'null' | 'true' | 'false' | number | string | object | array
    object   = '{' [ member *( ',' member ) ] '}'
    array    = '[' [ value *( ',' value ) ] ']'
    member   = string ':' value
    number   = [ '-' ] whole [ '.' 1*digit ] [ ( 'e' | 'E' ) [ '+' | '-' ] 1*digit ]
    whole    = '0' | nonzero *digit
    string   = '"' *part '"'
    part     = plain | '\' letter | '\u' hex hex hex hex

White space may stand on both sides of brackets, colons and commas. A plain
character is any but the quote, the backslash and the control characters.

Nothing here looks at tokens: the meaning of a derivation (`Value.Denotes`)
is what a reader of the grammar expects of the text.
-/

namespace LocatedJson.Interchange

/-! ## White space and marks -/

/-- White space, none or more. -/
abbrev Blank := { cs : Text // ∀ c ∈ cs, c ∈ [' ', '\t', '\n', '\r'] }

def Blank.none : Blank := ⟨[], by simp⟩

/-- The white space around a bracket, colon or comma. -/
structure Mark where
  before : Blank
  after : Blank

def Mark.text (m : Mark) (c : Char) : Text := m.before.val ++ c :: m.after.val

/-! ## Numbers -/

structure Digit where
  char : Char
  is : '0' ≤ char ∧ char ≤ '9'

def Digit.value (d : Digit) : Nat := d.char.toNat - '0'.toNat

/-- The number that digits stand for, each with the weight of its place. -/
def decimal : List Digit → Nat
  | [] => 0
  | d :: ds => d.value * Nat.pow 10 ds.length + decimal ds

abbrev Digits := { ds : List Digit // ds ≠ [] }

/-- A zero alone, or digits of which the first is not zero. -/
inductive Whole where
  | zero
  | digits (first : Digit) (nonzero : first.char ≠ '0') (rest : List Digit)

def Whole.list : Whole → List Digit
  | zero => [⟨'0', by decide⟩]
  | digits first _ rest => first :: rest

inductive Sign where
  | plus
  | minus

def Sign.char : Sign → Char
  | plus => '+'
  | minus => '-'

structure Exponent where
  upper : Bool
  sign : Option Sign
  digits : Digits

def Exponent.letter (e : Exponent) : Char := if e.upper then 'E' else 'e'

def Exponent.text (e : Exponent) : Text :=
  e.letter :: (e.sign.map Sign.char).toList ++ e.digits.val.map Digit.char

def Exponent.value (e : Exponent) : Int :=
  match e.sign with
  | some .minus => -(decimal e.digits.val : Int)
  | _ => decimal e.digits.val

structure Number where
  minus : Bool
  whole : Whole
  fraction : Option Digits
  exponent : Option Exponent

namespace Number

def fractionDigits (n : Number) : List Digit := (n.fraction.map Subtype.val).getD []

def fractionText (n : Number) : Text :=
  match n.fraction with
  | some ds => '.' :: ds.val.map Digit.char
  | none => []

def exponentText (n : Number) : Text := (n.exponent.map Exponent.text).getD []

/-- The number without its sign. -/
def magnitudeText (n : Number) : Text :=
  n.whole.list.map Digit.char ++ n.fractionText ++ n.exponentText

def text (n : Number) : Text := (if n.minus then ['-'] else []) ++ n.magnitudeText

def isInteger (n : Number) : Bool := n.fraction.isNone && n.exponent.isNone

/-- The binary number nearest to the number without its sign. -/
def magnitude (n : Number) : Binary64 :=
  .ofDecimal false (decimal (n.whole.list ++ n.fractionDigits))
    ((n.exponent.map Exponent.value).getD 0 - n.fractionDigits.length)

/-- An integer stands for itself, every other number for the nearest binary one. -/
def value (n : Number) : LocatedJson.Number :=
  if n.isInteger then
    .int (if n.minus then -(decimal n.whole.list : Int) else decimal n.whole.list)
  else .float (if n.minus then n.magnitude.negate else n.magnitude)

end Number

/-! ## Strings -/

structure HexDigit where
  char : Char
  is : '0' ≤ char ∧ char ≤ '9' ∨ 'a' ≤ char ∧ char ≤ 'f' ∨ 'A' ≤ char ∧ char ≤ 'F'

def HexDigit.value (h : HexDigit) : Nat :=
  if h.char ≤ '9' then h.char.toNat - '0'.toNat
  else if h.char ≤ 'F' then h.char.toNat - 'A'.toNat + 10
  else h.char.toNat - 'a'.toNat + 10

/-- The letters that stand for a character behind a backslash. -/
def letters : List (Char × Char) :=
  [('"', '"'), ('\\', '\\'), ('/', '/'), ('b', '\x08'), ('f', '\x0c'), ('n', '\n'), ('r', '\r'),
   ('t', '\t')]

/-- A stretch of a string that spells one code point. -/
inductive Part where
  | plain (c : Char) (is : 0x20 ≤ c.toNat ∧ c ≠ '"' ∧ c ≠ '\\')
  | letter (c meaning : Char) (is : (c, meaning) ∈ letters)
  | unicode (a b c d : HexDigit)

def hex4 (a b c d : HexDigit) : Nat :=
  a.value * 0x1000 + b.value * 0x100 + c.value * 0x10 + d.value

def Part.text : Part → Text
  | plain c _ => [c]
  | letter c _ _ => ['\\', c]
  | unicode a b c d => ['\\', 'u', a.char, b.char, c.char, d.char]

/-- The body of a string, between the quotes. -/
def bodyText (parts : List Part) : Text := parts.flatMap Part.text

def stringText (parts : List Part) : Text := '"' :: bodyText parts ++ ['"']

theorem HexDigit.value_lt (h : HexDigit) : h.value < 16 := by
  obtain ⟨c, hc⟩ := h
  have hcases : 48 ≤ c.toNat ∧ c.toNat ≤ 57 ∨ 97 ≤ c.toNat ∧ c.toNat ≤ 102 ∨
      65 ≤ c.toNat ∧ c.toNat ≤ 70 := hc
  have h9 : c ≤ '9' ↔ c.toNat ≤ 57 := Iff.rfl
  have hF : c ≤ 'F' ↔ c.toNat ≤ 70 := Iff.rfl
  simp only [HexDigit.value, h9, hF, Char.reduceToNat]
  split
  · omega
  · split <;> omega

theorem hex4_lt (a b c d : HexDigit) : hex4 a b c d < 0x10000 := by
  have := a.value_lt
  have := b.value_lt
  have := c.value_lt
  have := d.value_lt
  unfold hex4
  omega

/-- The code point of a part by itself. -/
def Part.point : Part → CodePoint
  | plain c _ => .ofChar c
  | letter _ meaning _ => .ofChar meaning
  | unicode a b c d => ⟨hex4 a b c d, Nat.lt_trans (hex4_lt a b c d) (by decide)⟩

/-- The code point of two escapes that name the two halves of a surrogate pair. -/
def Part.pair? : Part → Part → Option CodePoint
  | unicode a b c d, unicode a' b' c' d' =>
    if h : CodePoint.isHighSurrogate (hex4 a b c d) ∧ CodePoint.isLowSurrogate (hex4 a' b' c' d')
    then some ⟨_, CodePoint.joinSurrogates_lt h.1 h.2⟩
    else none
  | _, _ => none

/-- The code points that parts stand for. Two halves of a surrogate pair are one code point,
and a half without the other is one by itself. -/
def codePoints : List Part → List CodePoint
  | [] => []
  | [p] => [p.point]
  | p :: q :: rest =>
    match p.pair? q with
    | some joined => joined :: codePoints rest
    | none => p.point :: codePoints (q :: rest)

/-! ## Values -/

mutual

inductive Value where
  | null
  | boolean (b : Bool)
  | number (n : Number)
  | string (parts : List Part)
  | emptyObject (opening closing : Mark)
  | object (opening : Mark) (members : Members) (closing : Mark)
  | emptyArray (opening closing : Mark)
  | array (opening : Mark) (elements : Elements) (closing : Mark)

inductive Members where
  | last (name : List Part) (colon : Mark) (value : Value)
  | more (name : List Part) (colon : Mark) (value : Value) (comma : Mark) (rest : Members)

inductive Elements where
  | last (value : Value)
  | more (value : Value) (comma : Mark) (rest : Elements)

end

/-- A value with white space on both sides. -/
structure Json where
  before : Blank
  value : Value
  after : Blank

mutual

def Value.text : Value → Text
  | .null => ['n', 'u', 'l', 'l']
  | .boolean true => ['t', 'r', 'u', 'e']
  | .boolean false => ['f', 'a', 'l', 's', 'e']
  | .number n => n.text
  | .string parts => stringText parts
  | .emptyObject opening closing => opening.text '\x7b' ++ closing.text '\x7d'
  | .object opening members closing => opening.text '\x7b' ++ members.text ++ closing.text '\x7d'
  | .emptyArray opening closing => opening.text '[' ++ closing.text ']'
  | .array opening elements closing => opening.text '[' ++ elements.text ++ closing.text ']'

def Members.text : Members → Text
  | .last name colon value => stringText name ++ colon.text ':' ++ value.text
  | .more name colon value comma rest =>
    stringText name ++ colon.text ':' ++ value.text ++ comma.text ',' ++ rest.text

def Elements.text : Elements → Text
  | .last value => value.text
  | .more value comma rest => value.text ++ comma.text ',' ++ rest.text

end

def Json.text (j : Json) : Text := j.before.val ++ j.value.text ++ j.after.val

mutual

/-- The most brackets of a value that are open at once. -/
def Value.nesting : Value → Nat
  | .null | .boolean _ | .number _ | .string _ => 0
  | .emptyObject _ _ | .emptyArray _ _ => 1
  | .object _ members _ => members.nesting + 1
  | .array _ elements _ => elements.nesting + 1

def Members.nesting : Members → Nat
  | .last _ _ value => value.nesting
  | .more _ _ value _ rest => max value.nesting rest.nesting

def Elements.nesting : Elements → Nat
  | .last value => value.nesting
  | .more value _ rest => max value.nesting rest.nesting

end

mutual

def Value.numbers : Value → List Number
  | .number n => [n]
  | .null | .boolean _ | .string _ | .emptyObject _ _ | .emptyArray _ _ => []
  | .object _ members _ => members.numbers
  | .array _ elements _ => elements.numbers

def Members.numbers : Members → List Number
  | .last _ _ value => value.numbers
  | .more _ _ value _ rest => value.numbers ++ rest.numbers

def Elements.numbers : Elements → List Number
  | .last value => value.numbers
  | .more value _ rest => value.numbers ++ rest.numbers

end

/-- No integer has more digits than are converted. -/
def Convertible (numbers : List Number) : Prop :=
  ∀ n ∈ numbers, n.isInteger = true → n.whole.list.length ≤ Numeral.maxDecimalDigits

/-! ## Meaning -/

mutual

/-- Whether a node is what a value stands for, wherever the node stands. -/
def Value.Denotes : Value → Node → Prop
  | .null, node => ∃ e, node = .null e
  | .boolean b, node => ∃ e, node = .boolean e b
  | .number n, node => ∃ e, node = .number e n.value
  | .string parts, node => ∃ e, node = .string e (codePoints parts)
  | .emptyObject _ _, node => ∃ e, node = .object e []
  | .object _ members _, node => ∃ e pairs, node = .object e pairs ∧ members.Denotes pairs
  | .emptyArray _ _, node => ∃ e, node = .array e []
  | .array _ elements _, node => ∃ e nodes, node = .array e nodes ∧ elements.Denotes nodes

/-- The members in their order, also those with equal names. -/
def Members.Denotes : Members → List (Key × Node) → Prop
  | .last name _ value, pairs =>
    ∃ e node, pairs = [(.quoted e (codePoints name), node)] ∧ value.Denotes node
  | .more name _ value _ rest, pairs =>
    ∃ e node others, pairs = (.quoted e (codePoints name), node) :: others ∧
      value.Denotes node ∧ rest.Denotes others

def Elements.Denotes : Elements → List Node → Prop
  | .last value, nodes => ∃ node, nodes = [node] ∧ value.Denotes node
  | .more value _ rest, nodes =>
    ∃ node others, nodes = node :: others ∧ value.Denotes node ∧ rest.Denotes others

end

end LocatedJson.Interchange
