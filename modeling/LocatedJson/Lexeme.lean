import LocatedJson.Fault
import LocatedJson.Lexeme.Quoted
import LocatedJson.Numeral.Size
import LocatedJson.Text.Word
import LocatedJson.Token

/-!
# Lexemes

What stands at the front of a text that does not start with white space:
the kind and the size of a token, or the reason why there is none. The
recognisers are asked in a fixed order: comment, mark, string, signed
keyword, number, word. A token is never empty (`size_pos_of_scan`), which
is what makes the token loop end.
-/

namespace LocatedJson

/-- The outcome of looking at the front of a text. A failure says how far the
text was looked through before it was found. -/
inductive Lexeme where
  | found (kind : Token.Kind) (size : Nat)
  | failed (cause : Malformation) (consumed : Nat)
  deriving DecidableEq, Repr

namespace Lexeme

open LocatedJson.Text

/-- A token of a size; none if the size is zero. -/
def ofSize? (kind : Token.Kind) (size : Nat) : Option Lexeme :=
  if size = 0 then none else some (.found kind size)

/-- The size of a block comment after its opening, up to the end of its first closing. -/
def blockTail? : Text → Option Nat
  | [] => none
  | c :: rest =>
    if c = '*' ∧ rest.head? = some '/' then some 2 else (blockTail? rest).map (· + 1)

/-- A comment, up to a line end or to its closing. -/
def comment? (d : Dialect) (c : Char) (rest : Text) : Option Lexeme :=
  match rest with
  | [] => none
  | e :: after =>
    if c = '/' ∧ (e = '/' ∨ e = '*') then
      if !d.allowsComments then some (.failed .commentForbidden 0)
      else if e = '/' then
        some (.found .lineComment (2 + (after.takeWhile fun x => !isLineEnd x).length))
      else
        match blockTail? after with
        | some n => some (.found .blockComment (2 + n))
        | none => some (.failed .unclosedComment 0)
    else none

def markKind? (c : Char) : Option Token.Kind :=
  if c = '\x7b' then some .leftBrace
  else if c = '\x7d' then some .rightBrace
  else if c = '[' then some .leftBracket
  else if c = ']' then some .rightBracket
  else if c = ':' then some .colon
  else if c = ',' then some .comma
  else none

def mark? (c : Char) : Option Lexeme :=
  (markKind? c).map fun kind => .found kind 1

def string? (d : Dialect) (c : Char) (rest : Text) : Option Lexeme :=
  if d.isQuote c then
    let tail := quotedTail d c rest
    if tail.closed then some (.found .string (1 + tail.size))
    else some (.failed .unclosedString (1 + tail.size))
  else none

/-- A sign directly before one of the two words for numbers without digits. -/
def signedKeyword? (d : Dialect) (c : Char) (rest : Text) : Option Lexeme :=
  if d = .json5 ∧ (c = '+' ∨ c = '-') then
    if ['N', 'a', 'N'].isPrefixOf rest then some (.found .nan 4)
    else if ['I', 'n', 'f', 'i', 'n', 'i', 't', 'y'].isPrefixOf rest then
      some (.found .infinity 9)
    else none
  else none

/-- A number, in the wide form in json5 and in the strict form elsewhere. -/
def number? (d : Dialect) (cs : Text) : Option Lexeme :=
  ofSize? .number
    (if d = .json5 then Numeral.wideSize isDecimal cs else Numeral.strictSize isDecimal cs)

def isWordStart (c : Char) : Bool := isWord c && !isDecimal c || c == '$'

def isWordPart (c : Char) : Bool := isWord c || c == '$'

/-- The kind of a word: a keyword, or in json5 also a name. -/
def wordKind? (d : Dialect) (word : Text) : Option Token.Kind :=
  if word = ['t', 'r', 'u', 'e'] ∨ word = ['f', 'a', 'l', 's', 'e'] then some .boolean
  else if word = ['n', 'u', 'l', 'l'] then some .null
  else if d = .json5 then
    if word = ['N', 'a', 'N'] then some .nan
    else if word = ['I', 'n', 'f', 'i', 'n', 'i', 't', 'y'] then some .infinity
    else some .identifier
  else none

def word? (d : Dialect) (c : Char) (rest : Text) : Option Lexeme :=
  if isWordStart c then
    let tail := rest.takeWhile isWordPart
    match wordKind? d (c :: tail) with
    | some kind => some (.found kind (1 + tail.length))
    | none => some (.failed (.bareWord (c :: tail)) 0)
  else none

/-- What stands at the front of a text with a first character and a rest. -/
def scan (d : Dialect) (c : Char) (rest : Text) : Lexeme :=
  (comment? d c rest).getD <|
  (mark? c).getD <|
  (string? d c rest).getD <|
  (signedKeyword? d c rest).getD <|
  (number? d (c :: rest)).getD <|
  (word? d c rest).getD <|
  .failed (.strayCharacter c) 0

/-! ## Tokens are not empty -/

theorem size_pos_of_ofSize? {k kind : Token.Kind} {n size : Nat}
    (h : ofSize? k n = some (.found kind size)) : 0 < size := by
  unfold ofSize? at h
  split at h
  · cases h
  · cases h
    omega

theorem size_pos_of_comment? {d : Dialect} {c : Char} {rest : Text} {kind : Token.Kind}
    {size : Nat} (h : comment? d c rest = some (.found kind size)) : 0 < size := by
  unfold comment? at h
  split at h
  · cases h
  · split at h
    · split at h
      · cases h
      · split at h
        · cases h
          omega
        · split at h
          · cases h
            omega
          · cases h
    · cases h

theorem size_pos_of_mark? {c : Char} {kind : Token.Kind} {size : Nat}
    (h : mark? c = some (.found kind size)) : 0 < size := by
  obtain ⟨k, -, hk⟩ := Option.map_eq_some_iff.1 h
  cases hk
  exact Nat.one_pos

theorem size_pos_of_string? {d : Dialect} {c : Char} {rest : Text} {kind : Token.Kind}
    {size : Nat} (h : string? d c rest = some (.found kind size)) : 0 < size := by
  unfold string? at h
  split at h
  · dsimp only at h
    split at h
    · cases h
      omega
    · cases h
  · cases h

theorem size_pos_of_signedKeyword? {d : Dialect} {c : Char} {rest : Text} {kind : Token.Kind}
    {size : Nat} (h : signedKeyword? d c rest = some (.found kind size)) : 0 < size := by
  unfold signedKeyword? at h
  split at h
  · split at h
    · cases h
      omega
    · split at h
      · cases h
        omega
      · cases h
  · cases h

theorem size_pos_of_word? {d : Dialect} {c : Char} {rest : Text} {kind : Token.Kind}
    {size : Nat} (h : word? d c rest = some (.found kind size)) : 0 < size := by
  unfold word? at h
  split at h
  · dsimp only at h
    split at h
    · cases h
      omega
    · cases h
  · cases h

/-- The first recogniser that answers decides. -/
theorem getD_eq_iff {o : Option Lexeme} {other l : Lexeme} :
    o.getD other = l ↔ o = some l ∨ o = none ∧ other = l := by
  cases o <;> simp

theorem size_pos_of_scan {d : Dialect} {c : Char} {rest : Text} {kind : Token.Kind} {size : Nat}
    (h : scan d c rest = .found kind size) : 0 < size := by
  simp only [scan, getD_eq_iff] at h
  rcases h with h | ⟨-, h | ⟨-, h | ⟨-, h | ⟨-, h | ⟨-, h | ⟨-, h⟩⟩⟩⟩⟩⟩
  · exact size_pos_of_comment? h
  · exact size_pos_of_mark? h
  · exact size_pos_of_string? h
  · exact size_pos_of_signedKeyword? h
  · exact size_pos_of_ofSize? h
  · exact size_pos_of_word? h
  · cases h

end Lexeme

end LocatedJson
