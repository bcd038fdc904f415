import LocatedJson.Dialect
import LocatedJson.Position
import LocatedJson.Text.Slice

/-!
# Cursors

A cursor is a place in a text together with the rest of the text from
there on. Going forward over a character counts it: a line end starts a
new line, and of a carriage return with a line feed after it only the
line feed does. The rest after `n` steps is the text without its first
`n` characters (`rest_advanceBy`), which is all that the measure of the
token loop needs.
-/

namespace LocatedJson

/-- A place in a text, with the text from there on. -/
structure Cursor where
  line : Nat
  column : Nat
  offset : Nat
  rest : Text
  deriving DecidableEq, Repr

namespace Cursor

def ofText (cs : Text) : Cursor := ⟨1, 1, 0, cs⟩

def position (c : Cursor) : Position := ⟨c.line, c.column, c.offset⟩

/-- The cursor after the next character; at the end it stays. -/
def advance (c : Cursor) : Cursor :=
  match c.rest with
  | [] => c
  | ch :: rest =>
    if Text.isLineEnd ch && !(ch == '\r' && rest.head? == some '\n') then
      ⟨c.line + 1, 1, c.offset + 1, rest⟩
    else ⟨c.line, c.column + 1, c.offset + 1, rest⟩

/-- The cursor after a number of characters; it stops at the end. -/
def advanceBy : Nat → Cursor → Cursor
  | 0, c => c
  | n + 1, c => if c.rest = [] then c else advanceBy n c.advance

/-- The cursor after the white space at its place. -/
def skipSpace (d : Dialect) (c : Cursor) : Cursor :=
  advanceBy (c.rest.takeWhile d.isSpace).length c

def endOf (cs : Text) : Position := (advanceBy cs.length (ofText cs)).position

/-- The character at a distance from the cursor in its text: nothing past the end, and
counted from the end when the distance leads before the start. If that leads before
the start again there is no answer. -/
def peek? (text : Text) (c : Cursor) (distance : Int) : Option (Option Char) :=
  let offset := c.offset + distance
  if (text.length : Int) ≤ offset then some none
  else if offset < -(text.length : Int) then none
  else some text[Text.place text.length offset]?

@[simp] theorem rest_advance (c : Cursor) : c.advance.rest = c.rest.drop 1 := by
  unfold advance
  split
  · simp_all
  · split <;> simp_all

@[simp] theorem rest_advanceBy (n : Nat) (c : Cursor) :
    (advanceBy n c).rest = c.rest.drop n := by
  induction n generalizing c with
  | zero => rfl
  | succ n ih =>
      rw [advanceBy]
      split
      · simp_all
      · rw [ih, rest_advance, List.drop_drop, Nat.add_comm]

theorem drop_length_takeWhile (p : Char → Bool) (cs : Text) :
    cs.drop (cs.takeWhile p).length = cs.dropWhile p := by
  induction cs with
  | nil => rfl
  | cons c cs ih => cases h : p c <;> simp [h, ih]

end Cursor

end LocatedJson
