import LocatedJson.Cursor
import LocatedJson.Lexeme

/-!
# The tokens of a text

From a cursor, the next token is the lexeme after the white space, with
the characters it covers and the places at its two ends. The tokens of a
text are these steps one after the other until the text ends or a step
fails; each step shortens the rest, so there is an end.

A failed step says where the offending token starts and where the
reading stopped, which is further on when a string was left open.
-/

namespace LocatedJson

namespace Cursor

inductive Step where
  | done (stopped : Cursor)
  | token (t : Token) (after : Cursor)
  | fault (cause : Malformation) (position : Position) (stopped : Cursor)
  deriving DecidableEq, Repr

def tokenOf (c : Cursor) (kind : Token.Kind) (size : Nat) : Token :=
  ⟨kind, c.rest.take size, .between c.position (advanceBy size c).position⟩

/-- The next token. -/
def step (d : Dialect) (c : Cursor) : Step :=
  let c := c.skipSpace d
  match c.rest with
  | [] => .done c
  | ch :: rest =>
    match Lexeme.scan d ch rest with
    | .found kind size => .token (c.tokenOf kind size) (advanceBy size c)
    | .failed cause consumed => .fault cause c.position (advanceBy consumed c)

/-- A step that finds a token leaves less of the text. -/
theorem length_rest_lt_of_step {d : Dialect} {c after : Cursor} {t : Token}
    (h : c.step d = .token t after) : after.rest.length < c.rest.length := by
  have hskip : (c.skipSpace d).rest.length ≤ c.rest.length := by
    rw [skipSpace, rest_advanceBy, List.length_drop]
    omega
  unfold step at h
  generalize c.skipSpace d = c' at h hskip
  dsimp only at h
  split at h
  · cases h
  · rename_i ch rest hrest
    split at h
    · rename_i kind size hscan
      have size_pos := Lexeme.size_pos_of_scan hscan
      cases h
      rw [rest_advanceBy, List.length_drop]
      rw [hrest, List.length_cons] at hskip ⊢
      omega
    · cases h

end Cursor

/-- The tokens found before the end of a text or before a fault. -/
structure Lexed where
  tokens : List Token
  fault? : Option (Malformation × Position)
  stopped : Cursor
  deriving DecidableEq, Repr

namespace Lexed

/-- The tokens from a cursor on. -/
def ofCursor (d : Dialect) (c : Cursor) : Lexed :=
  match _h : c.step d with
  | .done stopped => ⟨[], none, stopped⟩
  | .token t after =>
    let later := ofCursor d after
    ⟨t :: later.tokens, later.fault?, later.stopped⟩
  | .fault cause position stopped => ⟨[], some (cause, position), stopped⟩
termination_by c.rest.length
decreasing_by exact Cursor.length_rest_lt_of_step (by assumption)

def ofText (d : Dialect) (cs : Text) : Lexed := ofCursor d (.ofText cs)

end Lexed

end LocatedJson
