import LocatedJson.Text.Basic

/-!
# Code points

A decoded string may hold halves of surrogate pairs, because an escape
may name one. Characters cannot, so decoded strings are lists of code
points, the numbers below `0x110000`.
-/

namespace LocatedJson

/-- A number that names a character or a surrogate. -/
abbrev CodePoint := Fin 0x110000

namespace CodePoint

def ofChar (c : Char) : CodePoint :=
  ⟨c.toNat, by
    rcases c.valid with h | h
    · exact Nat.lt_trans h (by decide)
    · exact h.2⟩

def ofText (cs : Text) : List CodePoint := cs.map ofChar

/-- Whether a number is the first half of a surrogate pair. -/
def isHighSurrogate (n : Nat) : Bool := 0xD800 ≤ n && n ≤ 0xDBFF

/-- Whether a number is the second half of a surrogate pair. -/
def isLowSurrogate (n : Nat) : Bool := 0xDC00 ≤ n && n ≤ 0xDFFF

/-- The number that a surrogate pair stands for. -/
def joinSurrogates (high low : Nat) : Nat :=
  0x10000 + (high - 0xD800) * 0x400 + (low - 0xDC00)

def ofNat? (n : Nat) : Option CodePoint :=
  if h : n < 0x110000 then some ⟨n, h⟩ else none

/-- A joined pair is a code point beyond the first plane. -/
theorem joinSurrogates_lt {high low : Nat} (hh : isHighSurrogate high = true)
    (hl : isLowSurrogate low = true) : joinSurrogates high low < 0x110000 := by
  simp only [isHighSurrogate, isLowSurrogate, Bool.and_eq_true, decide_eq_true_eq] at hh hl
  unfold joinSurrogates
  omega

/-- The character of a code point; surrogates have none. -/
def toChar? (p : CodePoint) : Option Char :=
  if h : p.val.isValidChar then some (Char.ofNatAux p.val h) else none

theorem toChar?_ofChar (c : Char) : (ofChar c).toChar? = some c := by
  have hv : (ofChar c).val.isValidChar := c.valid
  rw [toChar?, dif_pos hv]
  rfl

end CodePoint

end LocatedJson
