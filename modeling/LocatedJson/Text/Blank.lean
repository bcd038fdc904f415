import LocatedJson.Text.Basic

/-!
# Blank characters

The characters that separate the words of a comment: the white space of
ASCII together with the four information separators, and the spaces and
line separators of Unicode. The zero-width space and the byte order mark
are not blank.
-/

namespace LocatedJson.Text

def blankIntervals : List (Nat × Nat) :=
  [(0x09, 0x0D), (0x1C, 0x20), (0x85, 0x85), (0xA0, 0xA0), (0x1680, 0x1680),
   (0x2000, 0x200A), (0x2028, 0x2029), (0x202F, 0x202F), (0x205F, 0x205F),
   (0x3000, 0x3000)]

/-- Whether a character separates words. -/
def isBlank (c : Char) : Bool := inIntervals blankIntervals c.toNat

def trimStart (cs : Text) : Text := cs.dropWhile isBlank

def trimEnd (cs : Text) : Text := (cs.reverse.dropWhile isBlank).reverse

def trim (cs : Text) : Text := trimEnd (trimStart cs)

/-- The longest run of characters at the front that are not blank. -/
def firstWord (cs : Text) : Text := cs.takeWhile fun c => !isBlank c

/-- Trimming keeps no blank at the front. -/
theorem head?_trimStart_not_blank (cs : Text) (c : Char)
    (h : (trimStart cs).head? = some c) : isBlank c = false := by
  unfold trimStart at h
  induction cs with
  | nil => simp at h
  | cons d cs ih =>
      rw [List.dropWhile_cons] at h
      split at h
      · exact ih h
      · rename_i hd
        obtain rfl : d = c := by simpa using h
        simpa using hd

end LocatedJson.Text
