import LocatedJson.Text.Basic

/-!
# Digits

Decimal digits of every script. Each script has its ten digits in one
run, so the zeros say everything: a character is a decimal digit exactly
when it is at most nine places after a zero.
-/

namespace LocatedJson.Text

/-- The zeros of the decimal digits outside ASCII (Unicode 14, category Nd). -/
def digitZeros : List Nat :=
  [0x0660, 0x06F0, 0x07C0, 0x0966, 0x09E6, 0x0A66, 0x0AE6, 0x0B66, 0x0BE6, 0x0C66, 0x0CE6,
   0x0D66, 0x0DE6, 0x0E50, 0x0ED0, 0x0F20, 0x1040, 0x1090, 0x17E0, 0x1810, 0x1946, 0x19D0,
   0x1A80, 0x1A90, 0x1B50, 0x1BB0, 0x1C40, 0x1C50, 0xA620, 0xA8D0, 0xA900, 0xA9D0, 0xA9F0,
   0xAA50, 0xABF0, 0xFF10, 0x104A0, 0x10D30, 0x11066, 0x110F0, 0x11136, 0x111D0, 0x112F0,
   0x11450, 0x114D0, 0x11650, 0x116C0, 0x11730, 0x118E0, 0x11950, 0x11C50, 0x11D50, 0x11DA0,
   0x16A60, 0x16AC0, 0x16B50, 0x1D7CE, 0x1D7D8, 0x1D7E2, 0x1D7EC, 0x1D7F6, 0x1E140, 0x1E2F0,
   0x1E950, 0x1FBF0]

/-- The value of a decimal digit of any script. -/
def decimalValue? (c : Char) : Option Nat :=
  if c.toNat < 0x80 then
    if '0' ≤ c ∧ c ≤ '9' then some (c.toNat - 0x30) else none
  else
    (digitZeros.find? fun z => z ≤ c.toNat && c.toNat < z + 10).map (c.toNat - ·)

/-- Whether a character is a decimal digit of any script. -/
def isDecimal (c : Char) : Bool := (decimalValue? c).isSome

def isAsciiDigit (c : Char) : Bool := '0' ≤ c && c ≤ '9'

/-- The value of an ASCII hexadecimal letter, either case. -/
def hexLetterValue? (c : Char) : Option Nat :=
  if 'a' ≤ c ∧ c ≤ 'f' then some (c.toNat - 0x61 + 10)
  else if 'A' ≤ c ∧ c ≤ 'F' then some (c.toNat - 0x41 + 10)
  else none

def asciiHexValue? (c : Char) : Option Nat :=
  if isAsciiDigit c then some (c.toNat - 0x30) else hexLetterValue? c

def isAsciiHex (c : Char) : Bool := (asciiHexValue? c).isSome

/-- The value of a hexadecimal digit whose decimal part may be of any script. -/
def hexValue? (c : Char) : Option Nat := (decimalValue? c).or (hexLetterValue? c)

/-- The ASCII digits are decimal digits with the value they show. -/
theorem decimalValue?_ascii {c : Char} (h : isAsciiDigit c = true) :
    decimalValue? c = some (c.toNat - 0x30) := by
  simp only [isAsciiDigit, Bool.and_eq_true, decide_eq_true_eq] at h
  have h9 : c.toNat ≤ 57 := h.2
  unfold decimalValue?
  rw [if_pos (by omega), if_pos h]

end LocatedJson.Text
