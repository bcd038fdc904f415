/-!
# Binary floating-point numbers of 64 bits

A number is its word: a sign bit, eleven exponent bits and 52 fraction
bits. Below the sign bit the words are ordered as the magnitudes they
stand for, and the word of a magnitude `q · 2^u` with `2^52 ≤ q < 2^53`
is `(u + 1074) · 2^52 + q`, the same formula as for the small magnitudes
where `u = -1074` and `q < 2^52`. Rounding therefore needs no carry: a
`q` that rounds up to `2^53` gives the word of the next binade.

Everything is exact arithmetic on natural numbers.
-/

namespace LocatedJson

/-- A binary floating-point number, by its word. -/
structure Binary64 where
  bits : UInt64
  deriving DecidableEq, Repr

namespace Binary64

/-- The word of the sign bit alone. -/
def signWord : Nat := 0x8000000000000000

/-- The word of infinity: the magnitude words below it are the finite ones. -/
def infinityWord : Nat := 0x7FF0000000000000

/-- The number with a sign and a magnitude word. -/
def ofWord (negative : Bool) (word : Nat) : Binary64 :=
  ⟨UInt64.ofNat (if negative then signWord + word else word)⟩

def infinity (negative : Bool) : Binary64 := ofWord negative infinityWord

/-- The quiet number that stands for no number. -/
def nan : Binary64 := ofWord false 0x7FF8000000000000

def isNaN (x : Binary64) : Bool := infinityWord < x.bits.toNat % signWord

def isNegative (x : Binary64) : Bool := signWord ≤ x.bits.toNat

def negate (x : Binary64) : Binary64 :=
  ofWord (!x.isNegative) (x.bits.toNat % signWord)

/-- The quotient rounded to the nearest number, a half to the even one. -/
def roundQuotient (num den : Nat) : Nat :=
  let q := num / den
  let twice := 2 * (num % den)
  if twice < den then q else if den < twice then q + 1 else q + q % 2

def powerOfTwo (n : Nat) : Nat := Nat.pow 2 n

/-- The exponent `e` with `2^e ≤ num / den < 2^(e+1)`. -/
def binaryExponent (num den : Nat) : Int :=
  let guess : Int := (Nat.log2 num : Int) - Nat.log2 den
  let reached :=
    if 0 ≤ guess then den * powerOfTwo guess.toNat ≤ num
    else den ≤ num * powerOfTwo (-guess).toNat
  if reached then guess else guess - 1

/-- The magnitude word nearest to a positive quotient. -/
def wordOfQuotient (num den : Nat) : Nat :=
  let unit : Int := max (binaryExponent num den - 52) (-1074)
  let q :=
    if 0 ≤ unit then roundQuotient num (den * powerOfTwo unit.toNat)
    else roundQuotient (num * powerOfTwo (-unit).toNat) den
  min ((unit + 1074).toNat * powerOfTwo 52 + q) infinityWord

def decimalLength (n : Nat) : Nat := (Nat.toDigits 10 n).length

/-- The number nearest to `m · 10^e`. Magnitudes from `10^309` on are
infinite and those below `10^-330` are zero, whatever their digits, so
huge exponents cost nothing. -/
def ofDecimal (negative : Bool) (m : Nat) (e : Int) : Binary64 :=
  if m = 0 then ofWord negative 0
  else
    let size : Int := decimalLength m + e
    if 310 ≤ size then infinity negative
    else if size ≤ -330 then ofWord negative 0
    else if 0 ≤ e then ofWord negative (wordOfQuotient (m * Nat.pow 10 e.toNat) 1)
    else ofWord negative (wordOfQuotient m (Nat.pow 10 (-e).toNat))

def ofInt (n : Int) : Binary64 := ofDecimal (n < 0) n.natAbs 0

/-- Whether a number is equal to a small natural one; both zeros are zero. -/
def equalsNat (x : Binary64) (n : Nat) : Bool :=
  if n = 0 then x.bits.toNat % signWord == 0 else x == ofInt n

end Binary64

end LocatedJson
