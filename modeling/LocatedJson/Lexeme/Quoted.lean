import LocatedJson.Dialect

/-!
# Sizes of string literals

How far a string reaches after its opening quote. The string is read in
units: a backslash with the character after it, a backslash with a
carriage return and a line feed, or a single other character. It ends at
its quote. It is left open at the end of the text and at a bare line
end, and outside json5 also at a line end after a backslash.
-/

namespace LocatedJson.Lexeme

open LocatedJson.Text

/-- How many characters a string takes after its opening quote, and whether
the closing quote is among them. -/
structure QuotedTail where
  size : Nat
  closed : Bool
  deriving DecidableEq, Repr

/-- The tail with some characters in front of it. -/
def QuotedTail.grow (n : Nat) (t : QuotedTail) : QuotedTail := ⟨n + t.size, t.closed⟩

/-- The tail of a string that was opened by a quote. -/
def quotedTail (d : Dialect) (quote : Char) : Text → QuotedTail
  | [] => ⟨0, false⟩
  | c :: rest =>
    if c = quote then ⟨1, true⟩
    else if c = '\\' then
      match rest with
      | [] => ⟨1, false⟩
      | e :: after =>
        if isHardLineEnd e && d != .json5 then ⟨1, false⟩
        else
          match after with
          | [] => ⟨2, false⟩
          | f :: beyond =>
            if e = '\r' ∧ f = '\n' then (quotedTail d quote beyond).grow 3
            else (quotedTail d quote (f :: beyond)).grow 2
    else if isHardLineEnd c then ⟨0, false⟩
    else (quotedTail d quote rest).grow 1

end LocatedJson.Lexeme
