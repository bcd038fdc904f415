import LocatedJson.Proofs.Interchange.Reading
import LocatedJson.Proofs.Literals
import LocatedJson.Proofs.Trivia

/-!
# Strict tokens

The plain dialect is wider than the interchange grammar in three places, all of
them inside tokens: numbers may have digits of any script behind their first
digit, strings may have control characters other than line ends, and the four
characters behind `\u` are read as an integer, with a sign, blanks and low
lines. `Token.isStrict` says that a token makes use of none of these.

The characters of a strict token are those of a number or a string of the
interchange grammar (`exists_number`, `StringBody.exists_parts`). Numbers are
put together from the sizes that the scanner finds, and strings piece by piece
along their decoding.
-/

namespace LocatedJson

open LocatedJson.Text LocatedJson.Numeral
open LocatedJson.Interchange (Digit Digits Whole HexDigit Part bodyText bodyText_cons)

/-! ## Strict tokens -/

/-- Whether a string body has no control characters and four hexadecimal digits behind every
escape by digits. -/
def StringBody.isStrict : Text → Bool
  | [] => true
  | c :: rest =>
    if c = '\\' then
      match rest with
      | [] => true
      | e :: after =>
        (e != 'u' || decide (4 ≤ (after.takeWhile isAsciiHex).length)) && isStrict after
    else decide (0x20 ≤ c.toNat) && isStrict rest

/-- Whether a token is spelled as in the interchange grammar. -/
def Token.isStrict (t : Token) : Bool :=
  match t.kind with
  | .number => t.text.all fun c => decide (c.toNat < 0x80)
  | .string => StringBody.isStrict (slice t.text 1 (-1))
  | _ => true

/-! ## The characters of tokens -/

/-- How the tokens of the plain dialect are spelled. -/
inductive Spelled : Token.Kind → Text → Prop
  | mark {c : Char} {kind : Token.Kind} (h : Lexeme.markKind? c = some kind) : Spelled kind [c]
  | string {body : Text} (h : Lexeme.QuotedBody .json '"' body) :
      Spelled .string ('"' :: (body ++ ['"']))
  | number {cs : Text} (hsize : strictSize isDecimal cs = cs.length) (hne : cs ≠ []) :
      Spelled .number cs
  | word {cs : Text} {kind : Token.Kind} (h : Lexeme.wordKind? .json cs = some kind) :
      Spelled kind cs

theorem Alone.spelled {t : Token} (h : Alone .json t) : Spelled t.kind t.text := by
  obtain ⟨c, word, htext, hscan⟩ := h
  rw [htext]
  simp only [Lexeme.scan, Lexeme.getD_eq_iff] at hscan
  rcases hscan with h | ⟨-, h | ⟨-, h | ⟨-, h | ⟨-, h | ⟨-, h | ⟨-, h⟩⟩⟩⟩⟩⟩
  · obtain ⟨hallowed, -⟩ := Lexeme.comment?_eq_found_iff.mp h
    cases hallowed
  · obtain ⟨kind, hkind, hfound⟩ := Option.map_eq_some_iff.mp h
    obtain ⟨rfl, hsize⟩ := Lexeme.found.inj hfound
    obtain rfl : word = [] := List.length_eq_zero_iff.mp (by omega)
    exact .mark hkind
  · obtain ⟨hquote, hclosed, hkind, hsize⟩ := Lexeme.string?_eq_found_iff.mp h
    obtain rfl : c = '"' := by simpa [Dialect.isQuote] using hquote
    obtain ⟨body, after, rfl, hbody, hlength⟩ := Lexeme.exists_body_of_quotedTail hclosed
    rw [hlength, List.length_append, List.length_cons] at hsize
    obtain rfl : after = [] := List.length_eq_zero_iff.mp (by omega)
    rw [hkind]
    exact .string hbody
  · obtain ⟨⟨hjson5, -⟩, -⟩ := Lexeme.signedKeyword?_eq_found_iff.mp h
    cases hjson5
  · obtain ⟨hkind, -, hsize⟩ := Lexeme.number?_eq_found_iff.mp h
    rw [hkind]
    exact .number hsize (by simp)
  · obtain ⟨-, hkind, hsize⟩ := Lexeme.word?_eq_found_iff.mp h
    have hall : word.takeWhile Lexeme.isWordPart = word :=
      (List.takeWhile_prefix _).eq_of_length (by omega)
    rw [hall] at hkind
    exact .word hkind
  · cases h

def markChars : List (Char × Token.Kind) :=
  [('\x7b', .leftBrace), ('\x7d', .rightBrace), ('[', .leftBracket), (']', .rightBracket),
   (':', .colon), (',', .comma)]

theorem mem_markChars {c : Char} {kind : Token.Kind} (h : Lexeme.markKind? c = some kind) :
    (c, kind) ∈ markChars := by
  unfold Lexeme.markKind? at h
  iterate 6
    split at h
    · subst_vars
      cases h
      decide
  cases h

/-- The words of the plain dialect. -/
theorem cases_of_wordKind? {cs : Text} {kind : Token.Kind}
    (h : Lexeme.wordKind? .json cs = some kind) :
    kind = .boolean ∧ (cs = ['t', 'r', 'u', 'e'] ∨ cs = ['f', 'a', 'l', 's', 'e']) ∨
      kind = .null ∧ cs = ['n', 'u', 'l', 'l'] := by
  unfold Lexeme.wordKind? at h
  grind

namespace Spelled

variable {cs : Text} {kind : Token.Kind}

theorem eq_of_mark {c : Char} (h : Spelled kind cs) (hc : (c, kind) ∈ markChars) : cs = [c] := by
  have hmarks : ∀ m ∈ markChars, ∀ m' ∈ markChars, m.2 = m'.2 → m.1 = m'.1 := by decide
  have hplain : ∀ m ∈ markChars, m.2 ∉ [.string, .number, .boolean, .null] := by decide
  cases h with
  | mark h => exact congrArg (fun c => [c]) (hmarks _ (mem_markChars h) _ hc rfl)
  | string h | number hsize hne => exact absurd (by simp) (hplain _ hc)
  | word h =>
      rcases cases_of_wordKind? h with ⟨rfl, -⟩ | ⟨rfl, -⟩ <;>
        exact absurd (by simp) (hplain _ hc)

/-- A token that is no mark is a string, a number or a word. -/
theorem cases_of_isMark (h : Spelled kind cs) (hkind : Grammar.isMark kind = false) :
    kind = .string ∧ (∃ body, cs = '"' :: (body ++ ['"']) ∧ Lexeme.QuotedBody .json '"' body) ∨
      kind = .number ∧ strictSize isDecimal cs = cs.length ∧ cs ≠ [] ∨
      kind = .boolean ∧ (cs = ['t', 'r', 'u', 'e'] ∨ cs = ['f', 'a', 'l', 's', 'e']) ∨
      kind = .null ∧ cs = ['n', 'u', 'l', 'l'] := by
  have hmarks : ∀ m ∈ markChars, Grammar.isMark m.2 = true := by decide
  cases h with
  | mark h => cases hkind.symm.trans (hmarks _ (mem_markChars h))
  | @string body h => exact .inl ⟨rfl, body, rfl, h⟩
  | number hsize hne => exact .inr (.inl ⟨rfl, hsize, hne⟩)
  | word h => exact .inr (.inr (cases_of_wordKind? h))

end Spelled

/-! ## Numbers -/

theorem isAsciiDigit_of_isDecimal {c : Char} (h : isDecimal c = true) (hc : c.toNat < 0x80) :
    isAsciiDigit c = true := by
  rw [isDecimal, decimalValue?, if_pos hc] at h
  split at h
  · simpa [isAsciiDigit] using ‹_›
  · cases h

/-- The digits of a text of decimal digits that is ASCII. -/
theorem exists_digits {cs : Text} (hdigits : ∀ c ∈ cs, isDecimal c = true)
    (hascii : ∀ c ∈ cs, c.toNat < 0x80) : ∃ ds : List Digit, ds.map Digit.char = cs := by
  induction cs with
  | nil => exact ⟨[], rfl⟩
  | cons c cs ih =>
      obtain ⟨hc, hdigits⟩ := List.forall_mem_cons.mp hdigits
      obtain ⟨hc', hascii⟩ := List.forall_mem_cons.mp hascii
      obtain ⟨ds, rfl⟩ := ih hdigits hascii
      have hdigit := isAsciiDigit_of_isDecimal hc hc'
      exact ⟨⟨c, by simpa [isAsciiDigit] using hdigit⟩ :: ds, rfl⟩

theorem exists_digits_of_ne_nil {cs : Text} (hne : cs ≠ []) (hdigits : ∀ c ∈ cs, isDecimal c = true)
    (hascii : ∀ c ∈ cs, c.toNat < 0x80) : ∃ ds : Digits, ds.val.map Digit.char = cs := by
  obtain ⟨ds, rfl⟩ := exists_digits hdigits hascii
  exact ⟨⟨ds, by simpa using hne⟩, rfl⟩

/-- What is measured in front of the point. -/
theorem exists_whole {cs : Text} (h : wholeSize isDecimal cs ≠ 0)
    (hascii : ∀ c ∈ cs.take (wholeSize isDecimal cs), c.toNat < 0x80) :
    ∃ w : Whole, w.list.map Digit.char = cs.take (wholeSize isDecimal cs) := by
  cases cs with
  | nil => exact absurd rfl h
  | cons c rest =>
      rw [wholeSize] at h hascii ⊢
      split at h
      · rename_i hzero
        exact ⟨.zero, by rw [if_pos hzero, hzero]; rfl⟩
      · rename_i hzero
        split at h
        · rename_i hfirst
          rw [if_neg hzero, if_pos hfirst, Nat.add_comm, List.take_succ_cons] at hascii ⊢
          obtain ⟨ds, hds⟩ := exists_digits (@digit_of_mem_take isDecimal rest)
            (List.forall_mem_cons.mp hascii).2
          have hlow : '0' ≤ c := Nat.le_trans (show '0'.toNat ≤ '1'.toNat by decide) hfirst.1
          exact ⟨.digits ⟨c, hlow, hfirst.2⟩ hzero ds, by rw [← hds]; rfl⟩
        · exact absurd rfl h

theorem exists_fraction {cs : Text}
    (hascii : ∀ c ∈ cs.take (fractionSize isDecimal cs), c.toNat < 0x80) :
    ∃ fraction : Option Digits, cs.take (fractionSize isDecimal cs) =
      match fraction with
      | some ds => '.' :: ds.val.map Digit.char
      | none => [] := by
  rcases @take_fractionSize isDecimal cs with hzero | ⟨part, hne, hpart, htake⟩
  · exact ⟨none, by rw [hzero]; rfl⟩
  · rw [htake] at hascii ⊢
    obtain ⟨ds, hds⟩ := exists_digits_of_ne_nil hne hpart (List.forall_mem_cons.mp hascii).2
    exact ⟨some ds, by rw [← hds]⟩

theorem exists_exponent {cs : Text} (h : Exponent isDecimal cs)
    (hascii : ∀ c ∈ cs, c.toNat < 0x80) :
    ∃ exponent : Option Interchange.Exponent,
      (exponent.map Interchange.Exponent.text).getD [] = cs := by
  cases h with
  | none => exact ⟨none, rfl⟩
  | @some letter sign ds hletter hsign hne hds =>
      have hascii := (List.forall_mem_append.mp (List.forall_mem_cons.mp hascii).2).2
      obtain ⟨digits, rfl⟩ := exists_digits_of_ne_nil hne hds hascii
      obtain ⟨upper, rfl⟩ : ∃ upper : Bool, (if upper then 'E' else 'e') = letter := by
        rcases hletter with rfl | rfl
        · exact ⟨false, rfl⟩
        · exact ⟨true, rfl⟩
      obtain ⟨sign, rfl⟩ : ∃ s : Option Interchange.Sign,
          (s.map Interchange.Sign.char).toList = sign := by
        simp only [List.mem_cons, List.not_mem_nil, or_false] at hsign
        rcases hsign with rfl | rfl | rfl
        · exact ⟨none, rfl⟩
        · exact ⟨some .plus, rfl⟩
        · exact ⟨some .minus, rfl⟩
      exact ⟨some ⟨upper, sign, digits⟩, rfl⟩

/-- A number token that is ASCII is a number of the grammar. -/
theorem exists_number {cs : Text} (hsize : strictSize isDecimal cs = cs.length) (hne : cs ≠ [])
    (hascii : ∀ c ∈ cs, c.toNat < 0x80) : ∃ n : Interchange.Number, n.text = cs := by
  have hpos : strictSize isDecimal cs ≠ 0 := by
    rw [hsize]
    exact Nat.ne_of_gt (List.length_pos_iff.mpr hne)
  have htake : cs.take (strictSize isDecimal cs) = cs := by rw [hsize, List.take_length]
  unfold strictSize at hpos htake
  dsimp only at hpos htake
  obtain ⟨minus, hminus⟩ : ∃ minus : Bool,
      cs.take (if cs.head? = some '-' then 1 else 0) = if minus then ['-'] else [] := by
    split
    · rename_i hhead
      obtain ⟨rest, rfl⟩ := List.head?_eq_some_iff.mp hhead
      exact ⟨true, rfl⟩
    · exact ⟨false, rfl⟩
  generalize (if cs.head? = some '-' then 1 else 0) = sign at hpos htake hminus
  split at hpos
  · exact absurd rfl hpos
  · rename_i hwhole
    rw [if_neg hwhole] at htake
    simp only [Nat.add_assoc, List.take_add, ← List.drop_drop] at htake
    generalize hafter : (cs.drop sign).drop (wholeSize isDecimal (cs.drop sign)) = after at htake
    rw [← htake] at hascii
    obtain ⟨-, hascii⟩ := List.forall_mem_append.mp hascii
    obtain ⟨hascii₁, hascii⟩ := List.forall_mem_append.mp hascii
    obtain ⟨hascii₂, hascii₃⟩ := List.forall_mem_append.mp hascii
    obtain ⟨whole, hwhole⟩ := exists_whole hwhole hascii₁
    obtain ⟨fraction, hfraction⟩ := exists_fraction hascii₂
    obtain ⟨exponent, hexponent⟩ := exists_exponent (take_exponentSize _) hascii₃
    refine ⟨⟨minus, whole, fraction, exponent⟩, ?_⟩
    rw [← htake, hminus, ← hwhole, hfraction, ← hexponent]
    simp only [Interchange.Number.text, Interchange.Number.magnitudeText, List.append_assoc]
    rfl

/-! ## Strings -/

namespace StringBody

open LocatedJson.Lexeme (QuotedBody)

variable {c e : Char} {rest : Text}

theorem isStrict_plain (hc : c ≠ '\\') :
    isStrict (c :: rest) = (decide (0x20 ≤ c.toNat) && isStrict rest) := by
  rw [isStrict.eq_def]
  exact if_neg hc

theorem isStrict_escape :
    isStrict ('\\' :: e :: rest) =
      ((e != 'u' || decide (4 ≤ (rest.takeWhile isAsciiHex).length)) && isStrict rest) := by
  rw [isStrict.eq_def]
  rfl

/-- A body that ends at its quote and is strict. -/
structure Clean (body : Text) : Prop where
  quoted : QuotedBody .json '"' body
  strict : isStrict body = true

theorem exists_hexDigit (h : isAsciiHex c = true) : ∃ digit : HexDigit, digit.char = c := by
  have his : '0' ≤ c ∧ c ≤ '9' ∨ 'a' ≤ c ∧ c ≤ 'f' ∨ 'A' ≤ c ∧ c ≤ 'F' := by
    simp only [isAsciiHex, asciiHexValue?, hexLetterValue?, isAsciiDigit] at h
    grind
  exact ⟨⟨c, his⟩, rfl⟩

namespace Clean

theorem of_plain (h : Clean (c :: rest)) (hc : c ≠ '\\') :
    c ≠ '"' ∧ 0x20 ≤ c.toNat ∧ Clean rest := by
  have hstrict := h.strict
  rw [isStrict_plain hc, Bool.and_eq_true, decide_eq_true_eq] at hstrict
  cases h.quoted with
  | plain hquote hescape hline hrest => exact ⟨hquote, hstrict.1, hrest, hstrict.2⟩
  | escape | pair => exact absurd rfl hc

theorem of_escape (h : Clean ('\\' :: e :: rest)) : Clean rest := by
  have hstrict := h.strict
  rw [isStrict_escape, Bool.and_eq_true] at hstrict
  cases h.quoted with
  | plain hquote hescape => exact absurd rfl hescape
  | escape hline hpair hrest => exact ⟨hrest, hstrict.2⟩
  | pair hjson5 => cases hjson5

theorem of_hex {digit : HexDigit} (h : Clean (digit.char :: rest)) : Clean rest :=
  (h.of_plain (digit.char_ne (by decide))).2.2

/-- Behind an escape by digits there are four of them. -/
theorem exists_hex4 (h : Clean ('\\' :: 'u' :: rest)) :
    ∃ (a b c d : HexDigit) (after : Text),
      rest = a.char :: b.char :: c.char :: d.char :: after ∧ Clean after := by
  have hrest := h.of_escape
  have hstrict := h.strict
  rw [isStrict_escape, Bool.and_eq_true] at hstrict
  have hlength : 4 ≤ (rest.takeWhile isAsciiHex).length := by simpa using hstrict.1
  have hhex : ∀ c ∈ rest.takeWhile isAsciiHex, isAsciiHex c = true :=
    fun c hc => List.mem_takeWhile_imp hc
  have hsplit := List.takeWhile_append_dropWhile (p := isAsciiHex) (l := rest)
  generalize rest.takeWhile isAsciiHex = digits at hlength hhex hsplit
  match digits with
  | a :: b :: c :: d :: digits =>
      simp only [List.forall_mem_cons] at hhex
      obtain ⟨a, rfl⟩ := exists_hexDigit hhex.1
      obtain ⟨b, rfl⟩ := exists_hexDigit hhex.2.1
      obtain ⟨c, rfl⟩ := exists_hexDigit hhex.2.2.1
      obtain ⟨d, rfl⟩ := exists_hexDigit hhex.2.2.2.1
      rw [← hsplit] at hrest ⊢
      exact ⟨a, b, c, d, _, rfl, hrest.of_hex.of_hex.of_hex.of_hex⟩

end Clean

/-- The letters behind a backslash that the plain dialect knows. -/
theorem exists_letter {p : CodePoint} (h : shortEscape? c = some p)
    (hplain : isJson5Escape c = false) : ∃ meaning, (c, meaning) ∈ Interchange.letters := by
  have hletters : c ∈ ['"', '\\', '/', 'b', 'f', 'n', 'r', 't'] := by
    simp only [isJson5Escape, Bool.or_eq_false_iff, beq_eq_false_iff_ne] at hplain
    unfold shortEscape? at h
    simp only [List.mem_cons, List.not_mem_nil, or_false]
    grind
  have hall : (['"', '\\', '/', 'b', 'f', 'n', 'r', 't'].all fun c =>
      (Interchange.letters.lookup c).isSome) = true := by decide
  obtain ⟨meaning, hmeaning⟩ :=
    Option.isSome_iff_exists.mp (List.all_eq_true.mp hall c hletters)
  exact ⟨meaning, by
    obtain ⟨_, _, h, -⟩ := List.lookup_eq_some_iff.mp hmeaning
    simp [h]⟩

theorem exists_of_lowSurrogate? {cs : Text} {n : Nat} (h : lowSurrogate? cs = some n) :
    ∃ rest, cs = '\\' :: 'u' :: rest := by
  unfold lowSurrogate? at h
  split at h
  · exact ⟨_, rfl⟩
  · cases h

/-- An escape by digits takes a second one along only if there is one behind it. -/
theorem size_of_unicodePiece {digits after : Text} {p : Piece}
    (h : unicodePiece digits after = .ok p) :
    p.size = 6 ∨ p.size = 12 ∧ ∃ low, lowSurrogate? after = some low := by
  unfold unicodePiece at h
  cases hnumber : hexNumber? digits with
  | none => simp [hnumber] at h
  | some n =>
      cases hpoint : pointOfInt? n with
      | none => simp [hnumber, hpoint] at h
      | some point =>
          simp only [hnumber, hpoint] at h
          cases hlow : (if CodePoint.isHighSurrogate point.val then lowSurrogate? after
              else none) with
          | none =>
              rw [hlow] at h
              cases h
              exact .inl rfl
          | some low =>
              rw [hlow] at h
              refine .inr ⟨by rw [← Except.ok.inj h], ?_⟩
              split at hlow
              · exact ⟨low, hlow⟩
              · cases hlow

/-- One or two parts in front of the rest of a clean body. -/
theorem exists_parts_of_piece {p : Piece} (hpiece : piece .json c rest = .ok p)
    (h : Clean (c :: rest)) :
    ∃ parts, c :: rest = bodyText parts ++ rest.drop (p.size - 1) ∧
      Clean (rest.drop (p.size - 1)) := by
  by_cases hc : c = '\\'
  · subst hc
    cases rest with
    | nil => cases h.quoted with
      | plain hquote hescape => exact absurd rfl hescape
    | cons e after =>
        change escapePiece .json e after = .ok p at hpiece
        unfold escapePiece at hpiece
        split at hpiece
        · rename_i point hshort
          split at hpiece
          · cases hpiece
          · rename_i hplain
            cases hpiece
            obtain ⟨meaning, hletter⟩ := exists_letter hshort (by simpa using hplain)
            exact ⟨[.letter e meaning hletter], rfl, h.of_escape⟩
        · split at hpiece
          · rename_i hunicode
            obtain ⟨rfl, -⟩ := hunicode
            obtain ⟨a, b, c, d, after, rfl, hafter⟩ := h.exists_hex4
            rcases size_of_unicodePiece hpiece with hsize | ⟨hsize, low, hlow⟩
            · rw [hsize]
              exact ⟨[.unicode a b c d], rfl, hafter⟩
            · obtain ⟨rest, hrest⟩ := exists_of_lowSurrogate? hlow
              obtain rfl : after = '\\' :: 'u' :: rest := hrest
              obtain ⟨a', b', c', d', beyond, rfl, hbeyond⟩ := hafter.exists_hex4
              rw [hsize]
              exact ⟨[.unicode a b c d, .unicode a' b' c' d'], rfl, hbeyond⟩
          · cases hpiece
  · obtain ⟨hquote, hlow, hrest⟩ := h.of_plain hc
    have hsize : p.size = 1 := by
      unfold piece at hpiece
      split at hpiece
      · rw [if_neg hc] at hpiece
        cases hpiece
        rfl
      · cases hpiece
        rfl
    rw [hsize]
    exact ⟨[.plain c ⟨hlow, hquote, hc⟩], rfl, hrest⟩

/-- A clean body that decodes is the body of a string of the grammar. -/
theorem exists_parts {body : Text} {points : List CodePoint}
    (hdecode : decode .json body = .ok points) (h : Clean body) :
    ∃ parts, bodyText parts = body := by
  fun_induction decode .json body generalizing points with
  | case1 => exact ⟨[], rfl⟩
  | case2 => cases hdecode
  | case3 => cases hdecode
  | case4 c rest p hpiece later hlater ih =>
      obtain ⟨front, hfront, hrest⟩ := exists_parts_of_piece hpiece h
      obtain ⟨parts, hparts⟩ := ih hlater hrest
      exact ⟨front ++ parts, by rw [hfront, ← hparts, bodyText, List.flatMap_append]; rfl⟩

theorem isStrict_bodyText (parts : List Part) : isStrict (bodyText parts) = true := by
  induction parts with
  | nil => rfl
  | cons p parts ih =>
      have hhex (digit : HexDigit) (rest : Text) :
          isStrict (digit.char :: rest) = isStrict rest := by
        have hlow : 0x20 ≤ digit.char.toNat := by
          have := digit.bounds
          omega
        rw [isStrict_plain (digit.char_ne (by decide)), decide_eq_true hlow, Bool.true_and]
      have hdigit (digit : HexDigit) : isAsciiHex digit.char = true := by
        by_contra hnot
        exact digit.char_ne (by simpa using hnot) rfl
      rw [bodyText_cons]
      cases p with
      | plain c is =>
          change isStrict (c :: bodyText parts) = true
          rw [isStrict_plain is.2.2, decide_eq_true is.1, ih]
          rfl
      | letter c meaning is =>
          have hu : c ≠ 'u' := by
            rintro rfl
            simp [Interchange.letters] at is
          change isStrict ('\\' :: c :: bodyText parts) = true
          rw [isStrict_escape, ih]
          simp [hu]
      | unicode a b c d =>
          change isStrict
            ('\\' :: 'u' :: a.char :: b.char :: c.char :: d.char :: bodyText parts) = true
          rw [isStrict_escape, hhex, hhex, hhex, hhex, ih]
          simp [hdigit]

end StringBody

end LocatedJson
