import LocatedJson.Proofs.Interchange
import LocatedJson.Proofs.Lookahead
import LocatedJson.StringBody

/-!
# Interchange strings in all dialects

A string of the interchange grammar is a lexeme of every dialect
(`scan_string`), and its body decodes to the code points of its parts
(`decode_bodyText`). The decoder reads two escapes at once where they spell
a surrogate pair, and otherwise one part at a time, so the induction is the
recursion of `codePoints`.
-/

namespace LocatedJson.Interchange

open LocatedJson.Text LocatedJson.StringBody LocatedJson.Numeral

/-! ## Hexadecimal digits -/

namespace HexDigit

theorem bounds (h : HexDigit) : 48 ≤ h.char.toNat ∧ h.char.toNat ≤ 57 ∨
    97 ≤ h.char.toNat ∧ h.char.toNat ≤ 102 ∨ 65 ≤ h.char.toNat ∧ h.char.toNat ≤ 70 := h.is

/-- Hexadecimal digits differ from what is none. -/
theorem char_ne {c : Char} (h : HexDigit) (hc : isAsciiHex c = false) :
    h.char ≠ c := by
  rintro rfl
  have := h.is
  simp only [isAsciiHex, asciiHexValue?, hexLetterValue?, isAsciiDigit] at hc
  grind

theorem hexValue?_char (h : HexDigit) : hexValue? h.char = some h.value := by
  obtain ⟨c, hc⟩ := h
  have h9 : c ≤ '9' ↔ c.toNat ≤ 57 := Iff.rfl
  have hF : c ≤ 'F' ↔ c.toNat ≤ 70 := Iff.rfl
  rcases hc with hdigit | hlower | hupper
  · rw [hexValue?, decimalValue?_ascii (by simpa [isAsciiDigit] using hdigit)]
    simp only [HexDigit.value, hdigit.2, if_true]
    rfl
  · have hbounds : 97 ≤ c.toNat ∧ c.toNat ≤ 102 := hlower
    have hdecimal : decimalValue? c = none := by
      rw [decimalValue?, if_pos (by omega), if_neg (by rw [h9]; omega)]
    rw [hexValue?, hdecimal, Option.none_or, hexLetterValue?, if_pos hlower]
    rw [HexDigit.value, if_neg (by rw [h9]; omega), if_neg (by rw [hF]; omega)]
    rfl
  · have hbounds : 65 ≤ c.toNat ∧ c.toNat ≤ 70 := hupper
    have hletter : ¬ ('a' ≤ c ∧ c ≤ 'f') := by
      rintro ⟨ha, -⟩
      have : 97 ≤ c.toNat := ha
      omega
    have hdecimal : decimalValue? c = none := by
      rw [decimalValue?, if_pos (by omega), if_neg (by rw [h9]; omega)]
    rw [hexValue?, hdecimal, Option.none_or, hexLetterValue?, if_neg hletter, if_pos hupper]
    rw [HexDigit.value, if_neg (by rw [h9]; omega), if_pos hupper.2]
    rfl

theorem isNumberBlank_char (h : HexDigit) : isNumberBlank h.char = false := by
  have := h.bounds
  simp only [isNumberBlank, isBlank, inIntervals, blankIntervals, List.any_cons, List.any_nil]
  grind

end HexDigit

theorem digitRun_hex (ds : List HexDigit) :
    digitRun .sixteen (ds.map HexDigit.char) = some (ds.map HexDigit.value, []) := by
  induction ds with
  | nil => rfl
  | cons h ds ih => simp [digitRun, Base.digit?, h.hexValue?_char, ih]

/-- Two digits or more are read as the number that they stand for. -/
theorem hexNumber?_map (a b : HexDigit) (ds : List HexDigit) :
    hexNumber? ((a :: b :: ds).map HexDigit.char) =
      some (ofDigits 16 ((a :: b :: ds).map HexDigit.value) : Int) := by
  have hrun := digitRun_hex (a :: b :: ds)
  simp only [List.map_cons] at hrun ⊢
  have hsign : splitSign (a.char :: b.char :: ds.map HexDigit.char) =
      (false, a.char :: b.char :: ds.map HexDigit.char) := by
    have hplus : a.char ≠ '+' := a.char_ne (by decide)
    have hminus : a.char ≠ '-' := a.char_ne (by decide)
    unfold splitSign
    split <;> simp_all
  have hmark : dropMark .sixteen (a.char :: b.char :: ds.map HexDigit.char) =
      a.char :: b.char :: ds.map HexDigit.char := by
    have hx : b.char ≠ 'x' := b.char_ne (by decide)
    have hX : b.char ≠ 'X' := b.char_ne (by decide)
    simp [dropMark, hx, hX]
  have hlow : a.char ≠ '_' := a.char_ne (by decide)
  have hread : readInteger .sixteen (a.char :: b.char :: ds.map HexDigit.char) =
      .ok (ofDigits 16 (a.value :: b.value :: ds.map HexDigit.value)) := by
    simp [readInteger, a.isNumberBlank_char, hsign, hmark, hlow, hrun, Base.value, signed]
  rw [hexNumber?, hread]
  rfl

theorem hexNumber?_digits (a b c d : HexDigit) :
    hexNumber? [a.char, b.char, c.char, d.char] = some (hex4 a b c d : Int) := by
  have hvalue : ofDigits 16 [a.value, b.value, c.value, d.value] = hex4 a b c d := by
    simp only [ofDigits, List.foldl_cons, List.foldl_nil, hex4]
    omega
  rw [← hvalue]
  exact hexNumber?_map a b [c, d]

/-! ## The lexeme -/

theorem bodyText_cons (p : Part) (parts : List Part) :
    bodyText (p :: parts) = p.text ++ bodyText parts := rfl

/-- The digits of an escape stand for themselves in the scan for the quote. -/
theorem HexDigit.quotedBody_cons {d : Dialect} {quote : Char} (hquote : isAsciiHex quote = false)
    (h : HexDigit) {rest : Text} (hrest : Lexeme.QuotedBody d quote rest) :
    Lexeme.QuotedBody d quote (h.char :: rest) := by
  have hfeed : h.char ≠ '\n' := h.char_ne (by decide)
  have hreturn : h.char ≠ '\r' := h.char_ne (by decide)
  exact .plain (h.char_ne hquote) (h.char_ne (by decide))
    (by simp [isHardLineEnd, hfeed, hreturn]) hrest

theorem quotedBody_unicode {d : Dialect} {quote : Char} (hquote : isAsciiHex quote = false)
    (a b c e : HexDigit) {rest : Text} (hrest : Lexeme.QuotedBody d quote rest) :
    Lexeme.QuotedBody d quote ((Part.unicode a b c e).text ++ rest) := by
  refine .escape (by simp [isHardLineEnd]) (by simp) ?_
  exact a.quotedBody_cons hquote (b.quotedBody_cons hquote (c.quotedBody_cons hquote
    (e.quotedBody_cons hquote hrest)))

theorem quotedBody_bodyText (d : Dialect) (parts : List Part) :
    Lexeme.QuotedBody d '"' (bodyText parts) := by
  induction parts with
  | nil => exact .nil
  | cons p parts ih =>
      rw [bodyText_cons]
      cases p with
      | plain c is =>
          have hline : isHardLineEnd c = false := by
            simp only [isHardLineEnd, Bool.or_eq_false_iff, beq_eq_false_iff_ne]
            constructor <;> rintro rfl <;> exact absurd is.1 (by decide)
          exact .plain is.2.1 is.2.2 hline ih
      | letter c p is =>
          have hletters := List.all_eq_true.mp
            (show (letters.all fun l => !isHardLineEnd l.1) = true by decide) _ is
          have hline : isHardLineEnd c = false := by simpa using hletters
          refine .escape (by simp [hline]) ?_ ih
          rintro rfl
          cases hline
      | unicode a b c e => exact quotedBody_unicode (by decide) a b c e ih

/-- A body between two quotes is a lexeme, whatever follows it. -/
theorem scan_quoted {d : Dialect} {quote : Char} {body : Text} (hquote : d.isQuote quote = true)
    (hbody : Lexeme.QuotedBody d quote body) (post : Text) :
    Lexeme.scan d quote (body ++ quote :: post) = .found .string (body.length + 2) := by
  have htail := Lexeme.quotedTail_of_body (Lexeme.isQuote_ne_escape hquote)
    (Lexeme.isHardLineEnd_eq_false_of_isQuote hquote) hbody post
  have hstring : Lexeme.string? d quote (body ++ quote :: post) =
      some (.found .string (body.length + 2)) :=
    Lexeme.string?_eq_found_iff.mpr ⟨hquote, by rw [htail], rfl, by rw [htail, Nat.add_comm 1]⟩
  have hother : quote ≠ '/' ∧ Lexeme.mark? quote = none := by
    simp only [Dialect.isQuote, Bool.or_eq_true, Bool.and_eq_true, beq_iff_eq] at hquote
    rcases hquote with rfl | ⟨-, rfl⟩ <;> exact ⟨by decide, rfl⟩
  rw [Lexeme.scan, Lexeme.comment?_of_ne hother.1, hother.2, hstring]
  rfl

theorem scan_string (d : Dialect) (parts : List Part) (post : Text) :
    Lexeme.scan d '"' (bodyText parts ++ '"' :: post) =
      .found .string (stringText parts).length := by
  rw [scan_quoted (by cases d <;> rfl) (quotedBody_bodyText d parts) post]
  simp [stringText]

/-! ## The code points -/

variable {d : Dialect}

/-- Decoding goes on behind a piece. -/
theorem decode_of_piece {c : Char} {rest after : Text} {points later : List CodePoint} {size : Nat}
    (hpiece : piece d c rest = .ok ⟨points, size⟩) (hafter : rest.drop (size - 1) = after)
    (hlater : decode d after = .ok later) : decode d (c :: rest) = .ok (points ++ later) := by
  rw [decode, hpiece]
  simp only [hafter, hlater]

theorem piece_plain {c : Char} (h : c ≠ '\\') (rest : Text) :
    piece d c rest = .ok ⟨[.ofChar c], 1⟩ := by
  cases rest with
  | nil => rfl
  | cons e after => exact if_neg h

theorem piece_escape (e : Char) (after : Text) :
    piece d '\\' (e :: after) = escapePiece d e after := rfl

theorem escapePiece_letter {c meaning : Char} (h : (c, meaning) ∈ letters) (after : Text) :
    escapePiece d c after = .ok ⟨[.ofChar meaning], 2⟩ := by
  have hletters := List.all_eq_true.mp (show (letters.all fun l =>
    shortEscape? l.1 == some (.ofChar l.2) && !isJson5Escape l.1) = true by decide) _ h
  obtain ⟨hshort, hplain⟩ : shortEscape? c = some (.ofChar meaning) ∧ isJson5Escape c = false := by
    simpa using hletters
  simp [escapePiece, hshort, hplain]

theorem escapePiece_unicode (a b c e : HexDigit) (after : Text) :
    escapePiece d 'u' (a.char :: b.char :: c.char :: e.char :: after) =
      unicodePiece [a.char, b.char, c.char, e.char] after := by
  rfl

theorem lowSurrogate?_unicode (a b c e : HexDigit) (after : Text) :
    lowSurrogate? ((Part.unicode a b c e).text ++ after) =
      if CodePoint.isLowSurrogate (hex4 a b c e) then some (hex4 a b c e) else none := by
  simp only [Part.text, List.cons_append, List.nil_append, lowSurrogate?, hexNumber?_digits]
  simp

/-- What is no escape by digits does not spell the second half of a pair. -/
theorem lowSurrogate?_of_pair?_eq_none {a b c e : HexDigit} {q : Part} (after : Text)
    (hhigh : CodePoint.isHighSurrogate (hex4 a b c e) = true)
    (h : (Part.unicode a b c e).pair? q = none) : lowSurrogate? (q.text ++ after) = none := by
  cases q with
  | plain c is =>
      simp only [Part.text, List.singleton_append]
      unfold lowSurrogate?
      split <;> simp_all
  | letter c p is =>
      have hu : c ≠ 'u' := by
        rintro rfl
        simp [letters] at is
      simp only [Part.text, List.cons_append, List.nil_append]
      unfold lowSurrogate?
      split <;> simp_all
  | unicode a' b' c' e' =>
      rw [lowSurrogate?_unicode]
      have hlow : ¬ CodePoint.isLowSurrogate (hex4 a' b' c' e') = true := by
        intro hlow
        simp [Part.pair?, hhigh, hlow] at h
      rw [if_neg hlow]

theorem pointOfInt?_hex4 (a b c e : HexDigit) :
    pointOfInt? (hex4 a b c e) = some (Part.unicode a b c e).point := by
  have hlt := Nat.lt_trans (hex4_lt a b c e) (show 0x10000 < 0x110000 by decide)
  rw [pointOfInt?, if_neg (by omega), Int.toNat_natCast, CodePoint.ofNat?, dif_pos hlt]
  rfl

/-- An escape by digits is a piece by itself unless it starts a pair. -/
theorem unicodePiece_single {a b c e : HexDigit} {after : Text}
    (h : CodePoint.isHighSurrogate (hex4 a b c e) = true → lowSurrogate? after = none) :
    unicodePiece [a.char, b.char, c.char, e.char] after =
      .ok ⟨[(Part.unicode a b c e).point], 6⟩ := by
  rw [unicodePiece, hexNumber?_digits]
  simp only [pointOfInt?_hex4]
  have hnone : (if CodePoint.isHighSurrogate (Part.unicode a b c e).point.val then
      lowSurrogate? after else none) = none := by
    split
    · exact h ‹_›
    · rfl
  rw [hnone]

theorem unicodePiece_pair {a b c e a' b' c' e' : HexDigit} {joined : CodePoint} (after : Text)
    (h : (Part.unicode a b c e).pair? (.unicode a' b' c' e') = some joined) :
    unicodePiece [a.char, b.char, c.char, e.char] ((Part.unicode a' b' c' e').text ++ after) =
      .ok ⟨[joined], 12⟩ := by
  simp only [Part.pair?] at h
  split at h
  · rename_i hpair
    rw [unicodePiece, hexNumber?_digits, ← Option.some.inj h]
    simp only [pointOfInt?_hex4]
    have hlow : (if CodePoint.isHighSurrogate (Part.unicode a b c e).point.val then
        lowSurrogate? ((Part.unicode a' b' c' e').text ++ after) else none) =
        some (hex4 a' b' c' e') := by
      refine (if_pos hpair.1).trans ?_
      rw [lowSurrogate?_unicode, if_pos hpair.2]
    have hjoined : CodePoint.ofNat? (CodePoint.joinSurrogates (Part.unicode a b c e).point.val
        (hex4 a' b' c' e')) = some ⟨_, CodePoint.joinSurrogates_lt hpair.1 hpair.2⟩ :=
      dif_pos (CodePoint.joinSurrogates_lt hpair.1 hpair.2)
    rw [hlow]
    simp only [hjoined, Option.toList_some]
  · cases h

/-- One part that is not the first half of a pair. -/
theorem decode_part {p : Part} {after : Text} {later : List CodePoint}
    (hsingle : ∀ a b c e, p = .unicode a b c e →
      CodePoint.isHighSurrogate (hex4 a b c e) = true → lowSurrogate? after = none)
    (hlater : decode d after = .ok later) :
    decode d (p.text ++ after) = .ok (p.point :: later) := by
  cases p with
  | plain c is => exact decode_of_piece (piece_plain is.2.2 after) rfl hlater
  | letter c p is =>
      exact decode_of_piece ((piece_escape c after).trans (escapePiece_letter is after)) rfl hlater
  | unicode a b c e =>
      have hpiece : piece d '\\' ('u' :: a.char :: b.char :: c.char :: e.char :: after) = _ :=
        (@escapePiece_unicode d a b c e after).trans (unicodePiece_single (hsingle a b c e rfl))
      exact decode_of_piece hpiece rfl hlater

/-- The body of a string decodes to the code points of its parts, in all dialects. -/
theorem decode_bodyText (d : Dialect) (parts : List Part) :
    decode d (bodyText parts) = .ok (codePoints parts) := by
  fun_induction codePoints parts with
  | case1 => rw [bodyText, List.flatMap_nil, decode]
  | case2 p =>
      have hend : decode d [] = .ok [] := by rw [decode]
      exact @decode_part d p [] [] (fun _ _ _ _ _ _ => rfl) hend
  | case3 p q rest joined hpair ih =>
      -- only two escapes by digits make a pair
      cases p <;> cases q <;> try cases hpair
      rename_i a b c e a' b' c' e'
      have hpiece : piece d '\\' ('u' :: a.char :: b.char :: c.char :: e.char ::
          ((Part.unicode a' b' c' e').text ++ bodyText rest)) = _ :=
        (@escapePiece_unicode d a b c e _).trans (unicodePiece_pair (bodyText rest) hpair)
      exact decode_of_piece hpiece rfl ih
  | case4 p q rest hpair ih =>
      refine decode_part (fun a b c e hp hhigh => ?_) ih
      subst hp
      exact lowSurrogate?_of_pair?_eq_none (bodyText rest) hhigh hpair

end LocatedJson.Interchange
