import LocatedJson.Proofs.Grammar
import LocatedJson.Proofs.Interchange.Number
import LocatedJson.Proofs.Lookahead

/-!
# Tokens in front of delimiters

The characters of a token, taken out of their text, are the same token again
wherever a delimiter stands behind them, also in a wider dialect
(`Lexeme.scan_append`). A mark or a string ends by itself; a number or a word
ends only because the next character cannot belong to it. So the argument
about numbers is that none of their parts grows when a delimiter follows, and
that the two forms of numbers agree on what the strict one takes as a whole.

The lemma does not ask what stood behind the token when it was found. This is
why it serves both for a text in another dialect and for another text.
-/

namespace LocatedJson

open LocatedJson.Text
open LocatedJson.Interchange (Starts eq_false_of_any)

/-! ## Wider dialects -/

/-- The second dialect is the first one or comes after it. -/
def Dialect.Widens (d d' : Dialect) : Prop := d = d' ∨ d = .json ∨ d' = .json5

namespace Dialect.Widens

variable {d d' : Dialect}

theorem refl (d : Dialect) : d.Widens d := .inl rfl

theorem eq_json5 (h : d.Widens d') (hd : d = .json5) : d' = .json5 := by
  rcases h with rfl | rfl | h
  · exact hd
  · cases hd
  · exact h

theorem isSpace (h : d.Widens d') {c : Char} (hc : d.isSpace c = true) : d'.isSpace c = true := by
  simp only [Dialect.isSpace, Bool.or_eq_true, Bool.and_eq_true, beq_iff_eq] at hc ⊢
  rcases hc with hc | ⟨hd, hc⟩
  · exact .inl hc
  · exact .inr ⟨h.eq_json5 hd, hc⟩

theorem isQuote (h : d.Widens d') {c : Char} (hc : d.isQuote c = true) : d'.isQuote c = true := by
  simp only [Dialect.isQuote, Bool.or_eq_true, Bool.and_eq_true, beq_iff_eq] at hc ⊢
  rcases hc with hc | ⟨hd, hc⟩
  · exact .inl hc
  · exact .inr ⟨h.eq_json5 hd, hc⟩

theorem allowsComments (h : d.Widens d') (hd : d.allowsComments = true) :
    d'.allowsComments = true := by
  rcases h with rfl | rfl | rfl
  · exact hd
  · cases hd
  · rfl

end Dialect.Widens

/-! ## Delimiters -/

/-- The white space of the widest dialect. -/
def spaces : List Char :=
  [' ', '\t', '\n', '\r', '\x0b', '\x0c', '\u00a0', '\ufeff', '\u2028', '\u2029']

/-- The characters that white space of any dialect, a comment or a mark starts with. -/
def delimiters : List Char := spaces ++ ['/', '\x7b', '\x7d', '[', ']', ':', ',']

theorem mem_spaces_of_isSpace {d : Dialect} {c : Char} (h : d.isSpace c = true) : c ∈ spaces := by
  simp only [Dialect.isSpace, Bool.or_eq_true, Bool.and_eq_true, List.contains_iff_mem] at h
  rcases h with h | ⟨-, h⟩
  · exact List.mem_append_left ['\x0b', '\x0c', '\u00a0', '\ufeff', '\u2028', '\u2029'] h
  · exact List.mem_append_right [' ', '\t', '\n', '\r'] h

theorem mem_delimiters_of_isSpace {d : Dialect} {c : Char} (h : d.isSpace c = true) :
    c ∈ delimiters :=
  List.mem_append_left _ (mem_spaces_of_isSpace h)

theorem mem_delimiters_of_markKind? {c : Char} {kind : Token.Kind}
    (h : Lexeme.markKind? c = some kind) : c ∈ delimiters := by
  unfold Lexeme.markKind? at h
  simp only [delimiters, List.mem_append, List.mem_cons, List.not_mem_nil, or_false]
  grind

/-! ## Numbers -/

namespace Numeral

variable {post : Text} (hpost : Starts delimiters post)
include hpost

/-- A part that no delimiter starts, and that does not grow behind its first character, is the
same in front of a delimiter. -/
theorem size_append_of_cons {f : Text → Nat} (hnil : f [] = 0)
    (hdelimiter : ∀ c ∈ delimiters, ∀ rest, f (c :: rest) = 0)
    (hcons : ∀ c rest, f (c :: (rest ++ post)) = f (c :: rest)) (cs : Text) :
    f (cs ++ post) = f cs := by
  cases cs with
  | cons c rest => exact hcons c rest
  | nil =>
      cases post with
      | nil => rfl
      | cons c post => rw [List.nil_append, hdelimiter c (hpost c rfl), hnil]

theorem digitsSize_append (cs : Text) :
    digitsSize isDecimal (cs ++ post) = digitsSize isDecimal cs := by
  rw [digitsSize, hpost.takeWhile_eq (by decide), digitsSize]

theorem fractionSize_append (cs : Text) :
    fractionSize isDecimal (cs ++ post) = fractionSize isDecimal cs := by
  refine size_append_of_cons hpost rfl (fun c hc rest => ?_) (fun c rest => ?_) cs
  · have hpoint : c ≠ '.' := ne_of_mem_of_not_mem hc (by decide)
    rw [fractionSize_cons, if_neg fun h => hpoint h.1]
  · rw [fractionSize_cons, fractionSize_cons, digitsSize_append hpost]

theorem signSize_append (cs : Text) : signSize (cs ++ post) = signSize cs := by
  refine size_append_of_cons hpost rfl (fun c hc rest => ?_) (fun c rest => rfl) cs
  have hplus : c ≠ '+' := ne_of_mem_of_not_mem hc (by decide)
  have hminus : c ≠ '-' := ne_of_mem_of_not_mem hc (by decide)
  simp [signSize, hplus, hminus]

theorem exponentSize_append (cs : Text) :
    exponentSize isDecimal (cs ++ post) = exponentSize isDecimal cs := by
  refine size_append_of_cons hpost rfl (fun c hc rest => ?_) (fun c rest => ?_) cs
  · have hlower : c ≠ 'e' := ne_of_mem_of_not_mem hc (by decide)
    have hupper : c ≠ 'E' := ne_of_mem_of_not_mem hc (by decide)
    simp [exponentSize, hlower, hupper]
  · have hsign : (rest ++ post).drop (signSize rest) = rest.drop (signSize rest) ++ post :=
      List.drop_append_of_le_length (measures_signSize.le_length rest)
    simp only [exponentSize, signSize_append hpost, hsign, digitsSize_append hpost]

theorem wholeSize_append (cs : Text) :
    wholeSize isDecimal (cs ++ post) = wholeSize isDecimal cs := by
  refine size_append_of_cons hpost rfl (fun c hc rest => ?_) (fun c rest => ?_) cs
  · have hzero : c ≠ '0' := ne_of_mem_of_not_mem hc (by decide)
    have hnonzero : ¬ ('1' ≤ c ∧ c ≤ '9') := of_decide_eq_false <|
      eq_false_of_any (p := fun c => decide ('1' ≤ c ∧ c ≤ '9')) (by decide) hc
    rw [wholeSize.eq_2, if_neg hzero, if_neg hnonzero]
  · simp only [wholeSize, digitsSize_append hpost]

theorem strictSize_append (cs : Text) :
    strictSize isDecimal (cs ++ post) = strictSize isDecimal cs := by
  have hsign : (if (cs ++ post).head? = some '-' then 1 else 0) =
      if cs.head? = some '-' then 1 else 0 := by
    refine size_append_of_cons hpost (f := fun cs => if cs.head? = some '-' then 1 else 0) rfl
      (fun c hc rest => ?_) (fun c rest => rfl) cs
    have hminus : c ≠ '-' := ne_of_mem_of_not_mem hc (by decide)
    simp [hminus]
  have hle : (if cs.head? = some '-' then 1 else 0) ≤ cs.length :=
    (measures_head (fun o => o = some '-') (by simp)).le_length cs
  simp only [strictSize, hsign]
  generalize (if cs.head? = some '-' then 1 else 0) = sign at hle
  have hwhole := (measures_wholeSize isDecimal).add_le_length hle
  have hfraction := (measures_fractionSize isDecimal).add_le_length hwhole
  rw [List.drop_append_of_le_length hle, wholeSize_append hpost,
    List.drop_append_of_le_length hwhole, fractionSize_append hpost,
    List.drop_append_of_le_length hfraction, exponentSize_append hpost]

theorem hexTailSize_append (cs : Text) : hexTailSize (cs ++ post) = hexTailSize cs := by
  refine size_append_of_cons hpost rfl (fun c hc rest => ?_) (fun c rest => ?_) cs
  · have hlower : c ≠ 'x' := ne_of_mem_of_not_mem hc (by decide)
    have hupper : c ≠ 'X' := ne_of_mem_of_not_mem hc (by decide)
    simp [hexTailSize, hlower, hupper]
  · simp only [hexTailSize, hpost.takeWhile_eq (p := isAsciiHex) (by decide)]

theorem hexSize_append (cs : Text) : hexSize (cs ++ post) = hexSize cs := by
  refine size_append_of_cons hpost rfl (fun c hc rest => ?_) (fun c rest => ?_) cs
  · have hzero : c ≠ '0' := ne_of_mem_of_not_mem hc (by decide)
    rw [hexSize_cons, if_neg fun h => hzero h.1]
  · rw [hexSize_cons, hexSize_cons, hexTailSize_append hpost]

theorem pointSize_append (cs : Text) :
    pointSize isDecimal (cs ++ post) = pointSize isDecimal cs := by
  refine size_append_of_cons hpost rfl (fun c hc rest => ?_) (fun c rest => ?_) cs
  · rw [pointSize.eq_2, if_neg (ne_of_mem_of_not_mem hc (by decide))]
  · simp only [pointSize, digitsSize_append hpost]

theorem mantissaSize_append (cs : Text) :
    mantissaSize isDecimal (cs ++ post) = mantissaSize isDecimal cs := by
  have hdigits := (measures_digitsSize isDecimal).le_length cs
  rw [mantissaSize_eq, mantissaSize_eq, digitsSize_append hpost, fractionSize_append hpost,
    List.drop_append_of_le_length hdigits, pointSize_append hpost]

theorem wideDecimalSize_append (cs : Text) :
    wideDecimalSize isDecimal (cs ++ post) = wideDecimalSize isDecimal cs := by
  have hmantissa := (measures_mantissaSize isDecimal).le_length cs
  simp only [wideDecimalSize, mantissaSize_append hpost]
  rw [List.drop_append_of_le_length hmantissa, exponentSize_append hpost]

theorem wideSize_append (cs : Text) :
    wideSize isDecimal (cs ++ post) = wideSize isDecimal cs := by
  have hsign := measures_signSize.le_length cs
  simp only [wideSize, signSize_append hpost]
  rw [List.drop_append_of_le_length hsign, hexSize_append hpost, wideDecimalSize_append hpost]

omit hpost

theorem isDecimal_of_nonzero {c : Char} (h : '1' ≤ c ∧ c ≤ '9') : isDecimal c = true := by
  have hascii : isAsciiDigit c = true := by
    simp only [isAsciiDigit, Bool.and_eq_true, decide_eq_true_eq]
    exact ⟨Nat.le_trans (show '0'.toNat ≤ '1'.toNat by decide) h.1, h.2⟩
  rw [isDecimal, decimalValue?_ascii hascii]
  rfl

/-- Without its sign a number starts with a digit or a point. -/
theorem size_eq_zero_of_head {c : Char} (hdigit : isDecimal c = false) (hpoint : c ≠ '.')
    (rest : Text) :
    wholeSize isDecimal (c :: rest) = 0 ∧ hexSize (c :: rest) = 0 ∧
      wideDecimalSize isDecimal (c :: rest) = 0 := by
  have hzero : c ≠ '0' := by
    rintro rfl
    revert hdigit
    decide
  have hnonzero : ¬ ('1' ≤ c ∧ c ≤ '9') := by
    intro h
    rw [isDecimal_of_nonzero h] at hdigit
    cases hdigit
  have hdigits : digitsSize isDecimal (c :: rest) = 0 := by simp [digitsSize, hdigit]
  refine ⟨?_, ?_, ?_⟩
  · simp only [wholeSize, if_neg hzero, if_neg hnonzero]
  · rw [hexSize_cons, if_neg fun h => hzero h.1]
  · simp only [wideDecimalSize, mantissaSize_eq, hdigits, fractionSize_cons, hpoint, false_and,
      if_true, if_false]

/-! What the strict form takes as a whole, the wide form takes as a whole. Behind the whole part
there is nothing, a point with digits, or an exponent; so the wide form, which would take more
digits and a lone point, finds no more of them. -/

section Strict

variable {body after : Text} {c : Char}

/-- A fraction and an exponent up to the end of a text. -/
def IsTail (after : Text) : Prop :=
  fractionSize isDecimal after +
    exponentSize isDecimal (after.drop (fractionSize isDecimal after)) = after.length

theorem IsTail.head_eq (h : IsTail after) (hc : after.head? = some c) :
    c = '.' ∨ c = 'e' ∨ c = 'E' := by
  cases after with
  | nil => cases hc
  | cons c' rest =>
      obtain rfl : c' = c := by simpa using hc
      rw [IsTail, fractionSize_cons, List.length_cons] at h
      by_cases hpoint : c' = '.'
      · exact .inl hpoint
      · rw [if_neg fun h => hpoint h.1, List.drop_zero, exponentSize] at h
        split at h
        · rename_i hletter
          exact .inr hletter
        · omega

theorem IsTail.digitsSize_eq_zero (h : IsTail after) : digitsSize isDecimal after = 0 := by
  cases after with
  | nil => rfl
  | cons c rest =>
      have hc : isDecimal c = false := by
        rcases h.head_eq rfl with rfl | rfl | rfl <;> decide
      simp [digitsSize, hc]

theorem IsTail.pointSize_eq (h : IsTail after) :
    pointSize isDecimal after = fractionSize isDecimal after := by
  cases after with
  | nil => rfl
  | cons c rest =>
      rw [IsTail, fractionSize_cons, List.length_cons] at h
      rw [fractionSize_cons, pointSize]
      by_cases hpoint : c = '.'
      · subst hpoint
        by_cases hdigits : digitsSize isDecimal rest = 0
        · -- a point without digits is neither a fraction nor an exponent
          simp [hdigits, exponentSize] at h
        · simp [hdigits]
      · simp [hpoint]

theorem IsTail.hexTailSize_eq_zero (h : IsTail after) : hexTailSize after = 0 := by
  cases after with
  | nil => rfl
  | cons c rest => rcases h.head_eq rfl with rfl | rfl | rfl <;> simp [hexTailSize]

theorem digitsSize_eq_wholeSize (hwhole : wholeSize isDecimal body ≠ 0)
    (htail : IsTail (body.drop (wholeSize isDecimal body))) :
    digitsSize isDecimal body = wholeSize isDecimal body ∧ hexSize body = 0 := by
  cases body with
  | nil => exact absurd rfl hwhole
  | cons c rest =>
      simp only [wholeSize] at hwhole htail ⊢
      by_cases hzero : c = '0'
      · subst hzero
        simp only [if_true, List.drop_succ_cons, List.drop_zero] at htail
        have hdigits := htail.digitsSize_eq_zero
        have hdecimal : isDecimal '0' = true := by decide
        rw [hexSize_cons, htail.hexTailSize_eq_zero]
        simp only [digitsSize, List.takeWhile_cons, hdecimal, if_true, List.length_cons]
          at hdigits ⊢
        simp [hdigits]
      · by_cases hnonzero : '1' ≤ c ∧ c ≤ '9'
        · have hdecimal := isDecimal_of_nonzero hnonzero
          have hhex : hexSize (c :: rest) = 0 := by
            rw [hexSize_cons, if_neg fun h => hzero h.1]
          simp [digitsSize, hdecimal, hzero, hnonzero, hhex, Nat.add_comm]
        · simp [hzero, hnonzero] at hwhole

theorem wideDecimalSize_of_isTail (hwhole : wholeSize isDecimal body ≠ 0)
    (htail : IsTail (body.drop (wholeSize isDecimal body))) :
    wideDecimalSize isDecimal body = body.length := by
  have hle := (measures_wholeSize isDecimal).le_length body
  have hdigits := (digitsSize_eq_wholeSize hwhole htail).1
  have hmantissa : mantissaSize isDecimal body = wholeSize isDecimal body +
      fractionSize isDecimal (body.drop (wholeSize isDecimal body)) := by
    rw [mantissaSize_eq, hdigits, if_neg hwhole, htail.pointSize_eq]
  rw [IsTail, List.length_drop, List.drop_drop] at htail
  simp only [wideDecimalSize, hmantissa]
  rw [if_neg (by omega)]
  omega

theorem wideSize_of_strictSize {cs : Text} (hne : cs ≠ [])
    (h : strictSize isDecimal cs = cs.length) : wideSize isDecimal cs = cs.length := by
  have hpos : 0 < cs.length := List.length_pos_iff.mpr hne
  simp only [strictSize] at h
  have hsign : signSize cs = if cs.head? = some '-' then 1 else 0 := by
    by_cases hplus : cs.head? = some '+'
    · -- the strict form has no plus, so it would take nothing
      obtain ⟨rest, rfl⟩ : ∃ rest, cs = '+' :: rest := by
        cases cs with
        | nil => cases hplus
        | cons c rest => exact ⟨rest, by simpa using hplus⟩
      simp [wholeSize] at h
    · simp [signSize, hplus]
  rw [← hsign] at h
  have hbody := measures_signSize.le_length cs
  have hsplit : cs.length = signSize cs + (cs.drop (signSize cs)).length := by
    rw [List.length_drop]
    omega
  simp only [← List.drop_drop] at h
  simp only [wideSize]
  generalize cs.drop (signSize cs) = body at h hsplit ⊢
  by_cases hwhole : wholeSize isDecimal body = 0
  · rw [if_pos hwhole] at h
    omega
  · rw [if_neg hwhole] at h
    have htail : IsTail (body.drop (wholeSize isDecimal body)) := by
      rw [IsTail, List.length_drop]
      omega
    have hdecimal := wideDecimalSize_of_isTail hwhole htail
    have hle := (measures_wholeSize isDecimal).le_length body
    rw [(digitsSize_eq_wholeSize hwhole htail).2, hdecimal, if_neg (by simp), if_pos (by omega)]
    omega

end Strict

end Numeral

/-! ## Lexemes -/

namespace Lexeme

variable {d d' : Dialect} {c : Char} {rest post : Text} {kind : Token.Kind} {size : Nat}

theorem number?_eq_found_iff {cs : Text} :
    number? d cs = some (.found kind size) ↔ kind = .number ∧ size ≠ 0 ∧
      (if d = .json5 then Numeral.wideSize isDecimal cs else Numeral.strictSize isDecimal cs) =
        size := by
  unfold number? ofSize?
  grind

theorem number?_eq_none_of_head (hdigit : isDecimal c = false) (hpoint : c ≠ '.')
    (hplus : c ≠ '+') (hminus : c ≠ '-') : number? d (c :: rest) = none := by
  obtain ⟨hwhole, hhex, hdecimal⟩ := Numeral.size_eq_zero_of_head hdigit hpoint rest
  have hsign : Numeral.signSize (c :: rest) = 0 := by simp [Numeral.signSize, hplus, hminus]
  have hstrict : Numeral.strictSize isDecimal (c :: rest) = 0 := by
    simp [Numeral.strictSize, hminus, hwhole]
  have hwide : Numeral.wideSize isDecimal (c :: rest) = 0 := by
    simp [Numeral.wideSize, hsign, hhex, hdecimal]
  rw [number?, hstrict, hwide, ite_self]
  rfl

/-- Behind a sign there is a digit or a point, so a number is never one of the two words with a
sign. -/
theorem number?_eq_none_of_signed (hc : c = '+' ∨ c = '-') {x : Char} (hdigit : isDecimal x = false)
    (hpoint : x ≠ '.') : number? d (c :: x :: rest) = none := by
  obtain ⟨hwhole, hhex, hdecimal⟩ := Numeral.size_eq_zero_of_head hdigit hpoint rest
  have hstrict : Numeral.strictSize isDecimal (c :: x :: rest) = 0 := by
    rcases hc with rfl | rfl
    · simp [Numeral.strictSize, Numeral.wholeSize]
    · simp [Numeral.strictSize, hwhole]
  have hwide : Numeral.wideSize isDecimal (c :: x :: rest) = 0 := by
    have hsign : Numeral.signSize (c :: x :: rest) = 1 := by
      rcases hc with rfl | rfl <;> rfl
    simp [Numeral.wideSize, hsign, hhex, hdecimal]
  rw [number?, hstrict, hwide, ite_self]
  rfl

theorem number?_append (hd : d.Widens d') (hpost : Starts delimiters post) {cs : Text}
    (h : number? d cs = some (.found kind cs.length)) :
    number? d' (cs ++ post) = some (.found kind cs.length) := by
  obtain ⟨hkind, hne, hsize⟩ := number?_eq_found_iff.mp h
  refine number?_eq_found_iff.mpr ⟨hkind, hne, ?_⟩
  rw [Numeral.wideSize_append hpost, Numeral.strictSize_append hpost]
  by_cases hjson5 : d = .json5
  · rw [if_pos hjson5] at hsize
    rw [if_pos (hd.eq_json5 hjson5), hsize]
  · rw [if_neg hjson5] at hsize
    split
    · exact Numeral.wideSize_of_strictSize (List.length_pos_iff.mp (by omega)) hsize
    · exact hsize

theorem signedKeyword?_eq_none_of_number? (h : number? d (c :: rest) = some (.found kind size)) :
    signedKeyword? d' c (rest ++ post) = none := by
  by_cases hc : c = '+' ∨ c = '-'
  · cases rest with
    | nil =>
        have hnone : number? d [c] = none := by
          rcases hc with rfl | rfl <;> cases d <;> rfl
        cases hnone.symm.trans h
    | cons x rest =>
        have hx : x ≠ 'N' ∧ x ≠ 'I' := by
          constructor <;> rintro rfl
          · cases (number?_eq_none_of_signed hc (by decide) (by decide)).symm.trans h
          · cases (number?_eq_none_of_signed hc (by decide) (by decide)).symm.trans h
        simp [signedKeyword?, hx.1.symm, hx.2.symm]
  · simp [signedKeyword?, hc]

theorem wordKind?_of_widens (hd : d.Widens d') {word : Text} (h : wordKind? d word = some kind) :
    wordKind? d' word = some kind := by
  unfold wordKind? at h ⊢
  have hjson5 := hd.eq_json5
  grind

/-- Whether a character may start a token that is no comment. -/
def startsCode (d : Dialect) (c : Char) : Bool :=
  (markKind? c).isSome || d.isQuote c || ['+', '-', '.'].contains c || isDecimal c ||
    isWordStart c

theorem isComment_of_markKind? (h : markKind? c = some kind) : kind.isComment = false := by
  unfold markKind? at h
  grind [Token.Kind.isComment]

theorem kind_of_wordKind? {word : Text} (h : wordKind? d word = some kind) :
    kind.isComment = false ∧ Grammar.isMark kind = false := by
  unfold wordKind? at h
  grind [Token.Kind.isComment, Grammar.isMark]

/-- What a token is says how it starts. -/
theorem scan_cases (h : scan d c rest = .found kind size) :
    comment? d c rest = some (.found kind size) ∨
      kind.isComment = false ∧ startsCode d c = true ∧
        (Grammar.isMark kind = true → markKind? c = some kind) := by
  simp only [scan, getD_eq_iff] at h
  simp only [startsCode, Bool.or_eq_true]
  rcases h with h | ⟨-, h | ⟨-, h | ⟨-, h | ⟨-, h | ⟨-, h | ⟨-, h⟩⟩⟩⟩⟩⟩
  · exact .inl h
  · obtain ⟨k, hk, hfound⟩ := Option.map_eq_some_iff.mp h
    cases hfound
    exact .inr ⟨isComment_of_markKind? hk, by simp [hk], fun _ => hk⟩
  · obtain ⟨hquote, -, rfl, -⟩ := string?_eq_found_iff.mp h
    exact .inr ⟨rfl, by simp [hquote], by rintro ⟨⟩⟩
  · obtain ⟨⟨-, hsign⟩, hword⟩ := signedKeyword?_eq_found_iff.mp h
    have hstart : ['+', '-', '.'].contains c = true := by
      rcases hsign with rfl | rfl <;> rfl
    rcases hword with ⟨-, rfl, -⟩ | ⟨-, rfl, -⟩
    · exact .inr ⟨rfl, by simp only [hstart, or_true, true_or], by rintro ⟨⟩⟩
    · exact .inr ⟨rfl, by simp only [hstart, or_true, true_or], by rintro ⟨⟩⟩
  · obtain ⟨rfl, -⟩ := number?_eq_found_iff.mp h
    refine .inr ⟨rfl, ?_, by rintro ⟨⟩⟩
    cases hdigit : isDecimal c with
    | true => simp
    | false =>
        by_cases hhead : c = '.' ∨ c = '+' ∨ c = '-'
        · rcases hhead with rfl | rfl | rfl <;> simp
        · simp only [not_or] at hhead
          cases (number?_eq_none_of_head hdigit hhead.1 hhead.2.1 hhead.2.2).symm.trans h
  · obtain ⟨hstart, hkind, -⟩ := word?_eq_found_iff.mp h
    obtain ⟨hcode, hmark⟩ := kind_of_wordKind? hkind
    exact .inr ⟨hcode, by simp [hstart], fun h => by rw [hmark] at h; cases h⟩
  · cases h

theorem isComment_of_comment? (h : comment? d c rest = some (.found kind size)) :
    c = '/' ∧ kind.isComment = true := by
  obtain ⟨-, hc, after, ⟨-, rfl, -⟩ | ⟨-, rfl, -⟩⟩ := comment?_eq_found_iff.mp h
  · exact ⟨hc, rfl⟩
  · exact ⟨hc, rfl⟩

theorem startsCode_of_scan (h : scan d c rest = .found kind size)
    (hcode : kind.isComment = false) : startsCode d c = true := by
  rcases scan_cases h with hcomment | ⟨-, hstart, -⟩
  · rw [(isComment_of_comment? hcomment).2] at hcode
    cases hcode
  · exact hstart

theorem ne_slash_of_scan (h : scan d c rest = .found kind size) (hcode : kind.isComment = false) :
    c ≠ '/' := by
  rintro rfl
  have hstart := startsCode_of_scan h hcode
  revert hstart
  cases d <;> decide

/-- White space of one dialect starts no token in another. -/
theorem isSpace_eq_false_of_scan (h : scan d c rest = .found kind size) :
    d'.isSpace c = false := by
  cases hspace : d'.isSpace c with
  | false => rfl
  | true =>
      have hmem := mem_spaces_of_isSpace hspace
      rcases scan_cases h with hcomment | ⟨-, hstart, -⟩
      · rw [(isComment_of_comment? hcomment).1] at hmem
        exact absurd hmem (by decide)
      · have hnone : spaces.any (startsCode d) = false := by cases d <;> decide +kernel
        rw [eq_false_of_any hnone hmem] at hstart
        cases hstart

/-- A comment or a mark starts with a delimiter. -/
theorem mem_delimiters_of_scan (h : scan d c rest = .found kind size)
    (hkind : kind.isComment = true ∨ Grammar.isMark kind = true) : c ∈ delimiters := by
  rcases scan_cases h with hcomment | ⟨hcode, -, hmark⟩
  · rw [(isComment_of_comment? hcomment).1]
    decide
  · rcases hkind with hkind | hkind
    · rw [hcode] at hkind
      cases hkind
    · exact mem_delimiters_of_markKind? (hmark hkind)

theorem scan_comment_of_widens (hd : d.Widens d') (h : scan d c rest = .found kind size)
    (hcomment : kind.isComment = true) : scan d' c rest = .found kind size := by
  rcases scan_cases h with h | ⟨hcode, -⟩
  · obtain ⟨hallowed, hfound⟩ := comment?_eq_found_iff.mp h
    rw [scan, comment?_eq_found_iff.mpr ⟨hd.allowsComments hallowed, hfound⟩]
    rfl
  · rw [hcode] at hcomment
    cases hcomment

/-- A quote of a wider dialect starts nothing else in a narrower one. -/
theorem isQuote_eq_false_of_scan (h : scan d c rest = .found kind size)
    (hcode : kind.isComment = false) (hquote : d.isQuote c = false) : d'.isQuote c = false := by
  have hstart := startsCode_of_scan h hcode
  cases hquote' : d'.isQuote c with
  | false => rfl
  | true =>
      simp only [Dialect.isQuote, Bool.or_eq_true, Bool.and_eq_true, beq_iff_eq] at hquote'
      rcases hquote' with rfl | ⟨-, rfl⟩
      · simp [Dialect.isQuote] at hquote
      · revert hstart hquote
        cases d <;> decide

theorem scan_of_mark (hmark : markKind? c = some kind) : scan d c rest = .found kind 1 := by
  have hslash : c ≠ '/' := by
    rintro rfl
    cases hmark
  rw [scan, comment?_of_ne hslash, mark?, hmark]
  rfl

theorem QuotedBody.widens (hd : d.Widens d') {quote : Char} {body : Text}
    (h : QuotedBody d quote body) : QuotedBody d' quote body := by
  induction h with
  | nil => exact .nil
  | plain hquote hescape hline hrest ih => exact .plain hquote hescape hline ih
  | escape hline hpair hrest ih => exact .escape (fun h => hd.eq_json5 (hline h)) hpair ih
  | pair hjson5 hrest ih => exact .pair (hd.eq_json5 hjson5) ih

theorem string?_append (hd : d.Widens d')
    (h : string? d c rest = some (.found kind (rest.length + 1))) :
    string? d' c (rest ++ post) = some (.found kind (rest.length + 1)) := by
  obtain ⟨hquote, hclosed, hkind, hsize⟩ := string?_eq_found_iff.mp h
  obtain ⟨body, after, rfl, hbody, hlength⟩ := exists_body_of_quotedTail hclosed
  have hafter : after = [] := by
    rw [hlength, List.length_append, List.length_cons] at hsize
    exact List.length_eq_zero_iff.mp (by omega)
  subst hafter
  have hquote' := hd.isQuote hquote
  have htail := quotedTail_of_body (isQuote_ne_escape hquote')
    (isHardLineEnd_eq_false_of_isQuote hquote') (hbody.widens hd) post
  refine string?_eq_found_iff.mpr ⟨hquote', ?_, hkind, ?_⟩
  · rw [List.append_assoc, List.cons_append, List.nil_append, htail]
  · rw [List.append_assoc, List.cons_append, List.nil_append, htail, List.length_append]
    simp [Nat.add_comm]

theorem signedKeyword?_append (hd : d.Widens d')
    (h : signedKeyword? d c rest = some (.found kind size)) :
    signedKeyword? d' c (rest ++ post) = some (.found kind size) := by
  obtain ⟨⟨hjson5, hsign⟩, hword⟩ := signedKeyword?_eq_found_iff.mp h
  refine signedKeyword?_eq_found_iff.mpr ⟨⟨hd.eq_json5 hjson5, hsign⟩, ?_⟩
  rcases hword with ⟨hword, hfound⟩ | ⟨hword, hfound⟩
  · exact .inl ⟨hword.trans (List.prefix_append rest post), hfound⟩
  · exact .inr ⟨hword.trans (List.prefix_append rest post), hfound⟩

theorem word?_append (hd : d.Widens d') (hpost : Starts delimiters post)
    (h : word? d c rest = some (.found kind size)) :
    word? d' c (rest ++ post) = some (.found kind size) := by
  obtain ⟨hstart, hkind, hsize⟩ := word?_eq_found_iff.mp h
  have hparts := hpost.takeWhile_eq (p := isWordPart) (by decide +kernel) rest
  exact word?_eq_found_iff.mpr ⟨hstart, by rw [hparts, wordKind?_of_widens hd hkind],
    by rw [hparts, hsize]⟩

/-- No number starts like a word. -/
theorem number_head_of_isWordStart (h : isWordStart c = true) :
    isDecimal c = false ∧ c ≠ '+' ∧ c ≠ '-' ∧ c ≠ '.' := by
  refine ⟨?_, ?_, ?_, ?_⟩
  · simp only [isWordStart, Bool.or_eq_true, Bool.and_eq_true, Bool.not_eq_true', beq_iff_eq] at h
    rcases h with ⟨-, h⟩ | rfl
    · exact h
    · decide
  all_goals
    rintro rfl
    revert h
    decide +kernel

/-- The characters of a token are a token by themselves. -/
theorem exists_alone (h : scan d c rest = .found kind size) :
    ∃ word post, rest = word ++ post ∧ size = word.length + 1 ∧
      scan d c word = .found kind (word.length + 1) := by
  have hpos := size_pos_of_scan h
  have hle := settles_scan.size_le h
  have hlength : size = (rest.take (size - 1)).length + 1 := by
    rw [List.length_take]
    omega
  refine ⟨rest.take (size - 1), rest.drop (size - 1), (List.take_append_drop _ _).symm, hlength, ?_⟩
  rw [← List.take_append_drop (size - 1) rest] at h
  rw [← hlength]
  exact settles_scan.of_append h (by omega)

/-- The characters of a token are the same token in front of a delimiter and in a wider dialect;
a mark needs no delimiter. -/
theorem scan_append (hd : d.Widens d') (h : scan d c rest = .found kind (rest.length + 1))
    (hcode : kind.isComment = false)
    (hpost : Grammar.isMark kind = false → Starts delimiters post) :
    scan d' c (rest ++ post) = .found kind (rest.length + 1) := by
  have hslash := ne_slash_of_scan h hcode
  cases hmark : markKind? c with
  | some mark =>
      rw [scan_of_mark hmark] at h ⊢
      exact h
  | none =>
      cases hquote : d.isQuote c with
      | true =>
          simp only [scan, comment?_of_ne hslash, mark?, hmark, Option.map_none,
            Option.getD_none] at h ⊢
          rcases getD_eq_iff.mp h with h | ⟨hnone, -⟩
          · exact getD_eq_iff.mpr (.inl (string?_append hd h))
          · unfold string? at hnone
            grind
      | false =>
          have hquote' : d'.isQuote c = false := isQuote_eq_false_of_scan h hcode hquote
          rw [scan_of_plain hslash hmark hquote] at h
          rw [scan_of_plain hslash hmark hquote']
          rcases getD_eq_iff.mp h with h | ⟨hsigned, h⟩
          · exact getD_eq_iff.mpr (.inl (signedKeyword?_append hd h))
          · rcases getD_eq_iff.mp h with h | ⟨hnumber, h⟩
            · obtain ⟨rfl, -⟩ := number?_eq_found_iff.mp h
              have hsigned' : signedKeyword? d' c (rest ++ post) = none :=
                signedKeyword?_eq_none_of_number? h
              have hnumber' : number? d' (c :: (rest ++ post)) =
                  some (.found .number (rest.length + 1)) := number?_append hd (hpost rfl) h
              exact getD_eq_iff.mpr (.inr ⟨hsigned', getD_eq_iff.mpr (.inl hnumber')⟩)
            · rcases getD_eq_iff.mp h with h | ⟨-, h⟩
              · obtain ⟨hstart, hkind, -⟩ := word?_eq_found_iff.mp h
                obtain ⟨hdigit, hplus, hminus, hpoint⟩ := number_head_of_isWordStart hstart
                have hsigned' : signedKeyword? d' c (rest ++ post) = none := by
                  simp [signedKeyword?, hplus, hminus]
                have hnumber' : number? d' (c :: (rest ++ post)) = none :=
                  number?_eq_none_of_head hdigit hpoint hplus hminus
                have hword := word?_append hd (hpost (kind_of_wordKind? hkind).2) h
                rw [hsigned', hnumber', hword]
                rfl
              · cases h

end Lexeme

end LocatedJson
