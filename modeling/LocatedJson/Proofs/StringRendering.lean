import LocatedJson.Proofs.Interchange.Reading

/-!
# Renderings of strings

A string can be written in json5 in many ways: each character as it is, or by
one of five escapes, and line ends behind a backslash between them that stand
for nothing. The renderings of a string are described character by character
(`Spells`, `Renders`), without the scan for the closing quote and without the
decoder.

Both read a rendering from the front, each by rules of its own. No rendering
starts with a line feed (`Renders.head?_ne_lineFeed`), so neither of them takes
a carriage return behind a backslash together with what follows it, and what is
read at the front does not depend on the rest. So both inductions follow the
rendering (`Renders.quotedBody`, `Renders.decode_eq`).
-/

namespace LocatedJson.Rendering

open LocatedJson.Text LocatedJson.StringBody LocatedJson.Interchange

/-! ## Units -/

/-- The letters that stand for another character behind a backslash. -/
def letters : List (Char × Char) :=
  [('b', '\x08'), ('f', '\x0c'), ('n', '\n'), ('r', '\r'), ('t', '\t'), ('v', '\x0b'),
   ('0', '\x00')]

/-- The characters that do not stand for themselves behind a backslash. -/
def special : List Char := letters.map Prod.fst ++ ['u', 'x', '\n', '\r', '\u2028', '\u2029']

/-- The ways to write one character between quotes. -/
inductive Spells (quote : Char) : Text → Char → Prop
  | raw {c : Char} (hquote : c ≠ quote) (hescape : c ≠ '\\') (hline : c ≠ '\n' ∧ c ≠ '\r') :
      Spells quote [c] c
  | self {c : Char} (hc : c ∉ special) : Spells quote ['\\', c] c
  | letter {c meaning : Char} (hc : (c, meaning) ∈ letters) : Spells quote ['\\', c] meaning
  | hex {c : Char} (a b : HexDigit) (hc : c.toNat = a.value * 0x10 + b.value) :
      Spells quote ['\\', 'x', a.char, b.char] c
  | unicode {c : Char} (a b e f : HexDigit) (hc : c.toNat = hex4 a b e f) :
      Spells quote ['\\', 'u', a.char, b.char, e.char, f.char] c
  | pair {c : Char} (a b e f a' b' e' f' : HexDigit)
      (hhigh : CodePoint.isHighSurrogate (hex4 a b e f) = true)
      (hlow : CodePoint.isLowSurrogate (hex4 a' b' e' f') = true)
      (hc : c.toNat = CodePoint.joinSurrogates (hex4 a b e f) (hex4 a' b' e' f')) :
      Spells quote ['\\', 'u', a.char, b.char, e.char, f.char,
        '\\', 'u', a'.char, b'.char, e'.char, f'.char] c

/-- A line end behind a backslash, which stands for nothing. -/
inductive Continuation : Text → Prop
  | pair : Continuation ['\\', '\r', '\n']
  | single {c : Char} (hc : c ∈ ['\n', '\r', '\u2028', '\u2029']) : Continuation ['\\', c]

/-- The ways to write a string between quotes. -/
inductive Renders (quote : Char) : Text → Text → Prop
  | nil : Renders quote [] []
  | unit {unit : Text} {c : Char} {v body : Text} (hunit : Spells quote unit c)
      (hrest : Renders quote v body) : Renders quote (c :: v) (unit ++ body)
  | continuation {stop v body : Text} (hstop : Continuation stop) (hrest : Renders quote v body) :
      Renders quote v (stop ++ body)

variable {quote c : Char} {unit stop v body : Text}

theorem Spells.head?_ne_lineFeed (h : Spells quote unit c) (rest : Text) :
    (unit ++ rest).head? ≠ some '\n' := by
  cases h with
  | raw hquote hescape hline => simpa using hline.1
  | self | letter | hex | unicode | pair => simp

theorem Renders.head?_ne_lineFeed (h : Renders quote v body) : body.head? ≠ some '\n' := by
  cases h with
  | nil => simp
  | unit hunit hrest => exact hunit.head?_ne_lineFeed _
  | continuation hstop hrest => cases hstop <;> simp

/-! ## The scan for the closing quote -/

/-- A character behind a backslash that is no carriage return is scanned with it. -/
theorem quotedBody_escape {e : Char} (he : e ≠ '\r') (hrest : Lexeme.QuotedBody .json5 quote body) :
    Lexeme.QuotedBody .json5 quote ('\\' :: e :: body) :=
  .escape (fun _ => rfl) (fun h => absurd h he) hrest

theorem Spells.quotedBody (hquote : isAsciiHex quote = false) (h : Spells quote unit c)
    (hrest : Lexeme.QuotedBody .json5 quote body) :
    Lexeme.QuotedBody .json5 quote (unit ++ body) := by
  cases h with
  | raw hne hescape hline => exact .plain hne hescape (by simp [isHardLineEnd, hline]) hrest
  | self hc =>
      refine quotedBody_escape ?_ hrest
      rintro rfl
      exact hc (by decide)
  | letter hc =>
      refine quotedBody_escape ?_ hrest
      rintro rfl
      simp [letters] at hc
  | hex a b hc =>
      exact quotedBody_escape (by decide)
        (a.quotedBody_cons hquote (b.quotedBody_cons hquote hrest))
  | unicode a b e f hc => exact quotedBody_unicode hquote a b e f hrest
  | pair a b e f a' b' e' f' hhigh hlow hc =>
      exact quotedBody_unicode hquote a b e f (quotedBody_unicode hquote a' b' e' f' hrest)

/-- Renderings are bodies of strings. -/
theorem Renders.quotedBody (hquote : isAsciiHex quote = false) (h : Renders quote v body) :
    Lexeme.QuotedBody .json5 quote body := by
  induction h with
  | nil => exact .nil
  | unit hunit hrest ih => exact hunit.quotedBody hquote ih
  | continuation hstop hrest ih =>
      cases hstop with
      | pair => exact .pair rfl ih
      | single hc => exact .escape (fun _ => rfl) (fun _ => hrest.head?_ne_lineFeed) ih

/-! ## The decoder -/

theorem ofNat?_toNat (c : Char) : CodePoint.ofNat? c.toNat = some (.ofChar c) :=
  dif_pos (CodePoint.ofChar c).isLt

theorem pointOfInt?_toNat (c : Char) : pointOfInt? (c.toNat : Int) = some (.ofChar c) := by
  rw [pointOfInt?, if_neg (by omega), Int.toNat_natCast, ofNat?_toNat]

/-- Characters are no halves of surrogate pairs. -/
theorem isHighSurrogate_toNat (c : Char) : CodePoint.isHighSurrogate c.toNat = false := by
  have hvalid : c.toNat < 0xD800 ∨ 0xDFFF < c.toNat ∧ c.toNat < 0x110000 := c.valid
  simp only [CodePoint.isHighSurrogate, Bool.and_eq_false_iff, decide_eq_false_iff_not]
  omega

theorem escapePiece_short {meaning : Char} (h : (c, meaning) ∈ letters) (rest : Text) :
    escapePiece .json5 c rest = .ok ⟨[.ofChar meaning], 2⟩ := by
  have hletters := List.all_eq_true.mp
    (show (letters.all fun l => shortEscape? l.1 == some (.ofChar l.2)) = true by decide) _ h
  have hshort : shortEscape? c = some (.ofChar meaning) := by simpa using hletters
  simp [escapePiece, hshort]

/-- What is not special stands for itself behind a backslash, quotes and backslashes too. -/
theorem escapePiece_self (h : c ∉ special) (rest : Text) :
    escapePiece .json5 c rest = .ok ⟨[.ofChar c], 2⟩ := by
  simp only [special, letters, List.map_cons, List.map_nil, List.cons_append, List.nil_append,
    List.mem_cons, List.not_mem_nil, or_false, not_or] at h
  obtain ⟨hb, hf, hn, hr, ht, hv, hzero, hu, hx, hfeed, hreturn, hline, hparagraph⟩ := h
  by_cases hquoted : c = '"' ∨ c = '\'' ∨ c = '\\' ∨ c = '/'
  · have hshort : shortEscape? c = some (.ofChar c) := if_pos hquoted
    simp [escapePiece, hshort]
  · have hshort : shortEscape? c = none := by
      simp only [shortEscape?, if_neg, hquoted, hb, hf, hn, hr, ht, hv, hzero, not_false_eq_true]
    have hend : isLineEnd c = false := by
      simp [isLineEnd, hfeed, hreturn, hline, hparagraph]
    simp [escapePiece, json5Piece, hshort, hu, hx, hreturn, hend]

theorem escapePiece_hex {a b : HexDigit} (h : c.toNat = a.value * 0x10 + b.value) (rest : Text) :
    escapePiece .json5 'x' (a.char :: b.char :: rest) = .ok ⟨[.ofChar c], 4⟩ := by
  have hnumber : hexNumber? [a.char, b.char] = some (c.toNat : Int) := by
    have hvalue : Numeral.ofDigits 16 [a.value, b.value] = c.toNat := by
      simp [Numeral.ofDigits, h]
    rw [← hvalue]
    exact hexNumber?_map a b []
  have hpiece : escapePiece .json5 'x' (a.char :: b.char :: rest) = hexPiece [a.char, b.char] := by
    simp [escapePiece, json5Piece, shortEscape?]
  rw [hpiece, hexPiece, hnumber, Option.bind_some, pointOfInt?_toNat]

theorem escapePiece_lineEnd (hc : c ∈ ['\n', '\r', '\u2028', '\u2029'])
    (hbody : body.head? ≠ some '\n') : escapePiece .json5 c body = .ok ⟨[], 2⟩ := by
  simp only [List.mem_cons, List.not_mem_nil, or_false] at hc
  rcases hc with rfl | rfl | rfl | rfl <;>
    simp [escapePiece, json5Piece, shortEscape?, isLineEnd, hbody]

theorem escapePiece_unicode_eq {a b e f : HexDigit} (h : c.toNat = hex4 a b e f) (rest : Text) :
    escapePiece .json5 'u' (a.char :: b.char :: e.char :: f.char :: rest) =
      .ok ⟨[.ofChar c], 6⟩ := by
  have hpoint : (Part.unicode a b e f).point = .ofChar c := Fin.ext h.symm
  rw [escapePiece_unicode, unicodePiece_single, hpoint]
  -- only behind the first half of a pair the decoder looks further, and characters are no halves
  intro hhigh
  rw [← h, isHighSurrogate_toNat] at hhigh
  cases hhigh

theorem escapePiece_pair_eq {a b e f a' b' e' f' : HexDigit}
    (hhigh : CodePoint.isHighSurrogate (hex4 a b e f) = true)
    (hlow : CodePoint.isLowSurrogate (hex4 a' b' e' f') = true)
    (h : c.toNat = CodePoint.joinSurrogates (hex4 a b e f) (hex4 a' b' e' f')) (rest : Text) :
    escapePiece .json5 'u' (a.char :: b.char :: e.char :: f.char ::
      ((Part.unicode a' b' e' f').text ++ rest)) = .ok ⟨[.ofChar c], 12⟩ := by
  have hjoined : (Part.unicode a b e f).pair? (.unicode a' b' e' f') = some (.ofChar c) := by
    rw [Part.pair?, dif_pos ⟨hhigh, hlow⟩]
    exact congrArg some (Fin.ext h.symm)
  rw [escapePiece_unicode, unicodePiece_pair rest hjoined]

/-- Decoding goes on behind an escape. -/
theorem decode_of_escape {e : Char} {rest : Text} {points later : List CodePoint} {size : Nat}
    (hpiece : escapePiece .json5 e rest = .ok ⟨points, size⟩)
    (hafter : (e :: rest).drop (size - 1) = body) (hlater : decode .json5 body = .ok later) :
    decode .json5 ('\\' :: e :: rest) = .ok (points ++ later) :=
  decode_of_piece ((piece_escape e rest).trans hpiece) hafter hlater

theorem Spells.decode_append {later : List CodePoint} (h : Spells quote unit c)
    (hlater : decode .json5 body = .ok later) :
    decode .json5 (unit ++ body) = .ok (.ofChar c :: later) := by
  cases h with
  | raw hne hescape hline => exact decode_of_piece (piece_plain hescape body) rfl hlater
  | self hc => exact decode_of_escape (escapePiece_self hc body) rfl hlater
  | letter hc => exact decode_of_escape (escapePiece_short hc body) rfl hlater
  | hex a b hc => exact decode_of_escape (escapePiece_hex hc body) rfl hlater
  | unicode a b e f hc => exact decode_of_escape (escapePiece_unicode_eq hc body) rfl hlater
  | pair a b e f a' b' e' f' hhigh hlow hc =>
      exact decode_of_escape (escapePiece_pair_eq hhigh hlow hc body) rfl hlater

theorem Continuation.decode_append {later : List CodePoint} (h : Continuation stop)
    (hbody : body.head? ≠ some '\n') (hlater : decode .json5 body = .ok later) :
    decode .json5 (stop ++ body) = .ok later := by
  cases h with
  | pair =>
      have hpiece : escapePiece .json5 '\r' ('\n' :: body) = .ok ⟨[], 3⟩ := rfl
      exact decode_of_escape hpiece rfl hlater
  | single hc => exact decode_of_escape (escapePiece_lineEnd hc hbody) rfl hlater

/-- A rendering of a string decodes to the string. -/
theorem Renders.decode_eq (h : Renders quote v body) :
    decode .json5 body = .ok (CodePoint.ofText v) := by
  induction h with
  | nil => rw [decode]; rfl
  | unit hunit hrest ih => exact hunit.decode_append ih
  | continuation hstop hrest ih => exact hstop.decode_append hrest.head?_ne_lineFeed ih

/-! ## The text of a string -/

/-- A rendering between two quotes is one token and nothing else. -/
theorem Renders.exists_token (hquote : quote ∈ ['"', '\'']) (h : Renders quote v body) :
    ∃ t, (Lexed.ofText .json5 (quote :: (body ++ [quote]))).tokens = [t] ∧
      (Lexed.ofText .json5 (quote :: (body ++ [quote]))).fault? = none ∧
      t.kind = .string ∧ t.text = quote :: (body ++ [quote]) := by
  have hopens : Dialect.isQuote .json5 quote = true ∧ Dialect.isSpace .json5 quote = false ∧
      isAsciiHex quote = false := by
    simp only [List.mem_cons, List.not_mem_nil, or_false] at hquote
    rcases hquote with rfl | rfl <;> decide
  have hscan : Lexeme.scan .json5 quote (body ++ [quote]) =
      .found .string (quote :: (body ++ [quote])).length := by
    have hscan := scan_quoted hopens.1 (h.quotedBody hopens.2.2) []
    simpa using hscan
  obtain ⟨htokens, hfault⟩ := Lexed.ofText_of_scan rfl hopens.2.1 hscan
  exact ⟨_, htokens, hfault, rfl, rfl⟩

end LocatedJson.Rendering

namespace LocatedJson

open LocatedJson.Text

/-- Every rendering of a string between two quotes of either kind is one token in json5 and nothing
else. It decodes to the string, and where it is not too long it is the document of the string. -/
theorem Document.ofText_rendering {quote : Char} (hquote : quote ∈ ['"', '\'']) {v body : Text}
    (h : Rendering.Renders quote v body) :
    let text := quote :: (body ++ [quote])
    ∃ t, (Lexed.ofText .json5 text).tokens = [t] ∧ (Lexed.ofText .json5 text).fault? = none ∧
      t.kind = .string ∧ t.text = text ∧
      StringBody.decode .json5 (slice t.text 1 (-1)) = .ok (CodePoint.ofText v) ∧
      ∀ profile : Profile, profile.dialect = .json5 → text.length ≤ profile.limits.maxSize →
        ∃ doc, Document.ofText profile text = .ok doc ∧
          doc.body = .string t.extent (CodePoint.ofText v) := by
  intro text
  obtain ⟨t, htokens, hfault, hkind, htext⟩ := h.exists_token hquote
  have hdecode : StringBody.decode .json5 (slice t.text 1 (-1)) = .ok (CodePoint.ofText v) := by
    rw [htext, Interchange.slice_quoted, h.decode_eq]
  refine ⟨t, htokens, hfault, hkind, htext, hdecode, ?_⟩
  rintro ⟨dialect, limits, trailing⟩ rfl hsize
  let g : Grammar.Value .json5 true := .scalar t _ (.string hkind hdecode)
  have hcode : g.tokens = (Lexed.ofText .json5 text).tokens.filter Token.isCode := by
    rw [htokens]
    exact g.filter_isCode_tokens.symm
  exact ⟨_, Document.ofText_eq_ok_iff.mpr ⟨hsize, hfault,
    Document.ofTokens_eq_ok_iff.mpr ⟨g, hcode, Nat.zero_le _, rfl⟩⟩, rfl⟩

/-- A double quote as it is, an emoji by a pair of escapes, a line end that stands for nothing, a
letter by its number and a single quote behind a backslash, all between single quotes. -/
theorem Document.ofText_rendering_mixed :
    let body := ['"', '\\', 'u', 'd', '8', '3', 'd', '\\', 'u', 'd', 'e', '0', '0', '\\', '\r',
      '\\', 'x', '4', '1', '\\', '\'']
    Rendering.Renders '\'' ['"', '😀', 'A', '\''] body ∧
      ∃ doc e, Document.ofText { dialect := .json5 } ('\'' :: (body ++ ['\''])) = .ok doc ∧
        doc.body = .string e [0x22, 0x1F600, 0x41, 0x27] := by
  intro body
  have hpair : Rendering.Spells '\'' ['\\', 'u', 'd', '8', '3', 'd', '\\', 'u', 'd', 'e', '0', '0']
      '😀' :=
    .pair ⟨'d', by decide⟩ ⟨'8', by decide⟩ ⟨'3', by decide⟩ ⟨'d', by decide⟩
      ⟨'d', by decide⟩ ⟨'e', by decide⟩ ⟨'0', by decide⟩ ⟨'0', by decide⟩ (by decide) (by decide)
      (by decide)
  have hletter : Rendering.Spells '\'' ['\\', 'x', '4', '1'] 'A' :=
    .hex ⟨'4', by decide⟩ ⟨'1', by decide⟩ rfl
  have h : Rendering.Renders '\'' ['"', '😀', 'A', '\''] body :=
    .unit (.raw (by decide) (by decide) (by decide)) <| .unit hpair <|
      .continuation (.single (by decide)) <| .unit hletter <| .unit (.self (by decide)) .nil
  obtain ⟨t, -, -, -, -, -, hdocument⟩ := Document.ofText_rendering (by decide) h
  obtain ⟨doc, hdoc, hbody⟩ := hdocument { dialect := .json5 } rfl (by simp [body])
  exact ⟨h, doc, t.extent, hdoc, hbody⟩

end LocatedJson
