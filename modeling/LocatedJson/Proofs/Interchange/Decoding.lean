import LocatedJson.Datum.Json
import LocatedJson.Proofs.Interchange.Reading

/-!
# The strict reading of interchange texts

What a text of the interchange grammar decodes to is computed from its
derivation (`Value.datum`). How strings are read is left open there, because
not all readers agree on it; `Value.decoded` is the decoding of the standard.
An object keeps the first place and the last value of a repeated name.

The strict reader finds the decoding of every text whose brackets are not
nested too deep (`Json.read_text`). It works within a bound, and it takes at
least one character for each step that it counts, so the bound only has to be
as large as the text.
-/

namespace LocatedJson.Interchange

open LocatedJson.Text LocatedJson.Numeral

/-! ## Data -/

section Data

variable (meaning : List Part → List CodePoint)

mutual

/-- What a value decodes to, when the parts of strings have a meaning. -/
def Value.datum : Value → Datum
  | .null => .null
  | .boolean b => .bool b
  | .number n => .number n.value
  | .string parts => .text (meaning parts)
  | .emptyObject _ _ => .map []
  | .object _ members _ => .map (Pairs.ofList members.pairs)
  | .emptyArray _ _ => .list []
  | .array _ elements _ => .list elements.data

/-- The names of members with what their values decode to, in the order of the text. -/
def Members.pairs : Members → List (List CodePoint × Datum)
  | .last name _ value => [(meaning name, value.datum)]
  | .more name _ value _ rest => (meaning name, value.datum) :: rest.pairs

def Elements.data : Elements → List Datum
  | .last value => [value.datum]
  | .more value _ rest => value.datum :: rest.data

end

end Data

def Value.decoded : Value → Datum := Value.datum codePoints

mutual

/-- The strings in a value, names included. -/
def Value.strings : Value → List (List Part)
  | .string parts => [parts]
  | .null | .boolean _ | .number _ | .emptyObject _ _ | .emptyArray _ _ => []
  | .object _ members _ => members.strings
  | .array _ elements _ => elements.strings

def Members.strings : Members → List (List Part)
  | .last name _ value => name :: value.strings
  | .more name _ value _ rest => name :: value.strings ++ rest.strings

def Elements.strings : Elements → List (List Part)
  | .last value => value.strings
  | .more value _ rest => value.strings ++ rest.strings

end

section Congruence

variable {meaning meaning' : List Part → List CodePoint}

mutual

/-- What a value decodes to depends on the meaning of its own strings only. -/
theorem Value.datum_congr (v : Value) (h : ∀ p ∈ v.strings, meaning p = meaning' p) :
    v.datum meaning = v.datum meaning' := by
  match v with
  | .null | .boolean _ | .number _ | .emptyObject _ _ | .emptyArray _ _ => rfl
  | .string parts =>
      rw [Value.datum, Value.datum, h parts (by simp [Value.strings])]
  | .object _ members _ => rw [Value.datum, Value.datum, members.pairs_congr h]
  | .array _ elements _ => rw [Value.datum, Value.datum, elements.data_congr h]

theorem Members.pairs_congr (ms : Members) (h : ∀ p ∈ ms.strings, meaning p = meaning' p) :
    ms.pairs meaning = ms.pairs meaning' := by
  match ms with
  | .last name _ value =>
      obtain ⟨hname, hvalue⟩ := List.forall_mem_cons.mp h
      rw [Members.pairs, Members.pairs, hname, value.datum_congr hvalue]
  | .more name _ value _ rest =>
      obtain ⟨hname, hothers⟩ := List.forall_mem_cons.mp h
      obtain ⟨hvalue, hrest⟩ := List.forall_mem_append.mp hothers
      rw [Members.pairs, Members.pairs, hname, value.datum_congr hvalue, rest.pairs_congr hrest]

theorem Elements.data_congr (es : Elements) (h : ∀ p ∈ es.strings, meaning p = meaning' p) :
    es.data meaning = es.data meaning' := by
  match es with
  | .last value => rw [Elements.data, Elements.data, value.datum_congr h]
  | .more value _ rest =>
      obtain ⟨hvalue, hrest⟩ := List.forall_mem_append.mp h
      rw [Elements.data, Elements.data, value.datum_congr hvalue, rest.data_congr hrest]

end

end Congruence

/-! ## Strings -/

theorem HexDigit.asciiHexValue?_char (h : HexDigit) : asciiHexValue? h.char = some h.value := by
  obtain ⟨c, hc⟩ := h
  have h9 : c ≤ '9' ↔ c.toNat ≤ 57 := Iff.rfl
  have hF : c ≤ 'F' ↔ c.toNat ≤ 70 := Iff.rfl
  rcases hc with hdigit | hlower | hupper
  · simp only [asciiHexValue?, isAsciiDigit, hdigit, decide_true, Bool.and_self, if_true,
      HexDigit.value]
    rfl
  · have hbounds : 97 ≤ c.toNat ∧ c.toNat ≤ 102 := hlower
    have hdigit : isAsciiDigit c = false := by
      simp only [isAsciiDigit, h9, Bool.and_eq_false_iff, decide_eq_false_iff_not]
      omega
    rw [asciiHexValue?, hdigit, if_neg Bool.false_ne_true, hexLetterValue?, if_pos hlower,
      HexDigit.value, if_neg (by rw [h9]; omega), if_neg (by rw [hF]; omega)]
    rfl
  · have hbounds : 65 ≤ c.toNat ∧ c.toNat ≤ 70 := hupper
    have hdigit : isAsciiDigit c = false := by
      simp only [isAsciiDigit, h9, Bool.and_eq_false_iff, decide_eq_false_iff_not]
      omega
    have hlower : ¬ ('a' ≤ c ∧ c ≤ 'f') := by
      rintro ⟨ha, -⟩
      have : 97 ≤ c.toNat := ha
      omega
    rw [asciiHexValue?, hdigit, if_neg Bool.false_ne_true, hexLetterValue?, if_neg hlower,
      if_pos hupper, HexDigit.value, if_neg (by rw [h9]; omega), if_pos hupper.2]
    rfl

theorem hexQuad?_digits (a b c d : HexDigit) (after : Text) :
    Json.hexQuad? (a.char :: b.char :: c.char :: d.char :: after) = some (hex4 a b c d) := by
  have hvalue : ofDigits 16 [a.value, b.value, c.value, d.value] = hex4 a b c d := by
    simp only [ofDigits, List.foldl_cons, List.foldl_nil, hex4]
    omega
  simp [Json.hexQuad?, HexDigit.asciiHexValue?_char, hvalue]

section Strings

variable {opened post : Text}

/-- The strict reader of a string goes on behind a piece. -/
theorem stringTail_of_piece {c : Char} {rest after : Text} {points later : List CodePoint}
    {size : Nat} (hc : c ≠ '"') (hpiece : Json.piece opened c rest = .ok ⟨points, size⟩)
    (hafter : rest.drop (size - 1) = after)
    (hlater : Json.stringTail opened after = .ok (later, post)) :
    Json.stringTail opened (c :: rest) = .ok (points ++ later, post) := by
  rw [Json.stringTail, if_neg hc, hpiece]
  simp only [hafter, hlater]

theorem jsonPiece_letter {c meaning : Char} (h : (c, meaning) ∈ letters) (after : Text) :
    Json.piece opened '\\' (c :: after) = .ok ⟨[.ofChar meaning], 2⟩ := by
  have hletters := List.all_eq_true.mp (show (letters.all fun l =>
    Json.shortEscape? l.1 == some (.ofChar l.2) && l.1 != 'u') = true by decide) _ h
  obtain ⟨hshort, hu⟩ : Json.shortEscape? c = some (.ofChar meaning) ∧ c ≠ 'u' := by
    simpa using hletters
  simp [Json.piece, hu, hshort]

section Unicode

variable {a b c d : HexDigit} {after : Text} (hafter : after ≠ [])
include hafter

/-- The four digits of an escape in a string that goes on behind them. -/
theorem four_lt_length : 4 < (a.char :: b.char :: c.char :: d.char :: after).length := by
  have := List.length_pos_iff.mpr hafter
  simp only [List.length_cons]
  omega

theorem jsonPiece_single
    (hsingle : CodePoint.isHighSurrogate (hex4 a b c d) = true → Json.lowSurrogate? after = none) :
    Json.piece opened '\\' ('u' :: a.char :: b.char :: c.char :: d.char :: after) =
      .ok ⟨[(Part.unicode a b c d).point], 6⟩ := by
  have hpoint : CodePoint.ofNat? (hex4 a b c d) = some (Part.unicode a b c d).point :=
    dif_pos (Nat.lt_trans (hex4_lt a b c d) (by decide))
  have hnone : (if CodePoint.isHighSurrogate (hex4 a b c d) then Json.lowSurrogate? after
      else none) = none := by
    split
    · exact hsingle ‹_›
    · rfl
  simp only [Json.piece, if_true, Json.unicodePiece, if_pos (four_lt_length hafter),
    hexQuad?_digits, List.drop_succ_cons, List.drop_zero, hnone, hpoint, Option.toList_some]

theorem jsonPiece_pair {low : Nat} {joined : CodePoint}
    (hhigh : CodePoint.isHighSurrogate (hex4 a b c d) = true)
    (hlow : Json.lowSurrogate? after = some low)
    (hjoined : CodePoint.ofNat? (CodePoint.joinSurrogates (hex4 a b c d) low) = some joined) :
    Json.piece opened '\\' ('u' :: a.char :: b.char :: c.char :: d.char :: after) =
      .ok ⟨[joined], 12⟩ := by
  simp only [Json.piece, if_true, Json.unicodePiece, if_pos (four_lt_length hafter),
    hexQuad?_digits, List.drop_succ_cons, List.drop_zero, if_pos hhigh, hlow, hjoined,
    Option.toList_some]

end Unicode

theorem jsonLowSurrogate?_unicode (a b c d : HexDigit) {after : Text} (hafter : after ≠ []) :
    Json.lowSurrogate? ((Part.unicode a b c d).text ++ after) =
      if CodePoint.isLowSurrogate (hex4 a b c d) then some (hex4 a b c d) else none := by
  simp only [Part.text, List.cons_append, List.nil_append, Json.lowSurrogate?,
    if_pos (four_lt_length hafter), hexQuad?_digits, Option.filter_some]

theorem jsonLowSurrogate?_of_pair?_eq_none {a b c d : HexDigit} {q : Part} {after : Text}
    (hafter : after ≠ []) (hhigh : CodePoint.isHighSurrogate (hex4 a b c d) = true)
    (h : (Part.unicode a b c d).pair? q = none) : Json.lowSurrogate? (q.text ++ after) = none := by
  cases q with
  | plain c is =>
      simp only [Part.text, List.singleton_append]
      unfold Json.lowSurrogate?
      split <;> simp_all
  | letter c meaning is =>
      have hu : c ≠ 'u' := by
        rintro rfl
        simp [letters] at is
      simp only [Part.text, List.cons_append, List.nil_append]
      unfold Json.lowSurrogate?
      split <;> simp_all
  | unicode a' b' c' d' =>
      rw [jsonLowSurrogate?_unicode a' b' c' d' hafter]
      have hlow : ¬ CodePoint.isLowSurrogate (hex4 a' b' c' d') = true := by
        intro hlow
        simp [Part.pair?, hhigh, hlow] at h
      rw [if_neg hlow]

/-- One part that is not the first half of a pair. -/
theorem stringTail_part {p : Part} {after : Text} {later : List CodePoint} (hafter : after ≠ [])
    (hsingle : ∀ a b c d, p = .unicode a b c d →
      CodePoint.isHighSurrogate (hex4 a b c d) = true → Json.lowSurrogate? after = none)
    (hlater : Json.stringTail opened after = .ok (later, post)) :
    Json.stringTail opened (p.text ++ after) = .ok (p.point :: later, post) := by
  cases p with
  | plain c is =>
      have hpiece : Json.piece opened c after = .ok ⟨[.ofChar c], 1⟩ := by
        rw [Json.piece.eq_def, if_neg is.2.2, if_neg (by omega)]
      exact stringTail_of_piece is.2.1 hpiece rfl hlater
  | letter c meaning is =>
      exact stringTail_of_piece (by decide) (jsonPiece_letter is after) rfl hlater
  | unicode a b c d =>
      have hpiece := @jsonPiece_single opened a b c d after hafter (hsingle a b c d rfl)
      exact stringTail_of_piece (by decide) hpiece rfl hlater

/-- The strict reader reads a string up to its closing quote. -/
theorem stringTail_bodyText (opened : Text) (parts : List Part) (post : Text) :
    Json.stringTail opened (bodyText parts ++ '"' :: post) = .ok (codePoints parts, post) := by
  fun_induction codePoints parts with
  | case1 =>
      rw [bodyText, List.flatMap_nil, List.nil_append, Json.stringTail, if_pos rfl]
  | case2 p =>
      have hend : Json.stringTail opened ('"' :: post) = .ok ([], post) := by
        rw [Json.stringTail, if_pos rfl]
      have htext : bodyText [p] = p.text := List.append_nil _
      rw [htext]
      exact stringTail_part (by simp) (fun _ _ _ _ _ _ => rfl) hend
  | case3 p q rest joined hpair ih =>
      -- only two escapes by digits make a pair
      cases p <;> cases q <;> try cases hpair
      rename_i a b c d a' b' c' d'
      have hrest : bodyText rest ++ '"' :: post ≠ [] := by simp
      simp only [Part.pair?] at hpair
      split at hpair
      · rename_i hhalves
        have hlow : Json.lowSurrogate? ((Part.unicode a' b' c' d').text ++
            (bodyText rest ++ '"' :: post)) = some (hex4 a' b' c' d') := by
          rw [jsonLowSurrogate?_unicode a' b' c' d' hrest, if_pos hhalves.2]
        have hjoined : CodePoint.ofNat? (CodePoint.joinSurrogates (hex4 a b c d)
            (hex4 a' b' c' d')) = some joined :=
          (dif_pos (CodePoint.joinSurrogates_lt hhalves.1 hhalves.2)).trans hpair
        have hpiece := @jsonPiece_pair opened a b c d _ (by simp) _ _ hhalves.1 hlow hjoined
        have htail := stringTail_of_piece (by decide) hpiece rfl ih
        simpa [bodyText, Part.text] using htail
      · cases hpair
  | case4 p q rest hpair ih =>
      rw [bodyText_cons, List.append_assoc]
      refine stringTail_part (by simp) (fun a b c d hp hhigh => ?_) ih
      subst hp
      rw [bodyText_cons, List.append_assoc]
      exact jsonLowSurrogate?_of_pair?_eq_none (by simp) hhigh hpair

end Strings

/-! ## Words and numbers -/

section Scalars

variable {post : Text}

theorem skipSpace_blank (gap : Blank) (post : Text) :
    Json.skipSpace (gap.val ++ post) = Json.skipSpace post := by
  refine List.dropWhile_append_of_pos fun c hc => ?_
  have hspace := gap.property c hc
  simp only [List.mem_cons, List.not_mem_nil, or_false] at hspace
  rcases hspace with rfl | rfl | rfl | rfl <;> rfl

theorem skipSpace_cons {c : Char} (hc : Json.isSpace c = false) (cs : Text) :
    Json.skipSpace (c :: cs) = c :: cs := by
  rw [Json.skipSpace, List.dropWhile_cons, hc]
  rfl

theorem skipSpace_mark (m : Mark) {c : Char} (hc : Json.isSpace c = false) (post : Text) :
    Json.skipSpace (m.text c ++ post) = c :: (m.after.val ++ post) := by
  rw [Mark.text_append, skipSpace_blank, skipSpace_cons hc]

/-- No word is the front of a number: a digit stands where the word has its first letter, or its
second behind a minus. -/
theorem word?_number (n : Number) (post : Text) : Json.word? (n.text ++ post) = none := by
  obtain ⟨digit, rest, hmagnitude⟩ := n.exists_magnitudeText_eq_cons
  have hletter {c : Char} (hc : isAsciiDigit c = false) : ¬ c = digit.char :=
    (digit.char_ne hc).symm
  rw [Json.word?, Option.map_eq_none_iff, List.find?_eq_none, Number.text, hmagnitude]
  rintro ⟨word, value⟩ hword hprefix
  rw [List.isPrefixOf_iff_prefix] at hprefix
  simp only [Json.words, List.mem_cons, List.not_mem_nil, or_false, Prod.mk.injEq] at hword
  cases hminus : n.minus with
  | false =>
      rw [hminus] at hprefix
      rcases hword with ⟨rfl, -⟩ | ⟨rfl, -⟩ | ⟨rfl, -⟩ | ⟨rfl, -⟩ | ⟨rfl, -⟩ | ⟨rfl, -⟩ <;>
        exact hletter (by decide) (List.cons_prefix_cons.mp hprefix).1
  | true =>
      rw [hminus] at hprefix
      rcases hword with ⟨rfl, -⟩ | ⟨rfl, -⟩ | ⟨rfl, -⟩ | ⟨rfl, -⟩ | ⟨rfl, -⟩ | ⟨rfl, -⟩
      iterate 5 exact absurd (List.cons_prefix_cons.mp hprefix).1 (by decide)
      exact hletter (by decide)
        (List.cons_prefix_cons.mp (List.cons_prefix_cons.mp hprefix).2).1

theorem scalar_number (n : Number) (hpost : Starts breaks post)
    (hdigits : n.isInteger = true → n.whole.list.length ≤ maxDecimalDigits) :
    Json.scalar (n.text ++ post) = .ok (.number n.value, post) := by
  have hsize := @Number.strictSize_text n post isAsciiDigit separates_isAsciiDigit hpost
  have hpos : n.text.length ≠ 0 := by
    obtain ⟨c, rest, htext, -⟩ := n.exists_text_eq_cons
    simp [htext]
  simp only [Json.scalar, word?_number, hsize, if_neg hpos, List.take_left, List.drop_left,
    literalValue_text n hdigits]

end Scalars

/-! ## Structures

The proofs go along the text from left to right. A reader leaves the white space behind a closing
bracket, and whoever called it skips that. -/

/-- A reader finds something in front of a text, and has left at most white space there. -/
def Finds {α : Type} (found : Except Json.Failure (α × Text)) (a : α) (post : Text) : Prop :=
  ∃ gap : Blank, found = .ok (a, gap.val ++ post)

theorem finds_ok {α : Type} {a : α} {post : Text} : Finds (.ok (a, post)) a post :=
  ⟨⟨[], by simp⟩, rfl⟩

theorem valueWithin_scalar {bound depth : Nat} {c : Char} {rest : Text} (hbound : 0 < bound)
    (hc : c ∉ ['"', '\x7b', '[']) :
    Json.valueWithin bound depth (c :: rest) = Json.scalar (c :: rest) := by
  obtain ⟨bound, rfl⟩ := Nat.exists_eq_add_of_lt hbound
  simp only [List.mem_cons, List.not_mem_nil, or_false, not_or] at hc
  rw [Nat.zero_add, Json.valueWithin.eq_def]
  simp only [if_neg hc.1, if_neg hc.2.1, if_neg hc.2.2]

theorem finds_number {bound depth : Nat} {post : Text} (n : Number) (hbound : 0 < bound)
    (hpost : Starts breaks post)
    (hdigits : n.isInteger = true → n.whole.list.length ≤ maxDecimalDigits) :
    Finds (Json.valueWithin bound depth (Json.skipSpace (n.text ++ post))) (.number n.value)
      post := by
  have hscalar := scalar_number n hpost hdigits
  obtain ⟨c, rest, htext, hc⟩ := n.exists_text_eq_cons
  rw [htext, List.cons_append] at hscalar ⊢
  rw [skipSpace_cons (eq_false_of_any (by decide) hc), valueWithin_scalar hbound ?_, hscalar]
  · exact finds_ok
  · intro hmark
    have hnone : (digitChars.any ['"', '\x7b', '['].contains) = false := by decide
    rcases List.mem_cons.mp hc with rfl | hc
    · revert hmark
      decide
    · simpa [hmark] using eq_false_of_any hnone hc

/-- No value begins with the bracket that closes an array. -/
theorem Value.skipSpace_text_ne (v : Value) (post rest : Text) :
    Json.skipSpace (v.text ++ post) ≠ ']' :: rest := by
  have hcons {c : Char} {cs : Text} (hspace : Json.isSpace c = false) (hc : c ≠ ']') :
      Json.skipSpace (c :: cs) ≠ ']' :: rest := by
    rw [skipSpace_cons hspace]
    exact fun h => hc (List.cons.inj h).1
  have hmark {m : Mark} {c : Char} {cs : Text} (hspace : Json.isSpace c = false) (hc : c ≠ ']') :
      Json.skipSpace (m.text c ++ cs) ≠ ']' :: rest := by
    rw [skipSpace_mark m hspace]
    exact fun h => hc (List.cons.inj h).1
  cases v with
  | null => exact hcons (by decide) (by decide)
  | boolean b => cases b <;> exact hcons (by decide) (by decide)
  | number n =>
      obtain ⟨c, cs, htext, hc⟩ := n.exists_text_eq_cons
      rw [Value.text, htext, List.cons_append]
      refine hcons (eq_false_of_any (by decide) hc) ?_
      rintro rfl
      exact absurd hc (by decide)
  | string parts => exact hcons (by decide) (by decide)
  | emptyObject opening closing | emptyArray opening closing =>
      rw [Value.text, List.append_assoc]
      exact hmark (by decide) (by decide)
  | object opening members closing | array opening elements closing =>
      rw [Value.text, List.append_assoc, List.append_assoc]
      exact hmark (by decide) (by decide)

theorem Value.text_ne_nil (v : Value) : v.text ≠ [] := by
  cases v with
  | null => simp [Value.text]
  | boolean b => cases b <;> simp [Value.text]
  | number n =>
      obtain ⟨c, cs, htext, -⟩ := n.exists_text_eq_cons
      simp [Value.text, htext]
  | string parts => simp [Value.text, stringText]
  | emptyObject opening closing | emptyArray opening closing => simp [Value.text, Mark.text]
  | object opening members closing | array opening elements closing => simp [Value.text, Mark.text]

/-- The text of members begins with the quote of the first name. -/
theorem Members.exists_text_eq_cons (ms : Members) : ∃ rest, ms.text = '"' :: rest := by
  cases ms <;> exact ⟨_, rfl⟩

section Brackets

variable {bound depth : Nat} {opening closing : Mark} {post : Text}

theorem finds_emptyObject :
    Finds (Json.valueWithin (bound + 1) (depth + 1)
      (Json.skipSpace (opening.text '\x7b' ++ (closing.text '\x7d' ++ post)))) (.map []) post := by
  refine ⟨closing.after, ?_⟩
  rw [skipSpace_mark opening rfl, Json.valueWithin.eq_def]
  simp only [skipSpace_blank, skipSpace_mark closing (show Json.isSpace '\x7d' = false by decide)]
  rfl

theorem finds_object {ms : Members} {entries : List (List CodePoint × Datum)}
    (h : Json.membersWithin bound depth [] (ms.text ++ (closing.text '\x7d' ++ post)) =
      .ok (entries, closing.after.val ++ post)) :
    Finds (Json.valueWithin (bound + 1) (depth + 1)
      (Json.skipSpace (opening.text '\x7b' ++ (ms.text ++ (closing.text '\x7d' ++ post)))))
      (.map entries) post := by
  obtain ⟨rest, htext⟩ := ms.exists_text_eq_cons
  rw [htext] at h ⊢
  refine ⟨closing.after, ?_⟩
  rw [skipSpace_mark opening rfl, Json.valueWithin.eq_def]
  simp only [skipSpace_blank, List.cons_append,
    skipSpace_cons (show Json.isSpace '"' = false by decide)] at h ⊢
  simp [h, Except.map]

theorem finds_emptyArray :
    Finds (Json.valueWithin (bound + 1) (depth + 1)
      (Json.skipSpace (opening.text '[' ++ (closing.text ']' ++ post)))) (.list []) post := by
  refine ⟨closing.after, ?_⟩
  rw [skipSpace_mark opening rfl, Json.valueWithin.eq_def]
  simp only [skipSpace_blank, skipSpace_mark closing (show Json.isSpace ']' = false by decide)]
  rfl

theorem Elements.skipSpace_text_ne (es : Elements) (post rest : Text) :
    Json.skipSpace (es.text ++ post) ≠ ']' :: rest := by
  cases es with
  | last value => exact value.skipSpace_text_ne post rest
  | more value comma others =>
      rw [Elements.text, List.append_assoc, List.append_assoc]
      exact value.skipSpace_text_ne _ rest

theorem finds_array {es : Elements} {items : List Datum}
    (h : Json.itemsWithin bound depth (Json.skipSpace (es.text ++ (closing.text ']' ++ post))) =
      .ok (items, closing.after.val ++ post)) :
    Finds (Json.valueWithin (bound + 1) (depth + 1)
      (Json.skipSpace (opening.text '[' ++ (es.text ++ (closing.text ']' ++ post)))))
      (.list items) post := by
  refine ⟨closing.after, ?_⟩
  rw [skipSpace_mark opening rfl, Json.valueWithin.eq_def]
  simp only [skipSpace_blank, if_neg (show ¬ '[' = '"' by decide),
    if_neg (show ¬ '[' = '\x7b' by decide), if_true]
  split
  · rename_i after hclosed
    exact absurd hclosed (es.skipSpace_text_ne _ after)
  · rw [h]
    rfl

/-- A member of an object, with the closing brace or another member behind its value. -/
theorem membersWithin_member (entries : List (List CodePoint × Datum)) (name : List Part)
    (colon : Mark) {cs after : Text} {value : Datum}
    (h : Finds (Json.valueWithin bound depth (Json.skipSpace cs)) value post) :
    (Json.skipSpace post = '\x7d' :: after →
      Json.membersWithin (bound + 1) depth entries (stringText name ++ (colon.text ':' ++ cs)) =
        .ok (Pairs.put entries (codePoints name) value, after)) ∧
    (Json.skipSpace post = ',' :: after →
      Json.membersWithin (bound + 1) depth entries (stringText name ++ (colon.text ':' ++ cs)) =
        Json.membersWithin bound depth (Pairs.put entries (codePoints name) value)
          (Json.skipSpace after)) := by
  obtain ⟨gap, hvalue⟩ := h
  have hname := stringTail_bodyText (stringText name ++ (colon.text ':' ++ cs)) name
    (colon.text ':' ++ cs)
  have hcolon := skipSpace_mark colon (show Json.isSpace ':' = false from rfl) cs
  simp only [stringText, List.cons_append, List.append_assoc, List.nil_append] at hname ⊢
  rw [Json.membersWithin.eq_def]
  constructor
  · intro hpost
    simp only [hname, hcolon, skipSpace_blank, hvalue, hpost]
  · intro hpost
    simp only [hname, hcolon, skipSpace_blank, hvalue, hpost]

/-- An item of an array, with the closing bracket or other items behind it. -/
theorem itemsWithin_item {cs after : Text} {value : Datum}
    (h : Finds (Json.valueWithin bound depth cs) value post) :
    (Json.skipSpace post = ']' :: after →
      Json.itemsWithin (bound + 1) depth cs = .ok ([value], after)) ∧
    (Json.skipSpace post = ',' :: after → ∀ items later,
      Json.itemsWithin bound depth (Json.skipSpace after) = .ok (items, later) →
      Json.itemsWithin (bound + 1) depth cs = .ok (value :: items, later)) := by
  obtain ⟨gap, hvalue⟩ := h
  rw [Json.itemsWithin, hvalue]
  constructor
  · intro hpost
    simp only [skipSpace_blank, hpost]
  · intro hpost items later hitems
    simp only [skipSpace_blank, hpost, hitems, Except.map]

end Brackets

mutual

/-- The strict reader finds what a value decodes to. -/
theorem Value.finds (v : Value) {bound depth : Nat} {post : Text} (hpost : Starts breaks post)
    (hbound : v.text.length ≤ bound) (hdepth : v.nesting ≤ depth)
    (hnumbers : Convertible v.numbers) :
    Finds (Json.valueWithin bound depth (Json.skipSpace (v.text ++ post))) v.decoded post := by
  -- a value has at least one character, which pays for the step into it
  have hpos := List.length_pos_iff.mpr v.text_ne_nil
  obtain ⟨bound, rfl⟩ : ∃ b, bound = b + 1 := ⟨bound - 1, by omega⟩
  match v with
  | .null | .boolean true | .boolean false =>
      simp only [Value.text, List.cons_append]
      rw [skipSpace_cons rfl, valueWithin_scalar (Nat.succ_pos bound) (by decide)]
      exact finds_ok
  | .number n =>
      exact finds_number n (Nat.succ_pos bound) hpost (hnumbers n (by simp [Value.numbers]))
  | .string parts =>
      have htail := stringTail_bodyText (stringText parts ++ post) parts post
      simp only [Value.text, stringText, List.cons_append, List.append_assoc, List.nil_append]
        at htail ⊢
      rw [skipSpace_cons rfl, Json.valueWithin.eq_def]
      simp only [if_true, htail]
      exact finds_ok
  | .emptyObject opening closing =>
      obtain ⟨depth, rfl⟩ := Nat.exists_eq_add_of_lt hdepth
      rw [Value.text, List.append_assoc, Nat.zero_add]
      exact finds_emptyObject
  | .object opening members closing =>
      rw [Value.nesting] at hdepth
      obtain ⟨depth, rfl⟩ : ∃ d, depth = d + 1 := ⟨depth - 1, by omega⟩
      simp only [Value.text, Mark.text, List.length_append, List.length_cons] at hbound
      rw [Value.text, List.append_assoc, List.append_assoc]
      exact finds_object (members.membersWithin_text [] closing post (by omega) (by omega) hnumbers)
  | .emptyArray opening closing =>
      obtain ⟨depth, rfl⟩ := Nat.exists_eq_add_of_lt hdepth
      rw [Value.text, List.append_assoc, Nat.zero_add]
      exact finds_emptyArray
  | .array opening elements closing =>
      rw [Value.nesting] at hdepth
      obtain ⟨depth, rfl⟩ : ∃ d, depth = d + 1 := ⟨depth - 1, by omega⟩
      simp only [Value.text, Mark.text, List.length_append, List.length_cons] at hbound
      rw [Value.text, List.append_assoc, List.append_assoc]
      exact finds_array (elements.itemsWithin_text closing post (by omega) (by omega) hnumbers)

theorem Members.membersWithin_text (ms : Members) {bound depth : Nat}
    (entries : List (List CodePoint × Datum)) (closing : Mark) (post : Text)
    (hbound : ms.text.length ≤ bound) (hdepth : ms.nesting ≤ depth)
    (hnumbers : Convertible ms.numbers) :
    Json.membersWithin bound depth entries (ms.text ++ (closing.text '\x7d' ++ post)) =
      .ok ((ms.pairs codePoints).foldl (fun acc (k, v) => Pairs.put acc k v) entries,
        closing.after.val ++ post) := by
  match ms with
  | .last name colon value =>
      simp only [Members.text, stringText, Mark.text, List.length_append, List.length_cons]
        at hbound
      obtain ⟨bound, rfl⟩ : ∃ b, bound = b + 1 := ⟨bound - 1, by omega⟩
      have hvalue := value.finds (@Mark.starts post closing '\x7d' (by decide))
        (show value.text.length ≤ bound by omega) hdepth hnumbers
      rw [Members.text, List.append_assoc, List.append_assoc,
        (membersWithin_member entries name colon hvalue).1 (skipSpace_mark closing rfl post)]
      rfl
  | .more name colon value comma rest =>
      simp only [Members.text, stringText, Mark.text, List.length_append, List.length_cons]
        at hbound
      rw [Members.nesting, Nat.max_le] at hdepth
      obtain ⟨hfirst, hothers⟩ := List.forall_mem_append.mp hnumbers
      obtain ⟨bound, rfl⟩ : ∃ b, bound = b + 1 := ⟨bound - 1, by omega⟩
      have hvalue := value.finds
        (@Mark.starts (rest.text ++ (closing.text '\x7d' ++ post)) comma ',' (by decide))
        (show value.text.length ≤ bound by omega) hdepth.1 hfirst
      have hrest := rest.membersWithin_text (Pairs.put entries (codePoints name) value.decoded)
        closing post (show rest.text.length ≤ bound by omega) hdepth.2 hothers
      simp only [Members.text, List.append_assoc]
      rw [(membersWithin_member entries name colon hvalue).2 (skipSpace_mark comma rfl _),
        skipSpace_blank]
      obtain ⟨cs, htext⟩ := rest.exists_text_eq_cons
      rw [htext] at hrest ⊢
      rw [List.cons_append, skipSpace_cons rfl, ← List.cons_append, hrest]
      rfl

theorem Elements.itemsWithin_text (es : Elements) {bound depth : Nat} (closing : Mark) (post : Text)
    (hbound : es.text.length + 1 ≤ bound) (hdepth : es.nesting ≤ depth)
    (hnumbers : Convertible es.numbers) :
    Json.itemsWithin bound depth (Json.skipSpace (es.text ++ (closing.text ']' ++ post))) =
      .ok (es.data codePoints, closing.after.val ++ post) := by
  obtain ⟨bound, rfl⟩ : ∃ b, bound = b + 1 := ⟨bound - 1, by omega⟩
  match es with
  | .last value =>
      have hvalue := value.finds (@Mark.starts post closing ']' (by decide))
        (Nat.le_of_succ_le_succ hbound) hdepth hnumbers
      exact (itemsWithin_item hvalue).1 (skipSpace_mark closing rfl post)
  | .more value comma rest =>
      simp only [Elements.text, Mark.text, List.length_append, List.length_cons] at hbound
      rw [Elements.nesting, Nat.max_le] at hdepth
      obtain ⟨hfirst, hothers⟩ := List.forall_mem_append.mp hnumbers
      have hvalue := value.finds
        (@Mark.starts (rest.text ++ (closing.text ']' ++ post)) comma ',' (by decide))
        (show value.text.length ≤ bound by omega) hdepth.1 hfirst
      have hrest := rest.itemsWithin_text closing post
        (show rest.text.length + 1 ≤ bound by omega) hdepth.2 hothers
      simp only [Elements.text, List.append_assoc]
      refine (itemsWithin_item hvalue).2 (skipSpace_mark comma rfl _) _ _ ?_
      rw [skipSpace_blank, hrest]

end

/-- The strict reader reads a text as what it decodes to. -/
theorem Json.read_text {depth : Nat} (j : Json) (hdepth : j.value.nesting ≤ depth)
    (hnumbers : Convertible j.value.numbers) :
    LocatedJson.Json.read depth j.text = .ok j.value.decoded := by
  have hbound : j.value.text.length ≤ LocatedJson.Json.boundFor j.text.length := by
    simp only [LocatedJson.Json.boundFor, Json.text, List.length_append]
    omega
  obtain ⟨gap, hvalue⟩ := j.value.finds (Blank.starts j.after) hbound hdepth hnumbers
  have htext : Json.skipSpace j.text = Json.skipSpace (j.value.text ++ j.after.val) := by
    rw [Json.text, List.append_assoc, skipSpace_blank]
  have hafter : Json.skipSpace (gap.val ++ j.after.val) = [] := by
    rw [skipSpace_blank, ← List.append_nil j.after.val, skipSpace_blank]
    rfl
  rw [LocatedJson.Json.read, htext, hvalue]
  simp only [hafter]

end LocatedJson.Interchange
