import LocatedJson.Proofs.Derivation
import LocatedJson.Proofs.Escapes
import LocatedJson.Proofs.RuleNotation

/-!
# Writing integers

An integer is written as a sign and a magnitude, and the magnitude in decimal
digits or behind the mark of base sixteen, with as many zeros in front as one
likes (`IntegerText`). Whichever way is chosen, the text is one number in json5
and the document of the integer; without a plus and without anything behind a
zero in front it is so in the other dialects as well (`Document.ofText_integer`).

What a literal is gets decided twice. The sizes take as much as belongs to a
number, so the mark of base sixteen has to win over the zero in front of it
(`Magnitude.wideSize_append`); the value is chosen by the characters of the
literal alone, so that mark has to win over an `e` among the digits
(`Magnitude.literalValue_eq`).
-/

namespace LocatedJson.Rendering

open LocatedJson.Text LocatedJson.Numeral LocatedJson.Interchange

/-! ## The notation -/

/-- The signs of an integer, of which zero may have every one. -/
inductive SignOf (n : Int) : Text → Prop
  | none (h : 0 ≤ n) : SignOf n []
  | plus (h : 0 ≤ n) : SignOf n ['+']
  | minus (h : n ≤ 0) : SignOf n ['-']

/-- The ways to write a magnitude: in base ten with a bound on the digits, or in base sixteen. -/
inductive Magnitude (m : Nat) : Text → Prop
  | decimal (ds : Digits) (hlength : ds.val.length ≤ maxDecimalDigits)
      (hvalue : Nat.ofDigits 10 (ds.val.map Digit.value).reverse = m) :
      Magnitude m (ds.val.map Digit.char)
  | hexadecimal {x : Char} (hx : x = 'x' ∨ x = 'X') (ds : List HexDigit) (hne : ds ≠ [])
      (hvalue : Nat.ofDigits 16 (ds.map HexDigit.value).reverse = m) :
      Magnitude m ('0' :: x :: ds.map HexDigit.char)

/-- The ways to write an integer. -/
inductive IntegerText (n : Int) : Text → Prop
  | intro {sign magnitude : Text} (hsign : SignOf n sign)
      (hmagnitude : Magnitude n.natAbs magnitude) : IntegerText n (sign ++ magnitude)

/-- There is no plus in front, and nothing behind a zero in front: neither the mark of base sixteen
nor a digit. -/
structure Strict (text : Text) : Prop where
  plus : text.head? ≠ some '+'
  zero : ∀ rest, text = '0' :: rest ∨ text = '-' :: '0' :: rest → rest = []

variable {n : Int} {m : Nat} {sign magnitude text : Text}

theorem SignOf.mem (h : SignOf n sign) : sign ∈ [[], ['+'], ['-']] := by
  cases h <;> simp

/-- A magnitude starts with a digit. -/
theorem Magnitude.exists_cons (h : Magnitude m magnitude) :
    ∃ d : Digit, ∃ rest, magnitude = d.char :: rest := by
  cases h with
  | decimal ds hlength hvalue =>
      obtain ⟨d, ds', hds⟩ := List.exists_cons_of_ne_nil ds.property
      exact ⟨d, ds'.map Digit.char, by rw [hds]; rfl⟩
  | hexadecimal hx ds hne hvalue => exact ⟨⟨'0', by decide⟩, _, rfl⟩

/-! ## Sizes -/

theorem isAsciiHex_of_mem {ds : List HexDigit} :
    ∀ c ∈ ds.map HexDigit.char, isAsciiHex c = true := by
  intro c hc
  obtain ⟨d, -, rfl⟩ := List.mem_map.mp hc
  by_contra hnot
  exact d.char_ne (Bool.eq_false_iff.mpr hnot) rfl

/-- Digits never carry the mark of base sixteen. -/
theorem hexSize_digits (ds : List Digit) : hexSize (ds.map Digit.char) = 0 := by
  by_contra hne
  obtain ⟨x, digits, hx, htake⟩ : ∃ x digits, (x = 'x' ∨ x = 'X') ∧
      (ds.map Digit.char).take (hexSize (ds.map Digit.char)) = '0' :: x :: digits := by
    generalize htake : (ds.map Digit.char).take _ = taken
    obtain ⟨hx, -, -⟩ := htake ▸ hexadecimal_hexSize hne
    exact ⟨_, _, hx, rfl⟩
  have hmem : x ∈ ds.map Digit.char := by
    refine List.mem_of_mem_take (i := hexSize (ds.map Digit.char)) ?_
    rw [htake]
    simp
  rcases hx with rfl | rfl
  · exact Number.not_mem_digits (by decide) ds hmem
  · exact Number.not_mem_digits (by decide) ds hmem

theorem wideDecimalSize_digits (ds : Digits) :
    wideDecimalSize isDecimal (ds.val.map Digit.char) = ds.val.length := by
  have hpos := List.length_pos_iff.mpr ds.property
  have hdigits : digitsSize isDecimal (ds.val.map Digit.char) = ds.val.length := by
    rw [digitsSize, List.takeWhile_eq_self_iff.mpr isDecimal_of_mem, List.length_map]
  have hdrop : (ds.val.map Digit.char).drop ds.val.length = [] :=
    List.drop_of_length_le (by rw [List.length_map])
  have hmantissa : mantissaSize isDecimal (ds.val.map Digit.char) = ds.val.length := by
    rw [mantissaSize_eq, hdigits, if_neg (by omega), hdrop]
    rfl
  rw [wideDecimalSize, hmantissa, hdrop]
  exact if_neg (by omega)

theorem hexSize_hexadecimal {x : Char} (hx : x = 'x' ∨ x = 'X') {ds : List HexDigit}
    (hne : ds ≠ []) :
    hexSize ('0' :: x :: ds.map HexDigit.char) = ('0' :: x :: ds.map HexDigit.char).length := by
  have hpos := List.length_pos_iff.mpr hne
  simp only [hexSize, List.takeWhile_eq_self_iff.mpr isAsciiHex_of_mem, List.length_map,
    List.length_cons]
  rw [if_pos ⟨hx, by omega⟩]
  omega

/-- Up to the end of the text, all of a magnitude belongs to the number. -/
theorem Magnitude.wideSize_append (h : Magnitude m magnitude) (hsign : SignOf n sign) :
    wideSize isDecimal (sign ++ magnitude) = (sign ++ magnitude).length := by
  obtain ⟨d, rest, hcons⟩ := h.exists_cons
  have hsize : signSize (sign ++ magnitude) = sign.length := by
    cases hsign <;> simp [signSize, hcons, d.ne_sign]
  rw [wideSize, hsize, List.drop_left, List.length_append]
  cases h with
  | decimal ds hlength hvalue =>
      have hpos := List.length_pos_iff.mpr ds.property
      simp only [hexSize_digits, wideDecimalSize_digits, ne_eq, not_true_eq_false, if_false]
      rw [if_pos (by omega), List.length_map]
  | hexadecimal hx ds hne hvalue =>
      rw [hexSize_hexadecimal hx hne]
      exact if_pos (by simp)

/-! ## Tokens -/

theorem Magnitude.scan_json5 {c : Char} {rest : Text} (h : Magnitude m magnitude)
    (hsign : SignOf n sign) (htext : sign ++ magnitude = c :: rest) :
    Lexeme.scan .json5 c rest = .found .number (c :: rest).length := by
  have hsize := h.wideSize_append hsign
  obtain ⟨d, more, rfl⟩ := h.exists_cons
  have hnumber : Lexeme.number? .json5 (c :: rest) = some (.found .number (c :: rest).length) := by
    rw [htext] at hsize
    rw [Lexeme.number?, if_pos rfl, hsize]
    rfl
  cases hsign with
  | none h =>
      obtain ⟨rfl, rfl⟩ := List.cons.inj htext
      refine scan_of_number? (fun hd => ?_) (by simp [d.char_mem]) hnumber
      exact absurd hd (not_or.mpr d.ne_sign)
  | plus h =>
      obtain ⟨rfl, rfl⟩ := List.cons.inj htext
      exact scan_of_number? (fun _ => ⟨d, rfl⟩) (by simp) hnumber
  | minus h =>
      obtain ⟨rfl, rfl⟩ := List.cons.inj htext
      exact scan_of_number? (fun _ => ⟨d, rfl⟩) (by simp) hnumber

/-- Without a plus and without anything behind a zero in front, a text is an interchange number. -/
theorem Magnitude.exists_number (h : Magnitude m magnitude) (hsign : SignOf n sign)
    (hstrict : Strict (sign ++ magnitude)) :
    ∃ number : Interchange.Number, number.text = sign ++ magnitude := by
  have hzero {rest : Text} (hrest : magnitude = '0' :: rest) : rest = [] := by
    cases hsign with
    | none _ => exact hstrict.zero rest (.inl hrest)
    | plus _ => exact absurd rfl hstrict.plus
    | minus _ => exact hstrict.zero rest (.inr (congrArg (List.cons '-') hrest))
  obtain ⟨minus, hminus⟩ : ∃ minus : Bool, (if minus then ['-'] else []) = sign := by
    cases hsign with
    | none _ => exact ⟨false, rfl⟩
    | plus _ => exact absurd rfl hstrict.plus
    | minus _ => exact ⟨true, rfl⟩
  have hwhole : ∃ whole : Whole, whole.list.map Digit.char = magnitude := by
    cases h with
    | decimal ds hlength hvalue =>
        obtain ⟨first, rest, hds⟩ := List.exists_cons_of_ne_nil ds.property
        rw [hds] at hzero ⊢
        by_cases hfirst : first.char = '0'
        · have hnil := hzero (congrArg (List.cons · (rest.map Digit.char)) hfirst)
          refine ⟨.zero, ?_⟩
          rw [List.map_cons, hnil, hfirst]
          rfl
        · exact ⟨.digits first hfirst rest, rfl⟩
    | hexadecimal hx ds hne hvalue => exact absurd (hzero rfl) (List.cons_ne_nil _ _)
  obtain ⟨whole, rfl⟩ := hwhole
  refine ⟨⟨minus, whole, none, none⟩, ?_⟩
  simp [Number.text, Number.magnitudeText, Number.fractionText, Number.exponentText, hminus]

/-- In json5 every way to write an integer is a lexeme, and a strict one is so in all dialects. -/
theorem IntegerText.exists_scan {d : Dialect} (h : IntegerText n text)
    (hd : d = .json5 ∨ Strict text) :
    ∃ c rest, text = c :: rest ∧ d.isSpace c = false ∧
      Lexeme.scan d c rest = .found .number text.length := by
  obtain ⟨hsign, hmagnitude⟩ := h
  rename_i sign magnitude
  obtain ⟨first, more, hmore⟩ := hmagnitude.exists_cons
  obtain ⟨c, rest, htext, hc⟩ : ∃ c rest, sign ++ magnitude = c :: rest ∧
      c ∈ '+' :: '-' :: digitChars := by
    cases hsign with
    | none _ => exact ⟨first.char, more, hmore, by simp [first.char_mem]⟩
    | plus _ => exact ⟨'+', magnitude, rfl, by simp⟩
    | minus _ => exact ⟨'-', magnitude, rfl, by simp⟩
  refine ⟨c, rest, htext, eq_false_of_any (by cases d <;> decide) hc, ?_⟩
  rcases hd with rfl | hstrict
  · rw [hmagnitude.scan_json5 hsign htext, htext]
  · obtain ⟨number, hnumber⟩ := hmagnitude.exists_number hsign hstrict
    have hscan := scan_number d number (hnumber.trans htext) starts_nil
    rwa [List.append_nil, hnumber] at hscan

/-! ## Values -/

/-- A sign acts on the value of what follows it. -/
theorem literalValue_append {c : Char} {rest : Text} {k : Int} (hsign : SignOf n sign)
    (hc : c ≠ '+' ∧ c ≠ '-') (h : literalValue (c :: rest) = .ok (.int k)) :
    literalValue (sign ++ c :: rest) = .ok (.int (if sign = ['-'] then -k else k)) := by
  have hunsigned := @unsigned_append c sign rest hsign.mem hc
  have hbare := @unsigned_append c [] rest (by simp) hc
  have hhead : (sign ++ c :: rest).head? = some '-' ↔ sign = ['-'] := by
    cases hsign <;> simp [hc.2]
  have hnone : (c :: rest).head? ≠ some '-' := by simpa using hc.2
  rw [List.nil_append] at hbare
  have hmap {result : Except Unconvertible Int}
      (hresult : (result.map fun n => Number.int n) = .ok (.int k)) (f : Int → Int) :
      (result.map fun n => Number.int (f n)) = .ok (.int (f k)) := by
    cases result with
    | error cause => cases hresult
    | ok n =>
        cases hresult
        rfl
  simp only [literalValue, hbare, hnone, if_false] at h
  simp only [literalValue, hunsigned, hhead]
  split at h
  · rename_i hhex
    rw [if_pos hhex]
    exact hmap h fun n => if sign = ['-'] then -n else n
  · rename_i hhex
    split at h
    · cases hvalue : decimalValue (c :: rest) <;> rw [hvalue] at h <;> cases h
    · rename_i hfraction
      rw [if_neg hhex, if_neg hfraction]
      exact hmap h fun n => if sign = ['-'] then -n else n

theorem literalValue_hexadecimal {x : Char} (hx : x = 'x' ∨ x = 'X') {ds : List HexDigit}
    (hne : ds ≠ []) :
    literalValue ('0' :: x :: ds.map HexDigit.char) =
      .ok (.int (Nat.ofDigits 16 (ds.map HexDigit.value).reverse : Nat)) := by
  have hmark : hasHexMark ('0' :: x :: ds.map HexDigit.char) = true := by
    simpa [hasHexMark] using hx
  have hunsigned := @unsigned_append '0' [] (x :: ds.map HexDigit.char) (by simp) (by decide)
  have hread : readInteger .sixteen ('0' :: x :: ds.map HexDigit.char) =
      .ok (ofDigits 16 (ds.map HexDigit.value)) := by
    have hlow : (ds.map HexDigit.char).head? ≠ some '_' := by
      intro hhead
      exact absurd (isAsciiHex_of_mem '_' (List.mem_of_head? hhead)) (by decide)
    have hdrop : dropMark .sixteen ('0' :: x :: ds.map HexDigit.char) = ds.map HexDigit.char := by
      rw [dropMark, if_pos ⟨by decide, hx⟩, if_neg hlow]
    have hblank : ('0' :: x :: ds.map HexDigit.char).dropWhile isNumberBlank =
        '0' :: x :: ds.map HexDigit.char := rfl
    have hsign : splitSign ('0' :: x :: ds.map HexDigit.char) =
        (false, '0' :: x :: ds.map HexDigit.char) := splitSign_of_head (by decide)
    simp only [readInteger, hblank, hsign, hdrop, if_neg hlow, digitRun_hex]
    rw [if_neg (by simp), if_neg (by simp [hne])]
    rfl
  rw [List.nil_append] at hunsigned
  simp only [literalValue, hunsigned, if_pos hmark, integerValue, hread, ← ofDigits_eq]
  rfl

/-- Without a sign, a magnitude is its own value. -/
theorem Magnitude.literalValue_eq (h : Magnitude m magnitude) :
    literalValue magnitude = .ok (.int m) := by
  cases h with
  | decimal ds hlength hvalue =>
      have hread := Rules.literalValue_integer false ds hlength
      rw [← ofDigits_digits, ofDigits_eq, hvalue] at hread
      exact hread
  | hexadecimal hx ds hne hvalue => rw [literalValue_hexadecimal hx hne, hvalue]

theorem IntegerText.literalValue_eq (h : IntegerText n text) :
    literalValue text = .ok (.int n) := by
  obtain ⟨hsign, hmagnitude⟩ := h
  obtain ⟨first, more, rfl⟩ := hmagnitude.exists_cons
  rw [literalValue_append hsign first.ne_sign hmagnitude.literalValue_eq]
  cases hsign with
  | none h | plus h => simp [Int.natAbs_of_nonneg h]
  | minus h => simp [Int.ofNat_natAbs_of_nonpos h]

end LocatedJson.Rendering

namespace LocatedJson

/-- Every way to write an integer is one number from the start to the end of the text, and the
document of the integer: in json5, and in all dialects if it is strict. -/
theorem Document.ofText_integer {n : Int} {text : Text} (h : Rendering.IntegerText n text)
    (d : Dialect) (hd : d = .json5 ∨ Rendering.Strict text) :
    let t : Token := ⟨.number, text, .between .origin (Cursor.endOf text)⟩
    (Lexed.ofText d text).tokens = [t] ∧ (Lexed.ofText d text).fault? = none ∧
      ∀ profile : Profile, profile.dialect = d →
        ∃ doc, Document.ofTokens profile text [t] = .ok doc ∧
          doc.body = .number t.extent (.int n) ∧
          (text.length ≤ profile.limits.maxSize → Document.ofText profile text = .ok doc) := by
  intro t
  obtain ⟨c, rest, htext, hspace, hscan⟩ := h.exists_scan hd
  obtain ⟨htokens, hfault⟩ := Lexed.ofText_of_scan htext hspace hscan
  refine ⟨htokens, hfault, ?_⟩
  rintro profile rfl
  let g : Grammar.Value profile.dialect profile.allowsTrailingCommas :=
    .scalar t _ (.number rfl h.literalValue_eq)
  obtain ⟨doc, hdoc, hbody⟩ : ∃ doc, Document.ofTokens profile text [t] = .ok doc ∧
      doc.body = g.node :=
    ⟨_, Document.ofTokens_eq_ok_iff.mpr ⟨g, g.filter_isCode_tokens.symm, Nat.zero_le _, rfl⟩, rfl⟩
  refine ⟨doc, hdoc, hbody, fun hsize => ?_⟩
  exact Document.ofText_eq_ok_iff.mpr ⟨hsize, hfault, by rw [htokens]; exact hdoc⟩

/-- Zeros and a letter of exponents behind the mark of base sixteen, in json5; ten in json. -/
theorem Document.ofText_integer_both :
    Rendering.IntegerText (-254) "-0X00fE".toList ∧ Rendering.IntegerText 10 "10".toList ∧
      Rendering.Strict "10".toList ∧
      (∃ doc e, Document.ofText ⟨.json5, {}, false⟩ "-0X00fE".toList = .ok doc ∧
        doc.body = .number e (.int (-254))) ∧
      ∃ doc e, Document.ofText ⟨.json, {}, false⟩ "10".toList = .ok doc ∧
        doc.body = .number e (.int 10) := by
  let zero : Interchange.HexDigit := ⟨'0', by decide⟩
  have hhex : Rendering.IntegerText (-254) "-0X00fE".toList :=
    .intro (.minus (by decide)) <| .hexadecimal (.inr rfl)
      [zero, zero, ⟨'f', by decide⟩, ⟨'E', by decide⟩] (List.cons_ne_nil _ _) (by decide)
  have hten : Rendering.IntegerText 10 "10".toList :=
    .intro (.none (by decide)) <| .decimal
      ⟨[⟨'1', by decide⟩, ⟨'0', by decide⟩], List.cons_ne_nil _ _⟩ (by decide) (by decide)
  have hstrict : Rendering.Strict "10".toList := ⟨by decide, by simp⟩
  refine ⟨hhex, hten, hstrict, ?_, ?_⟩
  · obtain ⟨-, -, hdoc⟩ := Document.ofText_integer hhex .json5 (.inl rfl)
    obtain ⟨doc, -, hbody, hsize⟩ := hdoc ⟨.json5, {}, false⟩ rfl
    exact ⟨doc, _, hsize (by decide), hbody⟩
  · obtain ⟨-, -, hdoc⟩ := Document.ofText_integer hten .json (.inr hstrict)
    obtain ⟨doc, -, hbody, hsize⟩ := hdoc ⟨.json, {}, false⟩ rfl
    exact ⟨doc, _, hsize (by decide), hbody⟩

end LocatedJson
