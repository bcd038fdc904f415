import LocatedJson.Numeral.Literal
import LocatedJson.Proofs.Interchange
import LocatedJson.Proofs.Lookahead

/-!
# Interchange numbers in all dialects

A number that is followed by something that cannot belong to it is measured
as a whole, by the strict form and by the wide one (`scan_number`), and the
value of its literal is the one that the grammar gives it
(`literalValue_text`). The parts of a number are told apart by the first
character behind each of them, so every lemma about a part says which
characters may follow (`Starts`).
-/

namespace LocatedJson.Interchange

open LocatedJson.Text LocatedJson.Numeral

/-! ## First characters -/

/-- If there is a first character, it is one of those allowed. -/
def Starts (allowed : List Char) (cs : Text) : Prop := ∀ c, cs.head? = some c → c ∈ allowed

/-- The characters that may stand behind a number or a word. -/
def breaks : List Char := [' ', '\t', '\n', '\r', ',', ':', ']', '\x7d']

theorem starts_cons {allowed : List Char} {c : Char} {cs : Text} (h : c ∈ allowed) :
    Starts allowed (c :: cs) := by
  rintro c' ⟨⟩
  exact h

theorem Starts.mono {allowed more : List Char} {cs : Text} (h : Starts allowed cs)
    (hmore : ∀ c ∈ allowed, c ∈ more) : Starts more cs :=
  fun c hc => hmore c (h c hc)

theorem eq_false_of_any {p : Char → Bool} {cs : List Char} (h : cs.any p = false) {c : Char}
    (hc : c ∈ cs) : p c = false := by
  simpa using List.any_eq_false.mp h c hc

/-- What goes on with a character that does not belong to a part leaves the part as it is. -/
theorem Starts.takeWhile_eq {allowed : List Char} {p : Char → Bool} {post : Text}
    (h : Starts allowed post) (hstop : allowed.any p = false) (cs : Text) :
    (cs ++ post).takeWhile p = cs.takeWhile p := by
  have hpost : post.takeWhile p = [] := by
    cases post with
    | nil => rfl
    | cons c post => rw [List.takeWhile_cons, eq_false_of_any hstop (h c rfl)]; rfl
  rw [List.takeWhile_append, hpost]
  split
  · rename_i hall
    rw [List.append_nil, (List.takeWhile_prefix p).eq_of_length hall]
  · rfl

theorem Starts.takeWhile_append {allowed : List Char} {p : Char → Bool} {cs post : Text}
    (h : Starts allowed post) (hcs : ∀ c ∈ cs, p c = true) (hstop : allowed.any p = false) :
    (cs ++ post).takeWhile p = cs := by
  have hself : (cs ++ []).takeWhile p = cs ++ [] := List.takeWhile_append_of_pos hcs
  rw [List.append_nil] at hself
  rw [h.takeWhile_eq hstop, hself]

theorem Starts.head?_ne {allowed : List Char} {cs : Text} {c : Char} (h : Starts allowed cs)
    (hc : c ∉ allowed) : cs.head? ≠ some c :=
  fun hhead => hc (h c hhead)

/-! ## Digits -/

/-- The ten digits: what is decided for each of them holds of all digits. -/
def digitChars : List Char := ['0', '1', '2', '3', '4', '5', '6', '7', '8', '9']

def numberChars : List Char := ['.', 'e', 'E', '+', '-'] ++ digitChars

namespace Digit

theorem bounds (d : Digit) : 48 ≤ d.char.toNat ∧ d.char.toNat ≤ 57 := d.is

theorem decimalValue?_char (d : Digit) : decimalValue? d.char = some d.value :=
  decimalValue?_ascii (by simpa [isAsciiDigit] using d.is)

theorem isDecimal_char (d : Digit) : isDecimal d.char = true := by
  rw [isDecimal, decimalValue?_char]
  rfl

theorem char_mem (d : Digit) : d.char ∈ digitChars := by
  obtain ⟨hlow, hhigh⟩ := d.bounds
  rw [← Char.ofNat_toNat d.char]
  generalize d.char.toNat = k at hlow hhigh
  obtain rfl | rfl | rfl | rfl | rfl | rfl | rfl | rfl | rfl | rfl :
    k = 48 ∨ k = 49 ∨ k = 50 ∨ k = 51 ∨ k = 52 ∨ k = 53 ∨ k = 54 ∨ k = 55 ∨ k = 56 ∨ k = 57 := by
    omega
  all_goals decide

theorem char_ne {c : Char} (d : Digit) (hc : isAsciiDigit c = false) :
    d.char ≠ c := by
  rintro rfl
  simp [isAsciiDigit, d.is] at hc

theorem ne_sign (d : Digit) : d.char ≠ '+' ∧ d.char ≠ '-' :=
  ⟨d.char_ne (by decide), d.char_ne (by decide)⟩

end Digit

theorem mem_digitChars {c : Char} (h : isAsciiDigit c = true) : c ∈ digitChars := by
  have his : '0' ≤ c ∧ c ≤ '9' := by simpa [isAsciiDigit] using h
  exact Digit.char_mem ⟨c, his⟩

theorem isDecimal_of_mem {ds : List Digit} : ∀ c ∈ ds.map Digit.char, isDecimal c = true := by
  intro c hc
  obtain ⟨d, -, rfl⟩ := List.mem_map.mp hc
  exact d.isDecimal_char

/-- The digits of the grammar are in the class, and what may follow them in a number or behind
it is not. -/
structure Separates (digit : Char → Bool) : Prop where
  digits : ∀ d : Digit, digit d.char = true
  stops : ('.' :: 'e' :: 'E' :: breaks).any digit = false

theorem separates_isDecimal : Separates isDecimal := ⟨Digit.isDecimal_char, by decide⟩

theorem separates_isAsciiDigit : Separates isAsciiDigit where
  digits d := by simpa [isAsciiDigit] using d.is
  stops := by decide

theorem Separates.digitsSize_digits {digit : Char → Bool} (hdigit : Separates digit)
    (ds : List Digit) {post : Text} (h : Starts ('.' :: 'e' :: 'E' :: breaks) post) :
    digitsSize digit (ds.map Digit.char ++ post) = ds.length := by
  have hds : ∀ c ∈ ds.map Digit.char, digit c = true := by
    intro c hc
    obtain ⟨d, -, rfl⟩ := List.mem_map.mp hc
    exact hdigit.digits d
  rw [digitsSize, h.takeWhile_append hds hdigit.stops, List.length_map]

/-! ## Sizes -/

theorem Exponent.letter_eq (e : Exponent) : e.letter = 'e' ∨ e.letter = 'E' := by
  unfold Exponent.letter
  cases e.upper <;> simp

namespace Number

/-- What follows the digits in front of the point. -/
def afterWhole (n : Number) (post : Text) : Text := n.fractionText ++ (n.exponentText ++ post)

variable {n : Number} {post : Text} {digit : Char → Bool}

theorem starts_exponentText (h : Starts breaks post) :
    Starts ('e' :: 'E' :: breaks) (n.exponentText ++ post) := by
  unfold exponentText
  cases n.exponent with
  | none => exact h.mono fun c hc => List.mem_cons_of_mem _ (List.mem_cons_of_mem _ hc)
  | some e =>
      refine starts_cons ?_
      rcases e.letter_eq with h | h <;> simp [h]

theorem starts_afterWhole (h : Starts breaks post) :
    Starts ('.' :: 'e' :: 'E' :: breaks) (n.afterWhole post) := by
  unfold afterWhole fractionText
  cases n.fraction with
  | none => exact (starts_exponentText h).mono fun c hc => List.mem_cons_of_mem _ hc
  | some ds => exact starts_cons List.mem_cons_self

theorem signSize_digits (ds : Digits) (post : Text) :
    signSize (ds.val.map Digit.char ++ post) = 0 := by
  obtain ⟨d, ds', hds⟩ := List.exists_cons_of_ne_nil ds.property
  have hplus : d.char ≠ '+' := d.char_ne (by decide)
  have hminus : d.char ≠ '-' := d.char_ne (by decide)
  simp [signSize, hds, hplus, hminus]

theorem exponentSize_text (hdigit : Separates digit) (e : Exponent) (h : Starts breaks post) :
    exponentSize digit (e.text ++ post) = e.text.length := by
  have hletter := e.letter_eq
  have hsign : signSize ((e.sign.map Sign.char).toList ++ (e.digits.val.map Digit.char ++ post)) =
      (e.sign.map Sign.char).toList.length := by
    cases e.sign with
    | none => exact signSize_digits e.digits post
    | some sign => cases sign <;> rfl
  have hdigits := hdigit.digitsSize_digits e.digits.val (h.mono fun c hc => by simp [hc])
  have hpos := List.length_pos_iff.mpr e.digits.property
  simp only [Exponent.text, List.cons_append, List.append_assoc, exponentSize, if_pos hletter,
    hsign, List.drop_left, hdigits, List.length_cons, List.length_append, List.length_map]
  rw [if_neg (by omega)]
  omega

theorem drop_afterWhole :
    (n.afterWhole post).drop n.fractionText.length = n.exponentText ++ post :=
  List.drop_left

theorem exponentSize_exponentText (hdigit : Separates digit) (h : Starts breaks post) :
    exponentSize digit (n.exponentText ++ post) = n.exponentText.length := by
  unfold exponentText
  cases n.exponent with
  | none =>
      cases post with
      | nil => rfl
      | cons c post =>
          refine if_neg fun hletter => ?_
          have hc := h c rfl
          rcases hletter with rfl | rfl <;> revert hc <;> decide
  | some e => exact exponentSize_text hdigit e h

theorem fractionSize_afterWhole (hdigit : Separates digit) (h : Starts breaks post) :
    fractionSize digit (n.afterWhole post) = n.fractionText.length := by
  have hafter := @starts_exponentText n post h
  unfold afterWhole fractionText
  cases n.fraction with
  | none =>
      have hpoint := hafter.head?_ne (show '.' ∉ 'e' :: 'E' :: breaks by decide)
      generalize n.exponentText ++ post = after at hpoint
      cases after with
      | nil => rfl
      | cons c after =>
          rw [List.nil_append, fractionSize_cons, if_neg (by simp_all)]
          rfl
  | some ds =>
      have hpos := List.length_pos_iff.mpr ds.property
      have hdigits := hdigit.digitsSize_digits ds.val
        (hafter.mono fun c hc => List.mem_cons_of_mem '.' hc)
      simp only [List.cons_append, fractionSize_cons, hdigits, List.length_cons, List.length_map]
      rw [if_pos ⟨trivial, by omega⟩, Nat.add_comm]

theorem pointSize_afterWhole (h : Starts breaks post) :
    pointSize isDecimal (n.afterWhole post) = n.fractionText.length := by
  have hafter := @starts_exponentText n post h
  unfold afterWhole fractionText
  cases n.fraction with
  | none =>
      have hpoint := hafter.head?_ne (show '.' ∉ 'e' :: 'E' :: breaks by decide)
      generalize n.exponentText ++ post = after at hpoint
      cases after with
      | nil => rfl
      | cons c after =>
          rw [List.nil_append, pointSize, if_neg (by simp_all)]
          rfl
  | some ds =>
      have hdigits := separates_isDecimal.digitsSize_digits ds.val
        (hafter.mono fun c hc => List.mem_cons_of_mem '.' hc)
      simp only [List.cons_append, pointSize, if_true, hdigits, List.length_cons, List.length_map]
      rw [Nat.add_comm]

theorem length_list_pos (w : Whole) : 0 < w.list.length := by
  cases w <;> simp [Whole.list]

theorem wholeSize_whole (hdigit : Separates digit) (h : Starts breaks post) :
    wholeSize digit (n.whole.list.map Digit.char ++ n.afterWhole post) = n.whole.list.length := by
  have hafter := @starts_afterWhole n post h
  cases n.whole with
  | zero => rfl
  | digits first nonzero rest =>
      have hfirst : '1' ≤ first.char ∧ first.char ≤ '9' := by
        have hne : first.char.toNat ≠ 48 := fun h48 => nonzero (Char.toNat_inj.mp h48)
        have := first.bounds
        exact ⟨show 49 ≤ first.char.toNat by omega, first.is.2⟩
      simp only [Whole.list, List.map_cons, List.cons_append, wholeSize, if_neg nonzero,
        if_pos hfirst, hdigit.digitsSize_digits rest hafter, List.length_cons]
      omega

/-- The digits in front of a number never carry the mark of base sixteen. -/
theorem hexSize_whole (h : Starts breaks post) :
    hexSize (n.whole.list.map Digit.char ++ n.afterWhole post) = 0 := by
  have hafter := @starts_afterWhole n post h
  generalize n.afterWhole post = after at hafter
  cases n.whole with
  | zero =>
      cases after with
      | nil => rfl
      | cons c after =>
          have hc := hafter c rfl
          have hx : ¬ (c = 'x' ∨ c = 'X') := by
            rintro (rfl | rfl) <;> revert hc <;> decide
          simp [Whole.list, hexSize, hx]
  | digits first nonzero rest =>
      -- the mark starts with a zero
      rw [Whole.list, List.map_cons, List.cons_append, hexSize_cons, if_neg (by simp [nonzero])]

/-- The minus in front of a number, if it has one. -/
def signText (n : Number) : Text := if n.minus then ['-'] else []

theorem text_append (n : Number) (post : Text) :
    n.text ++ post = n.signText ++
      (n.whole.list.map Digit.char ++ n.afterWhole post) := by
  simp [text, magnitudeText, signText, afterWhole]

theorem length_text (n : Number) :
    n.text.length = n.signText.length + n.whole.list.length + n.fractionText.length +
      n.exponentText.length := by
  simp [text, magnitudeText, signText]
  omega

theorem head?_whole_ne (w : Whole) (after : Text) {c : Char} (hc : isAsciiDigit c = false) :
    (w.list.map Digit.char ++ after).head? ≠ some c := by
  obtain ⟨d, ds, hds⟩ := List.exists_cons_of_length_pos (length_list_pos w)
  simpa [hds] using d.char_ne hc

theorem strictSize_text (hdigit : Separates digit) (h : Starts breaks post) :
    strictSize digit (n.text ++ post) = n.text.length := by
  have hpos := length_list_pos n.whole
  have hminus := @head?_whole_ne n.whole (n.afterWhole post) '-' (by decide)
  have hsign : (if (n.text ++ post).head? = some '-' then 1 else 0) = n.signText.length := by
    rw [text_append, signText]
    cases n.minus with
    | true => rfl
    | false => exact if_neg hminus
  have hwhole := @wholeSize_whole n post digit hdigit h
  have hfraction := @fractionSize_afterWhole n post digit hdigit h
  have hexponent := @exponentSize_exponentText n post digit hdigit h
  rw [strictSize, hsign, length_text, text_append]
  simp only [← List.drop_drop, List.drop_left, hwhole, List.drop_left' (List.length_map _),
    hfraction, drop_afterWhole, hexponent]
  rw [if_neg (by omega)]

theorem wideDecimalSize_whole (h : Starts breaks post) :
    wideDecimalSize isDecimal (n.whole.list.map Digit.char ++ n.afterWhole post) =
      n.whole.list.length + n.fractionText.length + n.exponentText.length := by
  have hpos := length_list_pos n.whole
  have hwhole := separates_isDecimal.digitsSize_digits n.whole.list (starts_afterWhole (n := n) h)
  have hpoint := @pointSize_afterWhole n post h
  have hexponent := @exponentSize_exponentText n post isDecimal separates_isDecimal h
  have hmantissa : mantissaSize isDecimal
      (n.whole.list.map Digit.char ++ n.afterWhole post) =
      n.whole.list.length + n.fractionText.length := by
    rw [mantissaSize_eq, hwhole, if_neg (by omega), List.drop_left' (List.length_map _), hpoint]
  rw [wideDecimalSize, hmantissa]
  simp only [← List.drop_drop, List.drop_left' (List.length_map _), drop_afterWhole, hexponent]
  rw [if_neg (by omega)]

theorem wideSize_text (h : Starts breaks post) :
    wideSize isDecimal (n.text ++ post) = n.text.length := by
  have hpos := length_list_pos n.whole
  have hplus := @head?_whole_ne n.whole (n.afterWhole post) '+' (by decide)
  have hminus := @head?_whole_ne n.whole (n.afterWhole post) '-' (by decide)
  have hsign : signSize (n.text ++ post) = n.signText.length := by
    rw [text_append, signText, signSize]
    cases n.minus with
    | true => rfl
    | false => exact if_neg fun hsign => hsign.elim hplus hminus
  have hdecimal := @wideDecimalSize_whole n post h
  rw [wideSize, hsign, length_text, text_append, List.drop_left, hexSize_whole h, hdecimal]
  simp only [ne_eq, not_true_eq_false, if_false]
  rw [if_pos (by omega)]
  omega

/-! ## The lexeme -/

theorem exists_magnitudeText_eq_cons (n : Number) :
    ∃ d : Digit, ∃ rest, n.magnitudeText = d.char :: rest := by
  obtain ⟨d, ds, hds⟩ := List.exists_cons_of_length_pos (length_list_pos n.whole)
  exact ⟨d, _, by rw [magnitudeText, hds]; rfl⟩

theorem exists_text_eq_cons (n : Number) :
    ∃ c rest, n.text = c :: rest ∧ c ∈ '-' :: digitChars := by
  obtain ⟨d, rest, hrest⟩ := n.exists_magnitudeText_eq_cons
  rw [text, hrest]
  cases n.minus with
  | true => exact ⟨'-', _, rfl, List.mem_cons_self⟩
  | false => exact ⟨d.char, _, rfl, List.mem_cons_of_mem _ d.char_mem⟩

theorem number?_text (d : Dialect) (h : Starts breaks post) :
    Lexeme.number? d (n.text ++ post) = some (.found .number n.text.length) := by
  have hpos := length_list_pos n.whole
  have hlength := length_text n
  rw [Lexeme.number?, strictSize_text separates_isDecimal h, wideSize_text h, ite_self,
    Lexeme.ofSize?, if_neg (by omega)]

end Number

/-- A sign with a digit behind it is not the start of a word, so no recogniser comes before the one
for numbers. -/
theorem scan_of_number? {d : Dialect} {c : Char} {rest : Text} {lexeme : Lexeme}
    (hsign : c = '+' ∨ c = '-' → ∃ first : Digit, rest.head? = some first.char)
    (hc : c ∈ '+' :: '-' :: digitChars) (hnumber : Lexeme.number? d (c :: rest) = some lexeme) :
    Lexeme.scan d c rest = lexeme := by
  have hslash : c ≠ '/' := by
    rintro rfl
    exact absurd hc (by decide)
  have hmark : (Lexeme.markKind? c).isSome = false :=
    eq_false_of_any (p := fun c => (Lexeme.markKind? c).isSome) (by decide) hc
  have hquote : d.isQuote c = false := eq_false_of_any (by cases d <;> decide) hc
  have hkeyword : Lexeme.signedKeyword? d c rest = none := by
    unfold Lexeme.signedKeyword?
    split
    · rename_i his
      obtain ⟨first, hfirst⟩ := hsign his.2
      have hN : first.char ≠ 'N' := first.char_ne (by decide)
      have hI : first.char ≠ 'I' := first.char_ne (by decide)
      cases rest with
      | nil => cases hfirst
      | cons c rest =>
          cases hfirst
          simp [hN.symm, hI.symm]
    · rfl
  rw [Lexeme.scan_of_plain hslash (by simpa using hmark) hquote, hkeyword, hnumber]
  rfl

/-- A number is a lexeme in all dialects. -/
theorem scan_number (d : Dialect) (n : Number) {c : Char} {rest post : Text}
    (htext : n.text = c :: rest) (h : Starts breaks post) :
    Lexeme.scan d c (rest ++ post) = .found .number n.text.length := by
  have hnumber := @Number.number?_text n post d h
  rw [htext, List.cons_append] at hnumber
  obtain ⟨digit, tail, hdigit⟩ := n.exists_magnitudeText_eq_cons
  rw [htext]
  rw [Number.text, hdigit] at htext
  cases hminus : n.minus with
  | true =>
      obtain ⟨rfl, rfl⟩ : '-' = c ∧ digit.char :: tail = rest := by simpa [hminus] using htext
      exact scan_of_number? (fun _ => ⟨digit, rfl⟩) (by simp) hnumber
  | false =>
      obtain ⟨rfl, rfl⟩ : digit.char = c ∧ tail = rest := by simpa [hminus] using htext
      refine scan_of_number? (fun hsign => ?_) (by simp [digit.char_mem]) hnumber
      exact absurd hsign (not_or.mpr digit.ne_sign)

/-! ## The value -/

theorem foldl_digits (ds : List Digit) (n : Nat) :
    (ds.map Digit.value).foldl (fun n v => n * 10 + v) n =
      n * Nat.pow 10 ds.length + decimal ds := by
  induction ds generalizing n with
  | nil => simp [decimal]
  | cons d ds ih =>
      have hpow : Nat.pow 10 (ds.length + 1) = Nat.pow 10 ds.length * 10 := rfl
      rw [List.map_cons, List.foldl_cons, ih, decimal, List.length_cons, hpow]
      grind

/-- Reading digits from the left gives each the weight of its place. -/
theorem ofDigits_digits (ds : List Digit) : ofDigits 10 (ds.map Digit.value) = decimal ds := by
  rw [ofDigits, foldl_digits, Nat.zero_mul, Nat.zero_add]

theorem digitRun_digits (ds : List Digit) :
    digitRun .ten (ds.map Digit.char) = some (ds.map Digit.value, []) := by
  induction ds with
  | nil => rfl
  | cons d ds ih =>
      simp only [List.map_cons, digitRun, Base.digit?, d.decimalValue?_char, ih, Option.map_some]

theorem filterMap_digits (ds : List Digit) :
    (ds.map Digit.char).filterMap decimalValue? = ds.map Digit.value := by
  induction ds with
  | nil => rfl
  | cons d ds ih => simp [d.decimalValue?_char, ih]

theorem leadingDigits_digits (ds : List Digit) {allowed : List Char} {post : Text}
    (h : Starts allowed post) (hstop : allowed.any isDecimal = false) :
    leadingDigits (ds.map Digit.char ++ post) = (ds.map Digit.value, post) := by
  have hfront := h.takeWhile_append (@isDecimal_of_mem ds) hstop
  have hback : (ds.map Digit.char ++ post).dropWhile isDecimal = post := by
    rw [← Cursor.drop_length_takeWhile, hfront, List.drop_left]
  rw [leadingDigits, hfront, hback, filterMap_digits]

theorem starts_nil {allowed : List Char} : Starts allowed [] := fun _ h => nomatch h

theorem dropLowLines?_of_not_mem {cs : Text} (h : '_' ∉ cs) (b : Bool) :
    dropLowLines? b cs = some cs := by
  induction cs generalizing b with
  | nil => rfl
  | cons c cs ih =>
      obtain ⟨hc, hcs⟩ := not_or.mp (mt List.mem_cons.mpr h)
      rw [dropLowLines?, if_neg (Ne.symm hc), ih hcs]
      rfl

theorem Digit.isNumberBlank_char (d : Digit) : isNumberBlank d.char = false :=
  eq_false_of_any (by decide) d.char_mem

theorem splitSign_digits (ds : Digits) (post : Text) :
    splitSign (ds.val.map Digit.char ++ post) = (false, ds.val.map Digit.char ++ post) := by
  obtain ⟨d, ds', hds⟩ := List.exists_cons_of_ne_nil ds.property
  have hplus : d.char ≠ '+' := d.char_ne (by decide)
  have hminus : d.char ≠ '-' := d.char_ne (by decide)
  rw [hds, List.map_cons, List.cons_append]
  unfold splitSign
  split <;> simp_all

theorem exponent?_of_splitSign {letter : Char} {body : Text} {negative : Bool} {ds : Digits}
    (hletter : letter = 'e' ∨ letter = 'E')
    (hbody : splitSign body = (negative, ds.val.map Digit.char)) :
    exponent? (letter :: body) = some (signed negative (decimal ds.val)) := by
  obtain ⟨d, ds', hds⟩ := List.exists_cons_of_ne_nil ds.property
  have hdigits := leadingDigits_digits ds.val (@starts_nil []) rfl
  rw [List.append_nil] at hdigits
  rw [exponent?, if_pos hletter, hbody]
  simp only [hdigits]
  rw [← ofDigits_digits, hds]
  rfl

theorem exponent?_text (e : Exponent) : exponent? e.text = some e.value := by
  have hletter := e.letter_eq
  obtain ⟨upper, sign, digits⟩ := e
  have hbare := splitSign_digits digits []
  rw [List.append_nil] at hbare
  cases sign with
  | none => exact exponent?_of_splitSign hletter hbare
  | some sign =>
      cases sign with
      | plus => exact @exponent?_of_splitSign _ _ false digits hletter rfl
      | minus => exact @exponent?_of_splitSign _ _ true digits hletter rfl

namespace Number

variable (n : Number)

theorem exponent?_exponentText :
    exponent? n.exponentText = some ((n.exponent.map Exponent.value).getD 0) := by
  unfold exponentText
  cases n.exponent with
  | none => rfl
  | some e => exact exponent?_text e

theorem fraction_fractionText :
    Numeral.fraction (n.fractionText ++ n.exponentText) =
      (n.fractionDigits.map Digit.value, n.exponentText) := by
  have hafter := @starts_exponentText n [] starts_nil
  rw [List.append_nil] at hafter
  unfold fractionText fractionDigits
  cases n.fraction with
  | none =>
      have hpoint := hafter.head?_ne (show '.' ∉ 'e' :: 'E' :: breaks by decide)
      rw [List.nil_append]
      generalize n.exponentText = after at hpoint
      unfold Numeral.fraction
      split <;> simp_all
  | some ds => exact leadingDigits_digits ds.val hafter (by decide)

theorem not_mem_digits {c : Char} (hc : isAsciiDigit c = false) (ds : List Digit) :
    c ∉ ds.map Digit.char := by
  intro hmem
  obtain ⟨d, -, hd⟩ := List.mem_map.mp hmem
  exact d.char_ne hc hd

theorem not_mem_magnitudeText {c : Char} (hc : isAsciiDigit c = false)
    (hmarks : c ∉ ['.', 'e', 'E', '+', '-']) : c ∉ n.magnitudeText := by
  simp only [List.mem_cons, List.not_mem_nil, or_false, not_or] at hmarks
  obtain ⟨hpoint, he, hE, hplus, hminus⟩ := hmarks
  have hfraction : c ∉ n.fractionText := by
    unfold fractionText
    cases n.fraction with
    | none => exact List.not_mem_nil
    | some ds => simpa [hpoint] using not_mem_digits hc ds.val
  have hexponent : c ∉ n.exponentText := by
    unfold exponentText
    cases n.exponent with
    | none => exact List.not_mem_nil
    | some e =>
        obtain ⟨upper, sign, digits⟩ := e
        have hdigits := not_mem_digits hc digits.val
        rcases upper with - | - <;> rcases sign with - | - | - <;>
          simp_all [Exponent.text, Exponent.letter, Sign.char]
  simp only [magnitudeText, List.mem_append, not_or]
  exact ⟨⟨not_mem_digits hc _, hfraction⟩, hexponent⟩

variable {n} in
theorem mem_magnitudeText {c : Char} (h : c ∈ n.magnitudeText) : c ∈ numberChars := by
  cases hdigit : isAsciiDigit c with
  | true => exact List.mem_append_right _ (mem_digitChars hdigit)
  | false =>
      by_cases hmarks : c ∈ ['.', 'e', 'E', '+', '-']
      · exact List.mem_append_left _ hmarks
      · exact absurd h (n.not_mem_magnitudeText hdigit hmarks)

variable {n} in
theorem mem_text {c : Char} (h : c ∈ n.text) : c ∈ numberChars := by
  rw [text] at h
  rcases List.mem_append.mp h with hsign | hmagnitude
  · split at hsign
    · obtain rfl : c = '-' := by simpa using hsign
      decide
    · cases hsign
  · exact mem_magnitudeText hmagnitude

theorem exists_digits_eq_append (ds : Digits) :
    ∃ front, ∃ d : Digit, ds.val.map Digit.char = front ++ [d.char] := by
  refine ⟨ds.val.dropLast.map Digit.char, ds.val.getLast ds.property, ?_⟩
  rw [← List.map_singleton, ← List.map_append, List.dropLast_concat_getLast]

theorem exists_magnitudeText_eq_append :
    ∃ front, ∃ d : Digit, n.magnitudeText = front ++ [d.char] := by
  have hwhole : n.whole.list ≠ [] := List.length_pos_iff.mp (length_list_pos n.whole)
  unfold magnitudeText exponentText fractionText
  cases n.exponent with
  | some e =>
      obtain ⟨front, d, hdigits⟩ := exists_digits_eq_append e.digits
      simp only [Option.map_some, Option.getD_some, Exponent.text, hdigits]
      exact ⟨_, d, by rw [← List.append_assoc, ← List.append_assoc]⟩
  | none =>
      cases n.fraction with
      | some ds =>
          obtain ⟨front, d, hdigits⟩ := exists_digits_eq_append ds
          simp only [hdigits, Option.map_none, Option.getD_none, List.append_nil]
          exact ⟨_, d, by rw [← List.cons_append, ← List.append_assoc]⟩
      | none =>
          obtain ⟨front, d, hdigits⟩ := exists_digits_eq_append ⟨n.whole.list, hwhole⟩
          simp only [Option.map_none, Option.getD_none, List.append_nil]
          exact ⟨front, d, hdigits⟩

/-- There are no blanks and no low lines to leave out of the text of a number. -/
theorem dropLowLines?_magnitudeText :
    dropLowLines? false
      ((n.magnitudeText.dropWhile isNumberBlank).reverse.dropWhile isNumberBlank).reverse =
      some n.magnitudeText := by
  obtain ⟨first, rest, hfirst⟩ := n.exists_magnitudeText_eq_cons
  obtain ⟨front, last, hlast⟩ := n.exists_magnitudeText_eq_append
  have hleft : n.magnitudeText.dropWhile isNumberBlank = n.magnitudeText := by
    rw [hfirst, List.dropWhile_cons, first.isNumberBlank_char]
    rfl
  have hright : n.magnitudeText.reverse.dropWhile isNumberBlank = n.magnitudeText.reverse := by
    rw [hlast, List.reverse_append, List.reverse_singleton, List.singleton_append,
      List.dropWhile_cons, last.isNumberBlank_char]
    rfl
  rw [hleft, hright, List.reverse_reverse]
  exact dropLowLines?_of_not_mem (n.not_mem_magnitudeText (by decide) (by decide)) false

theorem readDecimal?_magnitudeText : readDecimal? n.magnitudeText = some n.magnitude := by
  have hwhole : n.whole.list ≠ [] := List.length_pos_iff.mp (length_list_pos n.whole)
  have hsign := splitSign_digits ⟨n.whole.list, hwhole⟩ (n.fractionText ++ n.exponentText)
  have hafter := @starts_afterWhole n [] starts_nil
  rw [afterWhole, List.append_nil] at hafter
  have hlead := leadingDigits_digits n.whole.list hafter (by decide)
  simp only [readDecimal?, dropLowLines?_magnitudeText, Option.bind_eq_bind, Option.bind_some]
  rw [magnitudeText, List.append_assoc, hsign]
  simp only [hlead, n.fraction_fractionText, n.exponent?_exponentText, Option.bind_some]
  rw [if_neg (by simp [hwhole]), ← List.map_append, ofDigits_digits, List.length_map]
  rfl

theorem readInteger_digits (ds : Digits) (h : ds.val.length ≤ maxDecimalDigits) :
    readInteger .ten (ds.val.map Digit.char) = .ok (decimal ds.val) := by
  have hsign := splitSign_digits ds []
  rw [List.append_nil] at hsign
  obtain ⟨d, ds', hds⟩ := List.exists_cons_of_ne_nil ds.property
  have hblank : (ds.val.map Digit.char).dropWhile isNumberBlank = ds.val.map Digit.char := by
    rw [hds, List.map_cons, List.dropWhile_cons, d.isNumberBlank_char]
    rfl
  have hlow : (ds.val.map Digit.char).head? ≠ some '_' := by
    have hne : d.char ≠ '_' := d.char_ne (by decide)
    simpa [hds] using hne
  simp only [readInteger, hblank, hsign, dropMark, if_neg hlow, digitRun_digits]
  rw [if_neg (by simp; omega), if_neg (by simp [hds])]
  rw [show Base.ten.value = 10 from rfl, ofDigits_digits]
  rfl

theorem unsigned_text : unsigned n.text = n.magnitudeText := by
  obtain ⟨d, rest, hrest⟩ := n.exists_magnitudeText_eq_cons
  have hplus : d.char ≠ '+' := d.char_ne (by decide)
  have hminus : d.char ≠ '-' := d.char_ne (by decide)
  have hstop : unsigned n.magnitudeText = n.magnitudeText := by
    rw [hrest]
    simp [unsigned, hplus, hminus]
  rw [text]
  cases n.minus with
  | true => exact hstop
  | false => exact hstop

theorem head?_text : n.text.head? = some '-' ↔ n.minus = true := by
  obtain ⟨d, rest, hrest⟩ := n.exists_magnitudeText_eq_cons
  have hminus : d.char ≠ '-' := d.char_ne (by decide)
  rw [text, hrest]
  cases n.minus <;> simp [hminus]

theorem hasHexMark_magnitudeText : hasHexMark n.magnitudeText = false := by
  have hx := @not_mem_magnitudeText n 'x' (by decide) (by decide)
  have hX := @not_mem_magnitudeText n 'X' (by decide) (by decide)
  generalize n.magnitudeText = cs at hx hX
  unfold hasHexMark
  split
  · rename_i c rest
    simp only [List.mem_cons, not_or] at hx hX
    simp [Ne.symm hx.2.1, Ne.symm hX.2.1]
  · rfl

theorem magnitudeText_of_isInteger (h : n.isInteger = true) :
    n.magnitudeText = n.whole.list.map Digit.char := by
  simp only [isInteger, Bool.and_eq_true, Option.isNone_iff_eq_none] at h
  simp [magnitudeText, fractionText, exponentText, h.1, h.2]

theorem hasFractionMark_magnitudeText : hasFractionMark n.magnitudeText = !n.isInteger := by
  cases hinteger : n.isInteger with
  | true =>
      rw [magnitudeText_of_isInteger n hinteger, hasFractionMark, Bool.not_true, List.any_eq_false]
      intro c hc
      obtain ⟨d, -, rfl⟩ := List.mem_map.mp hc
      have hpoint : d.char ≠ '.' := d.char_ne (by decide)
      have he : d.char ≠ 'e' := d.char_ne (by decide)
      have hE : d.char ≠ 'E' := d.char_ne (by decide)
      simp [hpoint, he, hE]
  | false =>
      rw [hasFractionMark, Bool.not_false, List.any_eq_true]
      unfold magnitudeText
      cases hfraction : n.fraction with
      | some ds => exact ⟨'.', by simp [fractionText, hfraction], rfl⟩
      | none =>
          cases hexponent : n.exponent with
          | none => simp [isInteger, hfraction, hexponent] at hinteger
          | some e =>
              refine ⟨e.letter, by simp [exponentText, hexponent, Exponent.text], ?_⟩
              rcases e.letter_eq with h | h <;> rw [h] <;> rfl

end Number

/-- The literal of a number has the value of the number, if its digits are not too many. -/
theorem literalValue_text (n : Number)
    (h : n.isInteger = true → n.whole.list.length ≤ maxDecimalDigits) :
    literalValue n.text = .ok n.value := by
  have hwhole : n.whole.list ≠ [] := List.length_pos_iff.mp (Number.length_list_pos n.whole)
  simp only [literalValue, n.unsigned_text, n.hasHexMark_magnitudeText,
    n.hasFractionMark_magnitudeText, n.head?_text, Number.value, Bool.false_eq_true, if_false]
  cases hinteger : n.isInteger with
  | true =>
      have hread := Number.readInteger_digits ⟨n.whole.list, hwhole⟩ (h hinteger)
      simp only [n.magnitudeText_of_isInteger hinteger, integerValue, hread]
      cases n.minus <;> rfl
  | false =>
      simp only [decimalValue, n.readDecimal?_magnitudeText]
      cases n.minus <;> rfl

end LocatedJson.Interchange
