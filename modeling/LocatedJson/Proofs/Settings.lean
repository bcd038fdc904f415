import LocatedJson.Proofs.Accounting
import LocatedJson.Proofs.Interchange.Lenient
import LocatedJson.Proofs.StrictReading

/-!
# Settings without a verdict

The settings of a comment are read twice: leniently, and if that gives nothing,
strictly after some mending. A text that neither reading understands is
rejected, and a rejection is a problem of the file, not a failure. One thing
gets around this: an integer with too many digits ends the strict reading
without a verdict, and with it the answer about the whole file
(`Session.ask_ruleSettings`).

Mending puts in marks only, so the digits that the strict reading stops at are
digits of the comment, in a row (`Rules.read_eq_error`). Conversely a rule that
is set to such an integer is beyond both readings (`Rules.read_overlong`).
-/

namespace LocatedJson

open LocatedJson.Text LocatedJson.Numeral LocatedJson.Directive

/-! ## Mending -/

namespace Rules

variable {cs run front rest : Text} {c : Char}

theorem prefix_of_prefix_append (h : run <+: front ++ c :: rest) (hc : c ∉ run) :
    run <+: front := by
  rcases Nat.lt_or_ge front.length run.length with hlong | hshort
  · have hmark : front ++ [c] <+: run := by
      refine List.prefix_of_prefix_length_le ?_ h (by simp; omega)
      exact ⟨rest, by simp⟩
    exact absurd (hmark.subset (by simp)) hc
  · exact List.prefix_of_prefix_length_le h (List.prefix_append front _) hshort

/-- What does not hold a character lies on one side of it. -/
theorem infix_of_infix_append (h : run <:+: front ++ c :: rest) (hc : c ∉ run) :
    run <:+: front ∨ run <:+: rest := by
  induction front with
  | nil =>
      rcases List.infix_cons_iff.mp h with hprefix | hinfix
      · have hnil := @prefix_of_prefix_append run [] rest c hprefix hc
        exact .inl hnil.isInfix
      · exact .inr hinfix
  | cons x front ih =>
      rcases List.infix_cons_iff.mp h with hprefix | hinfix
      · exact .inl (@prefix_of_prefix_append run (x :: front) rest c hprefix hc).isInfix
      · rcases ih hinfix with hfront | hrest
        · exact .inl (hfront.trans (List.suffix_cons x front).isInfix)
        · exact .inr hrest

variable (hrun : ∀ c ∈ run, isAsciiDigit c = true)
include hrun

theorem not_mem_of_digits (hc : isAsciiDigit c = false) : c ∉ run := by
  intro hmem
  cases (hrun c hmem).symm.trans hc

/-- Quotes are put around names, and digits are parts of names. -/
theorem infix_of_infix_quoteNamesFrom {name : Text} (h : run <:+: quoteNamesFrom name cs) :
    run <:+: name.reverse ++ cs := by
  fun_induction quoteNamesFrom name cs with
  | case1 name => simpa using h
  | case2 name c rest hpart ih => simpa using ih h
  | case3 name c rest hpart hname ih =>
      obtain ⟨rfl, -⟩ := hname
      have hquote : '"' ∉ run := not_mem_of_digits hrun (by decide)
      have hcolon : ':' ∉ run := not_mem_of_digits hrun (by decide)
      have hquoted : run <:+: ([] : Text) ++ '"' :: (name.reverse ++ '"' ::
          (([] : Text) ++ ':' :: quoteNamesFrom [] rest)) := by simpa using h
      rcases infix_of_infix_append hquoted hquote with h | h
      · exact h.trans List.nil_infix
      rcases infix_of_infix_append h hquote with h | h
      · exact h.trans (List.prefix_append _ _).isInfix
      rcases infix_of_infix_append h hcolon with h | h
      · exact h.trans List.nil_infix
      · exact (ih h).trans ((List.suffix_cons ':' rest).trans (List.suffix_append _ _)).isInfix
  | case4 name c rest hpart hcolon ih =>
      have hc : c ∉ run := by
        refine not_mem_of_digits hrun ?_
        rw [Bool.eq_false_iff]
        intro hdigit
        exact hpart (by simp [isNamePart, hdigit])
      rcases infix_of_infix_append h hc with h | h
      · exact h.trans (List.prefix_append _ _).isInfix
      · exact (ih h).trans ((List.suffix_cons c rest).trans (List.suffix_append _ _)).isInfix

omit hrun in
/-- At most one stretch of blanks is replaced by a comma. -/
theorem fillComma_cases (cs : Text) :
    fillComma cs = cs ∨ ∃ front blanks rest, cs = front ++ (blanks ++ rest) ∧
      fillComma cs = front ++ ',' :: rest := by
  fun_induction fillComma cs with
  | case1 => exact .inl rfl
  | case2 c rest hfill =>
      refine .inr ⟨[c], rest.takeWhile isBlank, trimStart rest, ?_, rfl⟩
      rw [trimStart, List.takeWhile_append_dropWhile]
      rfl
  | case3 c rest hfill ih =>
      rcases ih with hsame | ⟨front, blanks, rest', hrest, hfilled⟩
      · exact .inl (by rw [hsame])
      · exact .inr ⟨c :: front, blanks, rest', by rw [hrest]; rfl, by rw [hfilled]; rfl⟩

/-- Mending leaves the digits of a text as they are. -/
theorem infix_of_infix_mend (h : run <:+: mend cs) : run <:+: cs := by
  have hquoted : run <:+: quoteNames cs := by
    rcases fillComma_cases (quoteNames cs) with hsame | ⟨front, blanks, rest, hcs, hfilled⟩
    · rwa [mend, hsame] at h
    · rw [mend, hfilled] at h
      rw [hcs]
      rcases infix_of_infix_append h (not_mem_of_digits hrun (by decide)) with h | h
      · exact h.trans (List.prefix_append _ _).isInfix
      · exact h.trans ((List.suffix_append _ _).trans (List.suffix_append _ _)).isInfix
  exact infix_of_infix_quoteNamesFrom hrun hquoted

omit hrun

/-- Too many digits in what is read strictly are too many digits in the text. -/
theorem digitRun_of_braced {count : Nat} (h : DigitRun (braced (mend cs)) count) :
    DigitRun cs count := by
  obtain ⟨hlong, run, hinfix, hlength, hdigits⟩ := h
  have hopening : '\x7b' ∉ run := not_mem_of_digits hdigits (by decide)
  have hclosing : '\x7d' ∉ run := not_mem_of_digits hdigits (by decide)
  have hmend : run <:+: mend cs := by
    rcases @infix_of_infix_append run [] _ _ hinfix hopening with h | h
    · exact h.trans List.nil_infix
    rcases infix_of_infix_append h hclosing with h | h
    · exact h
    · exact h.trans List.nil_infix
  exact ⟨hlong, run, infix_of_infix_mend hdigits hmend, hlength, hdigits⟩

/-- Settings are found or rejected, unless there are too many digits in a row in them. -/
theorem read_eq_error {depth : Nat} {cause : Unconvertible} (h : read cs depth = .error cause) :
    ∃ count, cause = .tooManyDigits count ∧ DigitRun cs count := by
  unfold read at h
  split at h
  · cases h
  · unfold strict at h
    split at h
    · cases h
    · cases h
    · rename_i hfailure
      cases h
      obtain ⟨count, hcause, hrun⟩ := Json.stops_read hfailure cause rfl
      exact ⟨count, hcause, digitRun_of_braced hrun⟩
    · cases h

/-! ## A rule that is set to too many digits -/

section Overlong

/-- What is decided for each of the ten digits holds of all of them. -/
theorem of_digit {p : Char → Bool} (hall : Interchange.digitChars.all p = true)
    (h : isAsciiDigit c = true) : p c = true :=
  List.all_eq_true.mp hall c (Interchange.mem_digitChars h)

/-- A word up to the end of the text is its only part. -/
theorem parts?_word (hne : cs ≠ []) (hcs : ∀ c ∈ cs, isWordPart c = true) :
    parts? cs = some [.word cs] := by
  have hword := parts?_word_append hne hcs breaks_nil
  simpa [parts?] using hword

/-- No word that stands for a value starts with a digit. -/
theorem word?_of_digit (h : isAsciiDigit c = true) : Json.word? (c :: rest) = none := by
  have hwords : (Json.words.all fun w => w.1.toList.head?.any fun x => !isAsciiDigit x) = true := by
    decide
  rw [Json.word?, Option.map_eq_none_iff, List.find?_eq_none]
  rintro ⟨w, value⟩ hw hprefix
  have hfirst := List.all_eq_true.mp hwords _ hw
  rw [Option.any_eq_true_iff_get] at hfirst
  obtain ⟨hsome, hdigit⟩ := hfirst
  obtain ⟨x, hx⟩ := Option.isSome_iff_exists.mp hsome
  obtain ⟨tail, htail⟩ := List.head?_eq_some_iff.mp hx
  simp only [htail, List.isPrefixOf, Bool.and_eq_true, beq_iff_eq] at hprefix
  simp only [hx, Option.get_some, hprefix.1, h] at hdigit
  cases hdigit

/-- Decimal digits with an optional minus are a number. -/
theorem isNumeric_digits {sign digits : Text} (hsign : sign = [] ∨ sign = ['-'])
    (hdigits : ∀ c ∈ digits, isDecimal c = true) (hne : digits ≠ []) :
    isNumeric (sign ++ digits) = true := by
  have hminus : digits.head? ≠ some '-' := fun h =>
    absurd (hdigits '-' (List.mem_of_head? h)) (by decide)
  have hsize : digitsSize isDecimal digits = digits.length := by
    rw [digitsSize, List.takeWhile_eq_self_iff.mpr hdigits]
  have hmantissa : mantissaSize isDecimal digits = digits.length := by
    rw [mantissaSize_eq, hsize, if_neg (by simpa using hne), List.drop_length]
    rfl
  have hwide : wideDecimalSize isDecimal digits = digits.length := by
    rw [wideDecimalSize, hmantissa]
    simp [hne, exponentSize]
  rcases hsign with rfl | rfl
  · simp [isNumeric, hminus, hne, hwide]
  · simp [isNumeric, hne, hwide]

/-- What is numeric is a decimal number with an optional minus. -/
theorem exists_decimal_of_isNumeric {word : Text} (h : isNumeric word = true) :
    ∃ sign body, word = sign ++ body ∧ (sign = [] ∨ sign = ['-']) ∧
      Numeral.Decimal isDecimal body := by
  have hdecimal {body : Text} (hne : body ≠ [])
      (hsize : wideDecimalSize isDecimal body = body.length) : Numeral.Decimal isDecimal body := by
    have htake := @decimal_wideDecimalSize isDecimal body (by simpa [hsize] using hne)
    rwa [hsize, List.take_length] at htake
  simp only [isNumeric, Bool.and_eq_true, Bool.not_eq_true', List.isEmpty_eq_false_iff,
    beq_iff_eq] at h
  split at h
  · rename_i hminus
    obtain ⟨body, rfl⟩ := List.head?_eq_some_iff.mp hminus
    exact ⟨['-'], body, rfl, .inr rfl, hdecimal h.1 h.2⟩
  · exact ⟨[], word, rfl, .inl rfl, hdecimal h.1 h.2⟩

/-- A word stands for a value, unless it is an integer with too many digits. -/
theorem wordValue?_eq_none_iff {word : Text} :
    wordValue? word = none ↔ ∃ sign digits, word = sign ++ digits ∧ (sign = [] ∨ sign = ['-']) ∧
      (∀ c ∈ digits, isDecimal c = true) ∧ maxDecimalDigits < digits.length := by
  have hmem {sign : Text} (hsign : sign = [] ∨ sign = ['-']) : sign ∈ [[], ['+'], ['-']] := by
    rcases hsign with rfl | rfl <;> simp
  constructor
  · intro h
    have hnumeric : isNumeric word = true := by
      by_contra hnumeric
      rw [wordValue?, if_neg hnumeric] at h
      split_ifs at h
    rw [wordValue?_of_isNumeric hnumeric] at h
    obtain ⟨sign, body, rfl, hsign, hbody⟩ := exists_decimal_of_isNumeric hnumeric
    cases hvalue : literalValue (sign ++ body) with
    | ok n =>
        rw [hvalue] at h
        cases h
    | error cause =>
        have hunsigned : unsigned (sign ++ body) = body := by
          obtain ⟨c, rest, rfl, hc | rfl⟩ := hbody.head?_mem
          · exact unsigned_append (hmem hsign) (ne_sign_of_isDecimal hc)
          · exact unsigned_append (hmem hsign) (by decide)
        obtain ⟨count, -, hlong, hcount, hdigits⟩ :=
          (literalValue_eq_error_iff digitClass_isDecimal
            ⟨sign, body, rfl, hmem hsign, .inr hbody⟩).mp hvalue
        rw [hunsigned] at hcount hdigits
        exact ⟨sign, body, rfl, hsign, hdigits, hcount ▸ hlong⟩
  · rintro ⟨sign, digits, rfl, hsign, hdigits, hlong⟩
    obtain ⟨c, rest, rfl⟩ : ∃ c rest, digits = c :: rest :=
      List.exists_cons_of_ne_nil (by rintro rfl; exact absurd hlong (by decide))
    have hnumeric := isNumeric_digits hsign hdigits (List.cons_ne_nil c rest)
    have hwhole := Numeral.Decimal.whole (List.cons_ne_nil c rest) hdigits .none
    rw [List.append_nil] at hwhole
    have hunsigned := @unsigned_append c sign rest (hmem hsign)
      (ne_sign_of_isDecimal (hdigits c List.mem_cons_self))
    have hvalue := (literalValue_eq_error_iff digitClass_isDecimal
      ⟨sign, c :: rest, rfl, hmem hsign, .inr hwhole⟩).mpr
        ⟨_, rfl, hlong, by rw [hunsigned], by rwa [hunsigned]⟩
    rw [wordValue?_of_isNumeric hnumeric, hvalue]
    rfl

variable {digits : Text} (hdigits : ∀ c ∈ digits, isAsciiDigit c = true)
  (hlong : maxDecimalDigits < digits.length)

include hlong in
theorem ne_nil_of_overlong : digits ≠ [] := by
  rintro rfl
  exact absurd hlong (by decide)

include hdigits hlong

theorem literalValue_overlong :
    literalValue digits = .error (.tooManyDigits digits.length) := by
  have hne := ne_nil_of_overlong hlong
  have hliteral : Literal isAsciiDigit digits := by
    have hwhole := Numeral.Decimal.whole hne hdigits .none
    rw [List.append_nil] at hwhole
    exact ⟨[], digits, rfl, by simp, .inr hwhole⟩
  have hunsigned : unsigned digits = digits := by
    obtain ⟨c, rest, rfl⟩ := List.exists_cons_of_ne_nil hne
    have hc := digitClass_isDecimal.ofAscii c (hdigits c List.mem_cons_self)
    exact @unsigned_append c [] rest (by simp) (ne_sign_of_isDecimal hc)
  refine (literalValue_eq_error_iff digitClass_isAsciiDigit hliteral).mpr ⟨_, rfl, hlong, ?_, ?_⟩
  · rw [hunsigned]
  · rwa [hunsigned]

/-- The lenient reading does not take an integer with too many digits. -/
theorem lenient?_overlong : lenient? ('a' :: ':' :: digits) = none := by
  have hne := ne_nil_of_overlong hlong
  have hparts : parts? ('a' :: ':' :: digits) = some [.word ['a'], .mark ':', .word digits] := by
    have hword := parts?_word hne fun c hc => of_digit (by decide) (hdigits c hc)
    have hcolon : parts? (':' :: digits) = some [.mark ':', .word digits] := by
      rw [parts?]
      simp [hword, show isBlank ':' = false by decide, show isMark ':' = true by decide]
    rw [parts?]
    simp [hcolon, show isBlank 'a' = false by decide, show isMark 'a' = false by decide,
      show isQuote 'a' = false by decide, show isWordPart ':' = false by decide]
  have hvalue : wordValue? digits = none := wordValue?_eq_none_iff.mpr
    ⟨[], digits, rfl, .inl rfl, fun c hc => digitClass_isDecimal.ofAscii c (hdigits c hc), hlong⟩
  simp [lenient?, hparts, ofParts?, members?, boundFor, membersWithin, name?, valueWithin, hvalue]

omit hlong in
theorem quoteNamesFrom_digits (name : Text) :
    quoteNamesFrom name digits = name.reverse ++ digits := by
  induction digits generalizing name with
  | nil => simp [quoteNamesFrom]
  | cons c digits ih =>
      obtain ⟨hc, hdigits⟩ := List.forall_mem_cons.mp hdigits
      have hpart : isNamePart c = true := of_digit (by decide) hc
      rw [quoteNamesFrom, if_pos hpart, ih hdigits]
      simp

omit hdigits hlong in
theorem fillComma_of_bare (hcs : ∀ c ∈ cs, isBlank c = false) : fillComma cs = cs := by
  induction cs with
  | nil => rfl
  | cons c rest ih =>
      obtain ⟨-, hrest⟩ := List.forall_mem_cons.mp hcs
      have hnext : ¬ (rest.head?.map isBlank).getD false = true := by
        cases rest with
        | nil => simp
        | cons e rest => simp [hrest e List.mem_cons_self]
      rw [fillComma, if_neg fun h => hnext h.2.1, ih hrest]

omit hlong in
/-- Mending puts quotes around the name. -/
theorem mend_digits : mend ('a' :: ':' :: digits) = '"' :: 'a' :: '"' :: ':' :: digits := by
  have hquoted : quoteNames ('a' :: ':' :: digits) = '"' :: 'a' :: '"' :: ':' :: digits := by
    rw [quoteNames, quoteNamesFrom, if_pos (by decide), quoteNamesFrom, if_neg (by decide),
      if_pos (by decide), quoteNamesFrom_digits hdigits]
    rfl
  rw [mend, hquoted]
  refine fillComma_of_bare ?_
  simp only [List.forall_mem_cons]
  refine ⟨by decide, by decide, by decide, by decide, fun c hc => ?_⟩
  exact isBlank_of_isDecimal (digitClass_isDecimal.ofAscii c (hdigits c hc))

omit hlong in
theorem strictSize_digits (hne : digits ≠ []) (hzero : digits.head? ≠ some '0') :
    strictSize isAsciiDigit (digits ++ ['\x7d']) = digits.length := by
  obtain ⟨c, rest, rfl⟩ := List.exists_cons_of_ne_nil hne
  obtain ⟨hc, hrest⟩ := List.forall_mem_cons.mp hdigits
  have hnonzero : c ≠ '0' := fun h => hzero (by rw [h]; rfl)
  have hfirst : '1' ≤ c ∧ c ≤ '9' := by
    have hdigit : '0' ≤ c ∧ c ≤ '9' := by simpa [isAsciiDigit] using hc
    have hlow : 48 ≤ c.toNat := hdigit.1
    have hne48 : c.toNat ≠ 48 := fun h48 => hnonzero (Char.toNat_inj.mp h48)
    exact ⟨show 49 ≤ c.toNat by omega, hdigit.2⟩
  have hminus : c ≠ '-' := by
    rintro rfl
    cases hc
  have hclosing : Interchange.Starts ['\x7d'] ['\x7d'] := Interchange.starts_cons (by simp)
  have hsize : digitsSize isAsciiDigit (rest ++ ['\x7d']) = rest.length := by
    rw [digitsSize, hclosing.takeWhile_append hrest (by decide)]
  have hwhole : wholeSize isAsciiDigit (c :: (rest ++ ['\x7d'])) = rest.length + 1 := by
    rw [wholeSize, if_neg hnonzero, if_pos hfirst, hsize, Nat.add_comm]
  have hsign : ¬ (c :: (rest ++ ['\x7d'])).head? = some '-' := by simpa using hminus
  have hafter : (c :: (rest ++ ['\x7d'])).drop (rest.length + 1) = ['\x7d'] := by simp
  have hfraction : fractionSize isAsciiDigit ['\x7d'] = 0 := rfl
  have hexponent : exponentSize isAsciiDigit ['\x7d'] = 0 := rfl
  rw [List.cons_append]
  simp only [strictSize, if_neg hsign, List.drop_zero, hwhole, Nat.zero_add, hafter, hfraction,
    Nat.add_zero, hexponent]
  rfl

/-- The strict reading stops at an integer with too many digits. -/
theorem scalar_overlong (hzero : digits.head? ≠ some '0') :
    Json.scalar (digits ++ ['\x7d']) = .error (.unconvertible (.tooManyDigits digits.length)) := by
  have hne := ne_nil_of_overlong hlong
  have hvalue := literalValue_overlong hdigits hlong
  have hsize := strictSize_digits hdigits hne hzero
  have hword : Json.word? (digits ++ ['\x7d']) = none := by
    obtain ⟨c, rest, rfl⟩ := List.exists_cons_of_ne_nil hne
    exact word?_of_digit (hdigits c List.mem_cons_self)
  rw [Json.scalar, hword]
  simp only [hsize, List.take_left, hvalue]
  rw [if_neg (by simpa using hne)]

theorem valueWithin_overlong (hzero : digits.head? ≠ some '0') (bound depth : Nat) :
    Json.valueWithin (bound + 1) depth (digits ++ ['\x7d']) =
      .error (.unconvertible (.tooManyDigits digits.length)) := by
  have hscalar := scalar_overlong hdigits hlong hzero
  cases digits with
  | nil => exact absurd hlong (by decide)
  | cons c rest =>
      have hc := digitClass_isDecimal.ofAscii c (hdigits c List.mem_cons_self)
      have hquote : c ≠ '"' := ne_of_isDecimal hc (by decide)
      have hbrace : c ≠ '\x7b' := ne_of_isDecimal hc (by decide)
      have hbracket : c ≠ '[' := ne_of_isDecimal hc (by decide)
      rw [List.cons_append] at hscalar ⊢
      unfold Json.valueWithin
      rw [if_neg hquote, if_neg hbrace, if_neg hbracket, hscalar]

omit hlong in
theorem skipSpace_digits : Json.skipSpace (digits ++ ['\x7d']) = digits ++ ['\x7d'] := by
  cases digits with
  | nil => rfl
  | cons c rest =>
      have hplain := of_digit (p := fun x => !Json.isSpace x) (by decide)
        (hdigits c List.mem_cons_self)
      rw [Json.skipSpace, List.cons_append, List.dropWhile_cons, if_neg (by simpa using hplain)]

omit hdigits hlong in
/-- The name of the rule, and what follows it. -/
theorem stringTail_name (opened : Text) :
    Json.stringTail opened ('a' :: '"' :: rest) = .ok ([.ofChar 'a'], rest) := by
  have hpiece : Json.piece opened 'a' ('"' :: rest) = .ok ⟨[.ofChar 'a'], 1⟩ := rfl
  rw [Json.stringTail, if_neg (by decide)]
  simp only [hpiece, Nat.sub_self, List.drop_zero]
  rw [Json.stringTail, if_pos rfl]
  rfl

theorem membersWithin_overlong (hzero : digits.head? ≠ some '0') (bound depth : Nat) :
    Json.membersWithin (bound + 2) depth [] ('"' :: 'a' :: '"' :: ':' :: (digits ++ ['\x7d'])) =
      .error (.unconvertible (.tooManyDigits digits.length)) := by
  have hcolon : Json.skipSpace (':' :: (digits ++ ['\x7d'])) = ':' :: (digits ++ ['\x7d']) := rfl
  have hvalue := valueWithin_overlong hdigits hlong hzero bound depth
  unfold Json.membersWithin
  simp only [stringTail_name, hcolon, skipSpace_digits hdigits, hvalue]

theorem read_braced_overlong (hzero : digits.head? ≠ some '0') (depth : Nat) :
    Json.read (depth + 1) (braced ('"' :: 'a' :: '"' :: ':' :: digits)) =
      .error (.unconvertible (.tooManyDigits digits.length)) := by
  have hbound : Json.boundFor (braced ('"' :: 'a' :: '"' :: ':' :: digits)).length =
      2 * digits.length + 11 + 3 := by
    simp only [Json.boundFor, braced, List.length_append, List.length_cons, List.length_nil]
    omega
  have hopening : Json.skipSpace (braced ('"' :: 'a' :: '"' :: ':' :: digits)) =
      '\x7b' :: '"' :: 'a' :: '"' :: ':' :: (digits ++ ['\x7d']) := rfl
  have hobject : ∀ bound depth, Json.valueWithin (bound + 3) (depth + 1)
      ('\x7b' :: '"' :: 'a' :: '"' :: ':' :: (digits ++ ['\x7d'])) =
      .error (.unconvertible (.tooManyDigits digits.length)) := by
    intro bound depth
    have hskip : Json.skipSpace ('"' :: 'a' :: '"' :: ':' :: (digits ++ ['\x7d'])) =
        '"' :: 'a' :: '"' :: ':' :: (digits ++ ['\x7d']) := rfl
    unfold Json.valueWithin
    rw [if_neg (by decide), if_pos rfl]
    simp only [hskip]
    change Except.map _ (Json.membersWithin (bound + 2) depth [] _) = _
    rw [membersWithin_overlong hdigits hlong hzero]
    rfl
  rw [Json.read, hbound, hopening, hobject]

/-- A rule that is set to an integer with too many digits has no verdict. -/
theorem read_overlong (hzero : digits.head? ≠ some '0') (depth : Nat) :
    read ('a' :: ':' :: digits) (depth + 1) = .error (.tooManyDigits digits.length) := by
  have hstrict := read_braced_overlong hdigits hlong hzero depth
  rw [read, lenient?_overlong hdigits hlong]
  simp only [Option.filter_none, mend_digits hdigits, strict, hstrict]

end Overlong

end Rules

/-! ## The answer about a file -/

variable {depth : Nat} {bs : List Bearer} {es : List InlineComment}

/-- The settings and the problems with settings are as many as the comments for settings. -/
theorem length_settings_add {yields : List Yield} (h : List.Forall₂ (Accounts depth) es yields) :
    (yields.filterMap Yield.setting?).length + (yields.filterMap Yield.settingProblem?).length =
      es.countP fun e => e.comment.label.text = "eslint" := by
  induction h with
  | nil => rfl
  | @cons e y es yields hy hrest ih =>
      rw [List.countP_cons, ← ih]
      cases hy with
      | setting hlabel hread =>
          simp only [List.filterMap_cons, Yield.setting?, Yield.settingProblem?, List.length_cons,
            hlabel, decide_true, if_true]
          omega
      | settingProblem hlabel hread =>
          simp only [List.filterMap_cons, Yield.setting?, Yield.settingProblem?, List.length_cons,
            hlabel, decide_true, if_true]
          omega
      | lineProblem hlabel hlines =>
          simp [List.filterMap_cons, Yield.setting?, Yield.settingProblem?, hlabel]
      | @directive scope hlabel hlines =>
          simp [List.filterMap_cons, Yield.setting?, Yield.settingProblem?, hlabel,
            (Scope.label_ne scope).symm]

/-- The settings of one comment have no verdict only if those of its text have none. -/
theorem Bears.read_of_error {b : Bearer} {e : InlineComment} (h : Bears b e)
    {cause : Unconvertible} (hset : RuleSetting.ofBearer depth b = .error cause) :
    e.comment.label.text = "eslint" ∧ Rules.read e.comment.value depth = .error cause := by
  rw [RuleSetting.ofBearer, h.comment] at hset
  dsimp only at hset
  split at hset
  · rename_i hlabel
    refine ⟨by rw [hlabel]; rfl, ?_⟩
    split at hset
    · rename_i hread
      cases hset
      exact hread
    · cases hset
    · cases hset
  · cases hset

theorem RuleSetting.ofBearers_cons_error {b : Bearer} {cause : Unconvertible} {log : List String}
    (h : RuleSetting.ofBearers (b :: bs) depth = .error (cause, log)) :
    RuleSetting.ofBearer depth b = .error cause ∨
      ∃ later, RuleSetting.ofBearers bs depth = .error (cause, later) := by
  rw [RuleSetting.ofBearers] at h
  split at h
  · rename_i hfirst
    cases h
    exact .inl hfirst
  · split at h
    · rename_i hrest
      cases h
      exact .inr ⟨_, hrest⟩
    · cases h

/-- The settings of a file have no answer only if those of a comment have no verdict. -/
theorem exists_of_ofBearers_error (h : List.Forall₂ Bears bs es) {cause : Unconvertible}
    {log : List String} (hset : RuleSetting.ofBearers bs depth = .error (cause, log)) :
    ∃ e ∈ es, e.comment.label.text = "eslint" ∧
      Rules.read e.comment.value depth = .error cause := by
  induction h generalizing log with
  | nil => cases hset
  | @cons b e bs es hb hbs ih =>
      rcases RuleSetting.ofBearers_cons_error hset with hfirst | ⟨later, hrest⟩
      · exact ⟨e, List.mem_cons_self, hb.read_of_error hfirst⟩
      · obtain ⟨e', he', hread⟩ := ih hrest
        exact ⟨e', List.mem_cons_of_mem e he', hread⟩

/-- A text of settings is read or rejected, and for a document the settings and the problems
with them are as many as the comments for settings; unless such a text has too many digits in a
row, and then there is no answer. A rule that is set to so many digits is an example. How much room
for brackets the strict reading has does not matter, if there is any. -/
theorem Session.ask_ruleSettings (profile : Profile) (text : Text) (doc : Document)
    (earlier : List Query) (depth : Nat) (hdoc : Document.ofText profile text = .ok doc) :
    let s := ({ file := .ofDocument text doc } : Session).askAll earlier
    (∀ cs, (∃ rules, Rules.read cs depth = .ok (.ok rules)) ∨
      (∃ rejection, Rules.read cs depth = .ok (.error rejection)) ∨
      ∃ count, Rules.read cs depth = .error (.tooManyDigits count) ∧ DigitRun cs count) ∧
    ((∃ found, (s.ask (.ruleSettings depth)).1.result = .ok (.ruleSettings found) ∧
        found.settings.length + found.problems.length =
          doc.inlineComments.countP fun e => e.comment.label.text = "eslint") ∨
      ∃ e ∈ doc.inlineComments, ∃ count, e.comment.label.text = "eslint" ∧
        Rules.read e.comment.value depth = .error (.tooManyDigits count) ∧
        DigitRun e.comment.value count ∧
        (s.ask (.ruleSettings depth)).1.result =
          .error (.unconvertible (.tooManyDigits count))) ∧
    (0 < depth → ∀ digits : Text, (∀ c ∈ digits, isAsciiDigit c = true) →
      digits.head? ≠ some '0' → maxDecimalDigits < digits.length →
      Rules.read ("a:".toList ++ digits) depth = .error (.tooManyDigits digits.length)) := by
  intro s
  refine ⟨fun cs => ?_, ?_, ?_⟩
  · cases hread : Rules.read cs depth with
    | error cause =>
        obtain ⟨count, rfl, hrun⟩ := Rules.read_eq_error hread
        exact .inr (.inr ⟨count, rfl, hrun⟩)
    | ok outcome =>
        cases outcome with
        | ok rules => exact .inl ⟨rules, rfl⟩
        | error rejection => exact .inr (.inl ⟨rejection, rfl⟩)
  · have hremembers : Remembers (.ofDocument text doc) earlier s := (Remembers.fresh _).run earlier
    have hbears := Document.bears hdoc
    rw [hremembers.ruleSettings_result]
    cases hset : RuleSetting.ofBearers (SourceFile.ofDocument text doc).bearers depth with
    | ok found =>
        obtain ⟨yields, hyields, -, -, hsettings, hproblems⟩ := exists_yields hbears hset
        refine .inl ⟨found, rfl, ?_⟩
        rw [hsettings, hproblems, length_settings_add hyields]
    | error fault =>
        obtain ⟨e, he, hlabel, hread⟩ := exists_of_ofBearers_error hbears hset
        obtain ⟨count, hcause, hrun⟩ := Rules.read_eq_error hread
        rw [hcause] at hread
        refine .inr ⟨e, he, count, hlabel, hread, hrun, ?_⟩
        rw [← hcause]
  · intro hroom digits hdigits hzero hlong
    obtain ⟨depth, rfl⟩ := Nat.exists_eq_succ_of_ne_zero hroom.ne'
    exact Rules.read_overlong hdigits hlong hzero depth

/-- A document with one comment for settings, and a rule that is set to a number of 4301 digits,
which has no verdict. -/
theorem Session.ask_ruleSettings_overlong :
    (∃ doc, Document.ofText ⟨.jsonc, {}, false⟩ "/* eslint a: 2 */ 1".toList = .ok doc ∧
      (doc.inlineComments.countP fun e => e.comment.label.text = "eslint") = 1) ∧
    Rules.read ("a:".toList ++ List.replicate 4301 '1') 1 = .error (.tooManyDigits 4301) := by
  generalize htext : "/* eslint a: 2 */ 1".toList = text
  have hcheck : (Document.ofText ⟨.jsonc, {}, false⟩ text).toOption.any (fun doc =>
      (doc.inlineComments.countP fun e => e.comment.label.text = "eslint") == 1) = true := by
    rw [← htext]
    decide +kernel
  obtain ⟨doc, hdoc, hcount⟩ := Document.exists_of_any hcheck
  have hlong : maxDecimalDigits < (List.replicate 4301 '1').length := by
    rw [List.length_replicate]
    decide
  have hdigits : ∀ c ∈ List.replicate 4301 '1', isAsciiDigit c = true := by
    intro c hc
    rw [List.eq_of_mem_replicate hc]
    rfl
  have hread := (Session.ask_ruleSettings _ text doc [] 1 hdoc).2.2 (by decide)
    (List.replicate 4301 '1') hdigits (by simp) hlong
  rw [List.length_replicate] at hread
  exact ⟨⟨doc, hdoc, by simpa using hcount⟩, hread⟩

end LocatedJson
