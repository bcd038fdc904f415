import LocatedJson.Proofs.Interchange.Number
import Mathlib.Data.List.TakeWhile

/-!
# The values of number literals

The sizes of numbers say how much of a text is a literal, part by part. Here
the parts are put together to what a literal looks like (`Literal`), for both
forms and for any class of digits between the ASCII ones and those of all
scripts. From its looks it follows which literals have a value: all but the
decimal integers with too many digits (`literalValue_eq_error_iff`). In
particular no literal is malformed for the readers of numbers, which know
nothing of the sizes.
-/

namespace LocatedJson.Numeral

open LocatedJson.Text
open LocatedJson.Interchange (Starts starts_cons starts_nil dropLowLines?_of_not_mem)

variable {digit : Char → Bool} {cs ds : Text} {c : Char}

/-! ## What literals look like -/

/-- A class of digits has the ASCII digits and only decimal digits. -/
structure DigitClass (digit : Char → Bool) : Prop where
  ofAscii : ∀ c, isAsciiDigit c = true → digit c = true
  isDecimal : ∀ c, digit c = true → isDecimal c = true

/-- The letter of an exponent with an optional sign and at least one digit, or nothing. -/
inductive Exponent (digit : Char → Bool) : Text → Prop
  | none : Exponent digit []
  | some {letter : Char} {sign ds : Text} (hletter : letter = 'e' ∨ letter = 'E')
      (hsign : sign ∈ [[], ['+'], ['-']]) (hne : ds ≠ []) (hds : ∀ c ∈ ds, digit c = true) :
      Exponent digit (letter :: (sign ++ ds))

/-- Digits with an optional point before, among or after them, and an exponent. -/
inductive Decimal (digit : Char → Bool) : Text → Prop
  | whole {ds exponent : Text} (hne : ds ≠ []) (hds : ∀ c ∈ ds, digit c = true)
      (hexponent : Exponent digit exponent) : Decimal digit (ds ++ exponent)
  | pointed {ds part exponent : Text} (hne : ds ≠ [] ∨ part ≠ [])
      (hds : ∀ c ∈ ds, digit c = true) (hpart : ∀ c ∈ part, digit c = true)
      (hexponent : Exponent digit exponent) : Decimal digit (ds ++ '.' :: (part ++ exponent))

/-- The mark of base sixteen and at least one digit of that base. -/
inductive Hexadecimal : Text → Prop
  | intro {x : Char} {ds : Text} (hx : x = 'x' ∨ x = 'X') (hne : ds ≠ [])
      (hds : ∀ c ∈ ds, isAsciiHex c = true) : Hexadecimal ('0' :: x :: ds)

/-- A number with an optional sign. -/
def Literal (digit : Char → Bool) (cs : Text) : Prop :=
  ∃ sign body, cs = sign ++ body ∧ sign ∈ [[], ['+'], ['-']] ∧
    (Hexadecimal body ∨ Decimal digit body)

/-- A decimal integer with so many digits, and these are too many. -/
def Overlong (digit : Char → Bool) (cs : Text) (count : Nat) : Prop :=
  maxDecimalDigits < count ∧ (unsigned cs).length = count ∧
    ∀ c ∈ unsigned cs, digit c = true

theorem digitClass_isDecimal : DigitClass isDecimal where
  ofAscii c h := by
    rw [Text.isDecimal, decimalValue?_ascii h]
    rfl
  isDecimal _ h := h

theorem digitClass_isAsciiDigit : DigitClass isAsciiDigit where
  ofAscii _ h := h
  isDecimal := digitClass_isDecimal.ofAscii

/-! ## What the sizes measure -/

theorem take_takeWhile (p : Char → Bool) (cs : Text) :
    cs.take (cs.takeWhile p).length = cs.takeWhile p :=
  (List.prefix_iff_eq_take.mp (List.takeWhile_prefix p)).symm

theorem digit_of_mem_take : ∀ c ∈ cs.take (digitsSize digit cs), digit c = true := by
  rw [digitsSize, take_takeWhile]
  exact fun c hc => List.mem_takeWhile_imp hc

theorem take_ne_nil {f : Text → Nat} (hf : Measures f) (h : f cs ≠ 0) : cs.take (f cs) ≠ [] := by
  have hle := hf.le_length cs
  refine List.length_pos_iff.mp ?_
  rw [List.length_take]
  omega

theorem take_signSize (cs : Text) : cs.take (signSize cs) ∈ [[], ['+'], ['-']] := by
  unfold signSize
  split
  · rename_i hsign
    cases cs with
    | nil => simp
    | cons c cs =>
        rcases hsign with hsign | hsign <;> cases hsign <;> simp
  · simp

theorem take_exponentSize (cs : Text) : Exponent digit (cs.take (exponentSize digit cs)) := by
  cases cs with
  | nil => exact .none
  | cons c rest =>
      rw [exponentSize]
      dsimp only
      split
      · rename_i hletter
        split
        · exact .none
        · rename_i hne
          rw [Nat.add_assoc, Nat.add_comm 1, List.take_succ_cons, List.take_add]
          exact .some hletter (take_signSize rest) (take_ne_nil (measures_digitsSize digit) hne)
            digit_of_mem_take
      · exact .none

/-- A point with digits, if the size says that there is one. -/
theorem take_fractionSize (cs : Text) :
    fractionSize digit cs = 0 ∨
      ∃ part, part ≠ [] ∧ (∀ c ∈ part, digit c = true) ∧
        cs.take (fractionSize digit cs) = '.' :: part := by
  cases cs with
  | nil => exact .inl rfl
  | cons c rest =>
      rw [fractionSize_cons]
      split
      · rename_i h
        obtain ⟨rfl, hne⟩ := h
        refine .inr ⟨_, take_ne_nil (measures_digitsSize digit) hne, digit_of_mem_take, ?_⟩
        rw [Nat.add_comm, List.take_succ_cons]
      · exact .inl rfl

theorem take_pointSize (cs : Text) :
    pointSize digit cs = 0 ∨
      ∃ part, (∀ c ∈ part, digit c = true) ∧ cs.take (pointSize digit cs) = '.' :: part := by
  cases cs with
  | nil => exact .inl rfl
  | cons c rest =>
      rw [pointSize]
      split
      · rename_i h
        subst h
        exact .inr ⟨_, digit_of_mem_take, by rw [Nat.add_comm, List.take_succ_cons]⟩
      · exact .inl rfl

theorem take_wholeSize (hclass : DigitClass digit) (cs : Text) :
    ∀ c ∈ cs.take (wholeSize digit cs), digit c = true := by
  cases cs with
  | nil => simp
  | cons c rest =>
      rw [wholeSize]
      split
      · rename_i h
        subst h
        simpa using hclass.ofAscii '0' rfl
      · split
        · rename_i h
          rw [Nat.add_comm, List.take_succ_cons]
          refine List.forall_mem_cons.mpr ⟨hclass.ofAscii c ?_, digit_of_mem_take⟩
          have hle : '0' ≤ c := Nat.le_trans (show '0'.toNat ≤ '1'.toNat by decide) h.1
          simp only [isAsciiDigit, hle, h.2, decide_true, Bool.and_self]
        · simp

/-- What the strict form measures is a literal. -/
theorem literal_strictSize (hclass : DigitClass digit) (h : strictSize digit cs ≠ 0) :
    Literal digit (cs.take (strictSize digit cs)) := by
  unfold strictSize at h ⊢
  dsimp only at h ⊢
  have hsign : cs.take (if cs.head? = some '-' then 1 else 0) ∈ [[], ['+'], ['-']] := by
    split
    · cases cs with
      | nil => simp
      | cons c cs => simp_all
    · simp
  generalize (if cs.head? = some '-' then 1 else 0) = sign at h hsign ⊢
  split at h
  · exact absurd rfl h
  · rename_i hwhole
    have hds := take_wholeSize hclass (cs.drop sign)
    have hne := take_ne_nil (measures_wholeSize digit) hwhole
    rw [if_neg hwhole]
    simp only [Nat.add_assoc, List.take_add, ← List.drop_drop]
    generalize (cs.drop sign).drop (wholeSize digit (cs.drop sign)) = after
    refine ⟨_, _, rfl, hsign, .inr ?_⟩
    rcases @take_fractionSize digit after with hzero | ⟨part, -, hpart, hfraction⟩
    · rw [hzero, List.take_zero, List.nil_append, List.drop_zero]
      exact .whole hne hds (take_exponentSize _)
    · rw [hfraction]
      exact .pointed (.inl hne) hds hpart (take_exponentSize _)

theorem hexadecimal_hexSize (h : hexSize cs ≠ 0) : Hexadecimal (cs.take (hexSize cs)) := by
  unfold hexSize at h ⊢
  split at h
  · rename_i x rest
    dsimp only at h ⊢
    split at h
    · rename_i hmark
      rw [if_pos hmark, Nat.add_comm, List.take_succ_cons, List.take_succ_cons]
      refine .intro hmark.1 (take_ne_nil (measures_takeWhile isAsciiHex) hmark.2) ?_
      rw [take_takeWhile]
      exact fun c hc => List.mem_takeWhile_imp hc
    · exact absurd rfl h
  · exact absurd rfl h

theorem decimal_wideDecimalSize (h : wideDecimalSize digit cs ≠ 0) :
    Decimal digit (cs.take (wideDecimalSize digit cs)) := by
  unfold wideDecimalSize at h ⊢
  dsimp only at h ⊢
  split at h
  · exact absurd rfl h
  · rename_i hmantissa
    rw [if_neg hmantissa, List.take_add]
    have hexponent := @take_exponentSize digit (cs.drop (mantissaSize digit cs))
    generalize (cs.drop (mantissaSize digit cs)).take _ = exponent at hexponent
    rw [mantissaSize_eq] at hmantissa ⊢
    split at hmantissa
    · rename_i hzero
      rw [if_pos hzero]
      rcases @take_fractionSize digit cs with hnone | ⟨part, hne, hpart, hfraction⟩
      · exact absurd hnone hmantissa
      · rw [hfraction]
        exact @Decimal.pointed digit [] part exponent (.inr hne) (by simp) hpart hexponent
    · rename_i hwhole
      have hne := take_ne_nil (measures_digitsSize digit) hwhole
      rw [if_neg hwhole, List.take_add]
      rcases @take_pointSize digit (cs.drop (digitsSize digit cs)) with
        hnone | ⟨part, hpart, hpoint⟩
      · rw [hnone, List.take_zero, List.append_nil]
        exact .whole hne digit_of_mem_take hexponent
      · rw [hpoint, List.append_assoc, List.cons_append]
        exact .pointed (.inl hne) digit_of_mem_take hpart hexponent

/-- What the wide form measures is a literal. -/
theorem literal_wideSize (h : wideSize digit cs ≠ 0) :
    Literal digit (cs.take (wideSize digit cs)) := by
  unfold wideSize at h ⊢
  dsimp only at h ⊢
  split at h
  · rename_i hhex
    rw [if_pos hhex, List.take_add]
    exact ⟨_, _, rfl, take_signSize cs, .inl (hexadecimal_hexSize hhex)⟩
  · rename_i hhex
    split at h
    · rename_i hdecimal
      rw [if_neg hhex, if_pos hdecimal, List.take_add]
      exact ⟨_, _, rfl, take_signSize cs, .inr (decimal_wideDecimalSize hdecimal)⟩
    · exact absurd rfl h

/-! ## The characters of literals -/

/-- No script has a digit among the blanks. -/
theorem isBlank_of_isDecimal (h : isDecimal c = true) : isBlank c = false := by
  have htable : ∀ z ∈ digitZeros, ∀ i ∈ blankIntervals, i.2 < z ∨ z + 10 ≤ i.1 := by decide
  unfold isDecimal decimalValue? at h
  split at h
  · split at h
    · rename_i hdigit
      have hlow : 48 ≤ c.toNat := hdigit.1
      have hhigh : c.toNat ≤ 57 := hdigit.2
      simp only [isBlank, inIntervals, blankIntervals, List.any_cons, List.any_nil]
      grind
    · cases h
  · rw [Option.isSome_map, List.find?_isSome] at h
    obtain ⟨z, hz, hbounds⟩ := h
    simp only [Bool.and_eq_true, decide_eq_true_eq] at hbounds
    rw [isBlank, inIntervals, List.any_eq_false]
    intro i hi
    have := htable z hz i hi
    simp only [Bool.and_eq_true, decide_eq_true_eq]
    omega

theorem isNumberBlank_of_isDecimal (h : isDecimal c = true) : isNumberBlank c = false := by
  rw [isNumberBlank, isBlank_of_isDecimal h, Bool.false_and]

theorem ne_of_isDecimal {x : Char} (h : isDecimal c = true) (hx : isDecimal x = false) :
    c ≠ x := by
  rintro rfl
  cases h.symm.trans hx

theorem ne_sign_of_isDecimal (h : isDecimal c = true) : c ≠ '+' ∧ c ≠ '-' :=
  ⟨ne_of_isDecimal h (by decide), ne_of_isDecimal h (by decide)⟩

/-- The characters of decimal numbers that are no digits. -/
def marks : List Char := ['.', 'e', 'E', '+', '-']

theorem Exponent.mem {exponent : Text} (h : Exponent isDecimal exponent) :
    ∀ c ∈ exponent, isDecimal c = true ∨ c ∈ marks := by
  cases h with
  | none => simp
  | @some letter sign ds hletter hsign hne hds =>
      intro c hc
      rcases List.mem_cons.mp hc with rfl | hc
      · rcases hletter with rfl | rfl <;> exact .inr (by decide)
      · rcases List.mem_append.mp hc with hc | hc
        · simp only [List.mem_cons, List.not_mem_nil, or_false] at hsign
          rcases hsign with rfl | rfl | rfl
          · cases hc
          · exact .inr (by rw [List.mem_singleton.mp hc]; decide)
          · exact .inr (by rw [List.mem_singleton.mp hc]; decide)
        · exact .inl (hds c hc)

namespace Decimal

variable {body : Text}

theorem mem (h : Decimal isDecimal body) : ∀ c ∈ body, isDecimal c = true ∨ c ∈ marks := by
  cases h with
  | @whole ds exponent hne hds hexponent =>
      exact List.forall_mem_append.mpr ⟨fun c hc => .inl (hds c hc), hexponent.mem⟩
  | @pointed ds part exponent hne hds hpart hexponent =>
      refine List.forall_mem_append.mpr ⟨fun c hc => .inl (hds c hc), ?_⟩
      refine List.forall_mem_cons.mpr ⟨.inr (by decide), ?_⟩
      exact List.forall_mem_append.mpr ⟨fun c hc => .inl (hpart c hc), hexponent.mem⟩

theorem not_mem (h : Decimal isDecimal body) {x : Char} (hdigit : isDecimal x = false)
    (hmark : x ∉ marks) : x ∉ body := by
  intro hx
  rcases h.mem x hx with hx | hx
  · cases hx.symm.trans hdigit
  · exact hmark hx

/-- A decimal number starts with a digit or a point, so there is no second sign. -/
theorem head?_mem (h : Decimal isDecimal body) :
    ∃ c rest, body = c :: rest ∧ (isDecimal c = true ∨ c = '.') := by
  cases h with
  | @whole ds exponent hne hds hexponent =>
      obtain ⟨c, ds, rfl⟩ := List.exists_cons_of_ne_nil hne
      exact ⟨c, _, rfl, .inl (hds c List.mem_cons_self)⟩
  | @pointed ds part exponent hne hds hpart hexponent =>
      cases ds with
      | nil => exact ⟨'.', _, rfl, .inr rfl⟩
      | cons c ds => exact ⟨c, _, rfl, .inl (hds c List.mem_cons_self)⟩

theorem mono (hclass : DigitClass digit) (h : Decimal digit body) : Decimal isDecimal body := by
  have hmono : ∀ {exponent}, Exponent digit exponent → Exponent isDecimal exponent := by
    rintro _ (_ | ⟨hletter, hsign, hne, hds⟩)
    · exact .none
    · exact .some hletter hsign hne fun c hc => hclass.isDecimal c (hds c hc)
  cases h with
  | whole hne hds hexponent =>
      exact .whole hne (fun c hc => hclass.isDecimal c (hds c hc)) (hmono hexponent)
  | pointed hne hds hpart hexponent =>
      exact .pointed hne (fun c hc => hclass.isDecimal c (hds c hc))
        (fun c hc => hclass.isDecimal c (hpart c hc)) (hmono hexponent)

end Decimal

/-! ## The readers of numbers -/

/-- The digits of a base up to the end of a text are read one by one. -/
theorem exists_digitRun {base : Base} (h : ∀ c ∈ ds, (base.digit? c).isSome = true) :
    ∃ vs, digitRun base ds = some (vs, []) ∧ vs.length = ds.length := by
  induction ds with
  | nil => exact ⟨[], rfl, rfl⟩
  | cons c ds ih =>
      obtain ⟨hc, hds⟩ := List.forall_mem_cons.mp h
      obtain ⟨vs, hrun, hlength⟩ := ih hds
      obtain ⟨v, hv⟩ := Option.isSome_iff_exists.mp hc
      exact ⟨v :: vs, by rw [digitRun, hv, hrun]; rfl, by simp [hlength]⟩

theorem splitSign_of_head {rest : Text} (hc : c ≠ '+' ∧ c ≠ '-') :
    splitSign (c :: rest) = (false, c :: rest) := by
  unfold splitSign
  split <;> simp_all

theorem unsigned_append {sign rest : Text} (hsign : sign ∈ [[], ['+'], ['-']])
    (hc : c ≠ '+' ∧ c ≠ '-') : unsigned (sign ++ c :: rest) = c :: rest := by
  simp only [List.mem_cons, List.not_mem_nil, or_false] at hsign
  rcases hsign with rfl | rfl | rfl <;> simp [unsigned, hc.1, hc.2]

/-- Digits are an integer exactly if they are not too many. -/
theorem readInteger_ten (hne : ds ≠ []) (hds : ∀ c ∈ ds, isDecimal c = true) :
    if maxDecimalDigits < ds.length then readInteger .ten ds = .error (.tooLong ds.length)
    else ∃ n, readInteger .ten ds = .ok n := by
  obtain ⟨vs, hrun, hlength⟩ := @exists_digitRun ds .ten hds
  obtain ⟨c, rest, rfl⟩ := List.exists_cons_of_ne_nil hne
  have hc := hds c List.mem_cons_self
  have hblank : (c :: rest).dropWhile isNumberBlank = c :: rest := by
    rw [List.dropWhile_cons, isNumberBlank_of_isDecimal hc]
    rfl
  have hsign : splitSign (c :: rest) = (false, c :: rest) :=
    splitSign_of_head (ne_sign_of_isDecimal hc)
  have hlow : (c :: rest).head? ≠ some '_' := by
    rintro ⟨⟩
    exact absurd hc (by decide)
  have hvs : vs ≠ [] := by
    rintro rfl
    cases hlength
  simp only [readInteger, hblank, hsign, dropMark, if_neg hlow, hrun, hlength, true_and]
  split
  · rfl
  · exact ⟨_, if_neg (by simp [hvs])⟩

theorem exists_readInteger_sixteen {body : Text} (h : Hexadecimal body) :
    ∃ n, readInteger .sixteen body = .ok n := by
  obtain ⟨hx, hne, hds⟩ := h
  rename_i x ds
  have hvalue : ∀ c ∈ ds, (Base.sixteen.digit? c).isSome = true := by
    intro c hc
    have hhex := hds c hc
    simp only [isAsciiHex, asciiHexValue?] at hhex
    simp only [Base.digit?, hexValue?, Option.isSome_or, Bool.or_eq_true]
    split at hhex
    · rename_i hdigit
      exact .inl (digitClass_isDecimal.ofAscii c hdigit)
    · exact .inr hhex
  obtain ⟨vs, hrun, hlength⟩ := exists_digitRun hvalue
  have hlow : ds.head? ≠ some '_' := by
    intro hhead
    exact absurd (hds '_' (List.mem_of_head? hhead)) (by decide)
  have hvs : vs ≠ [] := by
    rintro rfl
    exact hne (List.length_eq_zero_iff.mp hlength.symm)
  have hmark : dropMark .sixteen ('0' :: x :: ds) = ds := by
    rw [dropMark, if_pos ⟨by decide, hx⟩, if_neg hlow]
  have hblank : ('0' :: x :: ds).dropWhile isNumberBlank = '0' :: x :: ds := rfl
  have hsign : splitSign ('0' :: x :: ds) = (false, '0' :: x :: ds) :=
    splitSign_of_head (by decide)
  refine ⟨signed false (ofDigits Base.sixteen.value vs), ?_⟩
  simp only [readInteger, hblank, hsign, hmark, if_neg hlow, hrun]
  rw [if_neg (by simp), if_neg (by simp [hvs])]

theorem leadingDigits_append {allowed : List Char} {post : Text}
    (hds : ∀ c ∈ ds, isDecimal c = true) (hpost : Starts allowed post)
    (hstop : allowed.any isDecimal = false) :
    ∃ vs, leadingDigits (ds ++ post) = (vs, post) ∧ vs.length = ds.length := by
  have hfront := hpost.takeWhile_append hds hstop
  have hback : (ds ++ post).dropWhile isDecimal = post := by
    rw [← Cursor.drop_length_takeWhile, hfront, List.drop_left]
  refine ⟨ds.filterMap decimalValue?, by rw [leadingDigits, hfront, hback], ?_⟩
  exact List.filterMap_length_eq_length.mpr hds

theorem Exponent.starts {exponent : Text} (h : Exponent digit exponent) :
    Starts ['e', 'E'] exponent := by
  cases h with
  | none => exact starts_nil
  | some hletter hsign hne hds => exact starts_cons (by rcases hletter with rfl | rfl <;> decide)

theorem exists_exponent? {exponent : Text} (h : Exponent isDecimal exponent) :
    ∃ e, exponent? exponent = some e := by
  cases h with
  | none => exact ⟨0, rfl⟩
  | @some letter sign ds hletter hsign hne hds =>
      obtain ⟨c, ds, rfl⟩ := List.exists_cons_of_ne_nil hne
      have hc := hds c List.mem_cons_self
      have hplain : splitSign (c :: ds) = (false, c :: ds) :=
        splitSign_of_head (ne_sign_of_isDecimal hc)
      obtain ⟨negative, hsplit⟩ :
          ∃ negative, splitSign (sign ++ c :: ds) = (negative, c :: ds) := by
        simp only [List.mem_cons, List.not_mem_nil, or_false] at hsign
        rcases hsign with rfl | rfl | rfl
        exacts [⟨false, hplain⟩, ⟨false, rfl⟩, ⟨true, rfl⟩]
      obtain ⟨vs, hlead, hlength⟩ := leadingDigits_append hds (@starts_nil []) rfl
      rw [List.append_nil] at hlead
      cases vs with
      | nil => cases hlength
      | cons v vs =>
          refine ⟨signed negative (ofDigits 10 (v :: vs)), ?_⟩
          rw [exponent?, if_pos hletter, hsplit]
          simp only [hlead]

/-- Every decimal number has a value as a fraction. -/
theorem Decimal.exists_readDecimal? {body : Text} (h : Decimal isDecimal body) :
    ∃ x, readDecimal? body = some x := by
  have hbare : ∀ c ∈ body, isNumberBlank c = false := by
    intro c hc
    rcases h.mem c hc with hc | hc
    · exact isNumberBlank_of_isDecimal hc
    · exact Interchange.eq_false_of_any (by decide) hc
  have hleft : body.dropWhile isNumberBlank = body := by
    obtain ⟨c, rest, rfl, -⟩ := h.head?_mem
    rw [List.dropWhile_cons, hbare c List.mem_cons_self]
    rfl
  have hright : body.reverse.dropWhile isNumberBlank = body.reverse := by
    refine List.dropWhile_eq_self_iff.mpr fun hl => ?_
    simpa using hbare _ (List.mem_reverse.mp (List.getElem_mem hl))
  have hsign : splitSign body = (false, body) := by
    obtain ⟨c, rest, rfl, hc | rfl⟩ := h.head?_mem
    · exact splitSign_of_head (ne_sign_of_isDecimal hc)
    · rfl
  have hlow := dropLowLines?_of_not_mem (h.not_mem (x := '_') (by decide) (by decide)) false
  simp only [readDecimal?, hleft, hright, List.reverse_reverse, hlow, Option.bind_eq_bind,
    Option.bind_some, hsign]
  cases h with
  | @whole ds exponent hne hds hexponent =>
      obtain ⟨e, he⟩ := exists_exponent? hexponent
      obtain ⟨vs, hlead, hlength⟩ := leadingDigits_append hds hexponent.starts (by decide)
      have hvs : vs ≠ [] := by
        rintro rfl
        exact hne (List.length_eq_zero_iff.mp hlength.symm)
      have hfraction : fraction exponent = ([], exponent) := by
        have hpoint := hexponent.starts.head?_ne (show '.' ∉ ['e', 'E'] by decide)
        unfold fraction
        split <;> simp_all
      simp only [hlead, hfraction, he, Option.bind_some]
      exact ⟨_, if_neg (by simp [hvs])⟩
  | @pointed ds part exponent hne hds hpart hexponent =>
      obtain ⟨e, he⟩ := exists_exponent? hexponent
      have hpoint : Starts ['.'] ('.' :: (part ++ exponent)) := starts_cons List.mem_cons_self
      obtain ⟨vs, hlead, hlength⟩ := leadingDigits_append hds hpoint (by decide)
      obtain ⟨vs', hlead', hlength'⟩ := leadingDigits_append hpart hexponent.starts (by decide)
      have hvs : ¬ (vs = [] ∧ vs' = []) := by
        rintro ⟨rfl, rfl⟩
        rcases hne with hne | hne
        · exact hne (List.length_eq_zero_iff.mp hlength.symm)
        · exact hne (List.length_eq_zero_iff.mp hlength'.symm)
      simp only [hlead, fraction, hlead', he, Option.bind_some]
      exact ⟨_, if_neg hvs⟩

/-! ## The values -/

theorem hasHexMark_of_decimal {body : Text} (h : Decimal isDecimal body) :
    hasHexMark body = false := by
  have hx := h.not_mem (x := 'x') (by decide) (by decide)
  have hX := h.not_mem (x := 'X') (by decide) (by decide)
  unfold hasHexMark
  split
  · rename_i c rest
    simp only [List.mem_cons, not_or] at hx hX
    simp [Ne.symm hx.2.1, Ne.symm hX.2.1]
  · rfl

theorem hasFractionMark_of_mem {x : Char} (hx : x ∈ ['.', 'e', 'E']) (hcs : x ∈ cs) :
    hasFractionMark cs = true := by
  refine List.any_eq_true.mpr ⟨x, hcs, ?_⟩
  simp only [List.mem_cons, List.not_mem_nil, or_false] at hx
  rcases hx with rfl | rfl | rfl <;> rfl

/-- A decimal number has no mark of a fraction exactly if it is nothing but digits. -/
theorem hasFractionMark_of_decimal (hclass : DigitClass digit) {body : Text}
    (h : Decimal digit body) : hasFractionMark body = false ↔ ∀ c ∈ body, digit c = true := by
  constructor
  · intro hnone
    cases h with
    | @whole ds exponent hne hds hexponent =>
        cases hexponent with
        | none => simpa using hds
        | @some letter sign ds' hletter hsign hne' hds' =>
            have hx : letter ∈ ['.', 'e', 'E'] := by rcases hletter with rfl | rfl <;> decide
            cases (hasFractionMark_of_mem hx (by simp)).symm.trans hnone
    | pointed hne hds hpart hexponent =>
        cases (hasFractionMark_of_mem (x := '.') (by decide) (by simp)).symm.trans hnone
  · intro hall
    refine List.any_eq_false.mpr fun c hc => ?_
    have hdigit := hclass.isDecimal c (hall c hc)
    simp [ne_of_isDecimal hdigit (show isDecimal '.' = false by decide),
      ne_of_isDecimal hdigit (show isDecimal 'e' = false by decide),
      ne_of_isDecimal hdigit (show isDecimal 'E' = false by decide)]

/-- A literal has a value, unless it is a decimal integer with too many digits. -/
theorem literalValue_eq_error_iff (hclass : DigitClass digit) (h : Literal digit cs)
    {cause : Unconvertible} :
    literalValue cs = .error cause ↔
      ∃ count, cause = .tooManyDigits count ∧ Overlong digit cs count := by
  obtain ⟨sign, body, rfl, hsign, hbody | hbody⟩ := h
  · -- base sixteen has no bound on the digits, and its letter is no digit
    obtain ⟨n, hn⟩ := exists_readInteger_sixteen hbody
    obtain ⟨hx, hne, hds⟩ := hbody
    rename_i x ds
    have hunsigned := @unsigned_append '0' sign (x :: ds) hsign (by decide)
    have hmark : hasHexMark ('0' :: x :: ds) = true := by simpa [hasHexMark] using hx
    constructor
    · intro h
      simp only [literalValue, hunsigned, if_pos hmark, integerValue, hn] at h
      cases h
    · rintro ⟨count, -, -, -, hdigits⟩
      rw [hunsigned] at hdigits
      have hdigit := hclass.isDecimal x (hdigits x (by simp))
      rcases hx with rfl | rfl <;> exact absurd hdigit (by decide)
  · have hwide := hbody.mono hclass
    have hunsigned : unsigned (sign ++ body) = body := by
      obtain ⟨c, rest, rfl, hc | rfl⟩ := hwide.head?_mem
      · exact unsigned_append hsign (ne_sign_of_isDecimal hc)
      · exact unsigned_append hsign (by decide)
    have hhex := hasHexMark_of_decimal hwide
    have hdigits := hasFractionMark_of_decimal hclass hbody
    simp only [literalValue, Overlong, hunsigned, hhex, Bool.false_eq_true, if_false, ← hdigits]
    cases hmark : hasFractionMark body with
    | true =>
        obtain ⟨x, hx⟩ := hwide.exists_readDecimal?
        simp only [decimalValue, hx, if_true]
        constructor
        · rintro ⟨⟩
        · rintro ⟨count, -, -, -, ⟨⟩⟩
    | false =>
        have hne : body ≠ [] := by
          obtain ⟨c, rest, rfl, -⟩ := hwide.head?_mem
          exact List.cons_ne_nil c rest
        have hread := readInteger_ten hne fun c hc => hclass.isDecimal c (hdigits.mp hmark c hc)
        simp only [Bool.false_eq_true, if_false, integerValue]
        split at hread
        · rename_i hlong
          rw [hread]
          constructor
          · rintro ⟨⟩
            exact ⟨_, rfl, hlong, rfl, trivial⟩
          · rintro ⟨count, rfl, -, rfl, -⟩
            rfl
        · rename_i hshort
          obtain ⟨n, hn⟩ := hread
          rw [hn]
          constructor
          · rintro ⟨⟩
          · rintro ⟨count, -, hlong, rfl, -⟩
            exact absurd hlong hshort

end LocatedJson.Numeral
