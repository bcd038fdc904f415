import LocatedJson.Proofs.Quoted
import LocatedJson.Token.Lex

/-!
# How far lexemes look

A lexeme is found by measuring the front of a text, and no measure depends
on characters beyond what it counts: if the front of a longer text has a
size that fits into a shorter one, the shorter text has the same size at
its front (`Measures.of_append`). The same holds of whole lexemes
(`Lexeme.settles_scan`): what was found at the front of a text is found
again when the text is cut off anywhere behind it. In the other direction
nothing of the kind is true, because a text may go on with characters that
belong to the lexeme.
-/

namespace LocatedJson

open LocatedJson.Text

/-- A measure of the front of a text: it stays inside the text, and it does not depend on
what follows the characters that it counts. -/
structure Measures (f : Text → Nat) : Prop where
  le_length : ∀ cs, f cs ≤ cs.length
  of_append : ∀ cs tail, f (cs ++ tail) ≤ cs.length → f cs = f (cs ++ tail)

/-- At the end of a text there is nothing to measure, so only texts with a first character
need an argument. -/
theorem measures_of_cons {f : Text → Nat} (hle : ∀ cs, f cs ≤ cs.length)
    (hcons : ∀ c rest tail, f (c :: (rest ++ tail)) ≤ rest.length + 1 →
      f (c :: rest) = f (c :: (rest ++ tail))) : Measures f where
  le_length := hle
  of_append cs tail h := by
    cases cs with
    | nil =>
        have := hle []
        simp only [List.nil_append, List.length_nil] at h this ⊢
        omega
    | cons c rest => exact hcons c rest tail h

theorem Measures.congr {f g : Text → Nat} (hf : Measures f) (h : ∀ cs, g cs = f cs) :
    Measures g := by
  rwa [show g = f from funext h]

/-- A measure that starts behind some characters. -/
theorem Measures.of_append_drop {f : Text → Nat} (hf : Measures f) {cs tail : Text} {n : Nat}
    (hn : n ≤ cs.length) (h : n + f ((cs ++ tail).drop n) ≤ cs.length) :
    f (cs.drop n) = f ((cs ++ tail).drop n) := by
  rw [List.drop_append_of_le_length hn] at h ⊢
  exact hf.of_append _ _ (by rw [List.length_drop]; omega)

theorem Measures.add_le_length {f : Text → Nat} (hf : Measures f) {cs : Text} {n : Nat}
    (hn : n ≤ cs.length) : n + f (cs.drop n) ≤ cs.length := by
  have := hf.le_length (cs.drop n)
  rw [List.length_drop] at this
  omega

theorem measures_takeWhile (p : Char → Bool) : Measures fun cs => (cs.takeWhile p).length where
  le_length cs := (List.takeWhile_sublist p).length_le
  of_append cs tail h := by
    rw [List.takeWhile_append] at h ⊢
    split at h
    · rename_i hall
      rw [if_pos hall]
      simp only [List.length_append] at h ⊢
      omega
    · rename_i hall
      rw [if_neg hall]

/-! ## Measures from measures

The forms in which the parts of a literal follow each other. -/

section Combinators

variable {f g : Text → Nat} (hf : Measures f) (hg : Measures g)
include hf hg

/-- One part after the other. -/
theorem Measures.andThen : Measures fun cs => f cs + g (cs.drop (f cs)) where
  le_length cs := hg.add_le_length (hf.le_length cs)
  of_append cs tail h := by
    have hfront : f cs = f (cs ++ tail) := hf.of_append cs tail (by omega)
    have hback : g (cs.drop (f (cs ++ tail))) = g ((cs ++ tail).drop (f (cs ++ tail))) :=
      hg.of_append_drop (by omega) h
    simp only [hfront, hback]

/-- A part without which there is nothing, and another one after it. -/
theorem Measures.follow :
    Measures fun cs => if f cs = 0 then 0 else f cs + g (cs.drop (f cs)) where
  le_length cs := by
    have := (hf.andThen hg).le_length cs
    split <;> omega
  of_append cs tail h := by
    have hboth := (hf.andThen hg).of_append cs tail
    have hfront := hf.of_append cs tail
    grind

/-- At most one character, and a part after it without which there is nothing. -/
theorem Measures.lead (hone : ∀ cs, f cs ≤ 1) :
    Measures fun cs => if g (cs.drop (f cs)) = 0 then 0 else f cs + g (cs.drop (f cs)) := by
  refine measures_of_cons (fun cs => ?_) (fun c rest tail h => ?_)
  · have := (hf.andThen hg).le_length cs
    split <;> omega
  · have hshort : f (c :: (rest ++ tail)) ≤ (c :: rest).length := by
      have := hone (c :: (rest ++ tail))
      rw [List.length_cons]
      omega
    have hfront : f (c :: rest) = f (c :: (rest ++ tail)) := hf.of_append (c :: rest) tail hshort
    have hback := @Measures.of_append_drop g hg (c :: rest) tail _ hshort
    rw [List.cons_append] at hback
    grind

/-- The first part that is there. -/
theorem Measures.orElse : Measures fun cs => if f cs = 0 then g cs else f cs where
  le_length cs := by
    have := hf.le_length cs
    have := hg.le_length cs
    split <;> omega
  of_append cs tail h := by
    have hfirst := hf.of_append cs tail
    have hsecond := hg.of_append cs tail
    grind

end Combinators

/-- A mark and a part after it. -/
theorem Measures.opened {f g : Text → Nat} (hg : Measures g) (p : Char → Prop) [DecidablePred p]
    (hnil : f [] = 0) (hcons : ∀ c rest, f (c :: rest) = if p c then 1 + g rest else 0) :
    Measures f := by
  refine measures_of_cons (fun cs => ?_) (fun c rest tail h => ?_)
  · cases cs with
    | nil => simp [hnil]
    | cons c rest =>
        have := hg.le_length rest
        rw [hcons, List.length_cons]
        split <;> omega
  · have := hg.of_append rest tail
    rw [hcons] at h ⊢
    rw [hcons]
    grind

/-- A mark and a part after it without which there is nothing. -/
theorem Measures.marked {f g : Text → Nat} (hg : Measures g) (p : Char → Prop) [DecidablePred p]
    (hnil : f [] = 0)
    (hcons : ∀ c rest, f (c :: rest) = if p c ∧ g rest ≠ 0 then 1 + g rest else 0) :
    Measures f := by
  refine measures_of_cons (fun cs => ?_) (fun c rest tail h => ?_)
  · cases cs with
    | nil => simp [hnil]
    | cons c rest =>
        have := hg.le_length rest
        rw [hcons, List.length_cons]
        split <;> omega
  · have := hg.of_append rest tail
    rw [hcons] at h ⊢
    rw [hcons]
    grind

/-- One character, or nothing. -/
theorem measures_head (p : Option Char → Prop) [DecidablePred p] (hnone : ¬ p none) :
    Measures fun cs => if p cs.head? then 1 else 0 := by
  refine measures_of_cons (fun cs => ?_) (fun c rest tail h => rfl)
  cases cs with
  | nil => simp [hnone]
  | cons c rest => split <;> simp

/-! ## Numbers -/

namespace Numeral

variable (digit : Char → Bool)

theorem measures_digitsSize : Measures (digitsSize digit) := measures_takeWhile digit

theorem fractionSize_cons (c : Char) (rest : Text) :
    fractionSize digit (c :: rest) =
      if c = '.' ∧ digitsSize digit rest ≠ 0 then 1 + digitsSize digit rest else 0 := by
  unfold fractionSize
  split <;> split <;> simp_all

theorem measures_fractionSize : Measures (fractionSize digit) :=
  (measures_digitsSize digit).marked (· = '.') rfl (fractionSize_cons digit)

theorem signSize_le_one (cs : Text) : signSize cs ≤ 1 := by
  unfold signSize
  split <;> omega

theorem measures_signSize : Measures signSize :=
  measures_head (fun o => o = some '+' ∨ o = some '-') (by simp)

theorem measures_exponentSize : Measures (exponentSize digit) := by
  refine (measures_signSize.lead (measures_digitsSize digit) signSize_le_one).marked
    (fun c => c = 'e' ∨ c = 'E') rfl fun c rest => ?_
  simp only [exponentSize]
  grind

theorem measures_wholeSize : Measures (wholeSize digit) := by
  refine measures_of_cons (fun cs => ?_) (fun c rest tail h => ?_)
  · cases cs with
    | nil => simp [wholeSize]
    | cons c rest =>
        have := (measures_digitsSize digit).le_length rest
        simp only [wholeSize, List.length_cons]
        split
        · omega
        · split <;> omega
  · have hdigits := (measures_digitsSize digit).of_append rest tail
    simp only [wholeSize] at h ⊢
    grind

theorem measures_strictSize : Measures (strictSize digit) := by
  have htail := (measures_fractionSize digit).andThen (measures_exponentSize digit)
  have hminus := measures_head (fun o => o = some '-') (by simp)
  have hone : ∀ cs : Text, (if cs.head? = some '-' then 1 else 0) ≤ 1 := by
    intro cs
    split <;> omega
  refine (hminus.lead ((measures_wholeSize digit).follow htail) hone).congr fun cs => ?_
  simp only [strictSize, ← List.drop_drop]
  grind

/-- The letter of base sixteen and at least one hexadecimal digit. -/
def hexTailSize : Text → Nat
  | [] => 0
  | x :: rest =>
    if (x = 'x' ∨ x = 'X') ∧ (rest.takeWhile isAsciiHex).length ≠ 0 then
      1 + (rest.takeWhile isAsciiHex).length
    else 0

theorem hexSize_cons (c : Char) (rest : Text) :
    hexSize (c :: rest) =
      if c = '0' ∧ hexTailSize rest ≠ 0 then 1 + hexTailSize rest else 0 := by
  by_cases hc : c = '0'
  · subst hc
    cases rest with
    | nil => rfl
    | cons x rest =>
        simp only [hexSize, hexTailSize]
        grind
  · unfold hexSize
    split <;> simp_all

theorem measures_hexSize : Measures hexSize := by
  have htail : Measures hexTailSize :=
    (measures_takeWhile isAsciiHex).marked (fun x => x = 'x' ∨ x = 'X') rfl fun _ _ => rfl
  exact htail.marked (· = '0') rfl hexSize_cons

/-- A point with the digits after it, if there are any. -/
def pointSize : Text → Nat
  | [] => 0
  | c :: rest => if c = '.' then 1 + digitsSize digit rest else 0

theorem mantissaSize_eq (cs : Text) :
    mantissaSize digit cs =
      if digitsSize digit cs = 0 then fractionSize digit cs
      else digitsSize digit cs + pointSize digit (cs.drop (digitsSize digit cs)) := by
  unfold mantissaSize pointSize
  grind

theorem measures_mantissaSize : Measures (mantissaSize digit) := by
  have hpoint : Measures (pointSize digit) :=
    (measures_digitsSize digit).opened (· = '.') rfl fun _ _ => rfl
  have hwhole := (measures_digitsSize digit).follow hpoint
  refine (hwhole.orElse (measures_fractionSize digit)).congr fun cs => ?_
  rw [mantissaSize_eq]
  grind

theorem measures_wideSize : Measures (wideSize digit) := by
  have hdecimal : Measures (wideDecimalSize digit) :=
    (measures_mantissaSize digit).follow (measures_exponentSize digit)
  refine (measures_signSize.lead (measures_hexSize.orElse hdecimal) signSize_le_one).congr
    fun cs => ?_
  unfold wideSize
  grind

end Numeral

/-! ## Recognisers -/

namespace Lexeme

variable {d : Dialect} {c : Char}

/-- What holds of the outcomes at the front of all texts with one first character: a token
stays inside its text, and it is found again where the text is cut off behind it. -/
structure Settles (s : Text → Lexeme) : Prop where
  size_le : ∀ {rest kind size}, s rest = .found kind size → size ≤ rest.length + 1
  of_append : ∀ {rest tail kind size}, s (rest ++ tail) = .found kind size →
    size ≤ rest.length + 1 → s rest = .found kind size

/-- The same of a recogniser. If it does not answer, neither does it on the shorter text. -/
structure Recognises (r : Text → Option Lexeme) : Prop where
  size_le : ∀ {rest kind size}, r rest = some (.found kind size) → size ≤ rest.length + 1
  of_append : ∀ {rest tail kind size}, r (rest ++ tail) = some (.found kind size) →
    size ≤ rest.length + 1 → r rest = some (.found kind size)
  eq_none : ∀ {rest tail}, r (rest ++ tail) = none → r rest = none

/-- One recogniser before all the others. -/
theorem Recognises.getD {r : Text → Option Lexeme} {s : Text → Lexeme} (hr : Recognises r)
    (hs : Settles s) : Settles fun rest => (r rest).getD (s rest) where
  size_le h := by
    rcases getD_eq_iff.mp h with h | ⟨-, h⟩
    · exact hr.size_le h
    · exact hs.size_le h
  of_append h hsize := by
    rcases getD_eq_iff.mp h with h | ⟨hnone, h⟩
    · exact getD_eq_iff.mpr (.inl (hr.of_append h hsize))
    · exact getD_eq_iff.mpr (.inr ⟨hr.eq_none hnone, hs.of_append h hsize⟩)

theorem two_le_of_blockTail? {cs : Text} {n : Nat} (h : blockTail? cs = some n) : 2 ≤ n := by
  fun_induction blockTail? cs generalizing n with
  | case1 => cases h
  | case2 => cases h; omega
  | case3 c rest hopen ih =>
      obtain ⟨m, hm, rfl⟩ := Option.map_eq_some_iff.mp h
      have := ih hm
      omega

theorem le_length_of_blockTail? {cs : Text} {n : Nat} (h : blockTail? cs = some n) :
    n ≤ cs.length := by
  fun_induction blockTail? cs generalizing n with
  | case1 => cases h
  | case2 c rest hclose =>
      cases rest with
      | nil => cases hclose.2
      | cons => cases h; simp
  | case3 c rest hopen ih =>
      obtain ⟨m, hm, rfl⟩ := Option.map_eq_some_iff.mp h
      have := ih hm
      rw [List.length_cons]
      omega

theorem blockTail?_cons (c : Char) (rest : Text) :
    blockTail? (c :: rest) =
      if c = '*' ∧ rest.head? = some '/' then some 2 else (blockTail? rest).map (· + 1) := rfl

theorem blockTail?_of_append {cs tail : Text} {n : Nat} (h : blockTail? (cs ++ tail) = some n)
    (hn : n ≤ cs.length) : blockTail? cs = some n := by
  have htwo := two_le_of_blockTail? h
  induction cs generalizing n with
  | nil =>
      rw [List.length_nil] at hn
      omega
  | cons c cs ih =>
      have hhead : (cs ++ tail).head? = cs.head? := by
        cases cs with
        | nil =>
            rw [List.length_singleton] at hn
            omega
        | cons e cs => rfl
      rw [List.cons_append, blockTail?_cons, hhead] at h
      rw [blockTail?_cons]
      split at h
      · rename_i hclose
        rw [if_pos hclose, h]
      · rename_i hopen
        obtain ⟨m, hm, rfl⟩ := Option.map_eq_some_iff.mp h
        rw [if_neg hopen, ih hm (by simpa using hn) (two_le_of_blockTail? hm)]
        rfl

/-- The comments: a line comment up to the end of its line, a block comment up to its first
closing. -/
theorem comment?_eq_found_iff {rest : Text} {kind : Token.Kind} {size : Nat} :
    comment? d c rest = some (.found kind size) ↔
      d.allowsComments = true ∧ c = '/' ∧ ∃ after,
        (rest = '/' :: after ∧ kind = .lineComment ∧
            size = 2 + (after.takeWhile fun x => !isLineEnd x).length ∨
          rest = '*' :: after ∧ kind = .blockComment ∧
            ∃ n, blockTail? after = some n ∧ size = 2 + n) := by
  cases rest with
  | nil => simp [comment?]
  | cons e after =>
      simp only [comment?]
      grind

theorem recognises_comment? : Recognises (comment? d c) where
  size_le {rest kind size} h := by
    obtain ⟨-, -, after, ⟨rfl, -, rfl⟩ | ⟨rfl, -, n, hn, rfl⟩⟩ := comment?_eq_found_iff.mp h
    · have := (measures_takeWhile fun x => !isLineEnd x).le_length after
      rw [List.length_cons]
      omega
    · have := le_length_of_blockTail? hn
      rw [List.length_cons]
      omega
  of_append {rest tail kind size} h hsize := by
    obtain ⟨hallowed, hc, after, hcases⟩ := comment?_eq_found_iff.mp h
    cases rest with
    | nil =>
        -- a comment opens with two characters, so it is not cut off behind the first one
        rw [List.length_nil] at hsize
        omega
    | cons e rest =>
        simp only [List.cons_append, List.cons.injEq] at hcases
        rw [List.length_cons] at hsize
        refine comment?_eq_found_iff.mpr ⟨hallowed, hc, rest, ?_⟩
        rcases hcases with ⟨⟨rfl, rfl⟩, rfl, rfl⟩ | ⟨⟨rfl, rfl⟩, rfl, n, hn, rfl⟩
        · refine .inl ⟨rfl, rfl, ?_⟩
          rw [(measures_takeWhile fun x => !isLineEnd x).of_append rest tail (by omega)]
        · exact .inr ⟨rfl, rfl, n, blockTail?_of_append hn (by omega), rfl⟩
  eq_none {rest tail} h := by
    cases rest with
    | nil => rfl
    | cons e after =>
        simp only [comment?, List.cons_append] at h ⊢
        grind

theorem recognises_mark? : Recognises fun _ => mark? c where
  size_le {rest kind size} h := by
    obtain ⟨k, -, hk⟩ := Option.map_eq_some_iff.mp h
    cases hk
    omega
  of_append h _ := h
  eq_none h := h

theorem string?_eq_found_iff {rest : Text} {kind : Token.Kind} {size : Nat} :
    string? d c rest = some (.found kind size) ↔
      d.isQuote c = true ∧ (quotedTail d c rest).closed = true ∧ kind = .string ∧
        size = 1 + (quotedTail d c rest).size := by
  unfold string?
  grind

theorem recognises_string? : Recognises (string? d c) where
  size_le {rest kind size} h := by
    obtain ⟨-, hclosed, -, rfl⟩ := string?_eq_found_iff.mp h
    have := size_le_of_quotedTail hclosed
    omega
  of_append {rest tail kind size} h hsize := by
    obtain ⟨hquote, hclosed, rfl, rfl⟩ := string?_eq_found_iff.mp h
    have htail := quotedTail_of_append hquote hclosed (by omega)
    refine string?_eq_found_iff.mpr ⟨hquote, ?_, rfl, ?_⟩ <;> rw [htail]
    exact hclosed
  eq_none {rest tail} h := by
    unfold string? at h ⊢
    grind

theorem signedKeyword?_eq_found_iff {rest : Text} {kind : Token.Kind} {size : Nat} :
    signedKeyword? d c rest = some (.found kind size) ↔
      (d = .json5 ∧ (c = '+' ∨ c = '-')) ∧
        (['N', 'a', 'N'] <+: rest ∧ kind = .nan ∧ size = 4 ∨
          ['I', 'n', 'f', 'i', 'n', 'i', 't', 'y'] <+: rest ∧ kind = .infinity ∧ size = 9) := by
  unfold signedKeyword?
  have hclash : ['N', 'a', 'N'] <+: rest → ¬ ['I', 'n', 'f', 'i', 'n', 'i', 't', 'y'] <+: rest := by
    rintro ⟨a, rfl⟩ ⟨b, hb⟩
    cases hb
  simp only [List.isPrefixOf_iff_prefix]
  grind

theorem recognises_signedKeyword? : Recognises (signedKeyword? d c) where
  size_le {rest kind size} h := by
    obtain ⟨-, ⟨hword, -, rfl⟩ | ⟨hword, -, rfl⟩⟩ := signedKeyword?_eq_found_iff.mp h <;>
      simpa using hword.length_le
  of_append {rest tail kind size} h hsize := by
    obtain ⟨hsign, ⟨hword, hfound⟩ | ⟨hword, hfound⟩⟩ := signedKeyword?_eq_found_iff.mp h
    · refine signedKeyword?_eq_found_iff.mpr ⟨hsign, .inl ⟨?_, hfound⟩⟩
      exact List.prefix_of_prefix_length_le hword (List.prefix_append rest tail) (by simp; omega)
    · refine signedKeyword?_eq_found_iff.mpr ⟨hsign, .inr ⟨?_, hfound⟩⟩
      exact List.prefix_of_prefix_length_le hword (List.prefix_append rest tail) (by simp; omega)
  eq_none {rest tail} h := by
    unfold signedKeyword? at h ⊢
    have hnan : ['N', 'a', 'N'] <+: rest → ['N', 'a', 'N'] <+: rest ++ tail :=
      fun hp => hp.trans (List.prefix_append rest tail)
    have hinf : ['I', 'n', 'f', 'i', 'n', 'i', 't', 'y'] <+: rest →
        ['I', 'n', 'f', 'i', 'n', 'i', 't', 'y'] <+: rest ++ tail :=
      fun hp => hp.trans (List.prefix_append rest tail)
    simp only [List.isPrefixOf_iff_prefix] at h ⊢
    grind

theorem recognises_number? : Recognises fun rest => number? d (c :: rest) := by
  have hsize : Measures fun cs =>
      if d = .json5 then Numeral.wideSize isDecimal cs else Numeral.strictSize isDecimal cs := by
    by_cases hd : d = .json5
    · simpa only [if_pos hd] using Numeral.measures_wideSize isDecimal
    · simpa only [if_neg hd] using Numeral.measures_strictSize isDecimal
  constructor
  · intro rest kind size h
    have := hsize.le_length (c :: rest)
    simp only [number?, ofSize?, List.length_cons] at h this
    grind
  · intro rest tail kind size h hle
    have := hsize.of_append (c :: rest) tail
    simp only [number?, ofSize?, List.length_cons, List.cons_append] at h this ⊢
    grind
  · intro rest tail h
    have := hsize.of_append (c :: rest) tail
    simp only [number?, ofSize?, List.length_cons, List.cons_append] at h this ⊢
    grind

theorem word?_eq_found_iff {rest : Text} {kind : Token.Kind} {size : Nat} :
    word? d c rest = some (.found kind size) ↔
      isWordStart c = true ∧ wordKind? d (c :: rest.takeWhile isWordPart) = some kind ∧
        size = 1 + (rest.takeWhile isWordPart).length := by
  unfold word?
  grind

theorem takeWhile_of_append {p : Char → Bool} {cs tail : Text}
    (h : ((cs ++ tail).takeWhile p).length ≤ cs.length) :
    cs.takeWhile p = (cs ++ tail).takeWhile p := by
  have hlength := (measures_takeWhile p).of_append cs tail h
  refine (List.prefix_of_prefix_length_le ?_ (List.takeWhile_prefix p) (by omega)).eq_of_length
    hlength
  exact (List.takeWhile_prefix p).trans (List.prefix_append cs tail)

theorem recognises_word? : Recognises (word? d c) where
  size_le {rest kind size} h := by
    obtain ⟨-, -, rfl⟩ := word?_eq_found_iff.mp h
    have := (measures_takeWhile isWordPart).le_length rest
    omega
  of_append {rest tail kind size} h hsize := by
    obtain ⟨hstart, hkind, rfl⟩ := word?_eq_found_iff.mp h
    have hword : rest.takeWhile isWordPart = (rest ++ tail).takeWhile isWordPart :=
      takeWhile_of_append (by omega)
    exact word?_eq_found_iff.mpr ⟨hstart, by rw [hword, hkind], by rw [hword]⟩
  eq_none {rest tail} h := by
    unfold word? at h ⊢
    grind

/-- The recognisers are asked one after the other, so what holds of each holds of the scan. -/
theorem settles_scan : Settles (scan d c) := by
  refine recognises_comment?.getD ?_
  refine recognises_mark?.getD ?_
  refine recognises_string?.getD ?_
  refine recognises_signedKeyword?.getD ?_
  refine recognises_number?.getD ?_
  refine recognises_word?.getD ?_
  constructor <;> intros <;> contradiction

theorem comment?_of_ne (h : c ≠ '/') (rest : Text) : comment? d c rest = none := by
  unfold comment?
  split
  · rfl
  · exact if_neg fun hopen => h hopen.1

/-- A character that opens no comment and no string and is no mark starts a number or a word. -/
theorem scan_of_plain (hslash : c ≠ '/') (hmark : markKind? c = none)
    (hquote : d.isQuote c = false) (rest : Text) :
    scan d c rest = ((signedKeyword? d c rest).getD <| (number? d (c :: rest)).getD <|
      (word? d c rest).getD <| .failed (.strayCharacter c) 0) := by
  have hstring : string? d c rest = none := by simp [string?, hquote]
  rw [scan, comment?_of_ne hslash, mark?, hmark, hstring]
  rfl

end Lexeme

end LocatedJson
