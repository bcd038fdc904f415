import LocatedJson.Proofs.NumericEscapes
import LocatedJson.Proofs.Tiling

/-!
# The scan and the decoding of a string stay in step

The scan for the end of a string goes through it in units: a backslash with a
character, a backslash with both characters of a line end, or a single other
character. The decoding goes by pieces, which are longer: an escape by number
takes its digits along, and a surrogate pair is one piece. It works with an
offset into the body, and nothing keeps that offset from running past the end
except that a piece is always made of whole units (`crosses_of_piece`).

That rests on numbers. The characters that an escape takes for digits need not
be digits, for they are read as an integer with all its freedom; but a
backslash is never among them, so each of them is a unit by itself. And the look
ahead for the second half of a pair needs no check that four characters are
left, because fewer never make a number that large.
-/

namespace LocatedJson

open LocatedJson.Text

namespace Lexeme

/-! ## Units -/

/-- The units that the scan for the end of a string passes. The recursion is that of the scan. -/
def quotedUnits (d : Dialect) (quote : Char) : Text → List Text
  | [] => []
  | c :: rest =>
    if c = quote then []
    else if c = '\\' then
      match rest with
      | [] => []
      | e :: after =>
        if isHardLineEnd e && d != .json5 then []
        else
          match after with
          | [] => [['\\', e]]
          | f :: beyond =>
            if e = '\r' ∧ f = '\n' then ['\\', e, f] :: quotedUnits d quote beyond
            else ['\\', e] :: quotedUnits d quote (f :: beyond)
    else if isHardLineEnd c then []
    else [c] :: quotedUnits d quote rest

/-- The three forms of units. -/
inductive IsUnit : Text → Prop
  | single {c : Char} (hc : c ≠ '\\') : IsUnit [c]
  | escape (e : Char) : IsUnit ['\\', e]
  | pair : IsUnit ['\\', '\r', '\n']

/-- An offset in front of, between or behind units. -/
def IsBoundary (units : List Text) (i : Nat) : Prop :=
  ∃ passed left, units = passed ++ left ∧ passed.flatten.length = i

variable {d : Dialect} {quote c e : Char} {body cs rest : Text}

theorem isUnit_of_mem_quotedUnits : ∀ unit ∈ quotedUnits d quote cs, IsUnit unit := by
  fun_induction quotedUnits d quote cs with
  | case1 | case2 | case3 | case4 | case8 => simp
  | case5 e hstop hquote => exact List.forall_mem_singleton.mpr (.escape e)
  | case6 e hstop f beyond hpair hquote ih =>
      obtain ⟨rfl, rfl⟩ := hpair
      exact List.forall_mem_cons.mpr ⟨.pair, ih⟩
  | case7 e hstop f beyond hpair hquote ih => exact List.forall_mem_cons.mpr ⟨.escape e, ih⟩
  | case9 c rest hquote hescape hline ih => exact List.forall_mem_cons.mpr ⟨.single hescape, ih⟩

/-- A unit is one step of the scan. -/
theorem quotedTail_of_unit {unit : Text} {left : List Text}
    (h : quotedUnits d quote cs = unit :: left) :
    quotedTail d quote cs = (quotedTail d quote (cs.drop unit.length)).grow unit.length ∧
      quotedUnits d quote (cs.drop unit.length) = left := by
  revert h
  fun_cases quotedUnits d quote cs with
  | case1 | case2 | case3 | case4 | case8 => exact nofun
  | case5 e hstop hquote =>
      rintro ⟨⟩
      refine ⟨?_, rfl⟩
      rw [quotedTail.eq_def]
      simp [hquote, hstop, quotedTail, QuotedTail.grow]
  | case6 e hstop f beyond hpair hquote =>
      obtain ⟨rfl, rfl⟩ := hpair
      rintro ⟨⟩
      refine ⟨?_, rfl⟩
      rw [quotedTail.eq_def]
      simp only [if_neg hquote, if_neg hstop, and_self, if_true]
      rfl
  | case7 e hstop f beyond hpair hquote =>
      rintro ⟨⟩
      refine ⟨?_, rfl⟩
      rw [quotedTail.eq_def]
      simp [hquote, hstop, hpair]
  | case9 c rest hquote hescape hline =>
      rintro ⟨⟩
      refine ⟨?_, rfl⟩
      rw [quotedTail.eq_def]
      simp [hquote, hescape, hline]

/-- From a boundary the scan goes on as if it had started there. -/
theorem IsBoundary.quotedTail_eq {i : Nat} (h : IsBoundary (quotedUnits d quote cs) i) :
    quotedTail d quote cs = (quotedTail d quote (cs.drop i)).grow i := by
  obtain ⟨passed, left, hunits, rfl⟩ := h
  induction passed generalizing cs with
  | nil => simp [QuotedTail.grow]
  | cons unit passed ih =>
      obtain ⟨hstep, hrest⟩ := quotedTail_of_unit hunits
      rw [hstep, ih hrest, List.flatten_cons, List.length_append, ← List.drop_drop]
      simp only [QuotedTail.grow, Nat.add_assoc]

theorem quotedUnits_quote (rest : Text) : quotedUnits d quote (quote :: rest) = [] := by
  rw [quotedUnits.eq_def]
  exact if_pos rfl

theorem quotedUnits_plain (hquote : c ≠ quote) (hescape : c ≠ '\\')
    (hline : isHardLineEnd c = false) :
    quotedUnits d quote (c :: rest) = [c] :: quotedUnits d quote rest := by
  rw [quotedUnits.eq_def]
  simp [hquote, hescape, hline]

theorem quotedUnits_escape (hquote : quote ≠ '\\') (hline : isHardLineEnd e = true → d = .json5)
    (hpair : e = '\r' → rest.head? ≠ some '\n') :
    quotedUnits d quote ('\\' :: e :: rest) = ['\\', e] :: quotedUnits d quote rest := by
  have hstop : (isHardLineEnd e && d != .json5) = false := by
    cases he : isHardLineEnd e <;> simp_all
  rw [quotedUnits.eq_def]
  simp only [if_neg hquote.symm, hstop]
  cases rest with
  | nil => simp [quotedUnits]
  | cons f beyond =>
      have hnot : ¬ (e = '\r' ∧ f = '\n') := fun h => hpair h.1 (by simp [h.2])
      simp [hnot]

theorem quotedUnits_pair (hquote : quote ≠ '\\') (hjson5 : d = .json5) :
    quotedUnits d quote ('\\' :: '\r' :: '\n' :: rest) =
      ['\\', '\r', '\n'] :: quotedUnits d quote rest := by
  rw [quotedUnits.eq_def]
  simp [hjson5, hquote.symm]

/-! ## Whole units at the front of a body -/

/-- From a body the scan comes to a rest that is a body too, over whole units, whatever stands
behind the closing quote. -/
structure Crosses (d : Dialect) (quote : Char) (body rest : Text) : Prop where
  quoted : QuotedBody d quote rest
  exists_passed : ∃ passed : List Text, body = passed.flatten ++ rest ∧
    ∀ after, quotedUnits d quote (body ++ quote :: after) =
      passed ++ quotedUnits d quote (rest ++ quote :: after)

theorem Crosses.refl (h : QuotedBody d quote body) : Crosses d quote body body :=
  ⟨h, [], rfl, fun _ => rfl⟩

theorem Crosses.trans (h : Crosses d quote body cs) (h' : Crosses d quote cs rest) :
    Crosses d quote body rest := by
  obtain ⟨-, passed, hbody, hunits⟩ := h
  obtain ⟨hrest, later, hcs, hunits'⟩ := h'
  refine ⟨hrest, passed ++ later, ?_, fun after => ?_⟩
  · rw [hbody, hcs, List.flatten_append, List.append_assoc]
  · rw [hunits, hunits', List.append_assoc]

/-- The units in front of a rest are as long as what stands in front of it. -/
theorem Crosses.isBoundary {i : Nat} (h : Crosses d quote body (body.drop i))
    (hi : i ≤ body.length) (after : Text) :
    IsBoundary (quotedUnits d quote (body ++ quote :: after)) i := by
  obtain ⟨-, passed, hbody, hunits⟩ := h
  refine ⟨passed, _, hunits after, ?_⟩
  have hlength := congrArg List.length hbody
  rw [List.length_append, List.length_drop] at hlength
  omega

theorem crosses_plain (h : QuotedBody d quote (c :: rest)) (hc : c ≠ '\\') :
    Crosses d quote (c :: rest) rest := by
  cases h with
  | plain hquote hescape hline hrest =>
      exact ⟨hrest, [[c]], rfl, fun after => quotedUnits_plain hquote hescape hline⟩
  | escape | pair => exact absurd rfl hc

variable (hquote : d.isQuote quote = true)
include hquote

theorem crosses_escape (h : QuotedBody d quote ('\\' :: e :: rest))
    (hpair : ¬ (e = '\r' ∧ rest.head? = some '\n')) :
    Crosses d quote ('\\' :: e :: rest) rest := by
  cases h with
  | plain hclosed hescape => exact absurd rfl hescape
  | pair hjson5 hrest => exact absurd ⟨rfl, rfl⟩ hpair
  | escape hline hpair hrest =>
      refine ⟨hrest, [['\\', e]], rfl, fun after => ?_⟩
      refine quotedUnits_escape (isQuote_ne_escape hquote) hline fun he hhead => ?_
      -- behind the body comes the quote, which is no line feed
      cases rest with
      | nil =>
          obtain rfl : quote = '\n' := Option.some.inj hhead
          cases isHardLineEnd_eq_false_of_isQuote hquote
      | cons f beyond => exact hpair he hhead

theorem crosses_pair (h : QuotedBody d quote ('\\' :: '\r' :: '\n' :: rest)) :
    Crosses d quote ('\\' :: '\r' :: '\n' :: rest) rest := by
  cases h with
  | plain hclosed hescape => exact absurd rfl hescape
  | escape hline hpair hrest => exact absurd rfl (hpair rfl)
  | pair hjson5 hrest =>
      refine ⟨hrest, [['\\', '\r', '\n']], rfl, fun after => ?_⟩
      exact quotedUnits_pair (isQuote_ne_escape hquote) hjson5

omit hquote in
/-- Characters without a backslash among them are units of their own. -/
theorem crosses_append (h : QuotedBody d quote (cs ++ rest)) (hcs : '\\' ∉ cs) :
    Crosses d quote (cs ++ rest) rest := by
  induction cs with
  | nil => exact .refl h
  | cons c cs ih =>
      obtain ⟨hc, hcs⟩ := not_or.mp (mt List.mem_cons.mpr hcs)
      have hfirst := crosses_plain h (Ne.symm hc)
      exact hfirst.trans (ih hfirst.quoted hcs)

/-- A body is whole units. -/
theorem crosses_nil (h : QuotedBody d quote body) : Crosses d quote body [] := by
  induction h with
  | nil => exact .refl .nil
  | plain hclosed hescape hline hrest ih =>
      exact (crosses_plain (.plain hclosed hescape hline hrest) hescape).trans ih
  | escape hline hpair hrest ih =>
      exact (crosses_escape hquote (.escape hline hpair hrest) fun h => hpair h.1 h.2).trans ih
  | pair hjson5 hrest ih => exact (crosses_pair hquote (.pair hjson5 hrest)).trans ih

theorem flatten_quotedUnits (h : QuotedBody d quote body) (after : Text) :
    (quotedUnits d quote (body ++ quote :: after)).flatten = body := by
  obtain ⟨-, passed, hbody, hunits⟩ := crosses_nil hquote h
  have hall := hunits after
  rw [List.nil_append, quotedUnits_quote, List.append_nil] at hall
  rw [hall, hbody, List.append_nil]

end Lexeme

/-! ## Pieces -/

namespace StringBody

open LocatedJson.Lexeme LocatedJson.Numeral

variable {d : Dialect} {quote c e : Char} {body rest after : Text} {p : Piece} {count i k : Nat}

/-- The number of a surrogate's second half takes four characters. -/
theorem length_of_isLowSurrogate {digits : Text} {n : Int} (h : hexNumber? digits = some n)
    (hlow : CodePoint.isLowSurrogate n.toNat = true) : 4 ≤ digits.length := by
  simp only [CodePoint.isLowSurrogate, Bool.and_eq_true, decide_eq_true_eq] at hlow
  by_cases hshort : digits.length ≤ 3
  · have hlt := natAbs_lt_of_hexNumber? h hshort
    omega
  · omega

/-- A piece that is no escape is a single character. -/
theorem size_of_piece (hc : c ≠ '\\') (hpiece : piece d c rest = .ok p) : p.size = 1 := by
  unfold piece at hpiece
  split at hpiece
  · rw [if_neg hc] at hpiece
    cases hpiece
    rfl
  · cases hpiece
    rfl

theorem size_of_hexPiece {digits : Text} (hpiece : hexPiece digits = .ok p) :
    p.size = 4 ∧ ∃ n, hexNumber? digits = some n := by
  obtain ⟨point, hpoint⟩ := hexPiece_isOk_iff.mp ⟨p, hpiece⟩
  obtain ⟨n, hnumber, -⟩ := Option.bind_eq_some_iff.mp hpoint
  rw [hexPiece, hpoint] at hpiece
  cases hpiece
  exact ⟨rfl, n, hnumber⟩

theorem json5Piece_cases (hpiece : json5Piece e after = .ok p) :
    p.size = 2 ∧ ¬ (e = '\r' ∧ after.head? = some '\n') ∨
      e = 'x' ∧ 2 ≤ after.length ∧ hexPiece (after.take 2) = .ok p ∨
      p.size = 3 ∧ e = '\r' ∧ ∃ beyond, after = '\n' :: beyond := by
  unfold json5Piece at hpiece
  split at hpiece
  · rename_i hhex
    exact .inr (.inl ⟨hhex.1, hhex.2, hpiece⟩)
  · split at hpiece
    · rename_i hpair
      obtain ⟨hreturn, hhead⟩ := hpair
      cases hpiece
      exact .inr (.inr ⟨rfl, hreturn, List.head?_eq_some_iff.mp hhead⟩)
    · rename_i hpair
      split at hpiece
      · cases hpiece
        exact .inl ⟨rfl, hpair⟩
      · cases hpiece
        exact .inl ⟨rfl, hpair⟩

/-- What an escape takes: one character, digits, or both characters of a line end. -/
theorem escapePiece_cases (hpiece : escapePiece d e after = .ok p) :
    p.size = 2 ∧ ¬ (e = '\r' ∧ after.head? = some '\n') ∨
      e = 'u' ∧ 4 ≤ after.length ∧ unicodePiece (after.take 4) (after.drop 4) = .ok p ∨
      e = 'x' ∧ 2 ≤ after.length ∧ hexPiece (after.take 2) = .ok p ∨
      p.size = 3 ∧ e = '\r' ∧ ∃ beyond, after = '\n' :: beyond := by
  unfold escapePiece at hpiece
  split at hpiece
  · rename_i point hshort
    have hreturn : e ≠ '\r' := by
      rintro rfl
      cases hshort
    split at hpiece
    · cases hpiece
    · cases hpiece
      exact .inl ⟨rfl, fun hpair => hreturn hpair.1⟩
  · split at hpiece
    · rename_i hunicode
      exact .inr (.inl ⟨hunicode.1, hunicode.2, hpiece⟩)
    · split at hpiece
      · rcases json5Piece_cases hpiece with hsingle | hdigits
        · exact .inl hsingle
        · exact .inr (.inr hdigits)
      · cases hpiece

section Pieces

variable (hquote : d.isQuote quote = true)
include hquote

/-- An escape with what is read as its number. -/
theorem crosses_number (h : QuotedBody d quote ('\\' :: e :: rest)) (he : e ≠ '\r') {n : Int}
    (hnumber : hexNumber? (rest.take count) = some n) :
    Crosses d quote ('\\' :: e :: rest) (rest.drop count) := by
  have hescape : Crosses d quote ('\\' :: e :: rest) rest :=
    crosses_escape hquote h fun hpair => he hpair.1
  refine hescape.trans ?_
  have hdigits := escape_notMem_of_hexNumber? hnumber
  have hrest : QuotedBody d quote (rest.take count ++ rest.drop count) := by
    rw [List.take_append_drop]
    exact hescape.quoted
  simpa only [List.take_append_drop] using crosses_append hrest hdigits

theorem crosses_lowSurrogate {low : Nat} (h : QuotedBody d quote after)
    (hlow : lowSurrogate? after = some low) :
    6 ≤ after.length ∧ Crosses d quote after (after.drop 6) := by
  unfold lowSurrogate? at hlow
  split at hlow
  · rename_i a b c e beyond
    split at hlow
    · rename_i n hnumber
      have hdigits : hexNumber? ((a :: b :: c :: e :: beyond).take 4) = some n := hnumber
      exact ⟨by simp, crosses_number hquote h (by decide) hdigits⟩
    · cases hlow
  · cases hlow

theorem crosses_unicodePiece (h : QuotedBody d quote ('\\' :: 'u' :: rest))
    (hlength : 4 ≤ rest.length)
    (hpiece : unicodePiece (rest.take 4) (rest.drop 4) = .ok p) :
    0 < p.size ∧ p.size ≤ rest.length + 2 ∧
      Crosses d quote ('\\' :: 'u' :: rest) (('\\' :: 'u' :: rest).drop p.size) := by
  obtain ⟨point, hpoint⟩ := unicodePiece_isOk_iff.mp ⟨p, hpiece⟩
  obtain ⟨n, hnumber, -⟩ := Option.bind_eq_some_iff.mp hpoint
  have hfirst : Crosses d quote ('\\' :: 'u' :: rest) (rest.drop 4) :=
    crosses_number hquote h (by decide) hnumber
  rcases size_of_unicodePiece hpiece with hsize | ⟨hsize, low, hlow⟩
  · rw [hsize]
    exact ⟨by omega, by omega, hfirst⟩
  · obtain ⟨hmore, hsecond⟩ := crosses_lowSurrogate hquote hfirst.quoted hlow
    rw [List.length_drop] at hmore
    rw [List.drop_drop] at hsecond
    rw [hsize]
    exact ⟨by omega, by omega, hfirst.trans hsecond⟩

theorem crosses_escapePiece (h : QuotedBody d quote ('\\' :: e :: after))
    (hpiece : escapePiece d e after = .ok p) :
    0 < p.size ∧ p.size ≤ after.length + 2 ∧
      Crosses d quote ('\\' :: e :: after) (('\\' :: e :: after).drop p.size) := by
  rcases escapePiece_cases hpiece with ⟨hsize, hpair⟩ | ⟨rfl, hlength, hunicode⟩ |
    ⟨rfl, hlength, hhex⟩ | ⟨hsize, rfl, beyond, rfl⟩
  · rw [hsize]
    exact ⟨by omega, by omega, crosses_escape hquote h hpair⟩
  · exact crosses_unicodePiece hquote h hlength hunicode
  · obtain ⟨hsize, n, hnumber⟩ := size_of_hexPiece hhex
    rw [hsize]
    exact ⟨by omega, by omega, crosses_number hquote h (by decide) hnumber⟩
  · rw [hsize]
    exact ⟨by omega, by simp, crosses_pair hquote h⟩

/-- A piece is whole units. -/
theorem crosses_of_piece (h : QuotedBody d quote (c :: rest)) (hpiece : piece d c rest = .ok p) :
    0 < p.size ∧ p.size ≤ rest.length + 1 ∧
      Crosses d quote (c :: rest) ((c :: rest).drop p.size) := by
  by_cases hc : c = '\\'
  · subst hc
    cases rest with
    | nil => cases h with
      | plain hclosed hescape => exact absurd rfl hescape
    | cons e after =>
        change escapePiece d e after = .ok p at hpiece
        exact crosses_escapePiece hquote h hpiece
  · rw [size_of_piece hc hpiece]
    exact ⟨by omega, by omega, crosses_plain h hc⟩

end Pieces

/-! ## The offsets of the decoding -/

/-- The decoding of a body comes to an offset, each piece moving it by its size. Nothing here keeps
the offset inside the body. -/
inductive Visits (d : Dialect) (body : Text) : Nat → Prop
  | start : Visits d body 0
  | next {i : Nat} {c : Char} {p : Piece} (hi : Visits d body i) (hc : body[i]? = some c)
      (hpiece : piece d c (body.drop (i + 1)) = .ok p) : Visits d body (i + p.size)

/-- An escape that the decoding takes, from the offset of its backslash up to another offset. -/
def EscapeAt (d : Dialect) (body : Text) (i stop : Nat) : Prop :=
  Visits d body i ∧ body[i]? = some '\\' ∧
    ∃ e p, body[i + 1]? = some e ∧ escapePiece d e (body.drop (i + 2)) = .ok p ∧ stop = i + p.size

theorem drop_eq_cons (hc : body[i]? = some c) : body.drop i = c :: body.drop (i + 1) := by
  obtain ⟨hi, rfl⟩ := List.getElem?_eq_some_iff.mp hc
  exact List.drop_eq_getElem_cons hi

/-- Up to a visited offset every place is in a piece. -/
theorem Visits.exists_piece {n : Nat} (h : Visits d body n) (hk : k < n) :
    ∃ i c p, Visits d body i ∧ body[i]? = some c ∧ piece d c (body.drop (i + 1)) = .ok p ∧
      i ≤ k ∧ k < i + p.size := by
  induction h with
  | start => omega
  | @next i c p hi hc hpiece ih =>
      by_cases hlt : k < i
      · exact ih hlt
      · exact ⟨i, c, p, hi, hc, hpiece, by omega, hk⟩

/-- The decoding of what is left goes on behind the next piece. -/
theorem decode_drop_of_piece (hc : body[i]? = some c)
    (hpiece : piece d c (body.drop (i + 1)) = .ok p) (hsize : 0 < p.size) :
    decode d (body.drop i) = (decode d (body.drop (i + p.size))).map (p.points ++ ·) := by
  have hnext : (body.drop (i + 1)).drop (p.size - 1) = body.drop (i + p.size) := by
    rw [List.drop_drop]
    congr 1
    omega
  rw [drop_eq_cons hc, decode, hpiece]
  simp only [hnext]
  cases decode d (body.drop (i + p.size)) <;> rfl

section Body

variable (hquote : d.isQuote quote = true) (hbody : QuotedBody d quote body)
include hquote hbody

/-- A visited offset is inside the body, behind whole units. -/
theorem Visits.crosses (h : Visits d body i) :
    i ≤ body.length ∧ Crosses d quote body (body.drop i) := by
  induction h with
  | start => exact ⟨Nat.zero_le _, .refl hbody⟩
  | @next i c p hi hc hpiece ih =>
      obtain ⟨-, hcrosses⟩ := ih
      have hplace := drop_eq_cons hc
      have hquoted : QuotedBody d quote (c :: body.drop (i + 1)) := hplace ▸ hcrosses.quoted
      obtain ⟨-, hsize, hover⟩ := crosses_of_piece hquote hquoted hpiece
      obtain ⟨hlt, -⟩ := List.getElem?_eq_some_iff.mp hc
      rw [List.length_drop] at hsize
      rw [← hplace, List.drop_drop] at hover
      exact ⟨by omega, hcrosses.trans hover⟩

theorem Visits.size_pos (h : Visits d body i) (hc : body[i]? = some c)
    (hpiece : piece d c (body.drop (i + 1)) = .ok p) : 0 < p.size := by
  have hquoted := (h.crosses hquote hbody).2.quoted
  rw [drop_eq_cons hc] at hquoted
  exact (crosses_of_piece hquote hquoted hpiece).1

/-- A backslash at a visited offset is not the last character. -/
theorem Visits.exists_escape (h : Visits d body i) (hc : body[i]? = some '\\') :
    ∃ e, body[i + 1]? = some e ∧
      piece d '\\' (body.drop (i + 1)) = escapePiece d e (body.drop (i + 2)) := by
  have hquoted := (h.crosses hquote hbody).2.quoted
  rw [drop_eq_cons hc] at hquoted
  cases he : body[i + 1]? with
  | none =>
      rw [List.drop_eq_nil_of_le (List.getElem?_eq_none_iff.mp he)] at hquoted
      cases hquoted with
      | plain hclosed hescape => exact absurd rfl hescape
  | some e =>
      refine ⟨e, rfl, ?_⟩
      rw [drop_eq_cons he]
      rfl

/-- The decoding of a body is that of what is left at a visited offset, with the points so far. -/
theorem Visits.decode_eq (h : Visits d body i) :
    ∃ points, decode d body = (decode d (body.drop i)).map (points ++ ·) := by
  induction h with
  | start =>
      refine ⟨[], ?_⟩
      rw [List.drop_zero]
      cases decode d body <;> rfl
  | @next i c p hi hc hpiece ih =>
      obtain ⟨points, hpoints⟩ := ih
      refine ⟨points ++ p.points, ?_⟩
      rw [hpoints, decode_drop_of_piece hc hpiece (hi.size_pos hquote hbody hc hpiece)]
      cases decode d (body.drop (i + p.size)) <;> simp [Except.map]

/-- From a visited offset the decoding comes to the end or to a piece that fails. -/
theorem Visits.ends (h : Visits d body i) :
    Visits d body body.length ∨
      ∃ j c fault, Visits d body j ∧ body[j]? = some c ∧
        piece d c (body.drop (j + 1)) = .error fault := by
  -- each piece leaves less of the body
  induction hleft : body.length - i using Nat.strong_induction_on generalizing i with | _ left ih
  cases hc : body[i]? with
  | none =>
      have hi := (h.crosses hquote hbody).1
      have hend := List.getElem?_eq_none_iff.mp hc
      obtain rfl : i = body.length := by omega
      exact .inl h
  | some c =>
      cases hpiece : piece d c (body.drop (i + 1)) with
      | error fault => exact .inr ⟨i, c, fault, h, hc, hpiece⟩
      | ok p =>
          have hpos := h.size_pos hquote hbody hc hpiece
          have hlt := (List.getElem?_eq_some_iff.mp hc).1
          exact ih _ (by omega) (h.next hc hpiece) rfl

theorem decode_of_visits_length (h : Visits d body body.length) :
    ∃ points, decode d body = .ok points := by
  obtain ⟨points, hpoints⟩ := h.decode_eq hquote hbody
  rw [List.drop_length, decode] at hpoints
  exact ⟨_, hpoints⟩

theorem decode_of_piece_error {fault : EscapeFault} (h : Visits d body i) (hc : body[i]? = some c)
    (hpiece : piece d c (body.drop (i + 1)) = .error fault) : decode d body = .error fault := by
  obtain ⟨points, hpoints⟩ := h.decode_eq hquote hbody
  rw [drop_eq_cons hc, decode, hpiece] at hpoints
  exact hpoints

theorem decode_isOk_iff_visits :
    (∃ points, decode d body = .ok points) ↔ Visits d body body.length := by
  refine ⟨fun ⟨points, hpoints⟩ => ?_, decode_of_visits_length hquote hbody⟩
  rcases Visits.start.ends hquote hbody with hend | ⟨j, c, fault, hj, hc, hpiece⟩
  · exact hend
  · cases hpoints.symm.trans (decode_of_piece_error hquote hbody hj hc hpiece)

theorem decode_eq_error_iff_visits {fault : EscapeFault} :
    decode d body = .error fault ↔
      ∃ i c, Visits d body i ∧ body[i]? = some c ∧
        piece d c (body.drop (i + 1)) = .error fault := by
  constructor
  · intro h
    rcases Visits.start.ends hquote hbody with hend | ⟨i, c, fault', hi, hc, hpiece⟩
    · obtain ⟨points, hpoints⟩ := decode_of_visits_length hquote hbody hend
      cases h.symm.trans hpoints
    · obtain rfl : fault = fault' :=
        Except.error.inj (h.symm.trans (decode_of_piece_error hquote hbody hi hc hpiece))
      exact ⟨i, c, hi, hc, hpiece⟩
  · rintro ⟨i, c, hi, hc, hpiece⟩
    exact decode_of_piece_error hquote hbody hi hc hpiece

/-- Where all is decoded, a backslash is part of an escape. -/
theorem Visits.exists_escapeAt (h : Visits d body body.length) (hk : body[k]? = some '\\') :
    ∃ i stop, EscapeAt d body i stop ∧ i ≤ k ∧ k < stop := by
  have hlt := (List.getElem?_eq_some_iff.mp hk).1
  obtain ⟨i, c, p, hi, hc, hpiece, hle, hstop⟩ := h.exists_piece hlt
  by_cases hescape : c = '\\'
  · subst hescape
    obtain ⟨e, he, heq⟩ := hi.exists_escape hquote hbody hc
    exact ⟨i, i + p.size, ⟨hi, hc, e, p, he, heq ▸ hpiece, rfl⟩, hle, hstop⟩
  · -- a piece of one character is the backslash itself
    rw [size_of_piece hescape hpiece] at hstop
    obtain rfl : i = k := by omega
    exact absurd (Option.some.inj (hc.symm.trans hk)) hescape

/-- The decoding of a string's body goes along the units of the scan that found its end. -/
structure InStep (d : Dialect) (quote : Char) (body after : Text) : Prop where
  scanned : quotedTail d quote (body ++ quote :: after) = ⟨body.length + 1, true⟩
  flatten_units : (quotedUnits d quote (body ++ quote :: after)).flatten = body
  isUnit : ∀ unit ∈ quotedUnits d quote (body ++ quote :: after), IsUnit unit
  /-- The boundaries are places where the scan goes on. -/
  resumes : ∀ i, IsBoundary (quotedUnits d quote (body ++ quote :: after)) i →
    quotedTail d quote (body ++ quote :: after) =
      (quotedTail d quote ((body ++ quote :: after).drop i)).grow i
  /-- Wherever the decoding comes to, it is between two units and not past the end. -/
  isBoundary : ∀ i, Visits d body i →
    i ≤ body.length ∧ IsBoundary (quotedUnits d quote (body ++ quote :: after)) i
  /-- A backslash that the decoding comes to has a character behind it, and opens an escape. -/
  exists_escape : ∀ i, Visits d body i → body[i]? = some '\\' →
    ∃ e, body[i + 1]? = some e ∧
      piece d '\\' (body.drop (i + 1)) = escapePiece d e (body.drop (i + 2))
  /-- Up to four characters behind an escape's start are the second half of a surrogate pair only
  if they are four. -/
  lookahead : ∀ i n, hexNumber? ((body.drop (i + 2)).take 4) = some n →
    CodePoint.isLowSurrogate n.toNat = true → i + 6 ≤ body.length
  /-- The decoding fails where it comes to a piece that does. -/
  eq_error_iff : ∀ fault, decode d body = .error fault ↔
    ∃ i c, Visits d body i ∧ body[i]? = some c ∧ piece d c (body.drop (i + 1)) = .error fault
  isOk_iff : (∃ points, decode d body = .ok points) ↔ Visits d body body.length
  /-- In a string that is accepted every backslash is taken along by an escape. -/
  exists_escapeAt : ∀ points, decode d body = .ok points → ∀ k, body[k]? = some '\\' →
    ∃ i stop, EscapeAt d body i stop ∧ i ≤ k ∧ k < stop

theorem inStep (after : Text) : InStep d quote body after where
  scanned := quotedTail_of_body (isQuote_ne_escape hquote)
    (isHardLineEnd_eq_false_of_isQuote hquote) hbody after
  flatten_units := flatten_quotedUnits hquote hbody after
  isUnit := isUnit_of_mem_quotedUnits
  resumes i hi := hi.quotedTail_eq
  isBoundary i hi := by
    obtain ⟨hle, hcrosses⟩ := hi.crosses hquote hbody
    exact ⟨hle, hcrosses.isBoundary hle after⟩
  exists_escape i hi hc := hi.exists_escape hquote hbody hc
  lookahead i n hnumber hlow := by
    have hlength := length_of_isLowSurrogate hnumber hlow
    rw [List.length_take, List.length_drop] at hlength
    omega
  eq_error_iff fault := decode_eq_error_iff_visits hquote hbody
  isOk_iff := decode_isOk_iff_visits hquote hbody
  exists_escapeAt points hpoints k hk := by
    have hend := (decode_isOk_iff_visits hquote hbody).mp ⟨points, hpoints⟩
    exact hend.exists_escapeAt hquote hbody hk

end Body

end StringBody

/-! ## String tokens -/

variable {d : Dialect} {text : Text}

/-- One of the recognisers finds strings. -/
theorem Lexeme.string?_of_scan {c : Char} {rest : Text} {size : Nat}
    (h : scan d c rest = .found .string size) :
    string? d c rest = some (.found .string size) := by
  simp only [scan, getD_eq_iff] at h
  rcases h with h | ⟨-, h | ⟨-, h | ⟨-, h | ⟨-, h | ⟨-, h | ⟨-, h⟩⟩⟩⟩⟩⟩
  · cases (isComment_of_comment? h).2
  · obtain ⟨kind, hkind, hfound⟩ := Option.map_eq_some_iff.mp h
    cases hfound
    unfold markKind? at hkind
    grind
  · exact h
  · obtain ⟨-, ⟨-, hkind, -⟩ | ⟨-, hkind, -⟩⟩ := signedKeyword?_eq_found_iff.mp h
    · cases hkind
    · cases hkind
  · cases (number?_eq_found_iff.mp h).1
  · obtain ⟨-, hkind, -⟩ := word?_eq_found_iff.mp h
    unfold wordKind? at hkind
    grind
  · cases h

/-- A string token is a body between quotes, where it stands in the text. -/
theorem Run.exists_body {k n : Nat} {ts : List Token} (h : Run d text k ts n) {t : Token}
    (ht : t ∈ ts) (hkind : t.kind = .string) :
    ∃ before quote body after, text = before ++ quote :: (body ++ quote :: after) ∧
      t.extent.range.start = before.length ∧ t.text = quote :: (body ++ [quote]) ∧
      d.isQuote quote = true ∧ Lexeme.QuotedBody d quote body := by
  induction h with
  | nil k => cases ht
  | @cons k m n size c rest kind ts hgap hrest hscan hrun ih =>
      rcases List.mem_cons.mp ht with rfl | ht
      · obtain rfl : kind = .string := hkind
        obtain ⟨hquote, hclosed, -, hsize⟩ :=
          Lexeme.string?_eq_found_iff.mp (Lexeme.string?_of_scan hscan)
        obtain ⟨body, after, rfl, hbody, hlength⟩ := Lexeme.exists_body_of_quotedTail hclosed
        refine ⟨text.take m, c, body, after, ?_, ?_, ?_, hquote, hbody⟩
        · rw [← hrest, List.take_append_drop]
        · rw [range_tokenOf (add_le_length_of_scan hrest hscan), List.length_take,
            Nat.min_eq_left hgap.le_length]
        · rw [Cursor.tokenOf, Cursor.rest_atOffset, hrest, hsize, hlength, Nat.add_comm 1,
            List.take_succ_cons, List.append_cons, List.take_left' (by simp)]
      · exact ih ht

/-- The decoding of a string token stays in step with the scan that found it in its text. -/
theorem Lexed.decoding_in_step (d : Dialect) (text : Text) (t : Token)
    (ht : t ∈ (Lexed.ofText d text).tokens) (hkind : t.kind = .string) :
    ∃ before quote body after, text = before ++ quote :: (body ++ quote :: after) ∧
      t.extent.range.start = before.length ∧ t.text = quote :: (body ++ [quote]) ∧
      slice t.text 1 (-1) = body ∧ StringBody.InStep d quote body after := by
  obtain ⟨n, m, hrun, -⟩ := Lexed.exists_run d (Nat.zero_le text.length)
  obtain ⟨before, quote, body, after, htext, hstart, htoken, hquote, hbody⟩ :=
    hrun.exists_body ht hkind
  refine ⟨before, quote, body, after, htext, hstart, htoken, ?_, ?_⟩
  · rw [htoken, Interchange.slice_quoted]
  · exact StringBody.inStep hquote hbody after

/-- A surrogate pair, a backslash for itself and a line end that is left out: pieces of twelve, two
and three characters, over twelve units. -/
theorem Lexed.decoding_in_step_pair :
    ∃ t ∈ (Lexed.ofText .json5 "'\\uD83D\\uDE00\\\\\\\r\n'".toList).tokens,
      t.kind = .string ∧ StringBody.decode .json5 (slice t.text 1 (-1)) = .ok [0x1F600, 0x5C] ∧
      ∃ quote body after, slice t.text 1 (-1) = body ∧ StringBody.InStep .json5 quote body after ∧
        StringBody.Visits .json5 body 17 ∧
        ∃ i stop, StringBody.EscapeAt .json5 body i stop ∧ i ≤ 6 ∧ 6 < stop := by
  let text := "'\\uD83D\\uDE00\\\\\\\r\n'".toList
  let t : Token := ⟨.string, text, .between .origin (Cursor.endOf text)⟩
  have htokens : (Lexed.ofText .json5 text).tokens = [t] :=
    (Lexed.ofText_of_scan rfl (by decide) (by decide +kernel)).1
  have ht : t ∈ (Lexed.ofText .json5 text).tokens := by
    rw [htokens]
    exact List.mem_singleton_self t
  have hdecode : StringBody.decode .json5 (slice t.text 1 (-1)) = .ok [0x1F600, 0x5C] := by
    decide +kernel
  obtain ⟨-, quote, body, after, -, -, -, hbody, hstep⟩ :=
    Lexed.decoding_in_step .json5 text t ht rfl
  have hlength : body.length = 17 := by
    rw [← hbody]
    decide +kernel
  have hescape : body[6]? = some '\\' := by
    rw [← hbody]
    decide +kernel
  rw [hbody] at hdecode
  refine ⟨t, ht, rfl, hbody ▸ hdecode, quote, body, after, hbody, hstep, ?_, ?_⟩
  · exact hlength ▸ hstep.isOk_iff.mp ⟨_, hdecode⟩
  · exact hstep.exists_escapeAt _ hdecode 6 hescape

end LocatedJson
