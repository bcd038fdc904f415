import LocatedJson.Lexeme.Quoted

/-!
# String literals in units

The scan for the end of a string is a recursion over the units of its body.
Here the bodies are described on their own (`QuotedBody`), without the
scan, and the scan is shown to close a string exactly behind the body in
front of the first bare quote: `quotedTail_of_body` and
`exists_body_of_quotedTail`.
-/

namespace LocatedJson.Lexeme

open LocatedJson.Text

/-- The bodies of strings, read in units: a character that stands for itself, a backslash
with a character, and in json5 a backslash with both characters of a line end. -/
inductive QuotedBody (d : Dialect) (quote : Char) : Text → Prop
  | nil : QuotedBody d quote []
  | plain {c : Char} {rest : Text} (hquote : c ≠ quote) (hescape : c ≠ '\\')
      (hline : isHardLineEnd c = false) (hrest : QuotedBody d quote rest) :
      QuotedBody d quote (c :: rest)
  | escape {e : Char} {rest : Text} (hline : isHardLineEnd e = true → d = .json5)
      (hpair : e = '\r' → rest.head? ≠ some '\n') (hrest : QuotedBody d quote rest) :
      QuotedBody d quote ('\\' :: e :: rest)
  | pair {rest : Text} (hjson5 : d = .json5) (hrest : QuotedBody d quote rest) :
      QuotedBody d quote ('\\' :: '\r' :: '\n' :: rest)

variable {d : Dialect} {quote : Char}

theorem quotedTail_quote (rest : Text) : quotedTail d quote (quote :: rest) = ⟨1, true⟩ := by
  rw [quotedTail.eq_def]
  simp

theorem quotedTail_plain {c : Char} {rest : Text} (hquote : c ≠ quote) (hescape : c ≠ '\\')
    (hline : isHardLineEnd c = false) :
    quotedTail d quote (c :: rest) = (quotedTail d quote rest).grow 1 := by
  rw [quotedTail.eq_def]
  simp [hquote, hescape, hline]

theorem quotedTail_escape (hquote : quote ≠ '\\') {e : Char} {rest : Text}
    (hline : isHardLineEnd e = true → d = .json5) (hpair : e = '\r' → rest.head? ≠ some '\n') :
    quotedTail d quote ('\\' :: e :: rest) = (quotedTail d quote rest).grow 2 := by
  have hstop : (isHardLineEnd e && d != .json5) = false := by
    cases he : isHardLineEnd e <;> simp_all
  rw [quotedTail.eq_def]
  simp only [if_neg hquote.symm, hstop]
  cases rest with
  | nil => simp [quotedTail, QuotedTail.grow]
  | cons f beyond =>
      have : ¬ (e = '\r' ∧ f = '\n') := fun h => hpair h.1 (by simp [h.2])
      simp [this]

theorem quotedTail_pair (hquote : quote ≠ '\\') (hjson5 : d = .json5) {rest : Text} :
    quotedTail d quote ('\\' :: '\r' :: '\n' :: rest) = (quotedTail d quote rest).grow 3 := by
  rw [quotedTail.eq_def]
  simp [hjson5, hquote.symm]

theorem quotedTail_of_body (hquote : quote ≠ '\\') (hline : isHardLineEnd quote = false)
    {body : Text} (h : QuotedBody d quote body) (after : Text) :
    quotedTail d quote (body ++ quote :: after) = ⟨body.length + 1, true⟩ := by
  induction h with
  | nil => exact quotedTail_quote after
  | plain hc hescape hline' hrest ih =>
      rw [List.cons_append, quotedTail_plain hc hescape hline', ih]
      simp [QuotedTail.grow, Nat.add_comm]
  | @escape e rest hline' hpair hrest ih =>
      rw [List.cons_append, List.cons_append, quotedTail_escape hquote hline' ?_, ih]
      · simp [QuotedTail.grow]
        omega
      · intro he
        cases rest with
        | nil =>
            intro h
            obtain rfl : quote = '\n' := by simpa using h
            simp [isHardLineEnd] at hline
        | cons f beyond => simpa using hpair he
  | pair hjson5 hrest ih =>
      rw [List.cons_append, List.cons_append, List.cons_append, quotedTail_pair hquote hjson5, ih]
      simp [QuotedTail.grow]
      omega

theorem exists_body_of_quotedTail {cs : Text} (h : (quotedTail d quote cs).closed = true) :
    ∃ body after, cs = body ++ quote :: after ∧ QuotedBody d quote body ∧
      (quotedTail d quote cs).size = body.length + 1 := by
  fun_induction quotedTail d quote cs with
  | case1 | case3 | case4 | case5 | case8 => cases h
  | case2 rest => exact ⟨[], rest, rfl, .nil, rfl⟩
  | case6 e hstop f beyond hpair hquote ih =>
      obtain ⟨rfl, rfl⟩ := hpair
      obtain ⟨body, after, rfl, hbody, hsize⟩ := ih h
      have hjson5 : d = .json5 := by simpa [isHardLineEnd] using hstop
      refine ⟨'\\' :: '\r' :: '\n' :: body, after, rfl, .pair hjson5 hbody, ?_⟩
      simp only [QuotedTail.grow, List.length_cons]
      omega
  | case7 e hstop f beyond hpair hquote ih =>
      obtain ⟨body, after, hcs, hbody, hsize⟩ := ih h
      rw [hcs] at hsize ⊢
      refine ⟨'\\' :: e :: body, after, rfl, .escape ?_ ?_ hbody, ?_⟩
      · intro hline
        simpa [hline] using hstop
      · intro he hhead
        cases body with
        | nil => cases hhead
        | cons b body =>
            obtain rfl : b = '\n' := by simpa using hhead
            exact hpair ⟨he, (List.cons.inj hcs).1⟩
      · simp only [QuotedTail.grow, List.length_cons]
        omega
  | case9 c rest hquote hescape hline ih =>
      obtain ⟨body, after, rfl, hbody, hsize⟩ := ih h
      refine ⟨c :: body, after, rfl, .plain hquote hescape (by simpa using hline) hbody, ?_⟩
      simp only [QuotedTail.grow, List.length_cons]
      omega

theorem isQuote_ne_escape (h : d.isQuote quote = true) : quote ≠ '\\' := by
  rintro rfl
  cases d <;> revert h <;> decide

theorem isHardLineEnd_eq_false_of_isQuote (h : d.isQuote quote = true) :
    isHardLineEnd quote = false := by
  unfold Dialect.isQuote at h
  simp only [Bool.or_eq_true, Bool.and_eq_true, beq_iff_eq] at h
  rcases h with rfl | ⟨-, rfl⟩ <;> decide

theorem size_le_of_quotedTail {cs : Text} (h : (quotedTail d quote cs).closed = true) :
    (quotedTail d quote cs).size ≤ cs.length := by
  obtain ⟨body, after, hcs, -, hsize⟩ := exists_body_of_quotedTail h
  rw [hsize, hcs, List.length_append, List.length_cons]
  omega

/-- A string that is closed before a text is cut off is closed in the same place after it. -/
theorem quotedTail_of_append (hquote : d.isQuote quote = true) {cs tail : Text}
    (hclosed : (quotedTail d quote (cs ++ tail)).closed = true)
    (hsize : (quotedTail d quote (cs ++ tail)).size ≤ cs.length) :
    quotedTail d quote cs = quotedTail d quote (cs ++ tail) := by
  have hescape := isQuote_ne_escape hquote
  have hline := isHardLineEnd_eq_false_of_isQuote hquote
  obtain ⟨body, after, hcs, hbody, hbodySize⟩ := exists_body_of_quotedTail hclosed
  -- the closing quote is counted by the size, so the cut is behind it
  rcases List.append_eq_append_iff.mp hcs with ⟨more, hmore, -⟩ | ⟨more, hmore, hrest⟩
  · rw [hbodySize, hmore, List.length_append] at hsize
    omega
  · cases more with
    | nil =>
        rw [hbodySize, hmore, List.append_nil] at hsize
        omega
    | cons c more =>
        obtain rfl : quote = c := (List.cons.inj hrest).1
        rw [hcs, quotedTail_of_body hescape hline hbody, hmore,
          quotedTail_of_body hescape hline hbody]

end LocatedJson.Lexeme
