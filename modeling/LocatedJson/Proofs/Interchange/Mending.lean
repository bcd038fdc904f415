import LocatedJson.Proofs.Interchange.Lenient

/-!
# Mending interchange texts

Settings that are not read leniently are mended before they are read strictly:
bare names get quotes, and a missing comma is filled in. Both go over the
characters of the text and know nothing about strings. So the inside of an
interchange object, which needs no mending, is left as it is exactly if no
string in it looks as if it did (`Intact`), and then it is read as what it
decodes to (`Rules.read_unmended`).

What either change looks for is followed by a `Watch`, which has a state and
may object to a character. Outside of strings there is nothing to object to in
an interchange text, and every string is watched afresh (`Value.clear_iff`).
-/

namespace LocatedJson.Interchange

open LocatedJson.Text

/-! ## Watches -/

def isWatched (c : Char) : Bool := c == '"' || c == ':'

/-- Goes over a text with a state and may object to a quote or a colon, but not right at the
start. It is at its start again behind the marks that values follow, and behind quotes. -/
structure Watch (σ : Type) where
  start : σ
  next : σ → Char → σ
  Objects : σ → Char → Prop
  next_mark : ∀ s, ∀ c ∈ ['"', ':', ',', '\x7b', '['], next s c = start
  next_space : ∀ c ∈ [' ', '\t', '\n', '\r'], next start c = start
  objects : ∀ s c, Objects s c → s ≠ start ∧ isWatched c = true

namespace Watch

variable {σ : Type} (w : Watch σ)

/-- No character of a text is objected to. -/
def Clear : σ → Text → Prop
  | _, [] => True
  | s, c :: cs => ¬ w.Objects s c ∧ Clear (w.next s c) cs

/-- The state behind a text. -/
def after (s : σ) (cs : Text) : σ := cs.foldl w.next s

theorem clear_append (s : σ) (cs post : Text) :
    w.Clear s (cs ++ post) ↔ w.Clear s cs ∧ w.Clear (w.after s cs) post := by
  induction cs generalizing s with
  | nil => simp [Clear, after]
  | cons c cs ih =>
      rw [List.cons_append, Clear, Clear, ih, and_assoc]
      rfl

theorem not_objects {c : Char} (hc : isWatched c = false) (s : σ) : ¬ w.Objects s c := by
  intro hobjects
  exact Bool.false_ne_true (hc.symm.trans (w.objects s c hobjects).2)

theorem clear_of_quiet {cs : Text} (h : cs.any isWatched = false) (s : σ) : w.Clear s cs := by
  induction cs generalizing s with
  | nil => trivial
  | cons c cs ih =>
      obtain ⟨hc, hrest⟩ := Bool.or_eq_false_iff.mp h
      exact ⟨w.not_objects hc s, ih hrest (w.next s c)⟩

theorem clear_start (c : Char) (cs : Text) :
    w.Clear w.start (c :: cs) ↔ w.Clear (w.next w.start c) cs := by
  refine ⟨And.right, fun h => ⟨fun hobjects => ?_, h⟩⟩
  exact (w.objects _ _ hobjects).1 rfl

theorem clear_blank (s : σ) (gap : Blank) : w.Clear s gap.val := by
  refine w.clear_of_quiet (List.any_eq_false.mpr fun c hc => ?_) s
  simpa using @eq_false_of_any isWatched _ (by decide) c (gap.property c hc)

theorem after_blank (gap : Blank) : w.after w.start gap.val = w.start := by
  obtain ⟨cs, hcs⟩ := gap
  induction cs with
  | nil => rfl
  | cons c cs ih =>
      obtain ⟨hc, hrest⟩ := List.forall_mem_cons.mp hcs
      rw [after, List.foldl_cons, w.next_space c hc]
      exact ih hrest

theorem clear_blank_append (gap : Blank) (post : Text) :
    w.Clear w.start (gap.val ++ post) ↔ w.Clear w.start post := by
  rw [clear_append, after_blank]
  exact and_iff_right (w.clear_blank w.start gap)

/-- A mark that a value follows; only a colon has to be reached from the start. -/
theorem clear_mark_append (m : Mark) {s : σ} {c : Char} (hc : c ∈ [':', ',', '\x7b', '['])
    (hs : s = w.start ∨ isWatched c = false) (post : Text) :
    w.Clear s (m.text c ++ post) ↔ w.Clear w.start post := by
  have hmark : c ∈ ['"', ':', ',', '\x7b', '['] := List.mem_cons_of_mem _ hc
  have hquiet : ¬ w.Objects (w.after s m.before.val) c := by
    rcases hs with rfl | hwatched
    · exact fun hobjects => (w.objects _ _ hobjects).1 (w.after_blank m.before)
    · exact w.not_objects hwatched _
  rw [Mark.text_append, clear_append, Clear, w.next_mark _ c hmark, clear_blank_append]
  simp only [w.clear_blank, hquiet, not_false_eq_true, true_and]

theorem clear_closing (m : Mark) (s : σ) {c : Char} (hc : isWatched c = false) :
    w.Clear s (m.text c) := by
  rw [Mark.text, clear_append, Clear]
  exact ⟨w.clear_blank s _, w.not_objects hc _, w.clear_blank _ _⟩

theorem after_string (s : σ) (parts : List Part) : w.after s (stringText parts) = w.start := by
  rw [after, stringText, List.foldl_append]
  exact w.next_mark _ '"' List.mem_cons_self

/-- What may be objected to in a string is its body and, behind that, the closing quote. -/
theorem clear_string_iff (parts : List Part) :
    w.Clear w.start (stringText parts) ↔ w.Clear w.start (bodyText parts) ∧
      ¬ w.Objects (w.after w.start (bodyText parts)) '"' := by
  rw [stringText, List.cons_append, clear_start, w.next_mark _ '"' List.mem_cons_self,
    clear_append]
  simp only [Clear, and_true]

theorem clear_string_append (parts : List Part) (post : Text) :
    w.Clear w.start (stringText parts ++ post) ↔
      w.Clear w.start (stringText parts) ∧ w.Clear w.start post := by
  rw [clear_append, after_string]

end Watch

section Values

variable {σ : Type} (w : Watch σ)

mutual

/-- A watch over the text of a value objects to nothing but what is in its strings. -/
theorem Value.clear_iff (v : Value) :
    w.Clear w.start v.text ↔ ∀ parts ∈ v.strings, w.Clear w.start (stringText parts) := by
  match v with
  | .null | .boolean true | .boolean false =>
      exact iff_of_true (w.clear_of_quiet rfl _) (by simp [Value.strings])
  | .number n =>
      have hquiet : n.text.any isWatched = false := by
        refine List.any_eq_false.mpr fun c hc => ?_
        simpa using @eq_false_of_any isWatched _ (by decide) c (Number.mem_text hc)
      exact iff_of_true (w.clear_of_quiet hquiet _) (by simp [Value.strings])
  | .string parts => simp [Value.strings, Value.text]
  | .emptyObject opening closing | .emptyArray opening closing =>
      rw [Value.text, w.clear_mark_append opening (by decide) (.inl rfl)]
      exact iff_of_true (w.clear_closing closing _ rfl) (by simp [Value.strings])
  | .object opening members closing =>
      rw [Value.text, List.append_assoc, w.clear_mark_append opening (by decide) (.inl rfl),
        w.clear_append, members.clear_iff, Value.strings]
      exact and_iff_left (w.clear_closing closing _ rfl)
  | .array opening elements closing =>
      rw [Value.text, List.append_assoc, w.clear_mark_append opening (by decide) (.inl rfl),
        w.clear_append, elements.clear_iff, Value.strings]
      exact and_iff_left (w.clear_closing closing _ rfl)

theorem Members.clear_iff (ms : Members) :
    w.Clear w.start ms.text ↔ ∀ parts ∈ ms.strings, w.Clear w.start (stringText parts) := by
  match ms with
  | .last name colon value =>
      rw [Members.text, List.append_assoc, w.clear_string_append,
        w.clear_mark_append colon (by decide) (.inl rfl), value.clear_iff, Members.strings,
        List.forall_mem_cons]
  | .more name colon value comma rest =>
      simp only [Members.text, List.append_assoc]
      rw [w.clear_string_append, w.clear_mark_append colon (by decide) (.inl rfl), w.clear_append,
        w.clear_mark_append comma (by decide) (.inr rfl), value.clear_iff, rest.clear_iff,
        Members.strings, List.cons_append, List.forall_mem_cons, List.forall_mem_append]

theorem Elements.clear_iff (es : Elements) :
    w.Clear w.start es.text ↔ ∀ parts ∈ es.strings, w.Clear w.start (stringText parts) := by
  match es with
  | .last value => exact value.clear_iff
  | .more value comma rest =>
      simp only [Elements.text, List.append_assoc]
      rw [w.clear_append, w.clear_mark_append comma (by decide) (.inr rfl),
        value.clear_iff, rest.clear_iff, Elements.strings, List.forall_mem_append]

end

/-- The braces around a text are not objected to. -/
theorem Json.clear_inside_iff {j : Json} {t : Text} (h : j.text = Rules.braced t) :
    w.Clear w.start t ↔ ∀ parts ∈ j.value.strings, w.Clear w.start (stringText parts) := by
  have hvalue : w.Clear w.start j.text ↔ w.Clear w.start j.value.text := by
    rw [Json.text, List.append_assoc, w.clear_blank_append, w.clear_append]
    exact and_iff_left (w.clear_blank _ j.after)
  have hinside : w.Clear w.start (Rules.braced t) ↔ w.Clear w.start t := by
    rw [Rules.braced, List.cons_append, w.clear_start, w.next_mark _ '\x7b' (by decide),
      w.clear_append]
    exact and_iff_left (w.clear_of_quiet rfl _)
  rw [← hinside, ← h, hvalue, j.value.clear_iff]

end Values

/-! ## Bare names -/

/-- Objects to a colon directly behind a part of a name. -/
def colons : Watch Bool where
  start := false
  next _ c := Rules.isNamePart c
  Objects s c := s = true ∧ c = ':'
  next_mark _ _ hc := eq_false_of_any (by decide) hc
  next_space _ hc := eq_false_of_any (by decide) hc
  objects := by
    rintro s c ⟨rfl, rfl⟩
    decide

theorem colons_clear_cons (s : Bool) (c : Char) (cs : Text) :
    colons.Clear s (c :: cs) ↔
      ¬ (s = true ∧ c = ':') ∧ colons.Clear (Rules.isNamePart c) cs := Iff.rfl

theorem pair_infix_cons_iff {c d : Char} {ds : Text} :
    [c, ':'] <:+: d :: ds ↔ (c = d ∧ ds.head? = some ':') ∨ [c, ':'] <:+: ds := by
  rw [List.infix_cons_iff, List.cons_prefix_cons]
  cases ds with
  | nil => simp
  | cons e es => simp [eq_comm]

theorem colons_clear_iff (s : Bool) (cs : Text) :
    colons.Clear s cs ↔ (s = true → cs.head? ≠ some ':') ∧
      ∀ c, Rules.isNamePart c = true → ¬ [c, ':'] <:+: cs := by
  induction cs generalizing s with
  | nil => simp [Watch.Clear]
  | cons d ds ih =>
      rw [colons_clear_cons, ih, List.head?_cons]
      constructor
      · rintro ⟨hfirst, hnext, hrest⟩
        refine ⟨fun hs hd => hfirst ⟨hs, Option.some.inj hd⟩, fun c hc hinfix => ?_⟩
        rcases pair_infix_cons_iff.mp hinfix with ⟨rfl, hcolon⟩ | hinfix
        · exact hnext hc hcolon
        · exact hrest c hc hinfix
      · rintro ⟨hfirst, hpairs⟩
        refine ⟨fun ⟨hs, hd⟩ => hfirst hs (congrArg some hd), fun hd hcolon => ?_, ?_⟩
        · exact hpairs d hd (pair_infix_cons_iff.mpr (.inl ⟨rfl, hcolon⟩))
        · exact fun c hc hinfix => hpairs c hc (pair_infix_cons_iff.mpr (.inr hinfix))

theorem colons_clear_string (parts : List Part) :
    colons.Clear false (stringText parts) ↔
      ∀ c, Rules.isNamePart c = true → ¬ [c, ':'] <:+: bodyText parts := by
  have hclosing (s : Bool) : ¬ colons.Objects s '"' := fun hobjects =>
    absurd hobjects.2 (by decide)
  have hbody := colons.clear_string_iff parts
  rw [and_iff_left (hclosing _)] at hbody
  refine hbody.trans ((colons_clear_iff false _).trans ?_)
  exact and_iff_right Bool.false_ne_true.elim

/-- Either nothing is objected to and the text is left as it is, or there are more quotes than
before. -/
theorem quoteNamesFrom_cases (name cs : Text) :
    (colons.Clear (!name.isEmpty) cs ∧ Rules.quoteNamesFrom name cs = name.reverse ++ cs) ∨
      (¬ colons.Clear (!name.isEmpty) cs ∧
        (name.reverse ++ cs).count '"' < (Rules.quoteNamesFrom name cs).count '"') := by
  fun_induction Rules.quoteNamesFrom name cs with
  | case1 name => exact .inl ⟨trivial, by simp⟩
  | case2 name c rest hpart ih =>
      have hcolon : c ≠ ':' := by
        rintro rfl
        exact absurd hpart (by decide)
      rw [colons_clear_cons, hpart]
      simpa [hcolon] using ih
  | case3 name c rest hpart hname ih =>
      obtain ⟨rfl, hname⟩ := hname
      refine .inr ⟨fun hclear => ?_, ?_⟩
      · exact ((colons_clear_cons _ _ _).mp hclear).1 ⟨by simpa using hname, rfl⟩
      · have hrest : rest.count '"' ≤ (Rules.quoteNamesFrom [] rest).count '"' := by
          rcases ih with ⟨-, hsame⟩ | ⟨-, hmore⟩
          · rw [hsame]
            simp
          · simpa using Nat.le_of_lt hmore
        simp only [List.cons_append, List.count_append, List.count_cons, beq_self_eq_true, if_true]
        omega
  | case4 name c rest hpart hname ih =>
      have hquiet : ¬ ((!name.isEmpty) = true ∧ c = ':') := by
        rintro ⟨hne, rfl⟩
        exact hname ⟨rfl, by simpa using hne⟩
      rw [colons_clear_cons, Bool.eq_false_iff.mpr hpart, and_iff_right hquiet]
      simpa [List.count_cons] using ih

/-! ## Missing commas -/

/-- What stands behind a text: nothing in particular, a closing bracket or digit at its end, or
blanks behind one of those. -/
inductive Ending where
  | other
  | item
  | gap
  deriving DecidableEq

/-- A character that may end what a comma is missing behind. -/
abbrev EndsItem (c : Char) : Prop := c = ']' ∨ isAsciiDigit c = true

def Ending.next (s : Ending) (c : Char) : Ending :=
  if EndsItem c then .item
  else if isBlank c = true ∧ s ≠ .other then .gap
  else .other

/-- Objects to a quote behind blanks behind a closing bracket or a digit. -/
def gaps : Watch Ending where
  start := .other
  next := Ending.next
  Objects s c := s = .gap ∧ c = '"'
  next_mark s c hc := by
    simp only [List.mem_cons, List.not_mem_nil, or_false] at hc
    rcases hc with rfl | rfl | rfl | rfl | rfl <;> cases s <;> rfl
  next_space c hc := by
    simp only [List.mem_cons, List.not_mem_nil, or_false] at hc
    rcases hc with rfl | rfl | rfl | rfl <;> rfl
  objects := by
    rintro s c ⟨rfl, rfl⟩
    decide

theorem gaps_clear_cons (s : Ending) (c : Char) (cs : Text) :
    gaps.Clear s (c :: cs) ↔ ¬ (s = .gap ∧ c = '"') ∧ gaps.Clear (s.next c) cs := Iff.rfl

theorem Ending.next_of_endsItem {c : Char} (hc : EndsItem c) (s : Ending) : s.next c = .item :=
  if_pos hc

theorem isBlank_of_endsItem {c : Char} (h : EndsItem c) : isBlank c = false := by
  rcases h with rfl | hdigit
  · decide
  · exact eq_false_of_any (by decide) (mem_digitChars hdigit)

theorem Ending.next_of_isBlank {c : Char} (hc : isBlank c = true) (s : Ending) :
    s.next c = if s = .other then .other else .gap := by
  have hitem : ¬ EndsItem c := by
    intro hitem
    cases hc.symm.trans (isBlank_of_endsItem hitem)
  simp [Ending.next, if_neg hitem, hc]

theorem Ending.next_of_not_isBlank {c : Char} (hc : isBlank c = false) (s : Ending) :
    s.next c = Ending.next .other c := by
  simp [Ending.next, hc]

theorem trimStart_of_isBlank {c : Char} (hc : isBlank c = true) (cs : Text) :
    trimStart (c :: cs) = trimStart cs := List.dropWhile_cons_of_pos hc

theorem trimStart_of_not_isBlank {c : Char} (hc : isBlank c = false) (cs : Text) :
    trimStart (c :: cs) = c :: cs := List.dropWhile_cons_of_neg (by simp [hc])

theorem ne_quote_of_isBlank {c : Char} (hc : isBlank c = true) : c ≠ '"' := by
  rintro rfl
  exact absurd hc (by decide)

/-- Behind blanks a quote is objected to, and else it is as if there had been nothing. -/
theorem gaps_clear_gap (cs : Text) :
    gaps.Clear .gap cs ↔ (trimStart cs).head? ≠ some '"' ∧ gaps.Clear .other cs := by
  induction cs with
  | nil => simp [Watch.Clear, trimStart]
  | cons c cs ih =>
      cases hc : isBlank c with
      | true =>
          rw [gaps_clear_cons, gaps_clear_cons, Ending.next_of_isBlank hc,
            Ending.next_of_isBlank hc, trimStart_of_isBlank hc]
          simpa [ne_quote_of_isBlank hc] using ih
      | false =>
          rw [gaps_clear_cons, gaps_clear_cons, Ending.next_of_not_isBlank hc,
            trimStart_of_not_isBlank hc]
          simp

/-- Whether a text begins with blanks and a quote behind them. -/
def OpensLate (cs : Text) : Prop :=
  (cs.head?.map isBlank).getD false = true ∧ (trimStart cs).head? = some '"'

theorem gaps_clear_item (cs : Text) :
    gaps.Clear .item cs ↔ ¬ OpensLate cs ∧ gaps.Clear .other cs := by
  cases cs with
  | nil => simp [Watch.Clear, OpensLate]
  | cons c cs =>
      cases hc : isBlank c with
      | true =>
          rw [gaps_clear_cons, gaps_clear_cons, Ending.next_of_isBlank hc,
            Ending.next_of_isBlank hc]
          simp [OpensLate, hc, trimStart_of_isBlank hc, gaps_clear_gap]
      | false =>
          rw [gaps_clear_cons, gaps_clear_cons, Ending.next_of_not_isBlank hc]
          simp [OpensLate, hc]

theorem fillComma_eq_iff (cs : Text) : Rules.fillComma cs = cs ↔ gaps.Clear .other cs := by
  fun_induction Rules.fillComma cs with
  | case1 => simp [Watch.Clear]
  | case2 c rest hfill =>
      obtain ⟨hitem, hlate⟩ := hfill
      refine iff_of_false (fun heq => ?_) (fun hclear => ?_)
      · -- the comma would be one of the blanks
        rw [← (List.cons.inj heq).2] at hlate
        have hcomma : isBlank ',' = true := hlate.1
        exact absurd hcomma (by decide)
      · rw [gaps_clear_cons, Ending.next_of_endsItem hitem, gaps_clear_item] at hclear
        exact hclear.2.1 hlate
  | case3 c rest hfill ih =>
      rw [List.cons_inj_right, ih, gaps_clear_cons]
      by_cases hitem : EndsItem c
      · rw [Ending.next_of_endsItem hitem, gaps_clear_item]
        have hlate : ¬ OpensLate rest := fun hlate => hfill ⟨hitem, hlate⟩
        simp [hlate]
      · have hnext : Ending.next .other c = .other := by simp [Ending.next, if_neg hitem]
        simp [hnext]

/-- Behind a bracket or digit and blanks there is a gap. -/
theorem after_gap {c : Char} {blanks : Text} (hc : EndsItem c) (hne : blanks ≠ [])
    (hblanks : ∀ b ∈ blanks, isBlank b = true) (s : Ending) (front : Text) :
    gaps.after s (front ++ c :: blanks) = .gap := by
  have hgap (cs : Text) (hcs : ∀ b ∈ cs, isBlank b = true) : cs.foldl Ending.next .gap = .gap := by
    induction cs with
    | nil => rfl
    | cons b cs ih =>
        obtain ⟨hb, hrest⟩ := List.forall_mem_cons.mp hcs
        rw [List.foldl_cons, Ending.next_of_isBlank hb]
        exact ih hrest
  obtain ⟨b, rest, rfl⟩ := List.exists_cons_of_ne_nil hne
  obtain ⟨hb, hrest⟩ := List.forall_mem_cons.mp hblanks
  have hitem (s : Ending) : gaps.next s c = .item := Ending.next_of_endsItem hc s
  have hfirst : gaps.next .item b = .gap := Ending.next_of_isBlank hb .item
  rw [Watch.after, List.foldl_append, List.foldl_cons, List.foldl_cons, hitem, hfirst]
  exact hgap rest hrest

/-- A gap behind a text was there before, with blanks only in the text, or is in the text. -/
theorem of_after_eq_gap {s : Ending} {cs : Text} (h : gaps.after s cs = .gap) :
    (s ≠ .other ∧ (∀ b ∈ cs, isBlank b = true) ∧ (s = .item → cs ≠ [])) ∨
      ∃ c blanks, EndsItem c ∧ blanks ≠ [] ∧ (∀ b ∈ blanks, isBlank b = true) ∧
        c :: blanks <:+ cs := by
  induction cs generalizing s with
  | nil =>
      obtain rfl : s = .gap := h
      exact .inl ⟨by decide, by simp, by simp⟩
  | cons d ds ih =>
      rcases ih h with ⟨hnext, hblanks, hne⟩ | ⟨c, blanks, hc, hne, hblanks, hsuffix⟩
      · by_cases hitem : EndsItem d
        · exact .inr ⟨d, ds, hitem, hne (if_pos hitem), hblanks, List.suffix_rfl⟩
        · -- blanks keep what was there before
          obtain ⟨hd, hs⟩ : isBlank d = true ∧ s ≠ .other :=
            Decidable.byContradiction fun hother =>
              hnext ((if_neg hitem).trans (if_neg hother))
          exact .inl ⟨hs, List.forall_mem_cons.mpr ⟨hd, hblanks⟩, fun _ => List.cons_ne_nil d ds⟩
      · exact .inr ⟨c, blanks, hc, hne, hblanks, hsuffix.trans (List.suffix_cons d ds)⟩

/-- In the body of a string a quote stands behind a backslash, not behind a gap. -/
theorem gaps_clear_part (s : Ending) (p : Part) : gaps.Clear s p.text := by
  have hquiet {c : Char} (hc : c ≠ '"') (s : Ending) : ¬ (s = .gap ∧ c = '"') := fun h => hc h.2
  cases p with
  | plain c is => exact ⟨hquiet is.2.1 s, trivial⟩
  | letter c meaning is =>
      have hescape : s.next '\\' = .other := by cases s <;> rfl
      rw [Part.text, gaps_clear_cons, hescape]
      exact ⟨hquiet (by decide) s, (gaps.clear_start _ _).mpr trivial⟩
  | unicode a b c d =>
      have hdigit (h : HexDigit) : isWatched h.char = false := by
        have hquote : h.char ≠ '"' := h.char_ne (by decide)
        have hcolon : h.char ≠ ':' := h.char_ne (by decide)
        simp [isWatched, hquote, hcolon]
      refine gaps.clear_of_quiet ?_ s
      simp [Part.text, hdigit, show isWatched '\\' = false from rfl,
        show isWatched 'u' = false from rfl]

theorem gaps_clear_body (s : Ending) (parts : List Part) : gaps.Clear s (bodyText parts) := by
  induction parts generalizing s with
  | nil => trivial
  | cons p parts ih =>
      rw [bodyText_cons, Watch.clear_append]
      exact ⟨gaps_clear_part s p, ih _⟩

theorem gaps_clear_string (parts : List Part) :
    gaps.Clear .other (stringText parts) ↔
      ∀ c blanks, EndsItem c → (∀ b ∈ blanks, isBlank b = true) →
        c :: blanks <:+ bodyText parts → blanks = [] := by
  have hclosing : gaps.Clear .other (stringText parts) ↔
      gaps.after .other (bodyText parts) ≠ .gap := by
    have hquote (s : Ending) : gaps.Objects s '"' ↔ s = .gap := and_iff_left rfl
    have hbody := gaps.clear_string_iff parts
    rw [and_iff_right (gaps_clear_body _ parts), hquote] at hbody
    exact hbody
  rw [hclosing]
  constructor
  · intro hafter c blanks hc hblanks hsuffix
    obtain ⟨front, hfront⟩ := hsuffix
    refine Decidable.byContradiction fun hne => hafter ?_
    rw [← hfront]
    exact after_gap hc hne hblanks .other front
  · intro hnone hafter
    rcases of_after_eq_gap hafter with ⟨hother, -⟩ | ⟨c, blanks, hc, hne, hblanks, hsuffix⟩
    · exact hother rfl
    · exact hne (hnone c blanks hc hblanks hsuffix)

/-! ## Mending -/

theorem count_trimStart (cs : Text) : (trimStart cs).count '"' = cs.count '"' := by
  induction cs with
  | nil => rfl
  | cons c cs ih =>
      cases hc : isBlank c with
      | true =>
          rw [trimStart_of_isBlank hc, ih, List.count_cons_of_ne (ne_quote_of_isBlank hc)]
      | false => rw [trimStart_of_not_isBlank hc]

/-- A comma takes the place of blanks only. -/
theorem count_fillComma (cs : Text) : (Rules.fillComma cs).count '"' = cs.count '"' := by
  fun_induction Rules.fillComma cs with
  | case1 => rfl
  | case2 c rest hfill => simp [List.count_cons, count_trimStart]
  | case3 c rest hfill ih => rw [List.count_cons, List.count_cons, ih]

/-- Mending leaves a text as it is exactly if neither watch objects to anything. -/
theorem mend_eq_iff (cs : Text) :
    Rules.mend cs = cs ↔ colons.Clear colons.start cs ∧ gaps.Clear gaps.start cs := by
  -- quotes are counted and not characters: a comma for blanks may make up for the length of quotes
  have hcount := count_fillComma (Rules.quoteNames cs)
  rcases quoteNamesFrom_cases [] cs with ⟨hclear, hsame⟩ | ⟨hclear, hmore⟩
  · have hquoted : Rules.quoteNames cs = cs := hsame
    rw [Rules.mend, hquoted, fillComma_eq_iff]
    exact (and_iff_right hclear).symm
  · refine iff_of_false (fun heq => ?_) (fun h => hclear h.1)
    rw [Rules.mend] at heq
    rw [heq] at hcount
    exact Nat.lt_irrefl _ (hcount ▸ hmore)

/-- A body of a string in which neither a bare name seems to stand, nor at its end something that
a comma is missing behind. -/
structure Intact (body : Text) : Prop where
  names : ∀ c, Rules.isNamePart c = true → ¬ [c, ':'] <:+: body
  blanks : ∀ c blanks, EndsItem c → (∀ b ∈ blanks, isBlank b = true) →
    c :: blanks <:+ body → blanks = []

theorem Json.mend_inside_iff {j : Json} {t : Text} (h : j.text = Rules.braced t) :
    Rules.mend t = t ↔ ∀ parts ∈ j.value.strings, Intact (bodyText parts) := by
  have hintact (parts : List Part) : Intact (bodyText parts) ↔
      colons.Clear colons.start (stringText parts) ∧ gaps.Clear gaps.start (stringText parts) := by
    refine Iff.trans ?_ (and_congr (colons_clear_string parts) (gaps_clear_string parts)).symm
    exact ⟨fun hbody => ⟨hbody.names, hbody.blanks⟩, fun hbody => ⟨hbody.1, hbody.2⟩⟩
  rw [mend_eq_iff, Json.clear_inside_iff colons h, Json.clear_inside_iff gaps h]
  simp only [hintact]
  exact ⟨fun hclear parts hparts => ⟨hclear.1 parts hparts, hclear.2 parts hparts⟩,
    fun hclear => ⟨fun parts hparts => (hclear parts hparts).1,
      fun parts hparts => (hclear parts hparts).2⟩⟩

end LocatedJson.Interchange

namespace LocatedJson

open Interchange in
/-- Take the inside of an interchange object whose lenient reading fails or sets something that is
no rule. Mending leaves it as it is exactly if the strings in it are intact, and then the settings
are what the object decodes to, given room for its brackets. -/
theorem Rules.read_unmended (t : Text) (j : Interchange.Json) (depth : Nat)
    (htext : j.text = Rules.braced t) (hdepth : j.value.nesting ≤ depth)
    (hnumbers : Convertible j.value.numbers)
    (hlenient : (Rules.lenient? t).filter Rules.allSet = none) :
    (Rules.mend t = t ↔ ∀ parts ∈ j.value.strings, Intact (bodyText parts)) ∧
      (Rules.mend t = t →
        ∃ entries, Rules.read t depth = .ok (.ok entries) ∧
          j.value.decoded = .map entries) := by
  refine ⟨Json.mend_inside_iff htext, fun hmend => ?_⟩
  obtain ⟨entries, hdecoded⟩ : ∃ entries, j.value.decoded = .map entries := by
    rcases Json.cases_of_braced htext with ⟨opening, closing, hvalue, -⟩ |
      ⟨opening, members, closing, hvalue, -⟩
    · exact ⟨_, by rw [hvalue, Value.decoded, Value.datum]⟩
    · exact ⟨_, by rw [hvalue, Value.decoded, Value.datum]⟩
  have hstrict := j.read_text hdepth hnumbers
  refine ⟨entries, ?_, hdecoded⟩
  rw [Rules.read, hlenient, hmend]
  simp only [Rules.strict, ← htext, hstrict, hdecoded]

namespace Interchange

/-- The object `{"a":"..."}` with a string of some parts. -/
def textSetting (parts : List Part) : Json :=
  let mark : Mark := ⟨.none, .none⟩
  ⟨.none, .object mark (.last shortName mark (.string parts)) mark, .none⟩

def textSettingInside (parts : List Part) : Text := '"' :: 'a' :: '"' :: ':' :: stringText parts

theorem textSetting_text (parts : List Part) :
    (textSetting parts).text = Rules.braced (textSettingInside parts) := by
  simp [textSetting, textSettingInside, shortName, Blank.none, Json.text, Value.text, Members.text,
    Mark.text, stringText, bodyText, Part.text, Rules.braced]

theorem convertible_textSetting (parts : List Part) :
    Convertible (textSetting parts).value.numbers := by
  intro n hn
  cases hn

/-- A string that is no severity sets no rule. -/
theorem filter_lenient?_textSetting {parts : List Part}
    (h : Rules.severityNames.contains (unquoted parts) = false) :
    (Rules.lenient? (textSettingInside parts)).filter Rules.allSet = none := by
  have hdepth : (textSetting parts).value.nesting ≤ Rules.maxDepth + 1 :=
    show 1 ≤ Rules.maxDepth + 1 by decide
  obtain ⟨entries, hlenient, hdatum⟩ := Json.exists_lenient? (textSetting_text parts) hdepth
    (convertible_textSetting parts)
  have hentries : [([0x61], .text (unquoted parts))] = entries := Datum.map.inj hdatum
  have hset : Rules.allSet [([0x61], .text (unquoted parts))] =
      (Rules.severityNames.contains (unquoted parts) && true) := rfl
  rw [hlenient, ← hentries, Option.filter_some, hset, h]
  rfl

end Interchange

open Interchange in
/-- The settings `"a":"xy"` are what the object between braces decodes to. In `"a":"x:y"` quotes
are put around a letter, and the settings are rejected. -/
theorem Rules.read_unmended_text :
    Rules.read ['"', 'a', '"', ':', '"', 'x', 'y', '"'] 1 =
      .ok (.ok [([0x61], .text [0x78, 0x79])]) ∧
    Rules.mend ['"', 'a', '"', ':', '"', 'x', ':', 'y', '"'] ≠
      ['"', 'a', '"', ':', '"', 'x', ':', 'y', '"'] ∧
    Rules.read ['"', 'a', '"', ':', '"', 'x', ':', 'y', '"'] 1 =
      .ok (.error ⟨['"', 'a', '"', ':', '"', '"', 'x', '"', ':', 'y', '"'],
        .unreadable (.malformed .comma ['x', '"', ':', 'y', '"', '\x7d'])⟩) := by
  let x : Interchange.Part := .plain 'x' (by decide)
  let y : Interchange.Part := .plain 'y' (by decide)
  let colon : Interchange.Part := .plain ':' (by decide)
  have hwhole := Rules.read_unmended _ _ 1 (textSetting_text [x, y]) (by decide)
    (convertible_textSetting _) (filter_lenient?_textSetting (by decide))
  have hbroken := Rules.read_unmended _ _ 1 (textSetting_text [x, colon, y]) (by decide)
    (convertible_textSetting _) (filter_lenient?_textSetting (by decide))
  refine ⟨?_, ?_, ?_⟩
  · obtain ⟨entries, hread, hdecoded⟩ := hwhole.2 (by decide)
    have hentries : [([0x61], .text [0x78, 0x79])] = entries := Datum.map.inj hdecoded
    rw [hentries]
    exact hread
  · intro hmend
    have hmem : [x, colon, y] ∈ (textSetting [x, colon, y]).value.strings := .tail _ (.head _)
    have hintact := hbroken.1.mp hmend _ hmem
    exact hintact.names 'x' (by decide) ⟨[], ['y'], rfl⟩
  · have hlenient := @filter_lenient?_textSetting [x, colon, y] (by decide)
    have hmend : Rules.mend (textSettingInside [x, colon, y]) =
        ['"', 'a', '"', ':', '"', '"', 'x', '"', ':', 'y', '"'] := by decide
    change Rules.read (textSettingInside [x, colon, y]) 1 = _
    rw [Rules.read, hlenient, hmend]
    simp [Rules.strict, Rules.braced, Json.read, Json.boundFor, Json.skipSpace, Json.isSpace,
      Json.valueWithin, Json.membersWithin, Json.stringTail, Json.piece, Except.map]

end LocatedJson
