import LocatedJson.Proofs.Interchange.Decoding
import LocatedJson.Proofs.RuleGrammar

/-!
# Interchange texts in the lenient notation

The inside of an interchange object is also a text of rule settings. The
lenient reading splits it into parts and reads those by descent, and it comes
to the same names, numbers, lists and maps as a decoder of the interchange
grammar does. Only in strings the two notations part: a backslash of the
lenient notation stands for the character behind it, whatever that is
(`unquoted`). So `"\""` is one quote in both, and `"\n"` is a line feed in one
and a letter in the other.

The reading is followed in two stages, as it goes: the parts that the text of a
value splits into (`Value.parts`), and what the grammar of the notation derives
from them (`Value.derives`).
-/

namespace LocatedJson.Interchange

open LocatedJson.Text LocatedJson.Numeral

/-! ## Strings -/

/-- A part of a string without its backslash. -/
def Part.bare : Part → Text
  | plain c _ => [c]
  | letter c _ _ => [c]
  | unicode a b c d => ['u', a.char, b.char, c.char, d.char]

/-- The body of a string without the backslashes that escape something. -/
def bareText (parts : List Part) : Text := parts.flatMap Part.bare

/-- What a string stands for in the lenient notation. -/
def unquoted (parts : List Part) : List CodePoint := CodePoint.ofText (bareText parts)

/-- Whether a part stands for one character, and that is what is left of it without a backslash. -/
def Part.isVerbatim : Part → Bool
  | plain _ _ => true
  | letter c meaning _ => c == meaning
  | unicode _ _ _ _ => false

theorem Part.bare_of_isVerbatim {p : Part} (h : p.isVerbatim = true) :
    CodePoint.ofText p.bare = [p.point] := by
  cases p with
  | plain c is => rfl
  | letter c meaning is =>
      obtain rfl : c = meaning := beq_iff_eq.mp h
      rfl
  | unicode a b c d => cases h

theorem Part.pair?_of_isVerbatim {p : Part} (h : p.isVerbatim = true) (q : Part) :
    p.pair? q = none := by
  cases p with
  | plain c is => rfl
  | letter c meaning is => rfl
  | unicode a b c d => cases h

/-- The two notations agree on a string in which only quotes, backslashes and slashes are
escaped. -/
theorem unquoted_of_isVerbatim {parts : List Part} (h : ∀ p ∈ parts, p.isVerbatim = true) :
    unquoted parts = codePoints parts := by
  have hcons (p : Part) (rest : List Part) (hp : p.isVerbatim = true) :
      unquoted (p :: rest) = p.point :: unquoted rest := by
    rw [unquoted, bareText, List.flatMap_cons, CodePoint.ofText, List.map_append]
    exact congrArg (· ++ unquoted rest) (Part.bare_of_isVerbatim hp)
  fun_induction codePoints parts with
  | case1 => rfl
  | case2 p => exact hcons p [] (h p List.mem_cons_self)
  | case3 p q rest joined hpair ih =>
      rw [Part.pair?_of_isVerbatim (h p List.mem_cons_self)] at hpair
      cases hpair
  | case4 p q rest hpair ih =>
      obtain ⟨hp, hrest⟩ := List.forall_mem_cons.mp h
      rw [hcons p _ hp, ih hrest]

theorem HexDigit.quotedBody?_cons (h : HexDigit) (cs : Text) :
    Rules.quotedBody? '"' (h.char :: cs) =
      (Rules.quotedBody? '"' cs).map fun (body, later) => (h.char :: body, later) :=
  Rules.quotedBody?_plain (h.char_ne (by decide)) (h.char_ne (by decide)) cs

theorem quotedBody?_part (p : Part) (cs : Text) :
    Rules.quotedBody? '"' (p.text ++ cs) =
      (Rules.quotedBody? '"' cs).map fun (body, later) => (p.bare ++ body, later) := by
  cases p with
  | plain c is => exact Rules.quotedBody?_plain is.2.1 is.2.2 cs
  | letter c meaning is => exact Rules.quotedBody?_escape (by decide) c cs
  | unicode a b c d =>
      simp only [Part.text, Part.bare, List.cons_append, List.nil_append,
        Rules.quotedBody?_escape (show '"' ≠ '\\' by decide), HexDigit.quotedBody?_cons,
        Option.map_map]
      rfl

theorem quotedBody?_bodyText (parts : List Part) (post : Text) :
    Rules.quotedBody? '"' (bodyText parts ++ '"' :: post) = some (bareText parts, post) := by
  induction parts with
  | nil => exact Rules.quotedBody?_quote '"' post
  | cons p parts ih =>
      rw [bodyText_cons, List.append_assoc, quotedBody?_part, ih]
      rfl

/-! ## Parts of a text -/

section Split

variable {post : Text}

theorem parts?_blank (gap : Blank) (post : Text) :
    Rules.parts? (gap.val ++ post) = Rules.parts? post := by
  refine Rules.parts?_blanks (fun c hc => ?_) post
  exact List.all_eq_true.mp (show [' ', '\t', '\n', '\r'].all isBlank = true by decide) c
    (gap.property c hc)

theorem parts?_mark (m : Mark) {c : Char} (hc : Rules.isMark c = true) (post : Text) :
    Rules.parts? (m.text c ++ post) = (Rules.parts? post).map (.mark c :: ·) := by
  rw [Mark.text_append, parts?_blank, Rules.parts?_mark_cons hc, parts?_blank]

theorem parts?_string (parts : List Part) (post : Text) :
    Rules.parts? (stringText parts ++ post) =
      (Rules.parts? post).map (.quoted (bareText parts) :: ·) := by
  rw [stringText, List.cons_append, List.cons_append, List.append_assoc, List.singleton_append]
  exact Rules.parts?_quote_cons rfl (quotedBody?_bodyText parts post)

/-- A word that something stands behind. -/
theorem parts?_word {word : Text} (hne : word ≠ []) (hword : word.all Rules.isWordPart = true)
    (hpost : Starts breaks post) :
    Rules.parts? (word ++ post) = (Rules.parts? post).map (.word word :: ·) := by
  refine Rules.parts?_word_append hne (List.all_eq_true.mp hword) fun c hc => ?_
  exact eq_false_of_any (by decide) (hpost c hc)

end Split

mutual

/-- The parts that the text of a value splits into. -/
def Value.parts : Value → List Rules.Part
  | .null => [.word ['n', 'u', 'l', 'l']]
  | .boolean true => [.word ['t', 'r', 'u', 'e']]
  | .boolean false => [.word ['f', 'a', 'l', 's', 'e']]
  | .number n => [.word n.text]
  | .string parts => [.quoted (bareText parts)]
  | .emptyObject _ _ => [.mark '\x7b', .mark '\x7d']
  | .object _ members _ => .mark '\x7b' :: members.parts ++ [.mark '\x7d']
  | .emptyArray _ _ => [.mark '[', .mark ']']
  | .array _ elements _ => .mark '[' :: elements.parts ++ [.mark ']']

def Members.parts : Members → List Rules.Part
  | .last name _ value => .quoted (bareText name) :: .mark ':' :: value.parts
  | .more name _ value _ rest =>
    .quoted (bareText name) :: .mark ':' :: value.parts ++ .mark ',' :: rest.parts

def Elements.parts : Elements → List Rules.Part
  | .last value => value.parts
  | .more value _ rest => value.parts ++ .mark ',' :: rest.parts

end

mutual

theorem Value.parts?_text (v : Value) {post : Text} (hpost : Starts breaks post) :
    Rules.parts? (v.text ++ post) = (Rules.parts? post).map (v.parts ++ ·) := by
  match v with
  | .null | .boolean true | .boolean false =>
      exact parts?_word (Value.text_ne_nil _) (by decide) hpost
  | .number n =>
      refine parts?_word (Value.text_ne_nil (.number n)) (List.all_eq_true.mpr ?_) hpost
      intro c hc
      exact List.all_eq_true.mp (show numberChars.all Rules.isWordPart = true by decide) c
        (Number.mem_text hc)
  | .string parts => exact parts?_string parts post
  | .emptyObject opening closing | .emptyArray opening closing =>
      rw [Value.text, List.append_assoc, parts?_mark opening rfl, parts?_mark closing rfl,
        Option.map_map]
      rfl
  | .object opening members closing =>
      rw [Value.text, List.append_assoc, List.append_assoc, parts?_mark opening rfl,
        members.parts?_text (Mark.starts (by decide)), parts?_mark closing rfl]
      simp [Value.parts, Function.comp_def]
  | .array opening elements closing =>
      rw [Value.text, List.append_assoc, List.append_assoc, parts?_mark opening rfl,
        elements.parts?_text (Mark.starts (by decide)), parts?_mark closing rfl]
      simp [Value.parts, Function.comp_def]

theorem Members.parts?_text (ms : Members) {post : Text} (hpost : Starts breaks post) :
    Rules.parts? (ms.text ++ post) = (Rules.parts? post).map (ms.parts ++ ·) := by
  match ms with
  | .last name colon value =>
      rw [Members.text, List.append_assoc, List.append_assoc, parts?_string,
        parts?_mark colon rfl, value.parts?_text hpost]
      simp [Members.parts, Function.comp_def]
  | .more name colon value comma rest =>
      simp only [Members.text, List.append_assoc]
      rw [parts?_string, parts?_mark colon rfl,
        value.parts?_text (Mark.starts (by decide)), parts?_mark comma rfl,
        rest.parts?_text hpost]
      simp [Members.parts, Function.comp_def]

theorem Elements.parts?_text (es : Elements) {post : Text} (hpost : Starts breaks post) :
    Rules.parts? (es.text ++ post) = (Rules.parts? post).map (es.parts ++ ·) := by
  match es with
  | .last value => exact value.parts?_text hpost
  | .more value comma rest =>
      simp only [Elements.text, List.append_assoc]
      rw [value.parts?_text (Mark.starts (by decide)), parts?_mark comma rfl,
        rest.parts?_text hpost]
      simp [Elements.parts, Function.comp_def]

end

/-! ## The grammar -/

theorem isNumeric_text (n : Number) : Rules.isNumeric n.text = true := by
  have hbody : (if n.text.head? = some '-' then n.text.drop 1 else n.text) = n.magnitudeText := by
    have hsign := @Number.head?_text n
    cases hminus : n.minus with
    | true =>
        rw [if_pos (hsign.mpr hminus), Number.text, hminus]
        rfl
    | false =>
        rw [if_neg fun h => Bool.false_ne_true (hminus.symm.trans (hsign.mp h)), Number.text,
          hminus]
        rfl
  have hsize : wideDecimalSize isDecimal n.magnitudeText = n.magnitudeText.length := by
    have hwhole := @Number.wideDecimalSize_whole n [] starts_nil
    simpa [Number.afterWhole, Number.magnitudeText, Nat.add_assoc] using hwhole
  obtain ⟨digit, rest, hcons⟩ := n.exists_magnitudeText_eq_cons
  rw [Rules.isNumeric, hbody, hsize, hcons]
  simp

theorem wordValue?_number (n : Number)
    (hdigits : n.isInteger = true → n.whole.list.length ≤ maxDecimalDigits) :
    Rules.wordValue? n.text = some (.number n.value) := by
  rw [Rules.wordValue?_of_isNumeric (isNumeric_text n), literalValue_text n hdigits]
  rfl

mutual

/-- The grammar of rule settings derives from the parts of a value what the value decodes to in the
lenient notation. -/
theorem Value.derives (v : Value) {depth : Nat} (hdepth : v.nesting ≤ depth)
    (hnumbers : Convertible v.numbers) :
    Rules.Derives depth (.value (v.datum unquoted)) v.parts := by
  match v with
  | .null | .boolean true | .boolean false => exact .word rfl
  | .number n => exact .word (wordValue?_number n (hnumbers n (by simp [Value.numbers])))
  | .string parts => exact .quoted (bareText parts)
  | .emptyObject opening closing =>
      rw [Value.nesting] at hdepth
      obtain ⟨depth, rfl⟩ : ∃ d, depth = d + 1 := ⟨depth - 1, by omega⟩
      exact .map .noMembers
  | .object opening members closing =>
      rw [Value.nesting] at hdepth
      obtain ⟨depth, rfl⟩ : ∃ d, depth = d + 1 := ⟨depth - 1, by omega⟩
      exact .map (members.derives (Nat.le_of_succ_le_succ hdepth) hnumbers)
  | .emptyArray opening closing =>
      rw [Value.nesting] at hdepth
      obtain ⟨depth, rfl⟩ : ∃ d, depth = d + 1 := ⟨depth - 1, by omega⟩
      exact .list .noItems
  | .array opening elements closing =>
      rw [Value.nesting] at hdepth
      obtain ⟨depth, rfl⟩ : ∃ d, depth = d + 1 := ⟨depth - 1, by omega⟩
      exact .list (elements.derives (Nat.le_of_succ_le_succ hdepth) hnumbers)

theorem Members.derives (ms : Members) {depth : Nat} (hdepth : ms.nesting ≤ depth)
    (hnumbers : Convertible ms.numbers) :
    Rules.Derives depth (.members (ms.pairs unquoted)) ms.parts := by
  match ms with
  | .last name colon value =>
      have hname : Rules.name? (.quoted (bareText name)) = some (unquoted name) := rfl
      have hmember := Rules.Derives.member hname (value.derives hdepth hnumbers) .noMembers
      rwa [List.append_nil] at hmember
  | .more name colon value comma rest =>
      rw [Members.nesting, Nat.max_le] at hdepth
      obtain ⟨hfirst, hothers⟩ := List.forall_mem_append.mp hnumbers
      exact .member rfl (value.derives hdepth.1 hfirst)
        (.memberComma (rest.derives hdepth.2 hothers))

theorem Elements.derives (es : Elements) {depth : Nat} (hdepth : es.nesting ≤ depth)
    (hnumbers : Convertible es.numbers) :
    Rules.Derives depth (.items (es.data unquoted)) es.parts := by
  match es with
  | .last value =>
      have hitem := Rules.Derives.item (value.derives hdepth hnumbers) .noItems
      rwa [List.append_nil] at hitem
  | .more value comma rest =>
      rw [Elements.nesting, Nat.max_le] at hdepth
      obtain ⟨hfirst, hothers⟩ := List.forall_mem_append.mp hnumbers
      exact .item (value.derives hdepth.1 hfirst) (.itemComma (rest.derives hdepth.2 hothers))

end

/-! ## The inside of an object -/

theorem eq_of_append_closing {front gap t : Text} (hgap : '\x7d' ∉ gap)
    (h : front ++ '\x7d' :: gap = t ++ ['\x7d']) : front = t := by
  rcases List.eq_nil_or_concat gap with rfl | ⟨cs, c, rfl⟩
  · exact List.append_cancel_right h
  · have hlast := congrArg List.getLast? h
    simp only [List.concat_eq_append, ← List.cons_append, ← List.append_assoc,
      List.getLast?_append, List.getLast?_singleton, Option.some_or, Option.some.injEq] at hlast
    subst hlast
    exact absurd (by simp) hgap

theorem Blank.closing_notMem (gap : Blank) : '\x7d' ∉ gap.val := fun h =>
  absurd (gap.property _ h) (by decide)

/-- What stands between the brackets of an object. -/
theorem eq_of_skipSpace_braced {opening closing : Mark} {inside t : Text} {after : Blank}
    (h : Json.skipSpace (opening.text '\x7b' ++ inside ++ closing.text '\x7d' ++ after.val) =
      '\x7b' :: (t ++ ['\x7d'])) :
    t = opening.after.val ++ (inside ++ closing.before.val) := by
  rw [List.append_assoc, List.append_assoc, skipSpace_mark opening rfl] at h
  have hinside := (List.cons.inj h).2
  rw [Mark.text_append, ← List.append_assoc inside, ← List.append_assoc] at hinside
  refine (eq_of_append_closing ?_ hinside).symm
  rw [List.mem_append, not_or]
  exact ⟨closing.after.closing_notMem, after.closing_notMem⟩

/-- A text between braces is an object, and the text is what stands between the brackets of the
object. -/
theorem Json.cases_of_braced {j : Json} {t : Text} (h : j.text = Rules.braced t) :
    (∃ opening closing, j.value = .emptyObject opening closing ∧
      t = opening.after.val ++ closing.before.val) ∨
    (∃ opening members closing, j.value = .object opening members closing ∧
      t = opening.after.val ++ (members.text ++ closing.before.val)) := by
  obtain ⟨before, v, after⟩ := j
  have hskip : Json.skipSpace (v.text ++ after.val) = '\x7b' :: (t ++ ['\x7d']) := by
    rw [← skipSpace_blank before, ← List.append_assoc]
    refine (congrArg Json.skipSpace h).trans ?_
    rw [Rules.braced, List.cons_append, skipSpace_cons rfl]
  have hfirst {c : Char} {cs : Text} (hspace : Json.isSpace c = false) (hc : c ≠ '\x7b')
      (htext : v.text = c :: cs) : False := by
    rw [htext, List.cons_append, skipSpace_cons hspace] at hskip
    exact hc (List.cons.inj hskip).1
  have hbracket {m : Mark} {cs : Text} (htext : v.text = m.text '[' ++ cs) : False := by
    rw [htext, List.append_assoc, skipSpace_mark m rfl] at hskip
    exact absurd (List.cons.inj hskip).1 (by decide)
  cases v with
  | null => exact (hfirst rfl (by decide) rfl).elim
  | boolean b => cases b <;> exact (hfirst rfl (by decide) rfl).elim
  | number n =>
      obtain ⟨c, cs, htext, hc⟩ := n.exists_text_eq_cons
      refine (hfirst (eq_false_of_any (by decide) hc) ?_ htext).elim
      rintro rfl
      exact absurd hc (by decide)
  | string parts => exact (hfirst rfl (by decide) rfl).elim
  | emptyArray opening closing => exact (hbracket rfl).elim
  | array opening elements closing => exact (hbracket (List.append_assoc _ _ _)).elim
  | emptyObject opening closing =>
      refine .inl ⟨opening, closing, rfl, ?_⟩
      rw [Value.text, ← List.append_nil (opening.text _)] at hskip
      exact eq_of_skipSpace_braced hskip
  | object opening members closing =>
      exact .inr ⟨opening, members, closing, rfl, eq_of_skipSpace_braced hskip⟩

/-- The inside of an object has a lenient reading. -/
theorem Json.exists_lenient? {j : Json} {t : Text} (htext : j.text = Rules.braced t)
    (hdepth : j.value.nesting ≤ Rules.maxDepth + 1) (hnumbers : Convertible j.value.numbers) :
    ∃ entries, Rules.lenient? t = some entries ∧ j.value.datum unquoted = .map entries := by
  have hgap (gap : Blank) : Rules.parts? gap.val = some [] := by
    rw [← List.append_nil gap.val, parts?_blank, Rules.parts?]
  rcases Json.cases_of_braced htext with ⟨opening, closing, hvalue, rfl⟩ |
    ⟨opening, members, closing, hvalue, rfl⟩
  · refine ⟨[], ?_, by rw [hvalue, Value.datum]⟩
    rw [Rules.lenient?, parts?_blank, hgap]
    rfl
  · rw [hvalue] at hdepth hnumbers
    rw [Value.nesting] at hdepth
    have hparts : Rules.parts? (opening.after.val ++ (members.text ++ closing.before.val)) =
        some members.parts := by
      rw [parts?_blank, members.parts?_text (Blank.starts closing.before), hgap]
      simp
    have hderives := members.derives (Nat.le_of_succ_le_succ hdepth) hnumbers
    refine ⟨_, ?_, by rw [hvalue, Value.datum]⟩
    rw [Rules.lenient?, hparts, Option.bind_some, (Rules.ofParts?_of_derives hderives).1]

end LocatedJson.Interchange

namespace LocatedJson

open Interchange in
/-- The inside of an interchange object with not too many brackets has a lenient reading. It is
what the object decodes to if backslashes are just left out of strings, and those are the
settings unless a value in it sets no rule. Where only quotes, backslashes and slashes are
escaped it is what the strict reader finds, given room for the brackets, and what the object
decodes to. -/
theorem Rules.read_inside (t : Text) (j : Interchange.Json) (htext : j.text = Rules.braced t)
    (hdepth : j.value.nesting ≤ Rules.maxDepth + 1) (hnumbers : Convertible j.value.numbers) :
    ∃ entries, Rules.lenient? t = some entries ∧ j.value.datum unquoted = .map entries ∧
      (Rules.allSet entries = true → ∀ depth, Rules.read t depth = .ok (.ok entries)) ∧
      ((∀ parts ∈ j.value.strings, ∀ p ∈ parts, p.isVerbatim = true) →
        j.value.decoded = .map entries ∧ ∀ depth, j.value.nesting ≤ depth →
          Json.read depth (Rules.braced t) = .ok (.map entries)) := by
  obtain ⟨entries, hlenient, hdatum⟩ := Json.exists_lenient? htext hdepth hnumbers
  refine ⟨entries, hlenient, hdatum, ?_, ?_⟩
  · intro hset depth
    rw [Rules.read, hlenient, Option.filter_some, if_pos hset]
  · intro hverbatim
    have hdecoded : j.value.decoded = .map entries := by
      rw [← hdatum, Value.decoded]
      refine Value.datum_congr _ fun parts hparts => ?_
      exact (unquoted_of_isVerbatim (hverbatim parts hparts)).symm
    refine ⟨hdecoded, fun depth hroom => ?_⟩
    rw [← htext, j.read_text hroom hnumbers, hdecoded]

namespace Interchange

/-- The name `a`. -/
def shortName : List Part := [.plain 'a' (by decide)]

/-- The object `{"a":[2,...]}` with a string of one escape in the list. -/
def escapeSetting (c meaning : Char) (is : (c, meaning) ∈ letters) : Json :=
  let mark : Mark := ⟨.none, .none⟩
  let two : Number := ⟨false, .digits ⟨'2', by decide⟩ (by decide) [], none, none⟩
  ⟨.none, .object mark (.last shortName mark (.array mark
    (.more (.number two) mark (.last (.string [.letter c meaning is]))) mark)) mark, .none⟩

theorem convertible_escapeSetting {c meaning : Char} (is : (c, meaning) ∈ letters) :
    Convertible (escapeSetting c meaning is).value.numbers := by
  intro n hn _
  obtain rfl := List.mem_singleton.mp hn
  decide

end Interchange

open Interchange in
/-- The settings `"a":[2,"\""]` are read leniently, and as the object between braces decodes; the
strict reader has to have room for two brackets. -/
theorem Rules.read_inside_quote :
    Rules.read ['"', 'a', '"', ':', '[', '2', ',', '"', '\\', '"', '"', ']'] 0 =
      .ok (.ok [([0x61], .list [.number (.int 2), .text [0x22]])]) ∧
    (escapeSetting '"' '"' (by decide)).value.decoded =
      .map [([0x61], .list [.number (.int 2), .text [0x22]])] ∧
    Json.read 2 (Rules.braced ['"', 'a', '"', ':', '[', '2', ',', '"', '\\', '"', '"', ']']) =
      .ok (.map [([0x61], .list [.number (.int 2), .text [0x22]])]) := by
  obtain ⟨entries, -, hdatum, hread, hdecoded⟩ := Rules.read_inside
    ['"', 'a', '"', ':', '[', '2', ',', '"', '\\', '"', '"', ']']
    (escapeSetting '"' '"' (by decide)) rfl (by decide) (convertible_escapeSetting _)
  have hentries : [([0x61], .list [.number (.int 2), .text [0x22]])] = entries :=
    Datum.map.inj hdatum
  subst hentries
  refine ⟨hread rfl 0, And.imp_right (fun hstrict => hstrict 2 (by decide)) (hdecoded ?_)⟩
  intro parts hparts p hp
  have hmem : parts ∈ [[Part.plain 'a' (by decide)], [Part.letter '"' '"' (by decide)]] := hparts
  simp only [List.mem_cons, List.not_mem_nil, or_false] at hmem
  rcases hmem with rfl | rfl
  · obtain rfl := List.mem_singleton.mp hp
    rfl
  · obtain rfl := List.mem_singleton.mp hp
    rfl

open Interchange in
/-- The two notations do not agree on `"a":[2,"\n"]`, however much room there is: one has a letter
where the other has a line feed. -/
theorem Rules.read_ne_decoded :
    ¬ ∃ depth, ∀ (t : Text) (j : Interchange.Json) (entries : Rules.Settings),
      j.text = Rules.braced t → j.value.nesting ≤ Rules.maxDepth → Convertible j.value.numbers →
      Rules.lenient? t = some entries → Rules.allSet entries = true →
      ∃ settings, Rules.read t depth = .ok (.ok settings) ∧ j.value.decoded = .map settings := by
  rintro ⟨depth, hagree⟩
  have hnumbers := convertible_escapeSetting (c := 'n') (show ('n', '\n') ∈ letters by decide)
  obtain ⟨entries, hlenient, hdatum⟩ := Json.exists_lenient?
    (t := ['"', 'a', '"', ':', '[', '2', ',', '"', '\\', 'n', '"', ']'])
    (j := escapeSetting 'n' '\n' (by decide)) rfl (by decide) hnumbers
  have hentries : [([0x61], .list [.number (.int 2), .text [0x6E]])] = entries :=
    Datum.map.inj hdatum
  subst hentries
  obtain ⟨settings, hread, hdecoded⟩ := hagree _ (escapeSetting 'n' '\n' (by decide)) _ rfl
    (by decide) hnumbers hlenient rfl
  have hlineFeed : [([0x61], .list [.number (.int 2), .text [0x0A]])] = settings :=
    Datum.map.inj hdecoded
  subst hlineFeed
  rw [Rules.read, hlenient] at hread
  cases hread

end LocatedJson
