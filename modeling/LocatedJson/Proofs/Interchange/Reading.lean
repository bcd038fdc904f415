import LocatedJson.Proofs.Derivation
import LocatedJson.Proofs.Interchange.Number
import LocatedJson.Proofs.Interchange.String
import LocatedJson.Proofs.Lexing

/-!
# Interchange texts are read in all dialects

A text of the interchange grammar is read as what its derivation denotes
(`Document.ofText_interchange`). The tokens of the text are found along its
derivation, and out of them a derivation of the token grammar is built at the
same time; the descent then has no say in the matter, because it accepts
exactly those.

White space stands on both sides of marks in the interchange grammar and in
front of tokens in a run. So what is carried from one part of a text to the
next is an offset together with some white space behind it (`At`).
-/

namespace LocatedJson.Interchange

open LocatedJson.Text

/-- Behind some white space at an offset of a text stands the rest of it. -/
def At (text : Text) (k : Nat) (rest : Text) : Prop :=
  ∃ gap : Blank, text.drop k = gap.val ++ rest

variable {text post : Text} {k : Nat}

theorem At.skip {gap : Blank} (h : At text k (gap.val ++ post)) : At text k post := by
  obtain ⟨before, hbefore⟩ := h
  refine ⟨⟨before.val ++ gap.val, ?_⟩, by rw [hbefore, List.append_assoc]⟩
  intro c hc
  rcases List.mem_append.mp hc with hc | hc
  · exact before.property c hc
  · exact gap.property c hc

theorem isSpace_of_mem_blank (d : Dialect) {gap : Blank} {c : Char} (h : c ∈ gap.val) :
    d.isSpace c = true :=
  List.all_eq_true.mp (show [' ', '\t', '\n', '\r'].all d.isSpace = true by cases d <;> decide) c
    (gap.property c h)

theorem At.spaced (d : Dialect) (h : At text k post) : Spaced d text k post := by
  obtain ⟨gap, hgap⟩ := h
  exact ⟨gap.val, fun _ => isSpace_of_mem_blank d, hgap⟩

/-! ## One token -/

variable {d : Dialect}

/-- A lexeme behind the white space is a run of one token. -/
theorem At.exists_token {c : Char} {rest : Text} {kind : Token.Kind}
    (h : At text k (c :: rest ++ post)) (hspace : d.isSpace c = false)
    (hscan : Lexeme.scan d c (rest ++ post) = .found kind (c :: rest).length) :
    ∃ t n, Run d text k [t] n ∧ t.kind = kind ∧ t.text = c :: rest ∧ At text n post := by
  obtain ⟨t, n, hrun, hkind, htext, hpost⟩ := (h.spaced d).exists_token hspace hscan
  exact ⟨t, n, hrun, hkind, htext, ⟨[], by simp⟩, hpost⟩

theorem Mark.text_append (m : Mark) (c : Char) (post : Text) :
    m.text c ++ post = m.before.val ++ (c :: (m.after.val ++ post)) := by
  simp [Mark.text]

theorem Blank.mem_breaks (gap : Blank) {c : Char} (h : c ∈ gap.val) : c ∈ breaks := by
  have hblank := List.all_eq_true.mp
    (show [' ', '\t', '\n', '\r'].all breaks.contains = true by decide) c (gap.property c h)
  simpa using hblank

theorem Blank.starts (gap : Blank) : Starts breaks gap.val :=
  fun _ hc => Blank.mem_breaks gap (List.mem_of_head? hc)

theorem Mark.starts {m : Mark} {c : Char} (hc : c ∈ breaks) : Starts breaks (m.text c ++ post) := by
  rw [Mark.text_append]
  cases hbefore : m.before.val with
  | nil => exact starts_cons hc
  | cons b before => exact starts_cons (Blank.mem_breaks m.before (by simp [hbefore]))

theorem At.exists_mark {m : Mark} {c : Char} {kind : Token.Kind}
    (h : At text k (m.text c ++ post)) (hkind : Lexeme.markKind? c = some kind)
    (hc : c ∈ ['\x7b', '\x7d', '[', ']', ':', ',']) :
    ∃ t : Grammar.Terminal kind, ∃ n, Run d text k [t.val] n ∧ At text n post := by
  have hspace : d.isSpace c = false := eq_false_of_any (by cases d <;> decide) hc
  have hslash : c ≠ '/' := by
    rintro rfl
    cases hkind
  rw [Mark.text_append] at h
  have hscan : Lexeme.scan d c ([] ++ (m.after.val ++ post)) = .found kind [c].length := by
    rw [Lexeme.scan, Lexeme.comment?_of_ne hslash, Lexeme.mark?, hkind]
    rfl
  obtain ⟨t, n, hrun, rfl, -, hat⟩ :=
    @At.exists_token text (m.after.val ++ post) k d c [] kind h.skip hspace hscan
  exact ⟨⟨t, rfl⟩, n, hrun, hat.skip⟩

/-- The body of a string is what is left of it without its first and last character. -/
theorem slice_quoted (body : Text) (a b : Char) : slice (a :: (body ++ [b])) 1 (-1) = body := by
  have hstart : place (body.length + 2) 1 = 1 := place_natCast (n := 1) (by omega)
  have hstop : place (body.length + 2) (-1) = body.length + 1 := by
    unfold place
    split <;> omega
  have hlength : (a :: (body ++ [b])).length = body.length + 2 := by simp
  rw [slice, hlength, hstart, hstop]
  simp

theorem At.exists_string {parts : List Part} (h : At text k (stringText parts ++ post)) :
    ∃ t n, Run d text k [t] n ∧ t.kind = .string ∧
      StringBody.decode d (slice t.text 1 (-1)) = .ok (codePoints parts) ∧ At text n post := by
  have hspace : d.isSpace '"' = false := by cases d <;> decide
  have hscan : Lexeme.scan d '"' (bodyText parts ++ ['"'] ++ post) =
      .found .string (stringText parts).length := by
    rw [List.append_assoc]
    exact scan_string d parts post
  obtain ⟨t, n, hrun, hkind, htext, hat⟩ := At.exists_token h hspace hscan
  have hbody : t.text = '"' :: (bodyText parts ++ ['"']) := htext
  exact ⟨t, n, hrun, hkind, by rw [hbody, slice_quoted, decode_bodyText], hat⟩

theorem At.exists_number {n : Number} (h : At text k (n.text ++ post)) (hpost : Starts breaks post)
    (hdigits : n.isInteger = true → n.whole.list.length ≤ Numeral.maxDecimalDigits) :
    ∃ t m, Run d text k [t] m ∧ t.kind = .number ∧ Numeral.literalValue t.text = .ok n.value ∧
      At text m post := by
  obtain ⟨c, rest, htext, hc⟩ := n.exists_text_eq_cons
  have hspace : d.isSpace c = false := eq_false_of_any (by cases d <;> decide) hc
  have hscan := scan_number d n htext hpost
  rw [htext] at h hscan
  obtain ⟨t, m, hrun, hkind, ht, hat⟩ := At.exists_token h hspace hscan
  exact ⟨t, m, hrun, hkind, by rw [ht, ← htext, literalValue_text n hdigits], hat⟩

theorem scan_word {c : Char} {rest : Text} {kind : Token.Kind} (hslash : c ≠ '/')
    (hmark : Lexeme.markKind? c = none) (hquote : d.isQuote c = false)
    (hkeyword : Lexeme.signedKeyword? d c (rest ++ post) = none)
    (hnumber : Lexeme.number? d (c :: (rest ++ post)) = none)
    (hstart : Lexeme.isWordStart c = true) (hrest : rest.all Lexeme.isWordPart = true)
    (hkind : Lexeme.wordKind? d (c :: rest) = some kind) (hpost : Starts breaks post) :
    Lexeme.scan d c (rest ++ post) = .found kind (c :: rest).length := by
  have hword := hpost.takeWhile_append (List.all_eq_true.mp hrest) (by decide)
  rw [Lexeme.scan_of_plain hslash hmark hquote, hkeyword, hnumber, Lexeme.word?, if_pos hstart]
  simp only [hword, hkind, Option.getD_none, Option.getD_some, List.length_cons, Nat.add_comm]

/-- The words of the grammar. -/
def words : List (Char × Text × Token.Kind) :=
  [('n', ['u', 'l', 'l'], .null), ('t', ['r', 'u', 'e'], .boolean),
   ('f', ['a', 'l', 's', 'e'], .boolean)]

theorem At.exists_word {c : Char} {rest : Text} {kind : Token.Kind}
    (hword : (c, rest, kind) ∈ words) (h : At text k (c :: rest ++ post))
    (hpost : Starts breaks post) :
    ∃ t n, Run d text k [t] n ∧ t.kind = kind ∧ t.text = c :: rest ∧ At text n post := by
  simp only [words, List.mem_cons, List.not_mem_nil, or_false, Prod.mk.injEq] at hword
  obtain ⟨hspace, hscan⟩ : d.isSpace c = false ∧
      Lexeme.scan d c (rest ++ post) = .found kind (c :: rest).length := by
    rcases hword with ⟨rfl, rfl, rfl⟩ | ⟨rfl, rfl, rfl⟩ | ⟨rfl, rfl, rfl⟩ <;>
      refine ⟨by cases d <;> decide, scan_word (by decide) (by decide) (by cases d <;> decide)
        (by simp [Lexeme.signedKeyword?]) (by cases d <;> rfl) (by decide) (by decide)
        (by cases d <;> decide) hpost⟩
  exact At.exists_token h hspace hscan

/-! ## Values

The proofs go along the text from left to right: each part leaves the offset behind its last
token, and the white space that follows it there is skipped by the next part. -/

/-- The tokens stand one after the other from an offset on, and the rest follows them. -/
def Found (d : Dialect) (text : Text) (k : Nat) (post : Text) (ts : List Token) : Prop :=
  ∃ n, Run d text k ts n ∧ At text n post

variable {trailing : Bool}

/-- One token that is a value by itself. -/
theorem exists_scalar {v : Value} {t : Token} {n : Nat} {node : Node} (is : Grammar.Scalar d t node)
    (hrun : Run d text k [t] n) (hat : At text n post) (hdenotes : v.Denotes node)
    (hnesting : v.nesting = 0) :
    ∃ g : Grammar.Value d trailing, Found d text k post g.tokens ∧ v.Denotes g.node ∧
      g.nesting = v.nesting :=
  ⟨.scalar t node is, ⟨n, hrun, hat⟩, hdenotes, hnesting.symm⟩

mutual

theorem Value.exists_derivation (v : Value) {text post : Text} {k : Nat}
    (h : At text k (v.text ++ post)) (hpost : Starts breaks post)
    (hnumbers : Convertible v.numbers) :
    ∃ g : Grammar.Value d trailing, Found d text k post g.tokens ∧ v.Denotes g.node ∧
      g.nesting = v.nesting := by
  match v with
  | .null =>
      obtain ⟨t, n, hrun, hkind, -, hat⟩ := At.exists_word (d := d) (.head _) h hpost
      exact exists_scalar (.null hkind) hrun hat ⟨_, rfl⟩ rfl
  | .boolean true =>
      obtain ⟨t, n, hrun, hkind, htext, hat⟩ := At.exists_word (d := d) (.tail _ (.head _)) h hpost
      refine exists_scalar (.boolean hkind) hrun hat ⟨t.extent, ?_⟩ rfl
      rw [htext]
      rfl
  | .boolean false =>
      obtain ⟨t, n, hrun, hkind, htext, hat⟩ :=
        At.exists_word (d := d) (.tail _ (.tail _ (.head _))) h hpost
      refine exists_scalar (.boolean hkind) hrun hat ⟨t.extent, ?_⟩ rfl
      rw [htext]
      rfl
  | .number n =>
      obtain ⟨t, m, hrun, hkind, hvalue, hat⟩ := At.exists_number (d := d) h hpost
        (hnumbers n (by simp [Value.numbers]))
      exact exists_scalar (.number hkind hvalue) hrun hat ⟨_, rfl⟩ rfl
  | .string parts =>
      obtain ⟨t, n, hrun, hkind, hvalue, hat⟩ := At.exists_string (d := d) h
      exact exists_scalar (.string hkind hvalue) hrun hat ⟨_, rfl⟩ rfl
  | .emptyObject opening closing =>
      rw [Value.text, List.append_assoc] at h
      obtain ⟨first, m, hfirst, hat⟩ := At.exists_mark (d := d) h rfl (by simp)
      obtain ⟨last, n, hlast, hat⟩ := At.exists_mark (d := d) hat rfl (by simp)
      exact ⟨.emptyObject first last, ⟨n, hfirst.append hlast, hat⟩, ⟨_, rfl⟩, rfl⟩
  | .object opening members closing =>
      rw [Value.text, List.append_assoc, List.append_assoc] at h
      obtain ⟨first, m, hfirst, hat⟩ := At.exists_mark (d := d) h rfl (by simp)
      obtain ⟨g, ⟨m', hmembers, hat⟩, hdenotes, hnesting⟩ :=
        members.exists_derivation hat (Mark.starts (by decide)) hnumbers
      obtain ⟨last, n, hlast, hat⟩ := At.exists_mark (d := d) hat rfl (by simp)
      refine ⟨.object first g last, ⟨n, hfirst.append (hmembers.append hlast), hat⟩, ?_, ?_⟩
      · exact ⟨_, _, rfl, hdenotes⟩
      · rw [Grammar.Value.nesting, Value.nesting, hnesting]
  | .emptyArray opening closing =>
      rw [Value.text, List.append_assoc] at h
      obtain ⟨first, m, hfirst, hat⟩ := At.exists_mark (d := d) h rfl (by simp)
      obtain ⟨last, n, hlast, hat⟩ := At.exists_mark (d := d) hat rfl (by simp)
      exact ⟨.emptyArray first last, ⟨n, hfirst.append hlast, hat⟩, ⟨_, rfl⟩, rfl⟩
  | .array opening elements closing =>
      rw [Value.text, List.append_assoc, List.append_assoc] at h
      obtain ⟨first, m, hfirst, hat⟩ := At.exists_mark (d := d) h rfl (by simp)
      obtain ⟨g, ⟨m', helements, hat⟩, hdenotes, hnesting⟩ :=
        elements.exists_derivation hat (Mark.starts (by decide)) hnumbers
      obtain ⟨last, n, hlast, hat⟩ := At.exists_mark (d := d) hat rfl (by simp)
      refine ⟨.array first g last, ⟨n, hfirst.append (helements.append hlast), hat⟩, ?_, ?_⟩
      · exact ⟨_, _, rfl, hdenotes⟩
      · rw [Grammar.Value.nesting, Value.nesting, hnesting]

theorem Members.exists_derivation (m : Members) {text post : Text} {k : Nat}
    (h : At text k (m.text ++ post)) (hpost : Starts breaks post)
    (hnumbers : Convertible m.numbers) :
    ∃ g : Grammar.Members d trailing, Found d text k post g.tokens ∧ m.Denotes g.pairs ∧
      g.nesting = m.nesting := by
  match m with
  | .last name colon value =>
      rw [Members.text, List.append_assoc, List.append_assoc] at h
      obtain ⟨t, m₁, hname, hkind, hpoints, hat⟩ := At.exists_string (d := d) h
      obtain ⟨mark, m₂, hcolon, hat⟩ := At.exists_mark (d := d) hat rfl (by simp)
      obtain ⟨g, ⟨n, hvalue, hat⟩, hdenotes, hnesting⟩ :=
        value.exists_derivation hat hpost hnumbers
      refine ⟨.last t _ (.quoted hkind hpoints) mark g .none, ⟨n, ?_, hat⟩, ?_, hnesting⟩
      · simpa [Grammar.Members.tokens, Grammar.Trailer.tokens] using
          hname.append (hcolon.append hvalue)
      · exact ⟨_, _, rfl, hdenotes⟩
  | .more name colon value comma rest =>
      simp only [Members.text, List.append_assoc] at h
      obtain ⟨hfirst, hothers⟩ := List.forall_mem_append.mp hnumbers
      obtain ⟨t, m₁, hname, hkind, hpoints, hat⟩ := At.exists_string (d := d) h
      obtain ⟨mark, m₂, hcolon, hat⟩ := At.exists_mark (d := d) hat rfl (by simp)
      obtain ⟨g, ⟨m₃, hvalue, hat⟩, hdenotes, hnesting⟩ :=
        value.exists_derivation hat (Mark.starts (by decide)) hfirst
      obtain ⟨mark', m₄, hcomma, hat⟩ := At.exists_mark (d := d) hat rfl (by simp)
      obtain ⟨g', ⟨n, hrest, hat⟩, hdenotes', hnesting'⟩ :=
        rest.exists_derivation hat hpost hothers
      refine ⟨.more t _ (.quoted hkind hpoints) mark g mark' g', ⟨n, ?_, hat⟩, ?_, ?_⟩
      · exact hname.append (hcolon.append (hvalue.append (hcomma.append hrest)))
      · exact ⟨_, _, _, rfl, hdenotes, hdenotes'⟩
      · rw [Grammar.Members.nesting, Members.nesting, hnesting, hnesting']

theorem Elements.exists_derivation (es : Elements) {text post : Text} {k : Nat}
    (h : At text k (es.text ++ post)) (hpost : Starts breaks post)
    (hnumbers : Convertible es.numbers) :
    ∃ g : Grammar.Elements d trailing, Found d text k post g.tokens ∧ es.Denotes g.nodes ∧
      g.nesting = es.nesting := by
  match es with
  | .last value =>
      obtain ⟨g, ⟨n, hvalue, hat⟩, hdenotes, hnesting⟩ :=
        value.exists_derivation h hpost hnumbers
      refine ⟨.last g .none, ⟨n, ?_, hat⟩, ⟨_, rfl, hdenotes⟩, hnesting⟩
      simpa [Grammar.Elements.tokens, Grammar.Trailer.tokens] using hvalue
  | .more value comma rest =>
      simp only [Elements.text, List.append_assoc] at h
      obtain ⟨hfirst, hothers⟩ := List.forall_mem_append.mp hnumbers
      obtain ⟨g, ⟨m₁, hvalue, hat⟩, hdenotes, hnesting⟩ :=
        value.exists_derivation h (Mark.starts (by decide)) hfirst
      obtain ⟨mark, m₂, hcomma, hat⟩ := At.exists_mark (d := d) hat rfl (by simp)
      obtain ⟨g', ⟨n, hrest, hat⟩, hdenotes', hnesting'⟩ :=
        rest.exists_derivation hat hpost hothers
      refine ⟨.more g mark g', ⟨n, hvalue.append (hcomma.append hrest), hat⟩, ?_, ?_⟩
      · exact ⟨_, _, rfl, hdenotes, hdenotes'⟩
      · rw [Grammar.Elements.nesting, Elements.nesting, hnesting, hnesting']

end

/-- The tokens of a whole text are a derivation of what the text denotes. -/
theorem Json.exists_derivation (j : Json) (hnumbers : Convertible j.value.numbers) :
    ∃ g : Grammar.Value d trailing, (Lexed.ofText d j.text).tokens = g.tokens ∧
      (Lexed.ofText d j.text).fault? = none ∧ j.value.Denotes g.node ∧
      g.nesting = j.value.nesting := by
  have hstart : At j.text 0 (j.value.text ++ j.after.val) :=
    ⟨j.before, by rw [List.drop_zero, Json.text, List.append_assoc]⟩
  obtain ⟨g, ⟨n, hrun, hat⟩, hdenotes, hnesting⟩ :=
    j.value.exists_derivation (d := d) hstart (Blank.starts j.after) hnumbers
  rw [← List.append_nil j.after.val] at hat
  have hgap := (hat.skip.spaced d).gap_length (hrun.le_length (Nat.zero_le _))
  obtain ⟨htokens, hfault⟩ := hrun.ofText_eq hgap
  exact ⟨g, htokens, hfault, hdenotes, hnesting⟩

end LocatedJson.Interchange

namespace LocatedJson

/-- In every dialect a text of the interchange grammar within the limits is read as a document,
and the document is what the text denotes. -/
theorem Document.ofText_interchange (profile : Profile) (j : Interchange.Json)
    (hsize : j.text.length ≤ profile.limits.maxSize)
    (hnesting : j.value.nesting ≤ profile.limits.maxDepth)
    (hnumbers : Interchange.Convertible j.value.numbers) :
    ∃ doc, Document.ofText profile j.text = .ok doc ∧ j.value.Denotes doc.body := by
  obtain ⟨g, htokens, hfault, hdenotes, hdepth⟩ :=
    @Interchange.Json.exists_derivation profile.dialect profile.allowsTrailingCommas j hnumbers
  have hcode : g.tokens = (Lexed.ofText profile.dialect j.text).tokens.filter Token.isCode := by
    rw [htokens, g.filter_isCode_tokens]
  obtain ⟨doc, hdoc, hbody⟩ : ∃ doc, Document.ofTokens profile j.text
      (Lexed.ofText profile.dialect j.text).tokens = .ok doc ∧ doc.body = g.node :=
    ⟨_, Document.ofTokens_eq_ok_iff.mpr ⟨g, hcode, hdepth ▸ hnesting, rfl⟩, rfl⟩
  exact ⟨doc, Document.ofText_eq_ok_iff.mpr ⟨hsize, hfault, hdoc⟩, hbody ▸ hdenotes⟩

/-- The object `{"\ud83d\ude00":-12}` has one member, whose name is one code point. -/
theorem Document.ofText_interchange_member :
    ∃ doc e e' e'', Document.ofText {} ['\x7b', '"', '\\', 'u', 'd', '8', '3', 'd', '\\', 'u',
      'd', 'e', '0', '0', '"', ':', '-', '1', '2', '\x7d'] = .ok doc ∧
      doc.body = .object e [(.quoted e' [0x1F600], .number e'' (.int (-12)))] := by
  let blank : Interchange.Blank := ⟨[], by simp⟩
  let mark : Interchange.Mark := ⟨blank, blank⟩
  let high : Interchange.Part := .unicode ⟨'d', by decide⟩ ⟨'8', by decide⟩ ⟨'3', by decide⟩
    ⟨'d', by decide⟩
  let low : Interchange.Part := .unicode ⟨'d', by decide⟩ ⟨'e', by decide⟩ ⟨'0', by decide⟩
    ⟨'0', by decide⟩
  let number : Interchange.Number :=
    ⟨true, .digits ⟨'1', by decide⟩ (by decide) [⟨'2', by decide⟩], none, none⟩
  have hname : Interchange.codePoints [high, low] = [0x1F600] := by decide +kernel
  have hnumbers : Interchange.Convertible [number] := by
    intro n hn _
    obtain rfl : n = number := by simpa using hn
    decide
  obtain ⟨doc, hdoc, e, pairs, hbody, e', node, rfl, e'', rfl⟩ := Document.ofText_interchange {}
    ⟨blank, .object mark (.last [high, low] mark (.number number)) mark, blank⟩
    (by decide) (by decide) hnumbers
  rw [hname] at hbody
  exact ⟨doc, e, e', e'', hdoc, hbody⟩

end LocatedJson
