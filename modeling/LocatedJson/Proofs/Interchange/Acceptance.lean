import LocatedJson.Proofs.Interchange.Spelling

/-!
# Documents outside the interchange grammar

The plain dialect is meant to be the interchange grammar, but a document is in
the grammar exactly if all its tokens are strict (`Document.exists_json_iff`).
In one direction the tokens are found along a derivation of the text, and they
spell what the derivation does. In the other the derivation of the tokens is
turned into one of the text: white space in front of a mark is white space
before that mark, and all other white space is white space after the mark in
front of it.
-/

namespace LocatedJson

open LocatedJson.Text LocatedJson.Numeral
open LocatedJson.Interchange (Blank Mark Part bodyText stringText Starts breaks At Found)

/-! ## From tokens to texts -/

section Tokens

variable {text : Text} {k n : Nat} {t : Token}

/-- The white space in front of the first token of a run, and the characters of the token. -/
theorem Run.exists_blank {ts : List Token} (h : Run .json text k (t :: ts) n) :
    Spelled t.kind t.text ∧ ∃ (gap : Blank) (m : Nat),
      text.drop k = gap.val ++ (t.text ++ text.drop m) ∧ Run .json text m ts n := by
  refine ⟨(h.alone t List.mem_cons_self).spelled, ?_⟩
  cases h with
  | @cons _ m _ size ch rest kind ts hgap hrest hscan hrun =>
      have hblank : ∀ c ∈ (text.drop k).take (m - k), c ∈ [' ', '\t', '\n', '\r'] := by
        intro c hc
        have hspace := hgap.isSpace_of_mem hc
        simpa [Dialect.isSpace] using hspace
      refine ⟨⟨_, hblank⟩, m + size, ?_, hrun⟩
      have hkm := hgap.le
      calc text.drop k = (text.drop k).take (m - k) ++ (text.drop k).drop (m - k) :=
            (List.take_append_drop _ _).symm
        _ = (text.drop k).take (m - k) ++ text.drop m := by
            rw [List.drop_drop, Nat.add_sub_cancel' hkm]
        _ = (text.drop k).take (m - k) ++
              ((text.drop m).take size ++ text.drop (m + size)) := by
            rw [← List.drop_drop, List.take_append_drop]
        _ = _ := by rw [Cursor.tokenOf, Cursor.rest_atOffset]

theorem exists_stringText {points : List CodePoint} (hspelled : Spelled t.kind t.text)
    (hkind : t.kind = .string)
    (hdecode : StringBody.decode .json (slice t.text 1 (-1)) = .ok points)
    (hstrict : t.isStrict = true) : ∃ parts, stringText parts = t.text := by
  rw [Token.isStrict, hkind] at hstrict
  rw [hkind] at hspelled
  rcases hspelled.cases_of_isMark rfl with ⟨-, body, hbody, hquoted⟩ | ⟨hwrong, -⟩ | ⟨hwrong, -⟩ |
    ⟨hwrong, -⟩
  · rw [hbody, Interchange.slice_quoted] at hdecode hstrict
    obtain ⟨parts, rfl⟩ := StringBody.exists_parts hdecode ⟨hquoted, hstrict⟩
    exact ⟨parts, hbody.symm⟩
  · cases hwrong
  · cases hwrong
  · cases hwrong

/-- A strict token that is a value is a value of the grammar. -/
theorem Grammar.Scalar.exists_value {node : Node} (h : Scalar .json t node)
    (hspelled : Spelled t.kind t.text) (hstrict : t.isStrict = true) :
    ∃ v : Interchange.Value, v.text = t.text := by
  rcases hspelled.cases_of_isMark h.isMark_eq_false with ⟨hkind, -⟩ | ⟨hkind, hsize, hne⟩ |
    ⟨-, htext | htext⟩ | ⟨-, htext⟩
  · cases h with
    | string _ decodes =>
        obtain ⟨parts, hparts⟩ := exists_stringText hspelled hkind decodes hstrict
        exact ⟨.string parts, hparts⟩
    | number kind | boolean kind | null kind | nan kind | infinity kind =>
        cases hkind.symm.trans kind
  · rw [Token.isStrict, hkind] at hstrict
    obtain ⟨number, hnumber⟩ := exists_number hsize hne (by simpa using hstrict)
    exact ⟨.number number, hnumber⟩
  · exact ⟨.boolean true, htext.symm⟩
  · exact ⟨.boolean false, htext.symm⟩
  · exact ⟨.null, htext.symm⟩

theorem Grammar.Name.exists_stringText {key : Key} (h : Name .json t key)
    (hspelled : Spelled t.kind t.text) (hstrict : t.isStrict = true) :
    ∃ parts, stringText parts = t.text := by
  cases h with
  | quoted kind decodes => exact LocatedJson.exists_stringText hspelled kind decodes hstrict
  | bare json5 kind => cases json5

/-- The white space in front of a mark, and the mark. -/
theorem Run.exists_mark {kind : Token.Kind} {mark : Grammar.Terminal kind} {ts : List Token}
    (h : Run .json text k (mark.val :: ts) n) {c : Char} (hc : (c, kind) ∈ markChars) :
    ∃ (gap : Blank) (m : Nat), text.drop k = gap.val ++ c :: text.drop m ∧
      Run .json text m ts n := by
  obtain ⟨hspelled, gap, m, hdrop, hrun⟩ := h.exists_blank
  rw [hspelled.eq_of_mark (by rwa [mark.property])] at hdrop
  exact ⟨gap, m, hdrop, hrun⟩

end Tokens

namespace Grammar

variable {text : Text} {n : Nat}

/-- Behind some white space at an offset of a text stands a text of the grammar, and the tokens
go on behind it. -/
def Spells (text : Text) (k n : Nat) (ts : List Token) (cs : Text) : Prop :=
  ∃ (gap : Blank) (m : Nat), text.drop k = gap.val ++ (cs ++ text.drop m) ∧
    Run .json text m ts n

theorem Trailer.tokens_eq_nil (trailer : Trailer false) : trailer.tokens = [] := by
  cases trailer with
  | none => rfl
  | comma t allowed => cases allowed

mutual

/-- The strict tokens of a value are a value of the grammar. -/
theorem Value.exists_spells (g : Value .json false) {k : Nat} {ts : List Token}
    (h : Run .json text k (g.tokens ++ ts) n) (hstrict : ∀ t ∈ g.tokens, t.isStrict = true) :
    ∃ v : Interchange.Value, Spells text k n ts v.text := by
  match g with
  | .scalar t node is =>
      obtain ⟨hspelled, gap, m, hdrop, hrun⟩ := h.exists_blank
      obtain ⟨v, hv⟩ := is.exists_value hspelled (hstrict t List.mem_cons_self)
      exact ⟨v, gap, m, by rw [hv, hdrop], hrun⟩
  | .emptyObject opening closing =>
      obtain ⟨gap, m, hopening, hrun⟩ := h.exists_mark (c := '\x7b') (by decide)
      obtain ⟨inner, m', hclosing, hrun⟩ := hrun.exists_mark (c := '\x7d') (by decide)
      refine ⟨.emptyObject ⟨.none, inner⟩ ⟨.none, .none⟩, gap, m', ?_, hrun⟩
      simp [hopening, hclosing, Interchange.Value.text, Mark.text, Interchange.Blank.none]
  | .object opening members closing =>
      rw [Value.tokens, List.append_assoc, List.cons_append] at h
      obtain ⟨gap, m, hopening, hrun⟩ := h.exists_mark (c := '\x7b') (by decide)
      obtain ⟨ms, inner, m₁, hmembers, hrun⟩ := members.exists_spells hrun
        (fun t ht => hstrict t (by simp [Value.tokens, ht]))
      obtain ⟨inner', m₂, hclosing, hrun⟩ := hrun.exists_mark (c := '\x7d') (by decide)
      refine ⟨.object ⟨.none, inner⟩ ms ⟨inner', .none⟩, gap, m₂, ?_, hrun⟩
      simp [hopening, hmembers, hclosing, Interchange.Value.text, Mark.text,
        Interchange.Blank.none]
  | .emptyArray opening closing =>
      obtain ⟨gap, m, hopening, hrun⟩ := h.exists_mark (c := '[') (by decide)
      obtain ⟨inner, m', hclosing, hrun⟩ := hrun.exists_mark (c := ']') (by decide)
      refine ⟨.emptyArray ⟨.none, inner⟩ ⟨.none, .none⟩, gap, m', ?_, hrun⟩
      simp [hopening, hclosing, Interchange.Value.text, Mark.text, Interchange.Blank.none]
  | .array opening elements closing =>
      rw [Value.tokens, List.append_assoc, List.cons_append] at h
      obtain ⟨gap, m, hopening, hrun⟩ := h.exists_mark (c := '[') (by decide)
      obtain ⟨es, inner, m₁, helements, hrun⟩ := elements.exists_spells hrun
        (fun t ht => hstrict t (by simp [Value.tokens, ht]))
      obtain ⟨inner', m₂, hclosing, hrun⟩ := hrun.exists_mark (c := ']') (by decide)
      refine ⟨.array ⟨.none, inner⟩ es ⟨inner', .none⟩, gap, m₂, ?_, hrun⟩
      simp [hopening, helements, hclosing, Interchange.Value.text, Mark.text,
        Interchange.Blank.none]

theorem Members.exists_spells (g : Members .json false) {k : Nat} {ts : List Token}
    (h : Run .json text k (g.tokens ++ ts) n) (hstrict : ∀ t ∈ g.tokens, t.isStrict = true) :
    ∃ ms : Interchange.Members, Spells text k n ts ms.text := by
  match g with
  | .last t key is colon value trailer =>
      simp only [Members.tokens, trailer.tokens_eq_nil, List.append_nil, List.cons_append]
        at h hstrict
      obtain ⟨hspelled, gap, m, hdrop, hrun⟩ := h.exists_blank
      obtain ⟨name, hname⟩ := is.exists_stringText hspelled (hstrict t List.mem_cons_self)
      obtain ⟨before, m₁, hcolon, hrun⟩ := hrun.exists_mark (c := ':') (by decide)
      obtain ⟨v, after, m₂, hvalue, hrun⟩ := value.exists_spells hrun
        (fun t ht => hstrict t (by simp [ht]))
      refine ⟨.last name ⟨before, after⟩ v, gap, m₂, ?_, hrun⟩
      simp [hdrop, ← hname, hcolon, hvalue, Interchange.Members.text, Mark.text]
  | .more t key is colon value comma rest =>
      simp only [Members.tokens, List.append_assoc, List.cons_append] at h hstrict
      obtain ⟨hspelled, gap, m, hdrop, hrun⟩ := h.exists_blank
      obtain ⟨name, hname⟩ := is.exists_stringText hspelled (hstrict t List.mem_cons_self)
      obtain ⟨before, m₁, hcolon, hrun⟩ := hrun.exists_mark (c := ':') (by decide)
      obtain ⟨v, after, m₂, hvalue, hrun⟩ := value.exists_spells hrun
        (fun t ht => hstrict t (by simp [ht]))
      obtain ⟨before', m₃, hcomma, hrun⟩ := hrun.exists_mark (c := ',') (by decide)
      obtain ⟨ms, after', m₄, hrest, hrun⟩ := rest.exists_spells hrun
        (fun t ht => hstrict t (by simp [ht]))
      refine ⟨.more name ⟨before, after⟩ v ⟨before', after'⟩ ms, gap, m₄, ?_, hrun⟩
      simp [hdrop, ← hname, hcolon, hvalue, hcomma, hrest, Interchange.Members.text, Mark.text]

theorem Elements.exists_spells (g : Elements .json false) {k : Nat} {ts : List Token}
    (h : Run .json text k (g.tokens ++ ts) n) (hstrict : ∀ t ∈ g.tokens, t.isStrict = true) :
    ∃ es : Interchange.Elements, Spells text k n ts es.text := by
  match g with
  | .last value trailer =>
      simp only [Elements.tokens, trailer.tokens_eq_nil, List.append_nil] at h hstrict
      obtain ⟨v, hv⟩ := value.exists_spells h hstrict
      exact ⟨.last v, hv⟩
  | .more value comma rest =>
      simp only [Elements.tokens, List.append_assoc, List.cons_append] at h hstrict
      obtain ⟨v, gap, m, hvalue, hrun⟩ := value.exists_spells h
        (fun t ht => hstrict t (by simp [ht]))
      obtain ⟨before, m₁, hcomma, hrun⟩ := hrun.exists_mark (c := ',') (by decide)
      obtain ⟨es, after, m₂, hrest, hrun⟩ := rest.exists_spells hrun
        (fun t ht => hstrict t (by simp [ht]))
      refine ⟨.more v ⟨before, after⟩ es, gap, m₂, ?_, hrun⟩
      simp [hvalue, hcomma, hrest, Interchange.Elements.text, Mark.text]

end

end Grammar

/-! ## From texts to tokens -/

namespace Interchange

variable {text rest post : Text} {k : Nat}

/-- From an offset of a text on there are strict tokens, and the rest follows them. -/
def Through (text : Text) (k : Nat) (post : Text) : Prop :=
  ∃ ts n, Run .json text k ts n ∧ (∀ t ∈ ts, t.isStrict = true) ∧ At text n post

theorem Through.trans (h : Through text k rest) (h' : ∀ n, At text n rest → Through text n post) :
    Through text k post := by
  obtain ⟨ts, m, hrun, hstrict, hat⟩ := h
  obtain ⟨ts', n, hrun', hstrict', hat'⟩ := h' m hat
  exact ⟨ts ++ ts', n, hrun.append hrun', List.forall_mem_append.mpr ⟨hstrict, hstrict'⟩, hat'⟩

theorem Through.of_token {t : Token} {n : Nat} (hrun : Run .json text k [t] n)
    (hstrict : t.isStrict = true) (hat : At text n post) : Through text k post :=
  ⟨[t], n, hrun, by simpa using hstrict, hat⟩

theorem At.through_mark {m : Mark} {c : Char} {kind : Token.Kind}
    (h : At text k (m.text c ++ post)) (hkind : Lexeme.markKind? c = some kind)
    (hc : c ∈ ['\x7b', '\x7d', '[', ']', ':', ',']) : Through text k post := by
  obtain ⟨t, n, hrun, hat⟩ := At.exists_mark h hkind hc
  refine .of_token hrun ?_ hat
  have hplain : ∀ m ∈ markChars, m.2 ∉ [.string, .number] := by decide
  have hkind := hplain _ (mem_markChars hkind)
  rw [Token.isStrict, t.property]
  cases kind <;> first | rfl | exact absurd (by simp) hkind

theorem At.through_string {parts : List Part} (h : At text k (stringText parts ++ post)) :
    Through text k post := by
  have hscan : Lexeme.scan .json '"' (bodyText parts ++ ['"'] ++ post) =
      .found .string (stringText parts).length := by
    rw [List.append_assoc]
    exact scan_string .json parts post
  obtain ⟨t, n, hrun, hkind, htext, hat⟩ := At.exists_token h (by decide) hscan
  refine .of_token hrun ?_ hat
  have hbody : t.text = '"' :: (bodyText parts ++ ['"']) := htext
  rw [Token.isStrict, hkind]
  change StringBody.isStrict (slice t.text 1 (-1)) = true
  rw [hbody, slice_quoted, StringBody.isStrict_bodyText]

theorem Number.toNat_lt (n : Number) : ∀ c ∈ n.text, c.toNat < 0x80 := by
  intro c hc
  have hascii : (numberChars.all fun c => decide (c.toNat < 0x80)) = true := by decide
  exact of_decide_eq_true (List.all_eq_true.mp hascii c (Number.mem_text hc))

theorem At.through_number {n : Number} (h : At text k (n.text ++ post))
    (hpost : Starts breaks post) : Through text k post := by
  obtain ⟨c, rest, htext, hc⟩ := n.exists_text_eq_cons
  have hspace : Dialect.isSpace .json c = false := eq_false_of_any (by decide) hc
  have hscan := scan_number .json n htext hpost
  rw [htext] at h hscan
  obtain ⟨t, m, hrun, hkind, ht, hat⟩ := At.exists_token h hspace hscan
  refine .of_token hrun ?_ hat
  rw [Token.isStrict, hkind]
  simpa [ht, ← htext] using n.toNat_lt

theorem At.through_word {c : Char} {rest : Text} {kind : Token.Kind}
    (hword : (c, rest, kind) ∈ words) (h : At text k (c :: rest ++ post))
    (hpost : Starts breaks post) : Through text k post := by
  obtain ⟨t, n, hrun, hkind, -, hat⟩ := At.exists_word (d := .json) hword h hpost
  refine .of_token hrun ?_ hat
  have hplain : ∀ w ∈ words, w.2.2 = .null ∨ w.2.2 = .boolean := by decide
  rcases hplain _ hword with h | h <;>
  · rw [Token.isStrict, hkind]
    dsimp only at h
    rw [h]

mutual

theorem Value.through (v : Value) {text post : Text} {k : Nat} (h : At text k (v.text ++ post))
    (hpost : Starts breaks post) : Through text k post := by
  match v with
  | .null => exact At.through_word (.head _) h hpost
  | .boolean true => exact At.through_word (.tail _ (.head _)) h hpost
  | .boolean false => exact At.through_word (.tail _ (.tail _ (.head _))) h hpost
  | .number n => exact At.through_number h hpost
  | .string parts => exact At.through_string h
  | .emptyObject opening closing | .emptyArray opening closing =>
      rw [Value.text, List.append_assoc] at h
      refine (At.through_mark h rfl (by simp)).trans fun m hat => ?_
      exact At.through_mark hat rfl (by simp)
  | .object opening members closing =>
      rw [Value.text, List.append_assoc, List.append_assoc] at h
      refine (At.through_mark h rfl (by simp)).trans fun m hat => ?_
      refine (members.through hat (Mark.starts (by decide))).trans fun m hat => ?_
      exact At.through_mark hat rfl (by simp)
  | .array opening elements closing =>
      rw [Value.text, List.append_assoc, List.append_assoc] at h
      refine (At.through_mark h rfl (by simp)).trans fun m hat => ?_
      refine (elements.through hat (Mark.starts (by decide))).trans fun m hat => ?_
      exact At.through_mark hat rfl (by simp)

theorem Members.through (ms : Members) {text post : Text} {k : Nat}
    (h : At text k (ms.text ++ post)) (hpost : Starts breaks post) : Through text k post := by
  match ms with
  | .last name colon value =>
      rw [Members.text, List.append_assoc, List.append_assoc] at h
      refine (At.through_string h).trans fun m hat => ?_
      refine (At.through_mark hat rfl (by simp)).trans fun m hat => ?_
      exact value.through hat hpost
  | .more name colon value comma rest =>
      simp only [Members.text, List.append_assoc] at h
      refine (At.through_string h).trans fun m hat => ?_
      refine (At.through_mark hat rfl (by simp)).trans fun m hat => ?_
      refine (value.through hat (Mark.starts (by decide))).trans fun m hat => ?_
      refine (At.through_mark hat rfl (by simp)).trans fun m hat => ?_
      exact rest.through hat hpost

theorem Elements.through (es : Elements) {text post : Text} {k : Nat}
    (h : At text k (es.text ++ post)) (hpost : Starts breaks post) : Through text k post := by
  match es with
  | .last value => exact value.through h hpost
  | .more value comma rest =>
      simp only [Elements.text, List.append_assoc] at h
      refine (value.through h (Mark.starts (by decide))).trans fun m hat => ?_
      refine (At.through_mark hat rfl (by simp)).trans fun m hat => ?_
      exact rest.through hat hpost

end

/-- All tokens of a text of the grammar are strict. -/
theorem Json.isStrict_of_mem (j : Json) :
    ∀ t ∈ (Lexed.ofText .json j.text).tokens, t.isStrict = true := by
  have hstart : At j.text 0 (j.value.text ++ j.after.val) :=
    ⟨j.before, by rw [List.drop_zero, Json.text, List.append_assoc]⟩
  obtain ⟨ts, n, hrun, hstrict, hat⟩ := j.value.through hstart (Blank.starts j.after)
  rw [← List.append_nil j.after.val] at hat
  have hgap := (hat.skip.spaced .json).gap_length (hrun.le_length (Nat.zero_le _))
  rwa [(hrun.ofText_eq hgap).1]

end Interchange

/-! ## Documents -/

theorem Run.filter_isCode {text : Text} {k n : Nat} {ts : List Token} (h : Run .json text k ts n) :
    ts.filter Token.isCode = ts := by
  refine List.filter_eq_self.mpr fun t ht => ?_
  have hspelled := (h.alone t ht).spelled
  have hmarks : ∀ m ∈ markChars, m.2.isComment = false := by decide
  have hkind : t.kind.isComment = false := by
    generalize t.kind = kind, t.text = cs at hspelled
    cases hspelled with
    | mark h => exact hmarks _ (mem_markChars h)
    | string h | number hsize hne => rfl
    | word h => rcases cases_of_wordKind? h with ⟨rfl, -⟩ | ⟨rfl, -⟩ <;> rfl
  rw [Token.isCode, Token.isComment, hkind]
  rfl

/-- A document of the plain dialect is in the interchange grammar exactly if all its tokens are
strict: if its numbers are ASCII, and its strings have no control characters and four hexadecimal
digits behind every escape by digits. -/
theorem Document.exists_json_iff (limits : Limits) (trailing : Bool) (text : Text) (doc : Document)
    (h : Document.ofText ⟨.json, limits, trailing⟩ text = .ok doc) :
    (∃ j : Interchange.Json, j.text = text) ↔ ∀ t ∈ doc.tokens, t.isStrict = true := by
  have htokens := Document.tokens_of_ofText h
  constructor
  · rintro ⟨j, rfl⟩
    rw [htokens]
    exact j.isStrict_of_mem
  · intro hstrict
    obtain ⟨-, hfault, hdoc⟩ := Document.ofText_eq_ok_iff.mp h
    obtain ⟨g, hg, -, -⟩ := Document.ofTokens_eq_ok_iff.mp hdoc
    obtain ⟨n, hrun, hgap⟩ := Lexed.exists_run_of_fault?_eq_none hfault
    rw [hrun.filter_isCode] at hg
    rw [htokens, ← hg] at hstrict
    rw [← hg, ← List.append_nil g.tokens] at hrun
    obtain ⟨v, before, _, htext, hend⟩ := g.exists_spells hrun hstrict
    cases hend
    -- what is left behind the last token is white space
    have hafter : ∀ c ∈ text.drop n, c ∈ [' ', '\t', '\n', '\r'] := by
      intro c hc
      have hrest : c ∈ (text.drop n).take (text.length - n) := by
        rwa [List.take_of_length_le (by simp)]
      have hspace := hgap.isSpace_of_mem hrest
      simpa [Dialect.isSpace] using hspace
    refine ⟨⟨before, v, ⟨_, hafter⟩⟩, ?_⟩
    rw [Interchange.Json.text, List.append_assoc]
    exact htext.symm

/-- An integer with a digit of another script is a document and not in the grammar. -/
theorem Document.exists_json_iff_digit :
    ∃ doc, Document.ofText ⟨.json, {}, false⟩ ['1', '\u0660'] = .ok doc ∧
      ¬ ∃ j : Interchange.Json, j.text = ['1', '\u0660'] := by
  have hread : (Document.ofText ⟨.json, {}, false⟩ ['1', '\u0660']).toBool = true := by
    decide +kernel
  obtain ⟨doc, hdoc⟩ := Document.exists_of_toBool hread
  have hlax : ¬ ∀ t ∈ (Lexed.ofText .json ['1', '\u0660']).tokens, t.isStrict = true := by
    decide +kernel
  refine ⟨doc, hdoc, fun hjson => hlax ?_⟩
  have htokens := (Document.exists_json_iff {} false _ doc hdoc).mp hjson
  rwa [Document.tokens_of_ofText hdoc] at htokens

end LocatedJson
