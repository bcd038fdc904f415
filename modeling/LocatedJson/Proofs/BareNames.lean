import LocatedJson.Outline
import LocatedJson.Proofs.Trivia
import Mathlib.Data.List.TakeWhile

/-!
# Names without quotes

A member may be named by a word. Which words name the members of a document is
seen from its code tokens alone: they are the words that stand directly in
front of colons, in the order of the text, and each has an identifier node of
its own (`Grammar.Value.identifiers_eq`).

Words are what the grammar takes for names, but not every word is a name by its
characters (`IsName`). The two words for numbers without digits may have a sign
in front of them, and a token with a sign is of the same kind as one without
it. So such a token is taken for a name as well, and these four words are the
only ones that name members and are no names (`Document.names_of_ofText`).
-/

namespace LocatedJson

open LocatedJson.Text LocatedJson.Grammar
open LocatedJson.Outline (Entry Content nodeEntries memberEntries elementEntries keyEntry)

/-- A dollar sign or a word character that is no decimal digit, and behind it word characters and
dollar signs. -/
def IsName : Text → Prop
  | [] => False
  | c :: rest =>
    (c = '$' ∨ isWord c = true ∧ isDecimal c = false) ∧ ∀ x ∈ rest, isWord x = true ∨ x = '$'

instance : DecidablePred IsName
  | [] => inferInstanceAs (Decidable False)
  | c :: rest => inferInstanceAs (Decidable
      ((c = '$' ∨ isWord c = true ∧ isDecimal c = false) ∧ ∀ x ∈ rest, isWord x = true ∨ x = '$'))

/-- The words for numbers without digits, with a sign. -/
def signedWords : List Text :=
  ["+NaN".toList, "-NaN".toList, "+Infinity".toList, "-Infinity".toList]

/-- What the identifiers among some entries say. -/
def Outline.identifiers (es : List Entry) : List Content :=
  (es.filter (·.type = .identifier)).map Entry.content

/-! ## Names and tokens -/

namespace Grammar

/-- The kinds of tokens that name members without quotes. -/
def wordKinds : List Token.Kind := [.identifier, .nan, .infinity, .boolean, .null]

/-- Whether the first of the tokens is a colon. -/
def startsColon (ts : List Token) : Bool := ts.head?.map Token.kind == some .colon

/-- The words that stand directly in front of colons. -/
def bareNames : List Token → List Text
  | [] => []
  | t :: rest =>
    if startsColon rest = true ∧ t.kind ∈ wordKinds then t.text :: bareNames rest
    else bareNames rest

variable {d : Dialect} {trailing : Bool} {ts us : List Token} {t : Token} {key : Key}

theorem startsColon_cons_of_ne (h : t.kind ≠ .colon) : startsColon (t :: ts) = false := by
  simpa [startsColon] using h

theorem startsColon_append (hts : startsColon ts = false) (hus : startsColon us = false) :
    startsColon (ts ++ us) = false := by
  cases ts with
  | nil => exact hus
  | cons t ts => exact hts

theorem bareNames_cons_of_not (h : startsColon ts = false) :
    bareNames (t :: ts) = bareNames ts := by
  rw [bareNames, if_neg]
  rintro ⟨hcolon, -⟩
  cases h.symm.trans hcolon

/-- Names are found in two parts apart from each other if no colon is cut off. -/
theorem bareNames_append (h : startsColon us = false) :
    bareNames (ts ++ us) = bareNames ts ++ bareNames us := by
  induction ts with
  | nil => rfl
  | cons t ts ih =>
      cases ts with
      | nil => rw [List.singleton_append, bareNames_cons_of_not h, bareNames_cons_of_not rfl]; rfl
      | cons u ts =>
          have hnext : startsColon (u :: ts ++ us) = startsColon (u :: ts) := rfl
          rw [List.cons_append, bareNames.eq_2, hnext, ih, bareNames.eq_2 t]
          split <;> rfl

theorem exists_of_mem_bareNames {name : Text} (h : name ∈ bareNames ts) :
    ∃ t ∈ ts, t.text = name ∧ t.kind ∈ wordKinds := by
  induction ts with
  | nil => cases h
  | cons t ts ih =>
      have hlater (h : name ∈ bareNames ts) :
          ∃ u ∈ t :: ts, u.text = name ∧ u.kind ∈ wordKinds := by
        obtain ⟨u, hu, hname⟩ := ih h
        exact ⟨u, List.mem_cons_of_mem t hu, hname⟩
      rw [bareNames] at h
      split at h
      · rename_i hword
        rcases List.mem_cons.mp h with rfl | h
        · exact ⟨t, List.mem_cons_self, rfl, hword.2⟩
        · exact hlater h
      · exact hlater h

/-! ## Names in a sentence -/

theorem startsColon_of_isMark_eq_false (h : isMark t.kind = false) :
    startsColon (t :: ts) = false := by
  refine startsColon_cons_of_ne fun hkind => ?_
  rw [hkind] at h
  cases h

theorem Terminal.startsColon_cons {kind : Token.Kind} (t : Terminal kind) (h : kind ≠ .colon) :
    startsColon (t.val :: ts) = false :=
  startsColon_cons_of_ne (by rw [t.property]; exact h)

theorem Value.startsColon_tokens (v : Value d trailing) : startsColon v.tokens = false := by
  cases v with
  | scalar t node is => exact startsColon_of_isMark_eq_false is.isMark_eq_false
  | emptyObject opening closing | object opening items closing
  | emptyArray opening closing | array opening items closing =>
      exact opening.startsColon_cons nofun

theorem Members.startsColon_tokens (m : Members d trailing) : startsColon m.tokens = false := by
  cases m with
  | last t key is colon value trailer | more t key is colon value comma rest =>
      exact startsColon_of_isMark_eq_false is.isMark_eq_false

theorem Trailer.startsColon_tokens (trailer : Trailer trailing) :
    startsColon trailer.tokens = false := by
  cases trailer with
  | none => rfl
  | comma t allowed => exact t.startsColon_cons nofun

theorem Elements.startsColon_tokens (e : Elements d trailing) : startsColon e.tokens = false := by
  cases e with
  | last value trailer =>
      exact startsColon_append value.startsColon_tokens trailer.startsColon_tokens
  | more value comma rest =>
      exact startsColon_append value.startsColon_tokens (comma.startsColon_cons nofun)

/-- Nothing behind the last item of a list is a name. -/
theorem bareNames_append_trailer (trailer : Trailer trailing) :
    bareNames (ts ++ trailer.tokens) = bareNames ts := by
  rw [bareNames_append trailer.startsColon_tokens]
  cases trailer with
  | none => exact List.append_nil _
  | comma t allowed =>
      rw [Trailer.tokens, bareNames_cons_of_not rfl]
      exact List.append_nil _

theorem bareNames_append_comma (comma : Terminal .comma) (h : startsColon us = false) :
    bareNames (ts ++ comma.val :: us) = bareNames ts ++ bareNames us := by
  rw [bareNames_append (comma.startsColon_cons nofun), bareNames_cons_of_not h]

/-- Between brackets there are the names that there are without them. -/
theorem bareNames_brackets {left right : Token.Kind} (opening : Terminal left)
    (closing : Terminal right) (hright : right ≠ .colon) (h : startsColon ts = false) :
    bareNames (opening.val :: ts ++ [closing.val]) = bareNames ts := by
  have hclosing : startsColon [closing.val] = false := closing.startsColon_cons hright
  rw [List.cons_append, bareNames_cons_of_not (startsColon_append h hclosing),
    bareNames_append hclosing, bareNames_cons_of_not rfl]
  exact List.append_nil _

theorem bareNames_empty {left right : Token.Kind} (opening : Terminal left)
    (closing : Terminal right) (hright : right ≠ .colon) :
    bareNames [opening.val, closing.val] = [] := by
  have hempty : startsColon [] = false := rfl
  exact bareNames_brackets opening closing hright hempty

/-- The name of a member is its word, if it has no quotes. -/
theorem Name.bareNames_cons (is : Name d t key) (colon : Terminal .colon) (v : Value d trailing) :
    (bareNames (t :: colon.val :: v.tokens)).map Content.word =
      Outline.identifiers [keyEntry key] ++ (bareNames v.tokens).map Content.word := by
  have hcolon : startsColon (colon.val :: v.tokens) = true := by
    simp [startsColon, colon.property]
  rw [bareNames, bareNames_cons_of_not v.startsColon_tokens]
  cases is with
  | quoted kind decodes =>
      rw [if_neg]
      · rfl
      · rintro ⟨-, hword⟩
        rw [kind] at hword
        revert hword
        decide
  | bare json5 kind =>
      rw [if_pos ⟨hcolon, kind⟩]
      rfl

theorem identifiers_append (es fs : List Entry) :
    Outline.identifiers (es ++ fs) = Outline.identifiers es ++ Outline.identifiers fs := by
  rw [Outline.identifiers, List.filter_append, List.map_append]
  rfl

theorem identifiers_cons_of_ne {e : Entry} (h : e.type ≠ .identifier) (es : List Entry) :
    Outline.identifiers (e :: es) = Outline.identifiers es := by
  rw [Outline.identifiers, List.filter_cons_of_neg (by simpa using h)]
  rfl

theorem identifiers_member (id : Nat) (key : Key) (value : Node) (rest : List (Key × Node)) :
    Outline.identifiers (memberEntries id ((key, value) :: rest)).2 =
      Outline.identifiers [keyEntry key] ++ (Outline.identifiers (nodeEntries (id + 2) value) ++
        Outline.identifiers
          (memberEntries (id + 2 + (nodeEntries (id + 2) value).length) rest).2) := by
  rw [← identifiers_append, ← identifiers_append, memberEntries]
  exact identifiers_cons_of_ne (by rintro ⟨⟩) _

theorem identifiers_element (id : Nat) (value : Node) (rest : List Node) :
    Outline.identifiers (elementEntries id (value :: rest)).2 =
      Outline.identifiers (nodeEntries (id + 1) value) ++
        Outline.identifiers
          (elementEntries (id + 1 + (nodeEntries (id + 1) value).length) rest).2 := by
  rw [← identifiers_append, elementEntries]
  exact identifiers_cons_of_ne (by rintro ⟨⟩) _

mutual

/-- The identifiers of a value are the words in front of the colons of its sentence. -/
theorem Value.identifiers_eq (id : Nat) (v : Value d trailing) :
    Outline.identifiers (nodeEntries id v.node) = (bareNames v.tokens).map Content.word := by
  match v with
  | .scalar t node is =>
      have hnone : bareNames [t] = [] := bareNames_cons_of_not rfl
      rw [Value.tokens, hnone]
      cases is <;> rfl
  | .emptyObject opening closing =>
      rw [Value.tokens, bareNames_empty opening closing nofun]
      rfl
  | .emptyArray opening closing =>
      rw [Value.tokens, bareNames_empty opening closing nofun]
      rfl
  | .object opening members closing =>
      rw [Value.tokens, bareNames_brackets opening closing nofun members.startsColon_tokens,
        ← members.identifiers_eq (id + 1)]
      rfl
  | .array opening elements closing =>
      rw [Value.tokens, bareNames_brackets opening closing nofun elements.startsColon_tokens,
        ← elements.identifiers_eq (id + 1)]
      rfl

theorem Members.identifiers_eq (id : Nat) (m : Members d trailing) :
    Outline.identifiers (memberEntries id m.pairs).2 = (bareNames m.tokens).map Content.word := by
  match m with
  | .last t key is colon value trailer =>
      rw [Members.tokens, bareNames_append_trailer, is.bareNames_cons,
        ← value.identifiers_eq (id + 2), Members.pairs, identifiers_member]
      exact congrArg _ (List.append_nil _)
  | .more t key is colon value comma rest =>
      rw [Members.tokens, bareNames_append_comma comma rest.startsColon_tokens, List.map_append,
        is.bareNames_cons, ← value.identifiers_eq (id + 2), List.append_assoc, Members.pairs,
        identifiers_member, rest.identifiers_eq]

theorem Elements.identifiers_eq (id : Nat) (e : Elements d trailing) :
    Outline.identifiers (elementEntries id e.nodes).2 = (bareNames e.tokens).map Content.word := by
  match e with
  | .last value trailer =>
      rw [Elements.tokens, bareNames_append_trailer, ← value.identifiers_eq (id + 1),
        Elements.nodes, identifiers_element]
      exact List.append_nil _
  | .more value comma rest =>
      rw [Elements.tokens, bareNames_append_comma comma rest.startsColon_tokens, List.map_append,
        ← value.identifiers_eq (id + 1), Elements.nodes, identifiers_element, rest.identifiers_eq]

end

end Grammar

/-! ## Words and names -/

theorem not_isName_of_mem_signedWords {name : Text} (h : name ∈ signedWords) : ¬ IsName name := by
  have hall : ∀ name ∈ signedWords, ¬ IsName name := by decide +kernel
  exact hall name h

variable {d : Dialect}

/-- Two of the recognisers find words. -/
theorem Lexeme.signed_or_word {c : Char} {rest : Text} {kind : Token.Kind} {size : Nat}
    (h : scan d c rest = .found kind size) (hkind : kind ∈ wordKinds) :
    signedKeyword? d c rest = some (.found kind size) ∨
      word? d c rest = some (.found kind size) := by
  have hother : ∀ kind ∈ wordKinds, kind.isComment = false ∧ isMark kind = false ∧
      kind ≠ .string ∧ kind ≠ .number := by decide
  obtain ⟨hcomment, hmark, hstring, hnumber⟩ := hother kind hkind
  simp only [scan, getD_eq_iff] at h
  rcases h with h | ⟨-, h | ⟨-, h | ⟨-, h | ⟨-, h | ⟨-, h | ⟨-, h⟩⟩⟩⟩⟩⟩
  · cases hcomment.symm.trans (isComment_of_comment? h).2
  · obtain ⟨k, hk, hfound⟩ := Option.map_eq_some_iff.mp h
    cases hfound
    unfold markKind? at hk
    grind [isMark]
  · exact absurd (string?_eq_found_iff.mp h).2.2.1 hstring
  · exact .inl h
  · exact absurd (number?_eq_found_iff.mp h).1 hnumber
  · exact .inr h
  · cases h

theorem Lexeme.isName_of_word? {c : Char} {word : Text} {kind : Token.Kind}
    (h : word? d c word = some (.found kind (word.length + 1))) : IsName (c :: word) := by
  obtain ⟨hstart, -, hsize⟩ := word?_eq_found_iff.mp h
  have hall : word.takeWhile isWordPart = word :=
    (List.takeWhile_prefix _).eq_of_length (by omega)
  refine ⟨?_, fun x hx => ?_⟩
  · simp only [isWordStart, Bool.or_eq_true, Bool.and_eq_true, Bool.not_eq_true', beq_iff_eq]
      at hstart
    exact hstart.symm
  · rw [← hall] at hx
    simpa [isWordPart] using List.mem_takeWhile_imp hx

theorem Lexeme.mem_signedWords {c : Char} {word : Text} {kind : Token.Kind}
    (h : signedKeyword? d c word = some (.found kind (word.length + 1))) :
    c :: word ∈ signedWords := by
  obtain ⟨⟨-, hsign⟩, hkeyword⟩ := signedKeyword?_eq_found_iff.mp h
  have hword : word = "NaN".toList ∨ word = "Infinity".toList := by
    rcases hkeyword with ⟨hnan, -, hsize⟩ | ⟨hinfinity, -, hsize⟩
    · exact .inl (hnan.eq_of_length (Nat.succ.inj hsize.symm)).symm
    · exact .inr (hinfinity.eq_of_length (Nat.succ.inj hsize.symm)).symm
  rcases hsign with rfl | rfl <;> rcases hword with rfl | rfl <;> decide

/-- A word is a name by its characters, or it has a sign. -/
theorem Alone.isName_iff {t : Token} (h : Alone d t) (hword : t.kind ∈ wordKinds) :
    IsName t.text ↔ t.text ∉ signedWords := by
  obtain ⟨c, word, htext, hscan⟩ := h
  rw [htext]
  constructor
  · intro hname hsigned
    exact not_isName_of_mem_signedWords hsigned hname
  · intro hsigned
    rcases Lexeme.signed_or_word hscan hword with h | h
    · exact absurd (Lexeme.mem_signedWords h) hsigned
    · exact Lexeme.isName_of_word? h

/-- The identifiers of a document, in the order of the text, are the words directly in front of
the colons among its code tokens. Each of them is a name by its characters, unless it is one of
the four words with a sign, which are none. -/
theorem Document.names_of_ofText (profile : Profile) (text : Text) (doc : Document)
    (h : Document.ofText profile text = .ok doc) :
    let names := bareNames (doc.tokens.filter Token.isCode)
    Outline.identifiers (Outline.ofDocument doc).entries = names.map Content.word ∧
      ∀ name ∈ names, IsName name ↔ name ∉ signedWords := by
  intro names
  obtain ⟨-, hfault, hdoc⟩ := Document.ofText_eq_ok_iff.mp h
  obtain ⟨v, hv, -, rfl⟩ := Document.ofTokens_eq_ok_iff.mp hdoc
  obtain ⟨n, hrun, -⟩ := Lexed.exists_run_of_fault?_eq_none hfault
  refine ⟨?_, fun name hname => ?_⟩
  · have hbody := v.identifiers_eq 1
    rw [hv] at hbody
    exact (identifiers_cons_of_ne (by rintro ⟨⟩) _).trans hbody
  · obtain ⟨t, ht, rfl, hword⟩ := exists_of_mem_bareNames hname
    exact (hrun.alone t (List.mem_of_mem_filter ht)).isName_iff hword

/-- All four words with a sign name members of one document, next to a name with a dollar sign. -/
theorem Document.names_of_ofText_signed :
    let text := "\x7b-NaN:1,+NaN:1,-Infinity:1,+Infinity:1,$0:NaN\x7d".toList
    ∃ doc, Document.ofText ⟨.json5, {}, false⟩ text = .ok doc ∧
      Outline.identifiers (Outline.ofDocument doc).entries =
        [.word "-NaN".toList, .word "+NaN".toList, .word "-Infinity".toList,
          .word "+Infinity".toList, .word "$0".toList] ∧
      ¬ IsName "-NaN".toList ∧ IsName "$0".toList := by
  intro text
  have hread : ((Document.ofText ⟨.json5, {}, false⟩ text).toOption.any fun doc =>
      bareNames (doc.tokens.filter Token.isCode) == ["-NaN".toList, "+NaN".toList,
        "-Infinity".toList, "+Infinity".toList, "$0".toList]) = true := by decide +kernel
  obtain ⟨doc, hdoc, hnames⟩ := Document.exists_of_any hread
  obtain ⟨hidentifiers, hname⟩ := Document.names_of_ofText ⟨.json5, {}, false⟩ text doc hdoc
  rw [beq_iff_eq.mp hnames] at hidentifiers hname
  refine ⟨doc, hdoc, hidentifiers, ?_, ?_⟩
  · exact fun h => (hname "-NaN".toList (by decide)).mp h (by decide)
  · exact (hname "$0".toList (by decide)).mpr (by decide)

end LocatedJson
