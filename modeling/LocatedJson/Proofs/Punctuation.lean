import LocatedJson.Proofs.Neighbours

/-!
# Punctuation

What a lint rule finds next to the nodes of a document is the punctuation of
its sentence: a colon between a name and its value, a comma between two
members or elements, and the brackets around all of them
(`Document.punctuated`). The layout of a phrase says which token of the
sentence stands there, and tokens that are next to each other in the sentence
are neighbours in the text, whatever comments stand between them
(`Ordered.adjacent`).
-/

namespace LocatedJson

open LocatedJson.Grammar LocatedJson.Neighbour LocatedJson.Text
open LocatedJson.Outline (Entry)

/-! ## Neighbours in the sentence -/

section Adjacent

variable {ts : List Token} {a b : Token} {i k : Nat} {range : Range}

/-- Between two neighbours of the sentence there is no other code token. -/
theorem Ordered.adjacent (h : Ordered ts) (hab : [a, b] <:+: ts.filter Token.isCode)
    (ha : ts[k]? = some a) (hb : ts[i]? = some b) :
    k < i ∧ ∀ j u, ts[j]? = some u → u.isCode = true → j ≤ k ∨ i ≤ j := by
  obtain ⟨xs, ys, hsplit⟩ := hab
  have hcode : Ordered (xs ++ [a, b] ++ ys) := hsplit ▸ h.sublist List.filter_sublist
  have hle : a.extent.range.stop ≤ b.extent.range.start :=
    (List.pairwise_cons.mp ((List.pairwise_append.mp
      (List.pairwise_append.mp hcode.ordered).1).2.1)).1 b (List.mem_singleton_self b)
  refine ⟨(h.lt_iff ha hb).mpr hle, fun j u hu hisCode => ?_⟩
  have hmem : u ∈ xs ++ [a, b] ++ ys := by
    rw [hsplit]
    exact List.mem_filter.mpr ⟨List.mem_of_getElem? hu, hisCode⟩
  have hpos := h.nonempty u (List.mem_of_getElem? hu)
  rcases List.mem_append.mp hmem with hfront | hback
  · rcases List.mem_append.mp hfront with hxs | hpair
    · -- what stands before the first of the two comes before it in the list
      have hxs' : Ordered (xs ++ [a, b]) := hcode.sublist (List.sublist_append_left _ _)
      have := (h.lt_iff hu ha).mpr (hxs'.stop_le_start hxs List.mem_cons_self)
      omega
    · obtain rfl | rfl : u = a ∨ u = b := by simpa using hpair
      · exact .inl (Nat.le_of_eq (h.eq_of_overlap hu ha hpos hpos))
      · exact .inr (Nat.le_of_eq (h.eq_of_overlap hb hu hpos hpos))
  · have := (h.lt_iff hb hu).mpr (hcode.stop_le_start (by simp) hback)
    omega

theorem after?_of_adjacent (h : Ordered ts) (hab : [a, b] <:+: ts.filter Token.isCode)
    (hb : ts[i]? = some b) (hstop : a.extent.range.stop = range.stop) :
    after? ts range false = some i := by
  obtain ⟨ha, -⟩ := List.mem_filter.mp (hab.subset List.mem_cons_self)
  obtain ⟨-, hcode⟩ := List.mem_filter.mp (hab.subset (by simp : b ∈ [a, b]))
  obtain ⟨k, hk⟩ := List.mem_iff_getElem?.mp ha
  obtain ⟨hki, hnone⟩ := h.adjacent hab hk hb
  refine (isFirst_after? h hk hstop).eq_some ?_ fun j hj => ?_
  · exact (startsAfter_iff h hk hstop).mpr ⟨b, hb, hcode, hki⟩
  · obtain ⟨u, hu, hcode', hkj⟩ := (startsAfter_iff h hk hstop).mp hj
    have := hnone j u hu hcode'
    omega

theorem before?_of_adjacent (h : Ordered ts) (hab : [a, b] <:+: ts.filter Token.isCode)
    (ha : ts[k]? = some a) (hstart : b.extent.range.start = range.start) :
    before? ts range false = some k := by
  obtain ⟨-, hcode⟩ := List.mem_filter.mp (hab.subset List.mem_cons_self)
  obtain ⟨hb, -⟩ := List.mem_filter.mp (hab.subset (by simp : b ∈ [a, b]))
  obtain ⟨i, hi⟩ := List.mem_iff_getElem?.mp hb
  obtain ⟨hki, hnone⟩ := h.adjacent hab ha hi
  refine (isLast_before? h hi hstart).eq_some ?_ fun j hj => ?_
  · exact (endsBefore_iff h hi hstart).mpr ⟨a, ha, hcode, hki⟩
  · obtain ⟨u, hu, hcode', hji⟩ := (endsBefore_iff h hi hstart).mp hj
    have := hnone j u hu hcode'
    omega

end Adjacent

namespace Grammar

variable {d : Dialect} {trailing : Bool} {p q : Phrase d trailing} {ps : List (Phrase d trailing)}
variable {body ts : List Token} {t : Token} {i : Nat}

/-- The token behind a phrase in the sentence is the one after its node. -/
theorem Phrase.after?_eq (h : Ordered ts) (hi : ts[i]? = some t)
    (hpt : p.tokens ++ [t] <:+: ts.filter Token.isCode) :
    after? ts p.extent.range false = some i := by
  obtain ⟨first, last, -, hlast, hextent⟩ := p.spans
  obtain ⟨front, htokens⟩ := List.getLast?_eq_some_iff.mp hlast
  have hadjacent : [last, t] <:+: p.tokens ++ [t] := ⟨front, [], by simp [htokens]⟩
  exact after?_of_adjacent h (hadjacent.trans hpt) hi (by rw [hextent]; rfl)

/-- The token in front of a phrase in the sentence is the one before its node. -/
theorem Phrase.before?_eq (h : Ordered ts) (hi : ts[i]? = some t)
    (htp : t :: p.tokens <:+: ts.filter Token.isCode) :
    before? ts p.extent.range false = some i := by
  obtain ⟨first, last, hfirst, -, hextent⟩ := p.spans
  obtain ⟨rest, htokens⟩ := List.head?_eq_some_iff.mp hfirst
  have hadjacent : [t, first] <:+: t :: p.tokens := ⟨[], rest, by simp [htokens]⟩
  exact before?_of_adjacent h (hadjacent.trans htp) hi (by rw [hextent]; rfl)

/-! ## Punctuation of a phrase -/

theorem Strung.tokens_isPrefix (h : Strung ps body) (hp : ps.head? = some p) :
    p.tokens <+: body := by
  cases h with
  | nil => cases hp
  | last p' =>
      cases hp
      exact List.prefix_rfl
  | trailed p' comma allowed | more p' q comma hrest =>
      cases hp
      exact List.prefix_append _ _

/-- Behind the last part there is nothing, or a comma if that is allowed. -/
theorem Strung.tokens_isSuffix (h : Strung ps body) (hp : ps.getLast? = some p) :
    p.tokens <:+ body ∨
      trailing = true ∧ ∃ comma : Terminal .comma, p.tokens ++ [comma.val] <:+ body := by
  induction h with
  | nil => cases hp
  | last p' =>
      cases hp
      exact .inl List.suffix_rfl
  | trailed p' comma allowed =>
      cases hp
      exact .inr ⟨allowed, comma, List.suffix_rfl⟩
  | @more p' q comma ps ts hrest ih =>
      have hts : ts <:+ p'.tokens ++ comma.val :: ts :=
        (List.suffix_cons comma.val ts).trans (List.suffix_append p'.tokens _)
      rw [List.getLast?_cons_cons] at hp
      rcases ih hp with hend | ⟨allowed, comma', hend⟩
      · exact .inl (hend.trans hts)
      · exact .inr ⟨allowed, comma', hend.trans hts⟩

/-- A comma stands between two parts that follow each other. -/
theorem Strung.exists_comma (h : Strung ps body) (hpq : [p, q] <:+: ps) :
    ∃ comma : Terminal .comma, p.tokens ++ comma.val :: q.tokens <:+: body := by
  induction h with
  | nil => simpa using hpq.length_le
  | last p' | trailed p' comma allowed => simpa using hpq.length_le
  | @more p' q' comma ps ts hrest ih =>
      rcases List.infix_cons_iff.mp hpq with hhere | hlater
      · obtain ⟨rfl, rfl⟩ : p = p' ∧ q = q' := by simpa using hhere
        obtain ⟨after, rfl⟩ := hrest.tokens_isPrefix rfl
        exact ⟨comma, [], after, by simp⟩
      · obtain ⟨comma', hcomma⟩ := ih hlater
        refine ⟨comma', hcomma.trans (List.IsSuffix.isInfix ?_)⟩
        exact (List.suffix_cons comma.val ts).trans (List.suffix_append p'.tokens _)

/-! ## Parts and children -/

namespace Phrase.At

variable {o : Outline} {id : Nat}

theorem exists_parts_of_infix (h : At o id p) {a b : Nat} (hab : [a, b] <:+: o.children id) :
    ∃ q r, [q, r] <:+: p.parts ∧ o.range? a = some q.extent.range ∧
      o.range? b = some r.extent.range := by
  obtain ⟨xs, ys, hchildren⟩ := hab
  have hranges := h.map_range?_children
  rw [← hchildren, List.map_append, List.map_append, eq_comm] at hranges
  obtain ⟨front, back, hparts, hfront, -⟩ := List.map_eq_append_iff.mp hranges
  obtain ⟨before, pair, rfl, -, hpair⟩ := List.map_eq_append_iff.mp hfront
  obtain ⟨q, rest, rfl, hq, hrest⟩ := List.map_eq_cons_iff.mp hpair
  obtain ⟨r, rest, rfl, hr, hnil⟩ := List.map_eq_cons_iff.mp hrest
  obtain rfl := List.map_eq_nil_iff.mp hnil
  exact ⟨q, r, ⟨before, back, hparts.symm⟩, hq.symm, hr.symm⟩

theorem exists_part_of_head? (h : At o id p) {a : Nat} (ha : (o.children id).head? = some a) :
    ∃ q, p.parts.head? = some q ∧ o.range? a = some q.extent.range := by
  have hranges := congrArg List.head? h.map_range?_children
  rw [List.head?_map, List.head?_map, ha, Option.map_some, eq_comm, Option.map_eq_some_iff]
    at hranges
  obtain ⟨q, hq, hrange⟩ := hranges
  exact ⟨q, hq, hrange.symm⟩

theorem exists_part_of_getLast? (h : At o id p) {z : Nat}
    (hz : (o.children id).getLast? = some z) :
    ∃ q, p.parts.getLast? = some q ∧ o.range? z = some q.extent.range := by
  have hranges := congrArg List.getLast? h.map_range?_children
  rw [List.getLast?_map, List.getLast?_map, hz, Option.map_some, eq_comm,
    Option.map_eq_some_iff] at hranges
  obtain ⟨q, hq, hrange⟩ := hranges
  exact ⟨q, hq, hrange.symm⟩

end Phrase.At

end Grammar

/-! ## Nodes of a document -/

namespace Session

/-- The token with the number comes right before what a reference leads to, comments apart. -/
def HasBefore (s : Session) (ref : Ref) (i : Nat) : Prop :=
  (s.ask (.before ref false)).1.result = .ok (.number (some i))

/-- The token with the number comes right after what a reference leads to, comments apart. -/
def HasAfter (s : Session) (ref : Ref) (i : Nat) : Prop :=
  (s.ask (.after ref false)).1.result = .ok (.number (some i))

/-- One token of a kind comes right after the first and right before the second node. -/
def Between (s : Session) (kind : Token.Kind) (a b : Nat) : Prop :=
  ∃ i t, s.file.tokens[i]? = some t ∧ t.kind = kind ∧
    s.HasAfter (.node a) i ∧ s.HasBefore (.node b) i

end Session

/-- Which tokens a session finds next to the nodes of its file: a colon between the name and the
value of a member (`member`), a comma between two children of a container (`between`), and its
brackets around all of them (`first`, `last`), with one more comma before the closing one if that
is allowed. -/
structure Punctuated (trailing : Bool) (s : Session) : Prop where
  member : ∀ (id : Nat) (e : Entry), s.file.outline.entries[id]? = some e → e.type = .member →
    ∃ n v, e.slots = [(.name, .one (some n)), (.value, .one (some v))] ∧ s.Between .colon n v
  between : ∀ (id : Nat) (e : Entry) (opening closing : Token.Kind) (a b : Nat),
    s.file.outline.entries[id]? = some e → (e.type, opening, closing) ∈ brackets →
    [a, b] <:+: s.file.outline.children id → s.Between .comma a b
  first : ∀ (id : Nat) (e : Entry) (opening closing : Token.Kind) (a : Nat),
    s.file.outline.entries[id]? = some e → (e.type, opening, closing) ∈ brackets →
    (s.file.outline.children id).head? = some a →
    ∃ i t, s.file.tokens[i]? = some t ∧ t.kind = opening ∧
      t.extent.range.start = e.extent.range.start ∧ s.HasBefore (.node a) i
  last : ∀ (id : Nat) (e : Entry) (opening closing : Token.Kind) (z : Nat),
    s.file.outline.entries[id]? = some e → (e.type, opening, closing) ∈ brackets →
    (s.file.outline.children id).getLast? = some z →
    ∃ i t, s.file.tokens[i]? = some t ∧ t.kind = closing ∧
      t.extent.range.stop = e.extent.range.stop ∧
      (s.HasAfter (.node z) i ∨
        trailing = true ∧ ∃ j u, s.file.tokens[j]? = some u ∧ u.kind = .comma ∧
          s.HasAfter (.node z) j ∧ s.HasAfter (.token j) i)

section Documents

variable {text : Text} {doc : Document} {s : Session} {d : Dialect} {trailing : Bool}
variable {q : Phrase d trailing} {v : Value d trailing} {id i : Nat} {t : Token}

/-- The node of a container has a phrase with brackets around its parts. -/
theorem Outline.exists_container (hbody : doc.body = v.node) {e : Entry}
    (he : (Outline.ofDocument doc).entries[id]? = some e) {opening closing : Token.Kind}
    (htype : (e.type, opening, closing) ∈ brackets) :
    ∃ (p : Phrase d trailing) (l r : Token) (body : List Token),
      Phrase.At (.ofDocument doc) id p ∧ l :: body ++ [r] <:+: v.tokens ∧ l.kind = opening ∧
      r.kind = closing ∧ e.extent = l.extent.join r.extent ∧ Strung p.parts body := by
  rcases Outline.exists_phrase hbody he with ⟨-, hdoc, -⟩ | ⟨p, hat, hpart, htype', hextent⟩
  · rw [hdoc] at htype
    simp [brackets] at htype
  · rw [htype'] at htype
    obtain ⟨l, r, body, htokens, hl, hr, hextent', hstrung⟩ := Phrase.exists_container htype
    exact ⟨p, l, r, body, hat, htokens ▸ hpart, hl, hr, hextent.trans hextent', hstrung⟩

/-- The session is about a document, and the value is the sentence of its code tokens. -/
structure Session.Reads (s : Session) (text : Text) (doc : Document) (v : Value d trailing) :
    Prop where
  file : s.file = .ofDocument text doc
  ordered : Ordered doc.tokens
  sentence : v.tokens = doc.tokens.filter Token.isCode
  body : doc.body = v.node

namespace Session.Reads

theorem exists_element?_node (h : Reads s text doc v) {r : Range}
    (hr : (Outline.ofDocument doc).range? id = some r) :
    ∃ x, s.file.element? (.node id) = some x ∧ x.extent.range = r := by
  obtain ⟨e, he, rfl⟩ := Option.map_eq_some_iff.mp hr
  refine ⟨⟨e.type.name, none, e.extent⟩, ?_, rfl⟩
  rw [h.file, SourceFile.element?, SourceFile.ofDocument, he]
  rfl

/-- Every token of the sentence has a number. -/
theorem exists_number (h : Reads s text doc v) {ts : List Token} (hts : ts <:+: v.tokens)
    (ht : t ∈ ts) : ∃ i : Nat, doc.tokens[i]? = some t := by
  have hmem := hts.subset ht
  rw [h.sentence] at hmem
  exact List.mem_iff_getElem?.mp (List.mem_filter.mp hmem).1

/-- The token behind the phrase of a node in the sentence is found after the node. -/
theorem hasAfter_node (h : Reads s text doc v)
    (hq : (Outline.ofDocument doc).range? id = some q.extent.range)
    (hi : doc.tokens[i]? = some t) (hqt : q.tokens ++ [t] <:+: v.tokens) :
    s.HasAfter (.node id) i := by
  obtain ⟨x, hx, hrange⟩ := h.exists_element?_node hq
  rw [h.sentence] at hqt
  rw [HasAfter, ask_after h.file hx, hrange, Phrase.after?_eq h.ordered hi hqt]

/-- The token in front of the phrase of a node in the sentence is found before the node. -/
theorem hasBefore_node (h : Reads s text doc v)
    (hq : (Outline.ofDocument doc).range? id = some q.extent.range)
    (hi : doc.tokens[i]? = some t) (htq : t :: q.tokens <:+: v.tokens) :
    s.HasBefore (.node id) i := by
  obtain ⟨x, hx, hrange⟩ := h.exists_element?_node hq
  rw [h.sentence] at htq
  rw [HasBefore, ask_before h.file hx, hrange, Phrase.before?_eq h.ordered hi htq]

/-- The token between two phrases in the sentence is found between their nodes. -/
theorem between (h : Reads s text doc v) {q' : Phrase d trailing} {a b : Nat}
    (hq : (Outline.ofDocument doc).range? a = some q.extent.range)
    (hq' : (Outline.ofDocument doc).range? b = some q'.extent.range)
    (hpart : q.tokens ++ t :: q'.tokens <:+: v.tokens) : s.Between t.kind a b := by
  obtain ⟨i, hi⟩ := h.exists_number hpart (by simp : t ∈ q.tokens ++ t :: q'.tokens)
  refine ⟨i, t, by rw [h.file]; exact hi, rfl, ?_, ?_⟩
  · exact h.hasAfter_node hq hi (List.IsInfix.trans ⟨[], q'.tokens, by simp⟩ hpart)
  · exact h.hasBefore_node hq' hi ((List.suffix_append q.tokens _).isInfix.trans hpart)

end Session.Reads

/-- Next to the nodes of a document stands the punctuation of its sentence. -/
theorem Document.punctuated (profile : Profile) (text : Text) (doc : Document)
    (h : Document.ofText profile text = .ok doc) (s : Session)
    (hfile : s.file = .ofDocument text doc) :
    Punctuated profile.allowsTrailingCommas s := by
  obtain ⟨v, hv, hbody, -, htiles⟩ := Document.exists_sentence h
  have hreads : Session.Reads s text doc v := ⟨hfile, htiles.isOrdered, hv, hbody⟩
  have houtline : s.file.outline = .ofDocument doc := by rw [hfile]; rfl
  have htokens : s.file.tokens = doc.tokens := by rw [hfile]; rfl
  constructor <;> rw [houtline]
  case member =>
    intro id e he htype
    rcases Outline.exists_phrase hbody he with ⟨-, hdoc, -⟩ | ⟨p, hat, hpart, htype', -⟩
    · cases hdoc.symm.trans htype
    · obtain ⟨n, m, name, value, colon, hslots, hn, hm, -, hp⟩ :=
        hat.exists_name_value (htype'.symm.trans htype) he
      exact ⟨n, m, hslots, colon.property ▸ hreads.between hn hm (hp ▸ hpart)⟩
  case between =>
    intro id e opening closing a b he htype hab
    obtain ⟨p, l, r, body, hat, hpart, -, -, -, hstrung⟩ := Outline.exists_container hbody he htype
    obtain ⟨q, q', hparts, hq, hq'⟩ := hat.exists_parts_of_infix hab
    obtain ⟨comma, hcomma⟩ := hstrung.exists_comma hparts
    have hinfix : q.tokens ++ comma.val :: q'.tokens <:+: v.tokens :=
      (hcomma.trans ⟨[l], [r], by simp⟩).trans hpart
    exact comma.property ▸ hreads.between hq hq' hinfix
  case first =>
    intro id e opening closing a he htype ha
    obtain ⟨p, l, r, body, hat, hpart, hl, -, hextent, hstrung⟩ :=
      Outline.exists_container hbody he htype
    obtain ⟨q, hfirst, hq⟩ := hat.exists_part_of_head? ha
    obtain ⟨back, rfl⟩ := hstrung.tokens_isPrefix hfirst
    have hinfix : l :: q.tokens <:+: v.tokens :=
      List.IsInfix.trans ⟨[], back ++ [r], by simp⟩ hpart
    obtain ⟨i, hi⟩ := hreads.exists_number hinfix List.mem_cons_self
    exact ⟨i, l, htokens ▸ hi, hl, by rw [hextent]; rfl, hreads.hasBefore_node hq hi hinfix⟩
  case last =>
    intro id e opening closing z he htype hz
    obtain ⟨p, l, r, body, hat, hpart, -, hr, hextent, hstrung⟩ :=
      Outline.exists_container hbody he htype
    obtain ⟨q, hlast, hq⟩ := hat.exists_part_of_getLast? hz
    obtain ⟨i, hi⟩ := hreads.exists_number hpart (by simp : r ∈ l :: body ++ [r])
    refine ⟨i, r, htokens ▸ hi, hr, by rw [hextent]; rfl, ?_⟩
    rcases hstrung.tokens_isSuffix hlast with ⟨front, rfl⟩ | ⟨allowed, comma, front, rfl⟩
    · have hinfix : q.tokens ++ [r] <:+: v.tokens :=
        List.IsInfix.trans ⟨l :: front, [], by simp⟩ hpart
      exact .inl (hreads.hasAfter_node hq hi hinfix)
    · have hinfix : q.tokens ++ [comma.val, r] <:+: v.tokens :=
        List.IsInfix.trans ⟨l :: front, [], by simp⟩ hpart
      obtain ⟨j, hj⟩ := hreads.exists_number hinfix
        (by simp : comma.val ∈ q.tokens ++ [comma.val, r])
      refine .inr ⟨allowed, j, comma.val, htokens ▸ hj, comma.property, ?_, ?_⟩
      · exact hreads.hasAfter_node hq hj (List.IsInfix.trans ⟨[], [r], by simp⟩ hinfix)
      · have hpair : [comma.val, r] <:+: doc.tokens.filter Token.isCode :=
          hv ▸ (List.suffix_append q.tokens _).isInfix.trans hinfix
        rw [Session.HasAfter, Session.ask_after hfile (SourceFile.element?_token hfile hj),
          after?_of_adjacent hreads.ordered hpair hi rfl]

/-- A comment that holds a colon stands before the colon, and one that holds a comma behind the
last comma. Between the name, node number three, and its value, node number four, stands the colon
all the same, which is token number three; and behind the only element of the array, node number
five, come the comma and the closing bracket, which are the tokens number six and eight. -/
theorem Document.punctuated_comments :
    ∃ doc, Document.ofText ⟨.jsonc, {}, true⟩ "\x7b\"a\"/*:*/: [1,/*,*/]\x7d".toList = .ok doc ∧
      let s : Session := { file := .ofDocument "\x7b\"a\"/*:*/: [1,/*,*/]\x7d".toList doc }
      Punctuated true s ∧ (s.HasAfter (.node 3) 3 ∧ s.HasBefore (.node 4) 3) ∧
        s.HasAfter (.node 5) 6 ∧ s.HasAfter (.token 6) 8 := by
  generalize htext : "\x7b\"a\"/*:*/: [1,/*,*/]\x7d".toList = text
  let kinds : List Token.Kind := [.leftBrace, .string, .blockComment, .colon, .leftBracket, .number,
    .comma, .blockComment, .rightBracket, .rightBrace]
  have hread : (Document.ofText ⟨.jsonc, {}, true⟩ text).toOption.any (fun doc => decide (
      doc.tokens.map Token.kind = kinds ∧
      (Outline.ofDocument doc).entries[2]?.map (fun e => (e.type, e.slots)) =
        some (.member, [(.name, .one (some 3)), (.value, .one (some 4))]) ∧
      (Outline.ofDocument doc).entries[4]?.map Entry.type = some .array ∧
      (Outline.ofDocument doc).children 4 = [5] ∧
      ((SourceFile.ofDocument text doc).element? (.node 5)).map
        (fun x => after? doc.tokens x.extent.range false) = some (some 6))) = true := by
    rw [← htext]
    decide +kernel
  obtain ⟨doc, hdoc, hnodes⟩ := Document.exists_of_any hread
  obtain ⟨hkinds, hmember, harray, hchildren, helement⟩ := of_decide_eq_true hnodes
  let s : Session := { file := .ofDocument text doc }
  have hpunctuated : Punctuated true s := Document.punctuated ⟨.jsonc, {}, true⟩ text doc hdoc s rfl
  have hkind {i : Nat} {t : Token} (ht : doc.tokens[i]? = some t) : kinds[i]? = some t.kind := by
    rw [← hkinds, List.getElem?_map, ht]
    rfl
  have hplace {i k : Nat} {kind : Token.Kind} (hi : kinds[i]? = some kind)
      (honly : ∀ j < kinds.length, kinds[j]? = some kind → j = k) : i = k :=
    honly i (List.getElem?_eq_some_iff.mp hi).1 hi
  refine ⟨doc, hdoc, hpunctuated, ?_, ?_⟩
  · obtain ⟨e, he, hshape⟩ := Option.map_eq_some_iff.mp hmember
    obtain ⟨htype, hslots⟩ := Prod.mk.inj hshape
    obtain ⟨n, v, hnodes, i, t, ht, hcolon, hafter, hbefore⟩ := hpunctuated.member 2 e he htype
    obtain ⟨rfl, rfl⟩ : n = 3 ∧ v = 4 := by simpa [hslots, eq_comm] using hnodes
    obtain rfl : i = 3 := hplace (hcolon ▸ hkind ht) (by decide)
    exact ⟨hafter, hbefore⟩
  · obtain ⟨e, he, htype⟩ := Option.map_eq_some_iff.mp harray
    obtain ⟨x, hx, hnext⟩ := Option.map_eq_some_iff.mp helement
    have hcomma : s.HasAfter (.node 5) 6 := by
      rw [Session.HasAfter, Session.ask_after rfl hx, hnext]
    obtain ⟨i, t, ht, hclosing, -, hlast⟩ := hpunctuated.last 4 e .leftBracket .rightBracket 5 he
      (by rw [htype]; decide) (congrArg List.getLast? hchildren)
    obtain rfl : i = 8 := hplace (hclosing ▸ hkind ht) (by decide)
    have honly {j : Nat} (hj : s.HasAfter (.node 5) j) : j = 6 := by
      simpa [Session.HasAfter] using hj.symm.trans hcomma
    rcases hlast with hnear | ⟨-, j, u, -, -, hj, hbracket⟩
    · cases honly hnear
    · exact ⟨hcomma, honly hj ▸ hbracket⟩

end Documents

end LocatedJson
