import LocatedJson.Proofs.Derivation
import LocatedJson.Proofs.Phrases
import LocatedJson.Proofs.Tiling

/-!
# Nodes and tokens are aligned

The nodes of a document start and end where tokens do, and they stand in
each other as their phrases do (`Document.outline_aligned`). All of it
follows from two facts: the extent of a phrase reaches from its first token
to its last one (`Phrase.spans`), and the tokens of a document stand in a
row without overlap (`Ordered`).
-/

namespace LocatedJson

open LocatedJson.Grammar LocatedJson.Text
open LocatedJson.Outline (Entry)

/-! ## Tokens in a row -/

/-- Tokens that are not empty and stand one behind the other. -/
structure Ordered (ts : List Token) : Prop where
  nonempty : ∀ t ∈ ts, t.extent.range.start < t.extent.range.stop
  ordered : ts.Pairwise fun a b => a.extent.range.stop ≤ b.extent.range.start

theorem Tiles.isOrdered {d : Dialect} {text : Text} {m n : Nat} {ts : List Token}
    (h : Tiles d text m n ts) : Ordered ts :=
  ⟨fun t ht => (h.nonempty t ht).2, h.ordered⟩

namespace Ordered

variable {ts us : List Token}

theorem sublist (h : Ordered ts) (hus : us.Sublist ts) : Ordered us :=
  ⟨fun t ht => h.nonempty t (hus.subset ht), h.ordered.sublist hus⟩

theorem stop_le_start {a b : Token} (h : Ordered (ts ++ us)) (ha : a ∈ ts) (hb : b ∈ us) :
    a.extent.range.stop ≤ b.extent.range.start :=
  (List.pairwise_append.mp h.ordered).2.2 a ha b hb

/-- Of two tokens the first in the list is the one that ends before the other starts. -/
theorem lt_iff (h : Ordered ts) {i j : Nat} {a b : Token} (ha : ts[i]? = some a)
    (hb : ts[j]? = some b) : i < j ↔ a.extent.range.stop ≤ b.extent.range.start := by
  have hpairwise := List.pairwise_iff_getElem.mp h.ordered
  have hposa := h.nonempty a (List.mem_of_getElem? ha)
  have hposb := h.nonempty b (List.mem_of_getElem? hb)
  obtain ⟨hi, rfl⟩ := List.getElem?_eq_some_iff.mp ha
  obtain ⟨hj, rfl⟩ := List.getElem?_eq_some_iff.mp hb
  constructor
  · exact hpairwise i j hi hj
  · intro hle
    rcases Nat.lt_trichotomy i j with hij | rfl | hji
    · exact hij
    · omega
    · have := hpairwise j i hj hi hji
      omega

/-- Two tokens that overlap are the same. -/
theorem eq_of_overlap (h : Ordered ts) {i j : Nat} {a b : Token} (ha : ts[i]? = some a)
    (hb : ts[j]? = some b) (hab : a.extent.range.start < b.extent.range.stop)
    (hba : b.extent.range.start < a.extent.range.stop) : i = j := by
  have hleft := h.lt_iff ha hb
  have hright := h.lt_iff hb ha
  omega

end Ordered

/-! ## What tokens reach over -/

namespace Spans

variable {ts us : List Token} {e e' : Extent}

theorem le_of_mem (h : Spans ts e) (hts : Ordered ts) {t : Token} (ht : t ∈ ts) :
    e.range.start ≤ t.extent.range.start ∧ t.extent.range.stop ≤ e.range.stop := by
  obtain ⟨first, last, hfirst, hlast, rfl⟩ := h
  change first.extent.range.start ≤ _ ∧ _ ≤ last.extent.range.stop
  have hpositive := hts.nonempty
  constructor
  · obtain ⟨rest, rfl⟩ : ∃ rest, ts = first :: rest := by
      cases ts with
      | nil => cases hfirst
      | cons a rest => exact ⟨rest, by simpa using hfirst⟩
    rcases List.mem_cons.mp ht with rfl | hrest
    · omega
    · have hle := (List.pairwise_cons.mp hts.ordered).1 t hrest
      have := hpositive first List.mem_cons_self
      omega
  · obtain ⟨front, rfl⟩ : ∃ front, ts = front ++ [last] := List.getLast?_eq_some_iff.mp hlast
    rcases List.mem_append.mp ht with hfront | hrest
    · have hle := hts.stop_le_start hfront (List.mem_singleton_self last)
      have := hpositive last (by simp)
      omega
    · obtain rfl : t = last := by simpa using hrest
      omega

theorem within (h : Spans ts e) (hts : Ordered ts) (h' : Spans us e') (hsub : us ⊆ ts) :
    e.range.start ≤ e'.range.start ∧ e'.range.stop ≤ e.range.stop := by
  obtain ⟨first, hfirst, hstart⟩ := h'.exists_first
  obtain ⟨last, hlast, hstop⟩ := h'.exists_last
  have hle := h.le_of_mem hts (hsub hfirst)
  have hle' := h.le_of_mem hts (hsub hlast)
  omega

end Spans

namespace Grammar

variable {d : Dialect} {trailing : Bool}

/-- A phrase of the code tokens starts and ends where some of them do. -/
theorem Phrase.exists_boundary {p : Phrase d trailing} {ts : List Token}
    (h : p.tokens <:+: ts.filter Token.isCode) :
    (∃ t ∈ ts, t.isCode = true ∧ t.extent.range.start = p.extent.range.start) ∧
      ∃ t ∈ ts, t.isCode = true ∧ t.extent.range.stop = p.extent.range.stop := by
  obtain ⟨first, hfirst, hstart⟩ := p.spans.exists_first
  obtain ⟨last, hlast, hstop⟩ := p.spans.exists_last
  obtain ⟨hfirst', hcode⟩ := List.mem_filter.mp (h.subset hfirst)
  obtain ⟨hlast', hcode'⟩ := List.mem_filter.mp (h.subset hlast)
  exact ⟨⟨first, hfirst', hcode, hstart⟩, last, hlast', hcode', hstop⟩

/-! ## Parts of a phrase -/

/-- Between the two phrases there is one of the tokens. -/
def Apart (ts : List Token) (p q : Phrase d trailing) : Prop :=
  ∃ t ∈ ts, p.extent.range.stop ≤ t.extent.range.start ∧
    t.extent.range.stop ≤ q.extent.range.start

/-- What stands around a token is apart. -/
theorem apart_of_append {p q : Phrase d trailing} {t : Token} {ts : List Token}
    (h : Ordered (p.tokens ++ t :: ts)) (hq : q.tokens ⊆ ts) :
    Apart (p.tokens ++ t :: ts) p q := by
  obtain ⟨last, hlast, hstop⟩ := p.spans.exists_last
  obtain ⟨first, hfirst, hstart⟩ := q.spans.exists_first
  refine ⟨t, by simp, ?_, ?_⟩
  · rw [← hstop]
    exact h.stop_le_start hlast List.mem_cons_self
  · rw [← hstart]
    have hrest : Ordered (t :: ts) := h.sublist (List.sublist_append_right _ _)
    exact (List.pairwise_cons.mp hrest.ordered).1 first (hq hfirst)

theorem Apart.mono {p q : Phrase d trailing} {ts us : List Token} (h : Apart ts p q)
    (hsub : ts ⊆ us) : Apart us p q := by
  obtain ⟨t, ht, hp, hq⟩ := h
  exact ⟨t, hsub ht, hp, hq⟩

theorem Strung.pairwise_apart {ps : List (Phrase d trailing)} {ts : List Token} (h : Strung ps ts)
    (hts : Ordered ts) : ps.Pairwise (Apart ts) := by
  induction h with
  | nil => exact .nil
  | last p | trailed p comma allowed => exact List.pairwise_singleton _ _
  | @more p q comma ps ts hrest ih =>
      have hrest' : Ordered ts := hts.sublist
        ((List.sublist_cons_self comma.val ts).trans (List.sublist_append_right p.tokens _))
      refine List.pairwise_cons.mpr ⟨fun b hb => ?_, (ih hrest').imp fun h => h.mono ?_⟩
      · exact apart_of_append hts (hrest.tokens_isInfix hb).subset
      · intro t ht
        simp [ht]

/-- Any two parts of a container or of a member have a token between them. -/
theorem Phrase.pairwise_apart (p : Phrase d trailing) (h : Ordered p.tokens) :
    p.parts.Pairwise (Apart p.tokens) := by
  have hlayout := p.layout
  generalize p.type = type, p.extent = extent, p.tokens = ts, p.parts = ps at hlayout h ⊢
  cases hlayout with
  | leaf t htype => exact .nil
  | element q => exact List.pairwise_singleton _ _
  | member n v colon =>
      refine List.pairwise_cons.mpr ⟨fun q hq => ?_, List.pairwise_singleton _ _⟩
      obtain rfl : q = v := by simpa using hq
      exact apart_of_append h (List.Subset.refl _)
  | @container type opening closing hbrackets ps body hbody =>
      have hsub : body.Sublist (opening :: body ++ [closing]) :=
        (List.sublist_append_left body [closing]).trans (List.sublist_cons_self opening _)
      exact (hbody.pairwise_apart (h.sublist hsub)).imp fun h => h.mono hsub.subset

/-- A container starts with its opening bracket and ends with its closing one, and its parts
stand between them. -/
theorem Phrase.exists_brackets {p : Phrase d trailing} {opening closing : Token.Kind}
    (htype : (p.type, opening, closing) ∈ brackets) (h : Ordered p.tokens) :
    ∃ a ∈ p.tokens, ∃ b ∈ p.tokens, a.kind = opening ∧ b.kind = closing ∧
      p.extent.range = ⟨a.extent.range.start, b.extent.range.stop⟩ ∧
      ∀ q ∈ p.parts, p.extent.range.start < q.extent.range.start ∧
        q.extent.range.stop < p.extent.range.stop := by
  obtain ⟨a, b, body, htokens, ha, hb, hextent, hbody⟩ := Phrase.exists_container htype
  rw [htokens] at h ⊢
  refine ⟨a, by simp, b, by simp, ha, hb, by rw [hextent]; rfl, fun q hq => ?_⟩
  obtain ⟨first, hfirst, hstart⟩ := q.spans.exists_first
  obtain ⟨last, hlast, hstop⟩ := q.spans.exists_last
  have hsub := (hbody.tokens_isInfix hq).subset
  have hposa := h.nonempty a (by simp)
  have hposb := h.nonempty b (by simp)
  have hfront : a.extent.range.stop ≤ first.extent.range.start :=
    (List.pairwise_cons.mp h.ordered).1 first (List.mem_append_left _ (hsub hfirst))
  have hback : last.extent.range.stop ≤ b.extent.range.start :=
    h.stop_le_start (List.mem_cons_of_mem a (hsub hlast)) (List.mem_singleton_self b)
  rw [hextent]
  change a.extent.range.start < _ ∧ _ < b.extent.range.stop
  omega

end Grammar

/-! ## Outlines -/

/-- How the nodes of an outline stand to each other and to the tokens of a text: where they start
and end (`boundary`), that they contain their children (`nested`) and that these do not meet
(`apart`), and what the ranges of the single types of nodes are. -/
structure Aligned (text : Text) (tokens : List Token) (o : Outline) : Prop where
  boundary : ∀ (id : Nat) (e : Entry), o.entries[id]? = some e → e.type ≠ .document →
    (∃ t ∈ tokens, t.isCode = true ∧ t.extent.range.start = e.extent.range.start) ∧
      ∃ t ∈ tokens, t.isCode = true ∧ t.extent.range.stop = e.extent.range.stop
  nested : ∀ (id : Nat) (e : Entry), o.entries[id]? = some e → ∀ c ∈ o.children id,
    ∃ r, o.range? c = some r ∧ e.extent.range.start ≤ r.start ∧ r.stop ≤ e.extent.range.stop
  apart : ∀ id, (o.children id).Pairwise fun a b =>
    ∃ ra rb, o.range? a = some ra ∧ o.range? b = some rb ∧
      ∃ t ∈ tokens, t.isCode = true ∧ ra.stop ≤ t.extent.range.start ∧
        t.extent.range.start < t.extent.range.stop ∧ t.extent.range.stop ≤ rb.start
  bracketed : ∀ (id : Nat) (e : Entry) (opening closing : Token.Kind), o.entries[id]? = some e →
    (e.type, opening, closing) ∈ brackets →
      (∃ a ∈ tokens, ∃ b ∈ tokens, a.kind = opening ∧ b.kind = closing ∧
        e.extent.range = ⟨a.extent.range.start, b.extent.range.stop⟩) ∧
      ∀ c ∈ o.children id, ∃ r, o.range? c = some r ∧
        e.extent.range.start < r.start ∧ r.stop < e.extent.range.stop
  member : ∀ (id : Nat) (e : Entry), o.entries[id]? = some e → e.type = .member →
    ∃ n v rn rv, e.slots = [(.name, .one (some n)), (.value, .one (some v))] ∧
      o.range? n = some rn ∧ o.range? v = some rv ∧ e.extent.range = ⟨rn.start, rv.stop⟩
  element : ∀ (id : Nat) (e : Entry), o.entries[id]? = some e → e.type = .element →
    ∃ v, e.slots = [(.value, .one (some v))] ∧ o.range? v = some e.extent.range
  leaf : ∀ (id : Nat) (e : Entry), o.entries[id]? = some e → e.type.childKeys = [] →
    ∃ (i : Nat) (t : Token), tokens[i]? = some t ∧ t.isCode = true ∧
      t.extent.range = e.extent.range ∧
      t.text = slice text e.extent.range.start e.extent.range.stop ∧
      ∀ (j : Nat) (t' : Token), tokens[j]? = some t' →
        t'.extent.range.start < e.extent.range.stop →
        e.extent.range.start < t'.extent.range.stop → j = i

namespace Grammar.Phrase.At

variable {d : Dialect} {trailing : Bool} {o : Outline} {id : Nat} {p : Phrase d trailing}

theorem exists_part_of_mem (h : At o id p) {c : Nat} (hc : c ∈ o.children id) :
    ∃ q ∈ p.parts, o.range? c = some q.extent.range := by
  have hmem : o.range? c ∈ (o.children id).map o.range? := List.mem_map_of_mem hc
  rw [h.map_range?_children] at hmem
  obtain ⟨q, hq, hrange⟩ := List.mem_map.mp hmem
  exact ⟨q, hq, hrange.symm⟩

theorem nested (h : At o id p) (hp : Ordered p.tokens) {c : Nat} (hc : c ∈ o.children id) :
    ∃ r, o.range? c = some r ∧ p.extent.range.start ≤ r.start ∧
      r.stop ≤ p.extent.range.stop := by
  obtain ⟨q, hq, hrange⟩ := h.exists_part_of_mem hc
  exact ⟨_, hrange, p.spans.within hp q.spans (tokens_isInfix hq).subset⟩

theorem pairwise_apart (h : At o id p) (hp : Ordered p.tokens) :
    (o.children id).Pairwise fun a b => ∃ ra rb, o.range? a = some ra ∧ o.range? b = some rb ∧
      ∃ t ∈ p.tokens, ra.stop ≤ t.extent.range.start ∧ t.extent.range.stop ≤ rb.start := by
  have hparts : (p.parts.map fun q => some q.extent.range).Pairwise fun ra? rb? =>
      ∃ ra rb : Range, ra? = some ra ∧ rb? = some rb ∧
        ∃ t ∈ p.tokens, ra.stop ≤ t.extent.range.start ∧ t.extent.range.stop ≤ rb.start :=
    List.pairwise_map.mpr ((p.pairwise_apart hp).imp fun hapart => ⟨_, _, rfl, rfl, hapart⟩)
  rw [← h.map_range?_children] at hparts
  exact List.pairwise_map.mp hparts

end Grammar.Phrase.At

section Documents

variable {profile : Profile} {text : Text} {doc : Document}

/-- The code tokens of a document are a sentence, and its body is the node of it. -/
theorem Document.exists_sentence (h : Document.ofText profile text = .ok doc) :
    ∃ v : Value profile.dialect profile.allowsTrailingCommas,
      v.tokens = doc.tokens.filter Token.isCode ∧ doc.body = v.node ∧
      doc.extent.range = ⟨0, text.length⟩ ∧
      Tiles profile.dialect text 0 text.length doc.tokens := by
  obtain ⟨-, hfault, hdoc⟩ := Document.ofText_eq_ok_iff.mp h
  obtain ⟨v, hv, -, rfl⟩ := Document.ofTokens_eq_ok_iff.mp hdoc
  obtain ⟨n, hrun, hgap⟩ := Lexed.exists_run_of_fault?_eq_none hfault
  exact ⟨v, hv, rfl, rfl, hrun.tiles hgap⟩

/-- The nodes of a document are aligned with its tokens. -/
theorem Document.outline_aligned (profile : Profile) (text : Text) (doc : Document)
    (h : Document.ofText profile text = .ok doc) :
    Aligned text doc.tokens (.ofDocument doc) := by
  obtain ⟨v, hv, hbody, hrange, htiles⟩ := Document.exists_sentence h
  have hmem : ∀ t ∈ v.tokens, t ∈ doc.tokens ∧ t.isCode = true := by
    intro t ht
    rw [hv] at ht
    exact List.mem_filter.mp ht
  have hordered : Ordered v.tokens := hv ▸ htiles.isOrdered.sublist List.filter_sublist
  constructor
  case boundary =>
    intro id e he hnot
    rcases Outline.exists_phrase hbody he with ⟨-, hdoc, -⟩ | ⟨p, hat, hpart, -, hextent⟩
    · exact absurd hdoc hnot
    · rw [hextent]
      exact Phrase.exists_boundary (hv ▸ hpart)
  case nested =>
    intro id e he c hc
    rcases Outline.exists_phrase hbody he with ⟨rfl, -, hextent⟩ | ⟨p, hat, hpart, -, hextent⟩
    · -- the only child of the document is its body, and that lies in the text
      obtain rfl : c = 1 := List.mem_singleton.mp hc
      obtain ⟨first, hfirst, hstart⟩ := v.spans.exists_first
      obtain ⟨last, hlast, hstop⟩ := v.spans.exists_last
      have hfirst' := htiles.within first (hmem first hfirst).1
      have hlast' := htiles.within last (hmem last hlast).1
      refine ⟨_, (Outline.at_body hbody).range?_eq, ?_⟩
      rw [hextent, hrange, Phrase.extent]
      dsimp only
      omega
    · rw [hextent]
      exact hat.nested (hordered.sublist hpart.sublist) hc
  case apart =>
    intro id
    cases he : (Outline.ofDocument doc).entries[id]? with
    | none => simp [Outline.children, he]
    | some e =>
        rcases Outline.exists_phrase hbody he with ⟨rfl, -⟩ | ⟨p, hat, hpart, -⟩
        · exact List.pairwise_singleton _ _
        · refine (hat.pairwise_apart (hordered.sublist hpart.sublist)).imp ?_
          rintro a b ⟨ra, rb, hra, hrb, t, ht, hat, htb⟩
          obtain ⟨ht', hcode⟩ := hmem t (hpart.subset ht)
          exact ⟨ra, rb, hra, hrb, t, ht', hcode, hat, htiles.isOrdered.nonempty t ht', htb⟩
  case bracketed =>
    intro id e opening closing he htype
    rcases Outline.exists_phrase hbody he with ⟨-, hdoc, -⟩ | ⟨p, hat, hpart, htype', hextent⟩
    · rw [hdoc] at htype
      simp [brackets] at htype
    · rw [htype'] at htype
      obtain ⟨a, ha, b, hb, hopening, hclosing, hrange, hparts⟩ :=
        Phrase.exists_brackets htype (hordered.sublist hpart.sublist)
      rw [hextent]
      refine ⟨⟨a, (hmem a (hpart.subset ha)).1, b, (hmem b (hpart.subset hb)).1, hopening,
        hclosing, hrange⟩, fun c hc => ?_⟩
      obtain ⟨q, hq, hrange⟩ := hat.exists_part_of_mem hc
      exact ⟨_, hrange, hparts q hq⟩
  case member =>
    intro id e he htype
    rcases Outline.exists_phrase hbody he with ⟨-, hdoc, -⟩ | ⟨p, hat, -, htype', -⟩
    · cases hdoc.symm.trans htype
    · exact hat.exists_member (htype'.symm.trans htype) he
  case element =>
    intro id e he htype
    rcases Outline.exists_phrase hbody he with ⟨-, hdoc, -⟩ | ⟨p, hat, -, htype', -⟩
    · cases hdoc.symm.trans htype
    · exact hat.exists_element (htype'.symm.trans htype) he
  case leaf =>
    intro id e he htype
    rcases Outline.exists_phrase hbody he with ⟨-, hdoc, -⟩ | ⟨p, hat, hpart, htype', hextent⟩
    · rw [hdoc] at htype
      cases htype
    · rw [htype'] at htype
      obtain ⟨t, htokens, hextent'⟩ := Phrase.exists_leaf htype
      obtain ⟨ht, hcode⟩ := hmem t (hpart.subset (by simp [htokens]))
      obtain ⟨i, hi⟩ := List.mem_iff_getElem?.mp ht
      rw [hextent, hextent']
      refine ⟨i, t, hi, hcode, rfl, htiles.text_eq t ht, fun j t' hj hleft hright => ?_⟩
      exact htiles.isOrdered.eq_of_overlap hj hi hleft hright

/-- In the object `"a": [1]` with its braces the array, node number four, reaches from the bracket
at offset six to the one that ends at offset nine, and its element, node number five, lies strictly
between them. Node number six is a number, and its token is token number four. -/
theorem Document.outline_aligned_object :
    ∃ doc, Document.ofText {} "\x7b\"a\": [1]\x7d".toList = .ok doc ∧
      Aligned "\x7b\"a\": [1]\x7d".toList doc.tokens (.ofDocument doc) ∧
      (∃ e, (Outline.ofDocument doc).entries[4]? = some e ∧ e.type = .array ∧
        (∃ a ∈ doc.tokens, ∃ b ∈ doc.tokens, a.kind = .leftBracket ∧ b.kind = .rightBracket ∧
          a.extent.range.start = 6 ∧ b.extent.range.stop = 9 ∧ e.extent.range = ⟨6, 9⟩) ∧
        ∃ r, (Outline.ofDocument doc).range? 5 = some r ∧ 6 < r.start ∧ r.stop < 9) ∧
      ∃ e t, (Outline.ofDocument doc).entries[6]? = some e ∧ e.type = .number ∧
        doc.tokens[4]? = some t ∧ t.text = ['1'] ∧ t.extent.range = e.extent.range := by
  have hread : (Document.ofText {} "\x7b\"a\": [1]\x7d".toList).toOption.any (fun doc => decide (
      (Outline.ofDocument doc).entries[4]?.map (fun e => (e.type, e.extent.range)) =
        some (.array, ⟨6, 9⟩) ∧
      (Outline.ofDocument doc).children 4 = [5] ∧
      (Outline.ofDocument doc).entries[6]?.map (fun e => (e.type, e.extent.range)) =
        some (.number, ⟨7, 8⟩) ∧
      doc.tokens[4]?.map (·.extent.range) = some ⟨7, 8⟩)) = true := by
    decide +kernel
  obtain ⟨doc, hdoc, hnodes⟩ := Document.exists_of_any hread
  obtain ⟨harray, hchildren, hnumber, htoken⟩ := of_decide_eq_true hnodes
  have haligned := Document.outline_aligned {} _ doc hdoc
  refine ⟨doc, hdoc, haligned, ?_, ?_⟩
  · obtain ⟨e, he, hshape⟩ := Option.map_eq_some_iff.mp harray
    obtain ⟨htype, hrange⟩ := Prod.mk.inj hshape
    obtain ⟨⟨a, ha, b, hb, hopening, hclosing, hends⟩, hinside⟩ :=
      haligned.bracketed 4 e .leftBracket .rightBracket he (by rw [htype]; decide)
    rw [hrange] at hends hinside
    obtain ⟨hstart, hstop⟩ := Range.mk.inj hends
    exact ⟨e, he, htype, ⟨a, ha, b, hb, hopening, hclosing, hstart.symm, hstop.symm, hrange⟩,
      hinside 5 (by rw [hchildren]; decide)⟩
  · obtain ⟨e, he, hshape⟩ := Option.map_eq_some_iff.mp hnumber
    obtain ⟨htype, hrange⟩ := Prod.mk.inj hshape
    obtain ⟨t, ht, htrange⟩ := Option.map_eq_some_iff.mp htoken
    obtain ⟨i, t', ht', -, hsame, htext, halone⟩ := haligned.leaf 6 e he (by rw [htype]; rfl)
    rw [hrange] at hsame htext halone
    obtain rfl : 4 = i := halone 4 t ht (by rw [htrange]; decide) (by rw [htrange]; decide)
    exact ⟨e, t', he, htype, ht', htext, hsame.trans hrange.symm⟩

end Documents

end LocatedJson
