import LocatedJson.Outline
import LocatedJson.Proofs.Grammar

/-!
# Phrases

A phrase is a part of a sentence that has a node of its own: a value, a
member, the name of a member or an element. How its tokens are made up of
the tokens of the phrases right below it is its layout (`Phrase.layout`),
and its extent reaches from its first token to its last one
(`Phrase.spans`). That is all that a proof about nodes and tokens needs to
know about derivations.

The outline of a document lists the phrases of its sentence. The entries of
a phrase are its own entry and then those of its parts, one part after the
other (`Phrase.exists_entries_eq`). So where a phrase stands in an outline
its parts stand too, under the numbers that its entry holds
(`Phrase.At.map_range?_children`), and every number of an outline but that
of the document is the place of a phrase (`Outline.exists_phrase`).
-/

namespace LocatedJson

def Node.type : Node → NodeType
  | .string _ _ => .string
  | .number _ _ => .number
  | .boolean _ _ => .boolean
  | .null _ => .null
  | .nan _ _ => .nan
  | .infinity _ _ => .infinity
  | .object _ _ => .object
  | .array _ _ => .array

def Key.type : Key → NodeType
  | .quoted _ _ => .string
  | .bare _ _ => .identifier

def Outline.range? (o : Outline) (id : Nat) : Option Range :=
  (o.entries[id]?).map fun e => e.extent.range

/-- The extent reaches from the first of the tokens to the last one. -/
def Spans (ts : List Token) (e : Extent) : Prop :=
  ∃ first last, ts.head? = some first ∧ ts.getLast? = some last ∧
    e = first.extent.join last.extent

namespace Spans

variable {ts : List Token} {e : Extent}

theorem cons {t : Token} (h : Spans ts e) : Spans (t :: ts) (t.extent.join e) := by
  obtain ⟨first, last, hfirst, hlast, rfl⟩ := h
  exact ⟨t, last, rfl, by rw [List.getLast?_cons, hlast]; rfl, rfl⟩

theorem exists_first (h : Spans ts e) :
    ∃ t ∈ ts, t.extent.range.start = e.range.start := by
  obtain ⟨first, last, hfirst, -, rfl⟩ := h
  exact ⟨first, List.mem_of_head? hfirst, rfl⟩

theorem exists_last (h : Spans ts e) : ∃ t ∈ ts, t.extent.range.stop = e.range.stop := by
  obtain ⟨first, last, -, hlast, rfl⟩ := h
  exact ⟨last, List.mem_of_getLast? hlast, rfl⟩

end Spans

namespace Grammar

variable {d : Dialect} {trailing : Bool}

/-- The parts of a sentence that have a node of their own. -/
inductive Phrase (d : Dialect) (trailing : Bool) where
  | value (v : Value d trailing)
  | member (t : Token) (key : Key) (is : Name d t key) (colon : Terminal .colon)
      (v : Value d trailing)
  | name (t : Token) (key : Key) (is : Name d t key)
  | element (v : Value d trailing)

/-! ## Tokens and parts -/

def Members.parts : Members d trailing → List (Phrase d trailing)
  | .last t key is colon value _ => [.member t key is colon value]
  | .more t key is colon value _ rest => .member t key is colon value :: rest.parts

def Elements.parts : Elements d trailing → List (Phrase d trailing)
  | .last value _ => [.element value]
  | .more value _ rest => .element value :: rest.parts

def Value.parts : Value d trailing → List (Phrase d trailing)
  | .scalar _ _ _ | .emptyObject _ _ | .emptyArray _ _ => []
  | .object _ members _ => members.parts
  | .array _ elements _ => elements.parts

namespace Phrase

def tokens : Phrase d trailing → List Token
  | .value v | .element v => v.tokens
  | .member t _ _ colon v => t :: colon.val :: v.tokens
  | .name t _ _ => [t]

def type : Phrase d trailing → NodeType
  | .value v => v.node.type
  | .member _ _ _ _ _ => .member
  | .name _ key _ => key.type
  | .element _ => .element

def extent : Phrase d trailing → Extent
  | .value v | .element v => v.node.extent
  | .member _ key _ _ v => Node.memberExtent key v.node
  | .name _ key _ => key.extent

/-- The phrases right below a phrase. -/
def parts : Phrase d trailing → List (Phrase d trailing)
  | .value v => v.parts
  | .member t key is _ v => [.name t key is, .value v]
  | .name _ _ _ => []
  | .element v => [.value v]

end Phrase

/-- The tokens between the brackets of a container: its parts with a comma between any two of
them, and one more behind the last if that is allowed. -/
inductive Strung : List (Phrase d trailing) → List Token → Prop
  | nil : Strung [] []
  | last (p : Phrase d trailing) : Strung [p] p.tokens
  | trailed (p : Phrase d trailing) (comma : Terminal .comma) (allowed : trailing = true) :
      Strung [p] (p.tokens ++ [comma.val])
  | more (p q : Phrase d trailing) (comma : Terminal .comma) {ps : List (Phrase d trailing)}
      {ts : List Token} (hrest : Strung (q :: ps) ts) :
      Strung (p :: q :: ps) (p.tokens ++ comma.val :: ts)

/-- The types of nodes that stand between brackets, with the kinds of these. -/
def brackets : List (NodeType × Token.Kind × Token.Kind) :=
  [(.object, .leftBrace, .rightBrace), (.array, .leftBracket, .rightBracket)]

/-- The type, the extent, the tokens and the parts of a phrase. -/
inductive Layout : NodeType → Extent → List Token → List (Phrase d trailing) → Prop
  | leaf {type : NodeType} (t : Token) (htype : type.childKeys = []) :
      Layout type t.extent [t] []
  | element (q : Phrase d trailing) : Layout .element q.extent q.tokens [q]
  | member (n v : Phrase d trailing) (colon : Terminal .colon) :
      Layout .member (n.extent.join v.extent) (n.tokens ++ colon.val :: v.tokens) [n, v]
  | container {type : NodeType} (opening closing : Token)
      (hbrackets : (type, opening.kind, closing.kind) ∈ brackets)
      {ps : List (Phrase d trailing)} {body : List Token} (hbody : Strung ps body) :
      Layout type (opening.extent.join closing.extent) (opening :: body ++ [closing]) ps

theorem Scalar.type_extent {t : Token} {node : Node} (h : Scalar d t node) :
    node.type.childKeys = [] ∧ node.extent = t.extent := by
  cases h <;> exact ⟨rfl, rfl⟩

theorem Name.type_extent {t : Token} {key : Key} (h : Name d t key) :
    key.type.childKeys = [] ∧ key.extent = t.extent := by
  cases h <;> exact ⟨rfl, rfl⟩

/-- Behind the last part of a list there is nothing, or a comma. -/
theorem Strung.of_trailer (p : Phrase d trailing) (trailer : Trailer trailing) :
    Strung [p] (p.tokens ++ trailer.tokens) := by
  cases trailer with
  | none =>
      rw [Trailer.tokens, List.append_nil]
      exact .last p
  | comma t allowed => exact .trailed p t allowed

theorem Members.exists_parts_eq_cons (m : Members d trailing) :
    ∃ q qs, m.parts = q :: qs := by
  cases m <;> exact ⟨_, _, rfl⟩

theorem Elements.exists_parts_eq_cons (e : Elements d trailing) :
    ∃ q qs, e.parts = q :: qs := by
  cases e <;> exact ⟨_, _, rfl⟩

theorem Members.strung (m : Members d trailing) : Strung m.parts m.tokens := by
  match m with
  | .last t key is colon value trailer => exact .of_trailer (.member t key is colon value) trailer
  | .more t key is colon value comma rest =>
      have hrest := rest.strung
      obtain ⟨q, qs, hparts⟩ := rest.exists_parts_eq_cons
      rw [Members.parts, hparts]
      rw [hparts] at hrest
      exact .more (.member t key is colon value) q comma hrest

theorem Elements.strung (e : Elements d trailing) : Strung e.parts e.tokens := by
  match e with
  | .last value trailer => exact .of_trailer (.element value) trailer
  | .more value comma rest =>
      have hrest := rest.strung
      obtain ⟨q, qs, hparts⟩ := rest.exists_parts_eq_cons
      rw [Elements.parts, hparts]
      rw [hparts] at hrest
      exact .more (.element value) q comma hrest

theorem Value.layout (v : Value d trailing) :
    Layout v.node.type v.node.extent v.tokens v.parts := by
  have hobject {opening : Terminal .leftBrace} {closing : Terminal .rightBrace} :
      (NodeType.object, opening.val.kind, closing.val.kind) ∈ brackets := by
    rw [opening.property, closing.property]
    exact .head _
  have harray {opening : Terminal .leftBracket} {closing : Terminal .rightBracket} :
      (NodeType.array, opening.val.kind, closing.val.kind) ∈ brackets := by
    rw [opening.property, closing.property]
    exact .tail _ (.head _)
  cases v with
  | scalar t node is =>
      obtain ⟨htype, hextent⟩ := is.type_extent
      rw [show (Value.scalar t node is).node = node from rfl, hextent]
      exact .leaf t htype
  | emptyObject opening closing => exact .container opening.val closing.val hobject .nil
  | object opening members closing =>
      exact .container opening.val closing.val hobject members.strung
  | emptyArray opening closing => exact .container opening.val closing.val harray .nil
  | array opening elements closing =>
      exact .container opening.val closing.val harray elements.strung

theorem Phrase.layout (p : Phrase d trailing) : Layout p.type p.extent p.tokens p.parts := by
  cases p with
  | value v => exact v.layout
  | member t key is colon v => exact .member (.name t key is) (.value v) colon
  | name t key is =>
      obtain ⟨htype, hextent⟩ := is.type_extent
      rw [show (Phrase.name t key is).extent = t.extent from hextent]
      exact .leaf t htype
  | element v => exact .element (.value v)

theorem Phrase.exists_leaf {p : Phrase d trailing} (htype : p.type.childKeys = []) :
    ∃ t, p.tokens = [t] ∧ p.extent = t.extent := by
  have hlayout := p.layout
  generalize p.type = type, p.extent = extent, p.tokens = ts, p.parts = ps at hlayout htype ⊢
  cases hlayout with
  | leaf t hleaf => exact ⟨t, rfl, rfl⟩
  | element q => cases htype
  | member n v colon => cases htype
  | container opening closing hbrackets hbody =>
      simp only [brackets, List.mem_cons, Prod.mk.injEq, List.not_mem_nil, or_false] at hbrackets
      rcases hbrackets with ⟨rfl, -⟩ | ⟨rfl, -⟩ <;> cases htype

/-- A phrase of a type with brackets has them around the tokens of its parts. -/
theorem Phrase.exists_container {p : Phrase d trailing} {opening closing : Token.Kind}
    (htype : (p.type, opening, closing) ∈ brackets) :
    ∃ a b body, p.tokens = a :: body ++ [b] ∧ a.kind = opening ∧ b.kind = closing ∧
      p.extent = a.extent.join b.extent ∧ Strung p.parts body := by
  have hlayout := p.layout
  generalize p.type = type, p.extent = extent, p.tokens = ts, p.parts = ps at hlayout htype ⊢
  simp only [brackets, List.mem_cons, Prod.mk.injEq, List.not_mem_nil, or_false] at htype
  cases hlayout with
  | leaf t hleaf => rcases htype with ⟨rfl, -⟩ | ⟨rfl, -⟩ <;> cases hleaf
  | element q => rcases htype with ⟨hwrong, -⟩ | ⟨hwrong, -⟩ <;> cases hwrong
  | member n v colon => rcases htype with ⟨hwrong, -⟩ | ⟨hwrong, -⟩ <;> cases hwrong
  | @container type a b hbrackets ps body hbody =>
      have hkinds : a.kind = opening ∧ b.kind = closing := by
        simp only [brackets, List.mem_cons, Prod.mk.injEq, List.not_mem_nil, or_false] at hbrackets
        rcases htype with ⟨rfl, rfl, rfl⟩ | ⟨rfl, rfl, rfl⟩ <;> simpa using hbrackets
      exact ⟨a, b, body, rfl, hkinds.1, hkinds.2, rfl, hbody⟩

/-- Of the phrases only members and elements have their types. -/
theorem Phrase.eq_of_type (p : Phrase d trailing) :
    (p.type = .member → ∃ t key is colon v, p = .member t key is colon v) ∧
      (p.type = .element → ∃ v, p = .element v) := by
  cases p with
  | value v =>
      cases v with
      | scalar t node is => cases is <;> exact ⟨nofun, nofun⟩
      | emptyObject opening closing | object opening members closing
      | emptyArray opening closing | array opening elements closing => exact ⟨nofun, nofun⟩
  | member t key is colon v => exact ⟨fun _ => ⟨t, key, is, colon, v, rfl⟩, nofun⟩
  | name t key is => cases is <;> exact ⟨nofun, nofun⟩
  | element v => exact ⟨nofun, fun _ => ⟨v, rfl⟩⟩

/-! ## What phrases reach over -/

theorem Value.spans (v : Value d trailing) : Spans v.tokens v.node.extent := by
  cases v with
  | scalar t node is => exact ⟨t, t, rfl, rfl, is.type_extent.2⟩
  | emptyObject opening closing | emptyArray opening closing =>
      exact ⟨opening.val, closing.val, rfl, rfl, rfl⟩
  | object opening items closing | array opening items closing =>
      refine ⟨opening.val, closing.val, rfl, ?_, rfl⟩
      rw [Value.tokens, List.getLast?_concat]

theorem Phrase.spans (p : Phrase d trailing) : Spans p.tokens p.extent := by
  cases p with
  | value v | element v => exact v.spans
  | name t key is => exact ⟨t, t, rfl, rfl, is.type_extent.2⟩
  | member t key is colon v =>
      have hspans : Spans (t :: colon.val :: v.tokens)
          (t.extent.join (colon.val.extent.join v.node.extent)) := v.spans.cons.cons
      rw [← is.type_extent.2] at hspans
      exact hspans

/-! ## Tokens of parts -/

theorem Strung.tokens_isInfix {ps : List (Phrase d trailing)} {ts : List Token} (h : Strung ps ts)
    {q : Phrase d trailing} (hq : q ∈ ps) : q.tokens <:+: ts := by
  induction h with
  | nil => cases hq
  | last p =>
      obtain rfl : q = p := by simpa using hq
      exact List.infix_rfl
  | trailed p comma allowed =>
      obtain rfl : q = p := by simpa using hq
      exact (List.prefix_append q.tokens _).isInfix
  | more p q' comma hrest ih =>
      rcases List.mem_cons.mp hq with rfl | hq
      · exact (List.prefix_append q.tokens _).isInfix
      · refine (ih hq).trans (List.IsSuffix.isInfix ?_)
        exact (List.suffix_cons comma.val _).trans (List.suffix_append p.tokens _)

theorem Phrase.tokens_isInfix {p q : Phrase d trailing} (hq : q ∈ p.parts) :
    q.tokens <:+: p.tokens := by
  have hlayout := p.layout
  generalize p.type = type, p.extent = extent, p.tokens = ts, p.parts = ps at hlayout hq ⊢
  cases hlayout with
  | leaf t htype => cases hq
  | element q' =>
      obtain rfl : q = q' := by simpa using hq
      exact List.infix_rfl
  | member n v colon =>
      obtain rfl | rfl : q = n ∨ q = v := by simpa using hq
      · exact (List.prefix_append q.tokens _).isInfix
      · exact ⟨n.tokens ++ [colon.val], [], by simp⟩
  | container opening closing hbrackets hbody =>
      exact (hbody.tokens_isInfix hq).trans ⟨[opening], [closing], by simp⟩

/-! ## Entries -/

namespace Phrase

open Outline (Entry nodeEntries memberEntries elementEntries keyEntry)

/-- The entries of a phrase whose own entry has a number. -/
def entries (id : Nat) : Phrase d trailing → List Entry
  | .value v => nodeEntries id v.node
  | .member _ key _ _ v =>
    ⟨.member, Node.memberExtent key v.node,
        [(.name, .one (some (id + 1))), (.value, .one (some (id + 2)))], .nothing⟩ ::
      keyEntry key :: nodeEntries (id + 2) v.node
  | .name _ key _ => [keyEntry key]
  | .element v =>
    ⟨.element, v.node.extent, [(.value, .one (some (id + 1)))], .nothing⟩ ::
      nodeEntries (id + 1) v.node

def entriesFrom : Nat → List (Phrase d trailing) → List Entry
  | _, [] => []
  | id, p :: ps => p.entries id ++ entriesFrom (id + (p.entries id).length) ps

/-- The numbers of the own entries of phrases one after the other. -/
def numbersFrom : Nat → List (Phrase d trailing) → List Nat
  | _, [] => []
  | id, p :: ps => id :: numbersFrom (id + (p.entries id).length) ps

theorem memberEntries_pairs (id : Nat) (m : Members d trailing) :
    memberEntries id m.pairs = (numbersFrom id m.parts, entriesFrom id m.parts) := by
  match m with
  | .last t key is colon v trailer =>
      simp [Members.pairs, Members.parts, memberEntries, numbersFrom, entriesFrom, entries]
  | .more t key is colon v comma rest =>
      have hlength : id + (entries id (.member t key is colon v)).length =
          id + 2 + (nodeEntries (id + 2) v.node).length := by
        simp only [entries, List.length_cons]
        omega
      rw [Members.pairs, Members.parts, memberEntries, numbersFrom, entriesFrom, hlength,
        memberEntries_pairs _ rest]
      rfl

theorem elementEntries_nodes (id : Nat) (e : Elements d trailing) :
    elementEntries id e.nodes = (numbersFrom id e.parts, entriesFrom id e.parts) := by
  match e with
  | .last v trailer =>
      simp [Elements.nodes, Elements.parts, elementEntries, numbersFrom, entriesFrom, entries]
  | .more v comma rest =>
      have hlength : id + (entries id (.element v)).length =
          id + 1 + (nodeEntries (id + 1) v.node).length := by
        simp only [entries, List.length_cons]
        omega
      rw [Elements.nodes, Elements.parts, elementEntries, numbersFrom, entriesFrom, hlength,
        elementEntries_nodes _ rest]
      rfl

theorem keyEntry_eq (key : Key) :
    ∃ content, keyEntry key = ⟨key.type, key.extent, [], content⟩ := by
  cases key <;> exact ⟨_, rfl⟩

theorem children_eq_nil {e : Entry} (h : e.type.childKeys = []) : e.children = [] := by
  rw [Entry.children, h]
  rfl

/-- The own entry of a phrase holds the numbers of its parts, and their entries follow. -/
theorem exists_entries_eq (p : Phrase d trailing) (id : Nat) :
    ∃ e, p.entries id = e :: entriesFrom (id + 1) p.parts ∧ e.type = p.type ∧
      e.extent = p.extent ∧ e.children = numbersFrom (id + 1) p.parts := by
  cases p with
  | value v =>
      cases v with
      | scalar t node is => cases is <;> exact ⟨_, rfl, rfl, rfl, rfl⟩
      | emptyObject opening closing | emptyArray opening closing =>
          exact ⟨_, rfl, rfl, rfl, rfl⟩
      | object opening members closing =>
          refine ⟨⟨.object, _, [(.members, .many ((numbersFrom (id + 1) members.parts).map some))],
            .nothing⟩, ?_, rfl, rfl, ?_⟩
          · simp only [entries, Value.node, nodeEntries, memberEntries_pairs]
            rfl
          · simp [Entry.children, NodeType.childKeys, Outline.Slot.present, parts, Value.parts]
      | array opening elements closing =>
          refine ⟨⟨.array, _, [(.elements, .many ((numbersFrom (id + 1) elements.parts).map some))],
            .nothing⟩, ?_, rfl, rfl, ?_⟩
          · simp only [entries, Value.node, nodeEntries, elementEntries_nodes]
            rfl
          · simp [Entry.children, NodeType.childKeys, Outline.Slot.present, parts, Value.parts]
  | member t key is colon v =>
      refine ⟨⟨.member, Node.memberExtent key v.node,
        [(.name, .one (some (id + 1))), (.value, .one (some (id + 2)))], .nothing⟩,
        ?_, rfl, rfl, rfl⟩
      simp only [entries, parts, entriesFrom, List.append_nil, List.cons_append, List.nil_append,
        List.length_singleton]
  | name t key is =>
      obtain ⟨content, hentry⟩ := keyEntry_eq key
      refine ⟨keyEntry key, rfl, by rw [hentry]; rfl, by rw [hentry]; rfl, ?_⟩
      exact children_eq_nil (by rw [hentry]; exact is.type_extent.1)
  | element v =>
      refine ⟨⟨.element, v.node.extent, [(.value, .one (some (id + 1)))], .nothing⟩, ?_, rfl, rfl,
        rfl⟩
      simp only [entries, parts, entriesFrom, List.append_nil]

end Phrase

/-! ## Places in an outline -/

namespace Phrase

open Outline (Entry)

variable {o : Outline} {id : Nat} {p : Phrase d trailing}

/-- The phrase has the number in the outline. -/
def At (o : Outline) (id : Nat) (p : Phrase d trailing) : Prop :=
  p.entries id <+: o.entries.drop id

/-- The entries of a phrase and what follows them. -/
theorem at_of_append {rest : List Entry} (h : p.entries id ++ rest <+: o.entries.drop id) :
    At o id p ∧ rest <+: o.entries.drop (id + (p.entries id).length) := by
  obtain ⟨after, hafter⟩ := h
  rw [List.append_assoc] at hafter
  refine ⟨⟨_, hafter⟩, after, ?_⟩
  rw [← List.drop_drop, ← hafter, List.drop_left]

namespace At

theorem entry_of_cons {e : Entry} {below : List Entry} (h : At o id p)
    (hentries : p.entries id = e :: below) :
    o.entries[id]? = some e ∧ below <+: o.entries.drop (id + 1) := by
  obtain ⟨after, hafter⟩ := h
  rw [hentries, List.cons_append] at hafter
  refine ⟨?_, after, ?_⟩
  · rw [← List.head?_drop, ← hafter]
    rfl
  · rw [← List.drop_drop, ← hafter]
    rfl

/-- Where a phrase stands there is its entry, and behind it are the entries of its parts. -/
theorem exists_entry (h : At o id p) :
    ∃ e, o.entries[id]? = some e ∧ e.type = p.type ∧ e.extent = p.extent ∧
      e.children = numbersFrom (id + 1) p.parts ∧
      entriesFrom (id + 1) p.parts <+: o.entries.drop (id + 1) := by
  obtain ⟨e, hentries, htype, hextent, hchildren⟩ := p.exists_entries_eq id
  obtain ⟨hentry, hbelow⟩ := h.entry_of_cons hentries
  exact ⟨e, hentry, htype, hextent, hchildren, hbelow⟩

theorem range?_eq (h : At o id p) : o.range? id = some p.extent.range := by
  obtain ⟨e, hentry, -, hextent, -⟩ := h.exists_entry
  rw [Outline.range?, hentry, Option.map_some, hextent]

end At

theorem map_range?_numbersFrom {ps : List (Phrase d trailing)}
    (h : entriesFrom id ps <+: o.entries.drop id) :
    (numbersFrom id ps).map o.range? = ps.map fun p => some p.extent.range := by
  induction ps generalizing id with
  | nil => rfl
  | cons p ps ih =>
      obtain ⟨hat, hrest⟩ := at_of_append h
      rw [numbersFrom, List.map_cons, List.map_cons, hat.range?_eq, ih hrest]

/-- Every entry of phrases one after the other is an entry of one of them. -/
theorem exists_part {ps : List (Phrase d trailing)} (h : entriesFrom id ps <+: o.entries.drop id)
    {i : Nat} (hle : id ≤ i) (hlt : i < id + (entriesFrom id ps).length) :
    ∃ q ∈ ps, ∃ k, At o k q ∧ k ≤ i ∧ i < k + (q.entries k).length ∧
      (q.entries k).length ≤ (entriesFrom id ps).length := by
  induction ps generalizing id with
  | nil =>
      rw [entriesFrom, List.length_nil] at hlt
      omega
  | cons p ps ih =>
      obtain ⟨hat, hrest⟩ := at_of_append h
      rw [entriesFrom, List.length_append] at hlt ⊢
      by_cases hi : i < id + (p.entries id).length
      · exact ⟨p, List.mem_cons_self, id, hat, hle, hi, by omega⟩
      · obtain ⟨q, hq, k, hat', hki, hik, hlength⟩ := ih hrest (by omega) (by omega)
        exact ⟨q, List.mem_cons_of_mem p hq, k, hat', hki, hik, by omega⟩

namespace At

/-- The children of a node are the parts of its phrase. -/
theorem map_range?_children (h : At o id p) :
    (o.children id).map o.range? = p.parts.map fun q => some q.extent.range := by
  obtain ⟨e, hentry, -, -, hchildren, hbelow⟩ := h.exists_entry
  rw [Outline.children, hentry, Option.map_some, Option.getD_some, hchildren]
  exact map_range?_numbersFrom hbelow

/-- A member holds its name and its value, and a colon stands between the two. -/
theorem exists_name_value (h : At o id p) (htype : p.type = .member) {e : Entry}
    (he : o.entries[id]? = some e) :
    ∃ (n v : Nat) (name value : Phrase d trailing) (colon : Terminal .colon),
      e.slots = [(.name, .one (some n)), (.value, .one (some v))] ∧
      o.range? n = some name.extent.range ∧ o.range? v = some value.extent.range ∧
      e.extent = name.extent.join value.extent ∧
      p.tokens = name.tokens ++ colon.val :: value.tokens := by
  obtain ⟨t, key, is, colon, v, rfl⟩ := p.eq_of_type.1 htype
  obtain ⟨hentry, -⟩ := h.entry_of_cons rfl
  have hranges := h.map_range?_children
  rw [Outline.children, hentry, Option.map_some, Option.getD_some] at hranges
  change [o.range? (id + 1), o.range? (id + 2)] =
    [some key.extent.range, some v.node.extent.range] at hranges
  obtain ⟨hname, hvalue⟩ : o.range? (id + 1) = some key.extent.range ∧
      o.range? (id + 2) = some v.node.extent.range := by simpa using hranges
  rw [hentry] at he
  cases he
  exact ⟨_, _, .name t key is, .value v, colon, rfl, hname, hvalue, rfl, rfl⟩

/-- A member holds its name and its value, and reaches from the one to the other. -/
theorem exists_member (h : At o id p) (htype : p.type = .member) {e : Entry}
    (he : o.entries[id]? = some e) :
    ∃ n v rn rv, e.slots = [(.name, .one (some n)), (.value, .one (some v))] ∧
      o.range? n = some rn ∧ o.range? v = some rv ∧ e.extent.range = ⟨rn.start, rv.stop⟩ := by
  obtain ⟨n, v, name, value, colon, hslots, hname, hvalue, hextent, -⟩ :=
    h.exists_name_value htype he
  exact ⟨n, v, _, _, hslots, hname, hvalue, by rw [hextent]; rfl⟩

/-- An element holds its value and reaches as far as it. -/
theorem exists_element (h : At o id p) (htype : p.type = .element) {e : Entry}
    (he : o.entries[id]? = some e) :
    ∃ v, e.slots = [(.value, .one (some v))] ∧ o.range? v = some e.extent.range := by
  obtain ⟨v, rfl⟩ := p.eq_of_type.2 htype
  obtain ⟨hentry, -⟩ := h.entry_of_cons rfl
  have hranges := h.map_range?_children
  rw [Outline.children, hentry, Option.map_some, Option.getD_some] at hranges
  change [o.range? (id + 1)] = [some v.node.extent.range] at hranges
  have hvalue : o.range? (id + 1) = some v.node.extent.range := by simpa using hranges
  rw [hentry] at he
  cases he
  exact ⟨_, rfl, hvalue⟩

/-- Of the entries of a phrase each is the own entry of it or of a phrase below it. -/
theorem exists_of_lt {id : Nat} {p : Phrase d trailing} (h : At o id p) {i : Nat} (hle : id ≤ i)
    (hlt : i < id + (p.entries id).length) :
    ∃ q : Phrase d trailing, At o i q ∧ q.tokens <:+: p.tokens := by
  by_cases hid : i = id
  · exact ⟨p, hid ▸ h, List.infix_rfl⟩
  · obtain ⟨e, hentries, -⟩ := p.exists_entries_eq id
    obtain ⟨-, -, -, -, -, hbelow⟩ := h.exists_entry
    have hlength := congrArg List.length hentries
    rw [List.length_cons] at hlength
    obtain ⟨q, hq, k, hat, hki, hik, hshorter⟩ := exists_part hbelow (i := i) (by omega) (by omega)
    -- a part has fewer entries than the phrase, because the phrase has one of its own
    have hfewer : (q.entries k).length < (p.entries id).length := by omega
    obtain ⟨q', hat', hpart⟩ := exists_of_lt hat hki hik
    exact ⟨q', hat', hpart.trans (Phrase.tokens_isInfix hq)⟩
termination_by (p.entries id).length

end At

end Phrase

end Grammar

/-! ## The outline of a document -/

namespace Outline

open LocatedJson.Grammar

variable {d : Dialect} {trailing : Bool} {doc : Document} {v : Value d trailing}

theorem at_body (hbody : doc.body = v.node) : Phrase.At (.ofDocument doc) 1 (.value v) := by
  refine ⟨[], ?_⟩
  show nodeEntries 1 v.node ++ [] = nodeEntries 1 doc.body
  rw [List.append_nil, hbody]

/-- The nodes of a document are the document itself and the phrases of its sentence. -/
theorem exists_phrase (hbody : doc.body = v.node) {id : Nat} {e : Entry}
    (he : (ofDocument doc).entries[id]? = some e) :
    id = 0 ∧ e.type = .document ∧ e.extent = doc.extent ∨
      ∃ p : Phrase d trailing, Phrase.At (.ofDocument doc) id p ∧ p.tokens <:+: v.tokens ∧
        e.type = p.type ∧ e.extent = p.extent := by
  cases id with
  | zero =>
      cases he
      exact .inl ⟨rfl, rfl, rfl⟩
  | succ id =>
      obtain ⟨hlt, -⟩ := List.getElem?_eq_some_iff.mp he
      have hlt' : id + 1 < 1 + (Phrase.entries 1 (.value v)).length := by
        rw [Phrase.entries, ← hbody, Nat.add_comm 1]
        exact hlt
      obtain ⟨p, hat, hpart⟩ := (at_body hbody).exists_of_lt (by omega) hlt'
      obtain ⟨e', he', htype, hextent, -⟩ := hat.exists_entry
      obtain rfl : e' = e := Option.some.inj (he'.symm.trans he)
      exact .inr ⟨p, hat, hpart, htype, hextent⟩

end Outline

end LocatedJson
