import LocatedJson.Proofs.Delimiting
import LocatedJson.Proofs.Grammar
import Mathlib.Data.List.Chain

/-!
# Sentences of the grammar

Two facts about the tokens of a derivation. Of any two neighbours one is a
mark (`Value.isChain_tokens`), so tokens that need a delimiter behind them
have one. And a derivation says nothing about places: other tokens of the
same kinds and texts have a derivation too, in every wider grammar, and the
nodes of the two differ only in where they stand (`Value.exists_alike`).

What "only in where they stand" means is left open. Extents are compared
after a map on each side: the identity compares them as they are, a constant
forgets them, and a shift moves them.
-/

namespace LocatedJson

open LocatedJson.Text

/-! ## Extents of nodes -/

def Token.mapExtent (f : Extent → Extent) (t : Token) : Token := ⟨t.kind, t.text, f t.extent⟩

def Key.mapExtent (f : Extent → Extent) : Key → Key
  | .quoted e value => .quoted (f e) value
  | .bare e name => .bare (f e) name

mutual

/-- The value with the extents of it and of all below it changed. -/
def Node.mapExtent (f : Extent → Extent) : Node → Node
  | .string e value => .string (f e) value
  | .number e value => .number (f e) value
  | .boolean e value => .boolean (f e) value
  | .null e => .null (f e)
  | .nan e sign => .nan (f e) sign
  | .infinity e sign => .infinity (f e) sign
  | .object e members => .object (f e) (Node.mapMembers f members)
  | .array e elements => .array (f e) (Node.mapElements f elements)

def Node.mapMembers (f : Extent → Extent) : List (Key × Node) → List (Key × Node)
  | [] => []
  | (name, value) :: rest => (name.mapExtent f, value.mapExtent f) :: Node.mapMembers f rest

def Node.mapElements (f : Extent → Extent) : List Node → List Node
  | [] => []
  | value :: rest => value.mapExtent f :: Node.mapElements f rest

end

theorem Key.mapExtent_id (k : Key) : k.mapExtent id = k := by
  cases k <;> rfl

mutual

theorem Node.mapExtent_id (node : Node) : node.mapExtent id = node := by
  match node with
  | .string _ _ | .number _ _ | .boolean _ _ | .null _ | .nan _ _ | .infinity _ _ => rfl
  | .object e members => rw [Node.mapExtent, Node.mapMembers_id members, id_eq]
  | .array e elements => rw [Node.mapExtent, Node.mapElements_id elements, id_eq]

theorem Node.mapMembers_id (members : List (Key × Node)) :
    Node.mapMembers id members = members := by
  match members with
  | [] => rfl
  | (name, value) :: rest =>
      rw [Node.mapMembers, name.mapExtent_id, value.mapExtent_id, Node.mapMembers_id rest]

theorem Node.mapElements_id (elements : List Node) : Node.mapElements id elements = elements := by
  match elements with
  | [] => rfl
  | value :: rest => rw [Node.mapElements, value.mapExtent_id, Node.mapElements_id rest]

end

/-! ## Strings in wider dialects -/

namespace StringBody

variable {d d' : Dialect}

theorem escapePiece_of_widens (hd : d.Widens d') {c : Char} {rest : Text} {p : Piece}
    (h : escapePiece d c rest = .ok p) : escapePiece d' c rest = .ok p := by
  unfold escapePiece at h ⊢
  have hjson5 := hd.eq_json5
  split at h
  · split at h
    · cases h
    · rename_i hallowed
      simp only [Bool.and_eq_true, bne_iff_ne, ne_eq, not_and, not_not] at hallowed
      rw [if_neg]
      · exact h
      · simp only [Bool.and_eq_true, bne_iff_ne, ne_eq, not_and, not_not]
        exact fun hc => hjson5 (hallowed hc)
  · split at h
    · rename_i hunicode
      rw [if_pos hunicode, h]
    · rename_i hunicode
      split at h
      · rename_i hd5
        rw [if_neg hunicode, if_pos (hjson5 hd5), h]
      · cases h

theorem piece_of_widens (hd : d.Widens d') {c : Char} {rest : Text} {p : Piece}
    (h : piece d c rest = .ok p) : piece d' c rest = .ok p := by
  unfold piece at h ⊢
  split at h
  · split at h
    · rename_i hescape
      rw [if_pos hescape, escapePiece_of_widens hd h]
    · rename_i hescape
      rw [if_neg hescape, h]
  · exact h

theorem decode_of_widens (hd : d.Widens d') {cs : Text} {points : List CodePoint}
    (h : decode d cs = .ok points) : decode d' cs = .ok points := by
  fun_induction decode d cs generalizing points with
  | case1 => rw [decode, h]
  | case2 => cases h
  | case3 => cases h
  | case4 c rest p hpiece later hlater ih =>
      rw [decode, piece_of_widens hd hpiece]
      simp only [ih hlater]
      exact h

end StringBody

namespace Grammar

/-! ## Neighbours -/

/-- One of two tokens is a mark. -/
def Adjacent (a b : Token) : Prop := isMark a.kind = true ∨ isMark b.kind = true

section Neighbours

variable {d : Dialect} {trailing : Bool} {kind : Token.Kind}

theorem isChain_cons_mark {t : Terminal kind} (hmark : isMark kind = true) {ts : List Token}
    (h : ts.IsChain Adjacent) : (t.val :: ts).IsChain Adjacent :=
  List.isChain_cons.mpr ⟨fun _ _ => .inl (by rw [t.property, hmark]), h⟩

theorem isChain_append_mark {t : Terminal kind} (hmark : isMark kind = true) {ts us : List Token}
    (hts : ts.IsChain Adjacent) (hus : us.IsChain Adjacent) :
    (ts ++ t.val :: us).IsChain Adjacent := by
  refine hts.append (isChain_cons_mark hmark hus) ?_
  rintro a - b ⟨⟩
  exact .inr (by rw [t.property, hmark])

theorem isChain_append_trailer {ts : List Token} (trailer : Trailer trailing)
    (h : ts.IsChain Adjacent) : (ts ++ trailer.tokens).IsChain Adjacent := by
  cases trailer with
  | none => simpa [Trailer.tokens] using h
  | comma t allowed => exact isChain_append_mark rfl h .nil

/-- A name and the colon behind it. -/
theorem isChain_cons_colon {t : Token} {colon : Terminal .colon} {ts : List Token}
    (h : ts.IsChain Adjacent) : (t :: colon.val :: ts).IsChain Adjacent :=
  show ([t] ++ colon.val :: ts).IsChain Adjacent from isChain_append_mark rfl (.singleton t) h

mutual

theorem Value.isChain_tokens (v : Value d trailing) : v.tokens.IsChain Adjacent := by
  match v with
  | .scalar t _ _ => exact .singleton t
  | .emptyObject opening closing => exact isChain_cons_mark rfl (.singleton _)
  | .object opening members closing =>
      exact isChain_cons_mark rfl (isChain_append_mark rfl members.isChain_tokens .nil)
  | .emptyArray opening closing => exact isChain_cons_mark rfl (.singleton _)
  | .array opening elements closing =>
      exact isChain_cons_mark rfl (isChain_append_mark rfl elements.isChain_tokens .nil)

theorem Members.isChain_tokens (m : Members d trailing) : m.tokens.IsChain Adjacent := by
  match m with
  | .last t key is colon value trailer =>
      exact isChain_cons_colon (isChain_append_trailer trailer value.isChain_tokens)
  | .more t key is colon value comma rest =>
      exact isChain_cons_colon (isChain_append_mark rfl value.isChain_tokens rest.isChain_tokens)

theorem Elements.isChain_tokens (e : Elements d trailing) : e.tokens.IsChain Adjacent := by
  match e with
  | .last value trailer => exact isChain_append_trailer trailer value.isChain_tokens
  | .more value comma rest =>
      exact isChain_append_mark rfl value.isChain_tokens rest.isChain_tokens

end

end Neighbours

/-! ## Like tokens -/

section Alike

variable {d d' : Dialect} {trailing trailing' : Bool} {f f' : Extent → Extent}

theorem mapExtent_eq_iff {t t' : Token} :
    t'.mapExtent f' = t.mapExtent f ↔
      t'.kind = t.kind ∧ t'.text = t.text ∧ f' t'.extent = f t.extent := by
  simp [Token.mapExtent]

theorem Scalar.exists_alike (hd : d.Widens d') {t t' : Token} {node : Node} (h : Scalar d t node)
    (ht : t'.mapExtent f' = t.mapExtent f) :
    ∃ node', Scalar d' t' node' ∧ node'.mapExtent f' = node.mapExtent f := by
  obtain ⟨hkind, htext, hextent⟩ := mapExtent_eq_iff.mp ht
  cases h with
  | string kind decodes =>
      rw [← htext] at decodes
      exact ⟨_, .string (hkind.trans kind) (StringBody.decode_of_widens hd decodes),
        by simp only [Node.mapExtent, hextent]⟩
  | number kind converts =>
      rw [← htext] at converts
      exact ⟨_, .number (hkind.trans kind) converts, by simp only [Node.mapExtent, hextent]⟩
  | boolean kind =>
      exact ⟨_, .boolean (hkind.trans kind), by simp only [Node.mapExtent, hextent, htext]⟩
  | null kind => exact ⟨_, .null (hkind.trans kind), by simp only [Node.mapExtent, hextent]⟩
  | nan kind => exact ⟨_, .nan (hkind.trans kind), by simp only [Node.mapExtent, hextent, htext]⟩
  | infinity kind =>
      exact ⟨_, .infinity (hkind.trans kind), by simp only [Node.mapExtent, hextent, htext]⟩

theorem Name.exists_alike (hd : d.Widens d') {t t' : Token} {key : Key} (h : Name d t key)
    (ht : t'.mapExtent f' = t.mapExtent f) :
    ∃ key', Name d' t' key' ∧ key'.mapExtent f' = key.mapExtent f := by
  obtain ⟨hkind, htext, hextent⟩ := mapExtent_eq_iff.mp ht
  cases h with
  | quoted kind decodes =>
      rw [← htext] at decodes
      exact ⟨_, .quoted (hkind.trans kind) (StringBody.decode_of_widens hd decodes),
        by simp only [Key.mapExtent, hextent]⟩
  | bare json5 kind =>
      exact ⟨_, .bare (hd.eq_json5 json5) (hkind ▸ kind),
        by simp only [Key.mapExtent, hextent, htext]⟩

/-- A like token at the front of like tokens is a terminal of the same kind. -/
theorem Terminal.exists_alike {kind : Token.Kind} {t : Terminal kind} {us ts : List Token}
    (h : us.map (Token.mapExtent f') = t.val.mapExtent f :: ts) :
    ∃ (t' : Terminal kind) (us' : List Token), us = t'.val :: us' ∧
      f' t'.val.extent = f t.val.extent ∧ us'.map (Token.mapExtent f') = ts := by
  obtain ⟨t', us', rfl, ht', hus'⟩ := List.map_eq_cons_iff.mp h
  obtain ⟨hkind, -, hextent⟩ := mapExtent_eq_iff.mp ht'
  exact ⟨⟨t', hkind.trans t.property⟩, us', rfl, hextent, hus'⟩

theorem Trailer.exists_alike (htrailing : trailing = true → trailing' = true) {us : List Token}
    (trailer : Trailer trailing)
    (h : us.map (Token.mapExtent f') = trailer.tokens.map (Token.mapExtent f)) :
    ∃ trailer' : Trailer trailing', trailer'.tokens = us := by
  cases trailer with
  | none => exact ⟨.none, (List.map_eq_nil_iff.mp h).symm⟩
  | comma t allowed =>
      obtain ⟨t', us', rfl, -, hus'⟩ := Terminal.exists_alike h
      obtain rfl := List.map_eq_nil_iff.mp hus'
      exact ⟨.comma t' (htrailing allowed), rfl⟩

/-- A grammar and a wider one, and maps of extents that hand on what reaches from one element to
another. -/
structure Carries (d d' : Dialect) (trailing trailing' : Bool) (f f' : Extent → Extent) : Prop where
  widens : d.Widens d'
  trailing : trailing = true → trailing' = true
  join : ∀ a b : Extent, f (a.join b) = (f a).join (f b)
  join' : ∀ a b : Extent, f' (a.join b) = (f' a).join (f' b)

mutual

/-- Tokens like those of a derivation have a derivation in every wider grammar, and its node is
like the node of the other one. -/
theorem Value.exists_alike (hc : Carries d d' trailing trailing' f f') (v : Value d trailing)
    {us : List Token} (h : us.map (Token.mapExtent f') = v.tokens.map (Token.mapExtent f)) :
    ∃ v' : Value d' trailing', v'.tokens = us ∧ v'.node.mapExtent f' = v.node.mapExtent f ∧
      v'.nesting = v.nesting := by
  match v with
  | .scalar t node is =>
      obtain ⟨t', us', rfl, ht', hus'⟩ := List.map_eq_cons_iff.mp h
      obtain rfl := List.map_eq_nil_iff.mp hus'
      obtain ⟨node', is', hnode⟩ := is.exists_alike hc.widens ht'
      exact ⟨.scalar t' node' is', rfl, hnode, rfl⟩
  | .emptyObject opening closing =>
      obtain ⟨opening', us₁, rfl, hopening, h⟩ := Terminal.exists_alike h
      obtain ⟨closing', us₂, rfl, hclosing, h⟩ := Terminal.exists_alike h
      obtain rfl := List.map_eq_nil_iff.mp h
      refine ⟨.emptyObject opening' closing', rfl, ?_, rfl⟩
      simp only [Value.node, Node.mapExtent, hc.join, hc.join', hopening, hclosing, Node.mapMembers]
  | .object opening members closing =>
      simp only [Value.tokens, List.cons_append, List.map_cons, List.map_append] at h
      obtain ⟨opening', us₁, rfl, hopening, h⟩ := Terminal.exists_alike h
      obtain ⟨us₂, us₃, rfl, h, hlast⟩ := List.map_eq_append_iff.mp h
      obtain ⟨members', rfl, hpairs, hnesting⟩ := members.exists_alike hc h
      obtain ⟨closing', us₄, rfl, hclosing, h⟩ := Terminal.exists_alike hlast
      obtain rfl := List.map_eq_nil_iff.mp h
      refine ⟨.object opening' members' closing', rfl, ?_, by simp only [Value.nesting, hnesting]⟩
      simp only [Value.node, Node.mapExtent, hc.join, hc.join', hopening, hclosing, hpairs]
  | .emptyArray opening closing =>
      obtain ⟨opening', us₁, rfl, hopening, h⟩ := Terminal.exists_alike h
      obtain ⟨closing', us₂, rfl, hclosing, h⟩ := Terminal.exists_alike h
      obtain rfl := List.map_eq_nil_iff.mp h
      refine ⟨.emptyArray opening' closing', rfl, ?_, rfl⟩
      simp only [Value.node, Node.mapExtent, hc.join, hc.join', hopening, hclosing,
        Node.mapElements]
  | .array opening elements closing =>
      simp only [Value.tokens, List.cons_append, List.map_cons, List.map_append] at h
      obtain ⟨opening', us₁, rfl, hopening, h⟩ := Terminal.exists_alike h
      obtain ⟨us₂, us₃, rfl, h, hlast⟩ := List.map_eq_append_iff.mp h
      obtain ⟨elements', rfl, hnodes, hnesting⟩ := elements.exists_alike hc h
      obtain ⟨closing', us₄, rfl, hclosing, h⟩ := Terminal.exists_alike hlast
      obtain rfl := List.map_eq_nil_iff.mp h
      refine ⟨.array opening' elements' closing', rfl, ?_, by simp only [Value.nesting, hnesting]⟩
      simp only [Value.node, Node.mapExtent, hc.join, hc.join', hopening, hclosing, hnodes]

theorem Members.exists_alike (hc : Carries d d' trailing trailing' f f') (m : Members d trailing)
    {us : List Token} (h : us.map (Token.mapExtent f') = m.tokens.map (Token.mapExtent f)) :
    ∃ m' : Members d' trailing', m'.tokens = us ∧
      Node.mapMembers f' m'.pairs = Node.mapMembers f m.pairs ∧ m'.nesting = m.nesting := by
  match m with
  | .last t key is colon value trailer =>
      simp only [Members.tokens, List.cons_append, List.map_cons, List.map_append] at h
      obtain ⟨t', us₁, rfl, ht', h⟩ := List.map_eq_cons_iff.mp h
      obtain ⟨key', is', hkey⟩ := is.exists_alike hc.widens ht'
      obtain ⟨colon', us₂, rfl, -, h⟩ := Terminal.exists_alike h
      obtain ⟨us₃, us₄, rfl, h, hlast⟩ := List.map_eq_append_iff.mp h
      obtain ⟨value', rfl, hnode, hnesting⟩ := value.exists_alike hc h
      obtain ⟨trailer', rfl⟩ := trailer.exists_alike hc.trailing hlast
      refine ⟨.last t' key' is' colon' value' trailer', rfl, ?_, hnesting⟩
      simp only [Members.pairs, Node.mapMembers, hkey, hnode]
  | .more t key is colon value comma rest =>
      simp only [Members.tokens, List.cons_append, List.map_cons, List.map_append] at h
      obtain ⟨t', us₁, rfl, ht', h⟩ := List.map_eq_cons_iff.mp h
      obtain ⟨key', is', hkey⟩ := is.exists_alike hc.widens ht'
      obtain ⟨colon', us₂, rfl, -, h⟩ := Terminal.exists_alike h
      obtain ⟨us₃, us₄, rfl, h, hlast⟩ := List.map_eq_append_iff.mp h
      obtain ⟨value', rfl, hnode, hnesting⟩ := value.exists_alike hc h
      obtain ⟨comma', us₅, rfl, -, h⟩ := Terminal.exists_alike hlast
      obtain ⟨rest', rfl, hpairs, hnesting'⟩ := rest.exists_alike hc h
      refine ⟨.more t' key' is' colon' value' comma' rest', rfl, ?_,
        by simp only [Members.nesting, hnesting, hnesting']⟩
      simp only [Members.pairs, Node.mapMembers, hkey, hnode, hpairs]

theorem Elements.exists_alike (hc : Carries d d' trailing trailing' f f') (e : Elements d trailing)
    {us : List Token} (h : us.map (Token.mapExtent f') = e.tokens.map (Token.mapExtent f)) :
    ∃ e' : Elements d' trailing', e'.tokens = us ∧
      Node.mapElements f' e'.nodes = Node.mapElements f e.nodes ∧ e'.nesting = e.nesting := by
  match e with
  | .last value trailer =>
      simp only [Elements.tokens, List.map_append] at h
      obtain ⟨us₁, us₂, rfl, h, hlast⟩ := List.map_eq_append_iff.mp h
      obtain ⟨value', rfl, hnode, hnesting⟩ := value.exists_alike hc h
      obtain ⟨trailer', rfl⟩ := trailer.exists_alike hc.trailing hlast
      refine ⟨.last value' trailer', rfl, ?_, hnesting⟩
      simp only [Elements.nodes, Node.mapElements, hnode]
  | .more value comma rest =>
      simp only [Elements.tokens, List.map_append, List.map_cons] at h
      obtain ⟨us₁, us₂, rfl, h, hlast⟩ := List.map_eq_append_iff.mp h
      obtain ⟨value', rfl, hnode, hnesting⟩ := value.exists_alike hc h
      obtain ⟨comma', us₃, rfl, -, h⟩ := Terminal.exists_alike hlast
      obtain ⟨rest', rfl, hnodes, hnesting'⟩ := rest.exists_alike hc h
      refine ⟨.more value' comma' rest', rfl, ?_,
        by simp only [Elements.nesting, hnesting, hnesting']⟩
      simp only [Elements.nodes, Node.mapElements, hnode, hnodes]

end

end Alike

end Grammar

end LocatedJson
