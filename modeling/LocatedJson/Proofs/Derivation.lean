import LocatedJson.Proofs.Reading

/-!
# Readings and derivations

A reading of a value succeeds exactly when a derivation of the grammar
stands at the front of the tokens, and then it takes the tokens of that
derivation and gives its node (`yields_value_iff`). One direction is an
induction on the bound of the descent, the other one on the derivation.

The bound is no restriction: a derivation takes at most three calls for
each of its tokens, and the entry points allow for that.
-/

namespace LocatedJson.Parse

open LocatedJson.Grammar LocatedJson.Text

variable {s : Setting} {p q : Progress} {node : Node}

/-- The brackets that a reading opens beyond those already open are within the limit. A
value without brackets is never measured. -/
def Fits (s : Setting) (depth nesting : Nat) : Prop :=
  depth + nesting ≤ max depth s.profile.limits.maxDepth

/-! ## One level of the descent -/

theorem yields_valueWithin_succ {bound : Nat} :
    Yields (valueWithin s (bound + 1)) p node q ↔
      p.nextKind = some .leftBrace ∧ Yields (objectWithin s bound) p node q ∨
      p.nextKind = some .leftBracket ∧ Yields (arrayWithin s bound) p node q ∨
      ∃ t, Scalar s.profile.dialect t node ∧ Consumes [t] p q := by
  simp only [valueWithin, yields_bind, yields_current]
  constructor
  · rintro ⟨o, m, ⟨rfl, rfl⟩, h⟩
    split at h
    · exact absurd h yields_failAt
    · rename_i t ht
      have hnext : m.nextKind = some t.kind := by simp [Progress.nextKind, ht]
      simp only [yields_ite, yields_bind, yields_take, yields_scalar] at h
      rcases h with ⟨hkind, h⟩ | ⟨-, ⟨hkind, h⟩ | ⟨-, t', m', htake, hscalar, rfl⟩⟩
      · exact Or.inl ⟨hkind ▸ hnext, h⟩
      · exact Or.inr (Or.inl ⟨hkind ▸ hnext, h⟩)
      · exact Or.inr (Or.inr ⟨t', hscalar, htake⟩)
  · intro h
    refine ⟨p.rest.head?, p, ⟨rfl, rfl⟩, ?_⟩
    cases hhead : p.rest.head? with
    | none =>
        rcases h with ⟨hnext, -⟩ | ⟨hnext, -⟩ | ⟨t, -, htake⟩
        · simp [Progress.nextKind, hhead] at hnext
        · simp [Progress.nextKind, hhead] at hnext
        · simp [htake.1] at hhead
    | some t =>
        simp only [yields_ite, yields_bind, yields_take, yields_scalar]
        rcases h with ⟨hnext, h⟩ | ⟨hnext, h⟩ | ⟨t', hscalar, htake⟩
        · exact Or.inl ⟨by simpa [Progress.nextKind, hhead] using hnext, h⟩
        · have hkind : t.kind = .leftBracket := by simpa [Progress.nextKind, hhead] using hnext
          exact Or.inr ⟨by simp [hkind], Or.inl ⟨hkind, h⟩⟩
        · obtain rfl : t' = t := by simpa [htake.1] using hhead
          have hmark := hscalar.isMark_eq_false
          refine Or.inr ⟨?_, Or.inr ⟨?_, t', q, htake, hscalar, rfl⟩⟩
          · intro hkind
            simp [hkind, isMark] at hmark
          · intro hkind
            simp [hkind, isMark] at hmark

/-- The shape that objects and arrays share. -/
theorem yields_brackets {α : Type} {opening closing : Token.Kind} {what what' : String}
    {inner : Reading α} {wrap : Extent → α → Node} :
    Yields (do
        let first ← expect s opening what
        enter s
        let items ← inner
        let last ← expect s closing what'
        leave
        return wrap (first.extent.join last.extent) items) p node q ↔
      ∃ (first : Terminal opening) (last : Terminal closing) (items : α) (m n o : Progress),
        Consumes [first.val] p m ∧ m.depth + 1 ≤ s.profile.limits.maxDepth ∧
        Yields inner { m with depth := m.depth + 1 } items n ∧ Consumes [last.val] n o ∧
        q = { o with depth := o.depth - 1 } ∧
        node = wrap (first.val.extent.join last.val.extent) items := by
  simp only [yields_bind, yields_expect, yields_enter, yields_leave, yields_pure]
  constructor
  · rintro ⟨first, m, ⟨hfirst, hopen⟩, -, m', ⟨hdepth, rfl⟩, items, n, hinner, last, o,
      ⟨hlast, hclose⟩, -, o', rfl, rfl, rfl⟩
    exact ⟨⟨first, hfirst⟩, ⟨last, hlast⟩, items, m, n, o, hopen, hdepth, hinner, hclose, rfl, rfl⟩
  · rintro ⟨⟨first, hfirst⟩, ⟨last, hlast⟩, items, m, n, o, hopen, hdepth, hinner, hclose, rfl, rfl⟩
    exact ⟨first, m, ⟨hfirst, hopen⟩, (), _, ⟨hdepth, rfl⟩, items, n, hinner, last, o,
      ⟨hlast, hclose⟩, ⟨⟩, _, rfl, rfl, rfl⟩

/-- One round of the loop that objects and arrays share. There are four ways to end it:
at the closing bracket, after an item without a comma, after an item with a comma before
the closing bracket, and after a comma with more items. -/
theorem yields_items {α : Type} {closing : Token.Kind} {item : Reading α}
    {later : Reading (List α)} {xs : List α} :
    Yields (do
        if ← isNext closing then return []
        else
          let x ← item
          if ← continues s closing then return x :: (← later)
          else return [x]) p xs q ↔
      p.nextKind = some closing ∧ xs = [] ∧ q = p ∨
      p.nextKind ≠ some closing ∧ ∃ x m, Yields item p x m ∧
        (m.nextKind ≠ some .comma ∧ xs = [x] ∧ q = m ∨
          ∃ (comma : Terminal .comma) (n : Progress), Consumes [comma.val] m n ∧
            (n.nextKind = some closing ∧ s.profile.allowsTrailingCommas = true ∧ xs = [x] ∧
                q = n ∨
              n.nextKind ≠ some closing ∧ ∃ ys, Yields later n ys q ∧ xs = x :: ys)) := by
  simp only [yields_bind, yields_isNext, yields_ite, yields_pure, yields_continues]
  constructor
  · rintro ⟨b, m, ⟨rfl, rfl⟩, ⟨hclose, rfl, rfl⟩ | ⟨hclose, x, m', hitem, b, n, hcont, h⟩⟩
    · exact Or.inl ⟨of_decide_eq_true hclose, rfl, rfl⟩
    · refine Or.inr ⟨by simpa using hclose, x, m', hitem, ?_⟩
      rcases hcont with ⟨hcomma, rfl, rfl⟩ | ⟨comma, hkind, htake, hcont⟩
      · rcases h with ⟨hb, -⟩ | ⟨-, rfl, rfl⟩
        · cases hb
        · exact Or.inl ⟨hcomma, rfl, rfl⟩
      · refine Or.inr ⟨⟨comma, hkind⟩, n, htake, ?_⟩
        rcases hcont with ⟨hclosing, hallowed, rfl⟩ | ⟨hclosing, rfl⟩
        · rcases h with ⟨hb, -⟩ | ⟨-, rfl, rfl⟩
          · cases hb
          · exact Or.inl ⟨hclosing, hallowed, rfl, rfl⟩
        · rcases h with ⟨-, ys, r, hlater, rfl, rfl⟩ | ⟨hb, -⟩
          · exact Or.inr ⟨hclosing, ys, hlater, rfl⟩
          · exact absurd rfl hb
  · rintro (⟨hclose, rfl, rfl⟩ | ⟨hclose, x, m, hitem, h⟩)
    · exact ⟨_, _, ⟨rfl, rfl⟩, Or.inl ⟨decide_eq_true hclose, rfl, rfl⟩⟩
    · refine ⟨_, _, ⟨rfl, rfl⟩, Or.inr ⟨by simpa using hclose, x, m, hitem, ?_⟩⟩
      rcases h with ⟨hcomma, rfl, rfl⟩ | ⟨⟨comma, hkind⟩, n, htake, h⟩
      · exact ⟨false, q, Or.inl ⟨hcomma, rfl, rfl⟩, Or.inr ⟨by simp, rfl, rfl⟩⟩
      · rcases h with ⟨hclosing, hallowed, rfl, rfl⟩ | ⟨hclosing, ys, hlater, rfl⟩
        · exact ⟨false, q, Or.inr ⟨comma, hkind, htake, Or.inl ⟨hclosing, hallowed, rfl⟩⟩,
            Or.inr ⟨by simp, rfl, rfl⟩⟩
        · exact ⟨true, n, Or.inr ⟨comma, hkind, htake, Or.inr ⟨hclosing, rfl⟩⟩,
            Or.inl ⟨rfl, ys, q, hlater, rfl, rfl⟩⟩

/-- A member of an object, within a bound. -/
def memberWithin (s : Setting) (bound : Nat) : Reading (Key × Node) := do
  let name ← key s
  let _ ← expect s .colon "':' after key"
  return (name, ← valueWithin s bound)

theorem yields_memberWithin {bound : Nat} {pair : Key × Node} :
    Yields (memberWithin s bound) p pair q ↔
      ∃ (t : Token) (colon : Terminal .colon) (m n : Progress),
        Name s.profile.dialect t pair.1 ∧ Consumes [t] p m ∧ Consumes [colon.val] m n ∧
        Yields (valueWithin s bound) n pair.2 q := by
  simp only [memberWithin, yields_bind, yields_key, yields_expect, yields_pure]
  constructor
  · rintro ⟨k, m, ⟨t, hname, htake⟩, colon, n, ⟨hcolon, htake'⟩, value, r, hvalue, rfl, rfl⟩
    exact ⟨t, ⟨colon, hcolon⟩, m, n, hname, htake, htake', hvalue⟩
  · rintro ⟨t, ⟨colon, hcolon⟩, m, n, hname, htake, htake', hvalue⟩
    exact ⟨pair.1, m, ⟨t, hname, htake⟩, colon, n, ⟨hcolon, htake'⟩, pair.2, q, hvalue, rfl, rfl⟩

theorem membersWithin_succ (s : Setting) (bound : Nat) :
    membersWithin s (bound + 1) = (do
      if ← isNext .rightBrace then return []
      else
        let x ← memberWithin s bound
        if ← continues s .rightBrace then return x :: (← membersWithin s bound)
        else return [x]) := by
  simp only [membersWithin, memberWithin, bind_assoc, pure_bind]

/-! ## From a reading to a derivation -/

/-- A derivation of a value in the grammar of a setting. -/
abbrev ValueIn (s : Setting) := Value s.profile.dialect s.profile.allowsTrailingCommas

abbrev MembersIn (s : Setting) := Members s.profile.dialect s.profile.allowsTrailingCommas

abbrev ElementsIn (s : Setting) := Elements s.profile.dialect s.profile.allowsTrailingCommas

mutual

theorem exists_value_of_valueWithin : (bound : Nat) → {p q : Progress} → {node : Node} →
    Yields (valueWithin s bound) p node q →
    ∃ v : ValueIn s, v.node = node ∧ Consumes v.tokens p q ∧ Fits s p.depth v.nesting
  | 0, _, _, _, h => absurd h (by rw [valueWithin]; exact yields_failAt)
  | bound + 1, _, _, _, h => by
      rcases yields_valueWithin_succ.mp h with ⟨-, h⟩ | ⟨-, h⟩ | ⟨t, hscalar, htake⟩
      · exact exists_value_of_objectWithin bound h
      · exact exists_value_of_arrayWithin bound h
      · exact ⟨.scalar t _ hscalar, rfl, htake, Nat.le_max_left ..⟩

theorem exists_value_of_objectWithin : (bound : Nat) → {p q : Progress} → {node : Node} →
    Yields (objectWithin s bound) p node q →
    ∃ v : ValueIn s, v.node = node ∧ Consumes v.tokens p q ∧ Fits s p.depth v.nesting
  | 0, _, _, _, h => absurd h (by rw [objectWithin]; exact yields_failAt)
  | bound + 1, p, q, _, h => by
      rw [objectWithin, yields_brackets] at h
      obtain ⟨first, last, pairs, m, n, o, hopen, hdepth, hinner, hclose, rfl, rfl⟩ := h
      have hlevel := hopen.2.2
      rcases exists_members_of_membersWithin bound hinner with
        ⟨-, rfl, rfl⟩ | ⟨members, rfl, hmembers, hfits⟩
      · refine ⟨.emptyObject first last, rfl, ?_, ?_⟩
        · show Consumes (first.val :: [] ++ [last.val]) _ _
          exact consumes_brackets.mpr ⟨m, _, o, hopen, consumes_nil.mpr rfl, hclose, rfl⟩
        · simp only [Fits, Value.nesting]
          omega
      · refine ⟨.object first members last, rfl, ?_, ?_⟩
        · exact consumes_brackets.mpr ⟨m, n, o, hopen, hmembers, hclose, rfl⟩
        · simp only [Fits, Value.nesting] at hfits ⊢
          omega

theorem exists_members_of_membersWithin : (bound : Nat) → {p q : Progress} →
    {pairs : List (Key × Node)} → Yields (membersWithin s bound) p pairs q →
    p.nextKind = some .rightBrace ∧ pairs = [] ∧ q = p ∨
      ∃ m : MembersIn s, m.pairs = pairs ∧ Consumes m.tokens p q ∧ Fits s p.depth m.nesting
  | 0, _, _, _, h => absurd h (by rw [membersWithin]; exact yields_failAt)
  | bound + 1, p, q, _, h => by
      rw [membersWithin_succ, yields_items] at h
      rcases h with h | ⟨-, ⟨k, _⟩, m, hmember, h⟩
      · exact Or.inl h
      · right
        obtain ⟨t, colon, m', n, hname, htake, hcolon, hvalue⟩ := yields_memberWithin.mp hmember
        obtain ⟨v, rfl, hv, hfits⟩ := exists_value_of_valueWithin bound hvalue
        have hhead : Consumes (t :: colon.val :: v.tokens) p m :=
          consumes_cons.mpr ⟨m', htake, consumes_cons.mpr ⟨n, hcolon, hv⟩⟩
        have hlevel : n.depth = p.depth := hcolon.2.2.trans htake.2.2
        have hlevel' : m.depth = p.depth := hv.2.2.trans hlevel
        rw [hlevel] at hfits
        rcases h with ⟨-, rfl, rfl⟩ |
          ⟨comma, r, hcomma, ⟨-, hallowed, rfl, rfl⟩ | ⟨hnext, ys, h, rfl⟩⟩
        · refine ⟨.last t k hname colon v .none, rfl, ?_, hfits⟩
          simpa [Members.tokens, Trailer.tokens] using hhead
        · exact ⟨.last t k hname colon v (.comma comma hallowed), rfl,
            consumes_append.mpr ⟨m, hhead, hcomma⟩, hfits⟩
        · rcases exists_members_of_membersWithin bound h with ⟨hclose, -⟩ | ⟨ms, rfl, hms, hfits'⟩
          · exact absurd hclose hnext
          · refine ⟨.more t k hname colon v comma ms, rfl, ?_, ?_⟩
            · exact consumes_append.mpr ⟨m, hhead, consumes_cons.mpr ⟨r, hcomma, hms⟩⟩
            · have hlevel'' : r.depth = p.depth := hcomma.2.2.trans hlevel'
              rw [hlevel''] at hfits'
              simp only [Fits, Members.nesting] at hfits hfits' ⊢
              omega

theorem exists_value_of_arrayWithin : (bound : Nat) → {p q : Progress} → {node : Node} →
    Yields (arrayWithin s bound) p node q →
    ∃ v : ValueIn s, v.node = node ∧ Consumes v.tokens p q ∧ Fits s p.depth v.nesting
  | 0, _, _, _, h => absurd h (by rw [arrayWithin]; exact yields_failAt)
  | bound + 1, p, q, _, h => by
      rw [arrayWithin, yields_brackets] at h
      obtain ⟨first, last, nodes, m, n, o, hopen, hdepth, hinner, hclose, rfl, rfl⟩ := h
      have hlevel := hopen.2.2
      rcases exists_elements_of_elementsWithin bound hinner with
        ⟨-, rfl, rfl⟩ | ⟨elements, rfl, helements, hfits⟩
      · refine ⟨.emptyArray first last, rfl, ?_, ?_⟩
        · show Consumes (first.val :: [] ++ [last.val]) _ _
          exact consumes_brackets.mpr ⟨m, _, o, hopen, consumes_nil.mpr rfl, hclose, rfl⟩
        · simp only [Fits, Value.nesting]
          omega
      · refine ⟨.array first elements last, rfl, ?_, ?_⟩
        · exact consumes_brackets.mpr ⟨m, n, o, hopen, helements, hclose, rfl⟩
        · simp only [Fits, Value.nesting] at hfits ⊢
          omega

theorem exists_elements_of_elementsWithin : (bound : Nat) → {p q : Progress} →
    {nodes : List Node} → Yields (elementsWithin s bound) p nodes q →
    p.nextKind = some .rightBracket ∧ nodes = [] ∧ q = p ∨
      ∃ e : ElementsIn s, e.nodes = nodes ∧ Consumes e.tokens p q ∧ Fits s p.depth e.nesting
  | 0, _, _, _, h => absurd h (by rw [elementsWithin]; exact yields_failAt)
  | bound + 1, p, q, _, h => by
      rw [elementsWithin, yields_items] at h
      rcases h with h | ⟨-, _, m, hvalue, h⟩
      · exact Or.inl h
      · right
        obtain ⟨v, rfl, hv, hfits⟩ := exists_value_of_valueWithin bound hvalue
        rcases h with ⟨-, rfl, rfl⟩ |
          ⟨comma, r, hcomma, ⟨-, hallowed, rfl, rfl⟩ | ⟨hnext, ys, h, rfl⟩⟩
        · refine ⟨.last v .none, rfl, ?_, hfits⟩
          simpa [Elements.tokens, Trailer.tokens] using hv
        · exact ⟨.last v (.comma comma hallowed), rfl, consumes_append.mpr ⟨m, hv, hcomma⟩, hfits⟩
        · rcases exists_elements_of_elementsWithin bound h with ⟨hclose, -⟩ | ⟨es, rfl, hes, hfits'⟩
          · exact absurd hclose hnext
          · refine ⟨.more v comma es, rfl, ?_, ?_⟩
            · exact consumes_append.mpr ⟨m, hv, consumes_cons.mpr ⟨r, hcomma, hes⟩⟩
            · have hlevel : r.depth = p.depth := hcomma.2.2.trans hv.2.2
              rw [hlevel] at hfits'
              simp only [Fits, Elements.nesting] at hfits hfits' ⊢
              omega

end

/-! ## From a derivation to a reading -/

/-- The way through brackets, given a way through what stands between them. -/
theorem yields_brackets_of_consumes {α : Type} {kind kind' : Token.Kind} {what what' : String}
    {inner : Reading α} {items : α} {wrap : Extent → α → Node} {opening : Terminal kind}
    {closing : Terminal kind'} {ts : List Token}
    (h : Consumes (opening.val :: ts ++ [closing.val]) p q)
    (hdepth : p.depth + 1 ≤ s.profile.limits.maxDepth)
    (hinner : ∀ m n, m.depth = p.depth + 1 → Consumes ts m n → n.nextKind = some kind' →
      Yields inner m items n) :
    Yields (do
        let first ← expect s kind what
        enter s
        let items ← inner
        let last ← expect s kind' what'
        leave
        return wrap (first.extent.join last.extent) items) p
      (wrap (opening.val.extent.join closing.val.extent) items) q := by
  obtain ⟨m, n, o, hopen, hts, hclose, rfl⟩ := consumes_brackets.mp h
  have hlevel : m.depth = p.depth := hopen.2.2
  refine yields_brackets.mpr ⟨opening, closing, items, m, n, o, hopen, by omega, ?_, hclose,
    rfl, rfl⟩
  refine hinner _ n (by rw [← hlevel]) hts ?_
  rw [hclose.nextKind_eq, closing.property]

mutual

theorem valueWithin_of_value : (v : ValueIn s) → {bound : Nat} → {p q : Progress} →
    3 * v.tokens.length ≤ bound → Consumes v.tokens p q → Fits s p.depth v.nesting →
    Yields (valueWithin s bound) p v.node q := by
  intro v bound p q hbound h hfits
  obtain ⟨bound, rfl⟩ : ∃ n, bound = n + 3 := by
    have := v.length_tokens_pos
    exact ⟨bound - 3, by omega⟩
  cases v with
  | scalar t node is => exact yields_valueWithin_succ.mpr (Or.inr (Or.inr ⟨t, is, h⟩))
  | emptyObject opening closing =>
      replace h : Consumes (opening.val :: [] ++ [closing.val]) p q := h
      have hnext : p.nextKind = some .leftBrace := by rw [h.nextKind_eq, opening.property]
      refine yields_valueWithin_succ.mpr (Or.inl ⟨hnext, ?_⟩)
      simp only [Fits, Value.nesting] at hfits
      rw [objectWithin]
      refine yields_brackets_of_consumes h (by omega) fun m n _ hts hclose => ?_
      obtain rfl := consumes_nil.mp hts
      rw [membersWithin_succ, yields_items]
      exact Or.inl ⟨hclose, rfl, rfl⟩
  | object opening members closing =>
      have hnext : p.nextKind = some .leftBrace := by rw [h.nextKind_eq, opening.property]
      refine yields_valueWithin_succ.mpr (Or.inl ⟨hnext, ?_⟩)
      simp only [Fits, Value.nesting] at hfits
      simp only [Value.tokens, List.length_append, List.length_cons, List.length_nil] at hbound
      rw [objectWithin]
      refine yields_brackets_of_consumes h (by omega) fun m n hlevel hts hclose => ?_
      exact membersWithin_of_members members (by omega) hts hclose (by simp only [Fits]; omega)
  | emptyArray opening closing =>
      replace h : Consumes (opening.val :: [] ++ [closing.val]) p q := h
      have hnext : p.nextKind = some .leftBracket := by rw [h.nextKind_eq, opening.property]
      refine yields_valueWithin_succ.mpr (Or.inr (Or.inl ⟨hnext, ?_⟩))
      simp only [Fits, Value.nesting] at hfits
      rw [arrayWithin]
      refine yields_brackets_of_consumes h (by omega) fun m n _ hts hclose => ?_
      obtain rfl := consumes_nil.mp hts
      rw [elementsWithin, yields_items]
      exact Or.inl ⟨hclose, rfl, rfl⟩
  | array opening elements closing =>
      have hnext : p.nextKind = some .leftBracket := by rw [h.nextKind_eq, opening.property]
      refine yields_valueWithin_succ.mpr (Or.inr (Or.inl ⟨hnext, ?_⟩))
      simp only [Fits, Value.nesting] at hfits
      simp only [Value.tokens, List.length_append, List.length_cons, List.length_nil] at hbound
      rw [arrayWithin]
      refine yields_brackets_of_consumes h (by omega) fun m n hlevel hts hclose => ?_
      exact elementsWithin_of_elements elements (by omega) hts hclose (by simp only [Fits]; omega)

theorem membersWithin_of_members : (m : MembersIn s) → {bound : Nat} → {p q : Progress} →
    3 * m.tokens.length + 1 ≤ bound → Consumes m.tokens p q → q.nextKind = some .rightBrace →
    Fits s p.depth m.nesting → Yields (membersWithin s bound) p m.pairs q := by
  intro m bound p q hbound h hclose hfits
  obtain ⟨bound, rfl⟩ : ∃ n, bound = n + 1 := ⟨bound - 1, by omega⟩
  have hnext : p.nextKind ≠ some .rightBrace := by
    obtain ⟨t, _, htokens, hkind⟩ := m.exists_tokens_eq_cons
    rw [htokens] at h
    simpa [h.nextKind_eq] using hkind
  rw [membersWithin_succ, yields_items]
  refine Or.inr ⟨hnext, ?_⟩
  cases m with
  | last t key is colon value trailer =>
      simp only [Members.nesting] at hfits
      simp only [Members.tokens, List.length_append, List.length_cons] at hbound
      obtain ⟨m, hhead, htrailer⟩ := consumes_append.mp h
      obtain ⟨r, htake, hrest⟩ := consumes_cons.mp hhead
      obtain ⟨r', hcolon, hvalue⟩ := consumes_cons.mp hrest
      have hlevel : r'.depth = p.depth := hcolon.2.2.trans htake.2.2
      refine ⟨(key, value.node), m, yields_memberWithin.mpr ⟨t, colon, r, r', is, htake, hcolon,
        valueWithin_of_value value (by omega) hvalue (hlevel ▸ hfits)⟩, ?_⟩
      cases trailer with
      | none =>
          obtain rfl := consumes_nil.mp htrailer
          exact Or.inl ⟨by simp [hclose], rfl, rfl⟩
      | comma comma allowed =>
          exact Or.inr ⟨comma, q, htrailer, Or.inl ⟨hclose, allowed, rfl, rfl⟩⟩
  | more t key is colon value comma rest =>
      simp only [Fits, Members.nesting] at hfits
      simp only [Members.tokens, List.length_append, List.length_cons] at hbound
      obtain ⟨m, hhead, htail⟩ := consumes_append.mp h
      obtain ⟨r, htake, hrest⟩ := consumes_cons.mp hhead
      obtain ⟨r', hcolon, hvalue⟩ := consumes_cons.mp hrest
      obtain ⟨n, hcomma, hlater⟩ := consumes_cons.mp htail
      have hlevel : r'.depth = p.depth := hcolon.2.2.trans htake.2.2
      have hlevel' : n.depth = p.depth := hcomma.2.2.trans (hvalue.2.2.trans hlevel)
      refine ⟨(key, value.node), m, yields_memberWithin.mpr ⟨t, colon, r, r', is, htake, hcolon,
        valueWithin_of_value value (by omega) hvalue (by simp only [Fits]; omega)⟩,
        Or.inr ⟨comma, n, hcomma, Or.inr ⟨?_, rest.pairs, ?_, rfl⟩⟩⟩
      · obtain ⟨t', _, htokens, hkind⟩ := rest.exists_tokens_eq_cons
        rw [htokens] at hlater
        simpa [hlater.nextKind_eq] using hkind
      · exact membersWithin_of_members rest (by omega) hlater hclose (by simp only [Fits]; omega)

theorem elementsWithin_of_elements : (e : ElementsIn s) → {bound : Nat} → {p q : Progress} →
    3 * e.tokens.length + 1 ≤ bound → Consumes e.tokens p q → q.nextKind = some .rightBracket →
    Fits s p.depth e.nesting → Yields (elementsWithin s bound) p e.nodes q := by
  intro e bound p q hbound h hclose hfits
  obtain ⟨bound, rfl⟩ : ∃ n, bound = n + 1 := ⟨bound - 1, by omega⟩
  have hnext : p.nextKind ≠ some .rightBracket := by
    obtain ⟨t, _, htokens, hkind⟩ := e.exists_tokens_eq_cons
    rw [htokens] at h
    simpa [h.nextKind_eq] using hkind
  rw [elementsWithin, yields_items]
  refine Or.inr ⟨hnext, ?_⟩
  cases e with
  | last value trailer =>
      simp only [Elements.tokens, List.length_append] at hbound
      obtain ⟨m, hvalue, htrailer⟩ := consumes_append.mp h
      refine ⟨value.node, m, valueWithin_of_value value (by omega) hvalue hfits, ?_⟩
      cases trailer with
      | none =>
          obtain rfl := consumes_nil.mp htrailer
          exact Or.inl ⟨by simp [hclose], rfl, rfl⟩
      | comma comma allowed =>
          exact Or.inr ⟨comma, q, htrailer, Or.inl ⟨hclose, allowed, rfl, rfl⟩⟩
  | more value comma rest =>
      simp only [Fits, Elements.nesting] at hfits
      simp only [Elements.tokens, List.length_append, List.length_cons] at hbound
      obtain ⟨m, hvalue, htail⟩ := consumes_append.mp h
      obtain ⟨n, hcomma, hlater⟩ := consumes_cons.mp htail
      have hlevel : n.depth = p.depth := hcomma.2.2.trans hvalue.2.2
      refine ⟨value.node, m, valueWithin_of_value value (by omega) hvalue
        (by simp only [Fits]; omega), Or.inr ⟨comma, n, hcomma, Or.inr ⟨?_, rest.nodes, ?_, rfl⟩⟩⟩
      · obtain ⟨t', _, htokens, hkind⟩ := rest.exists_tokens_eq_cons
        rw [htokens] at hlater
        simpa [hlater.nextKind_eq] using hkind
      · exact elementsWithin_of_elements rest (by omega) hlater hclose
          (by simp only [Fits]; omega)

end

/-! ## Values and documents -/

/-- A value is read exactly when a derivation of it stands at the front of the tokens. The
tokens of the derivation are taken, and the depth is as before. -/
theorem yields_value_iff :
    Yields (value s) p node q ↔
      ∃ v : ValueIn s, v.node = node ∧ Consumes v.tokens p q ∧ Fits s p.depth v.nesting := by
  simp only [value, yields_bind, yields_get]
  constructor
  · rintro ⟨r, m, ⟨rfl, rfl⟩, h⟩
    exact exists_value_of_valueWithin _ h
  · rintro ⟨v, rfl, hv, hfits⟩
    refine ⟨p, p, ⟨rfl, rfl⟩, valueWithin_of_value v ?_ hv hfits⟩
    rw [boundFor, hv.1, List.length_append]
    omega

/-- A document is read exactly when one derivation takes all the tokens that are left. -/
theorem yields_document_iff {text : Text} {tokens : List Token} {doc : Document} :
    Yields (document s text tokens) p doc q ↔
      ∃ v : ValueIn s, p.rest = v.tokens ∧ v.nesting ≤ s.profile.limits.maxDepth ∧
        doc = ⟨⟨⟨0, text.length⟩, ⟨.origin, s.stop⟩⟩, v.node, tokens⟩ ∧
        q = ⟨p.taken + v.tokens.length, [], 0⟩ := by
  simp only [document, yields_bind, yields_modify, yields_value_iff, yields_current]
  constructor
  · rintro ⟨-, m, rfl, node, n, ⟨v, rfl, ⟨hrest, htaken, hdepth⟩, hfits⟩, o, m', ⟨rfl, hm'⟩, h⟩
    split at h
    · exact absurd h yields_failAt
    · rename_i hend
      obtain ⟨rfl, hq⟩ := yields_pure.mp h
      obtain rfl : q = n := hq.trans hm'
      have hnil : q.rest = [] := List.head?_eq_none_iff.mp hend
      refine ⟨v, ?_, ?_, rfl, ?_⟩
      · simpa [hnil] using hrest
      · simp only [Fits] at hfits
        omega
      · cases q
        simp_all
  · rintro ⟨v, hrest, hnesting, rfl, rfl⟩
    refine ⟨⟨⟩, _, rfl, v.node, ⟨p.taken + v.tokens.length, [], 0⟩,
      ⟨v, rfl, ⟨?_, rfl, rfl⟩, ?_⟩, none, _, ⟨rfl, rfl⟩, yields_pure.mpr ⟨rfl, rfl⟩⟩
    · simpa using hrest
    · simp only [Fits]
      omega

end LocatedJson.Parse

namespace LocatedJson

open LocatedJson.Grammar LocatedJson.Parse

theorem Document.ofTokens_eq_ok_iff {profile : Profile} {text : Text} {tokens : List Token}
    {doc : Document} :
    Document.ofTokens profile text tokens = .ok doc ↔
      ∃ v : Value profile.dialect profile.allowsTrailingCommas,
        v.tokens = tokens.filter Token.isCode ∧ v.nesting ≤ profile.limits.maxDepth ∧
        doc = ⟨⟨⟨0, text.length⟩, ⟨.origin, Cursor.endOf text⟩⟩, v.node, tokens⟩ := by
  have houtcome : Document.ofTokens profile text tokens = .ok doc ↔
      ∃ q, Yields (document (.ofText profile text) text tokens) (start tokens) doc q := by
    simp only [Document.ofTokens, Reading.outcome, Yields]
    split <;> simp_all
  rw [houtcome]
  simp only [yields_document_iff]
  constructor
  · rintro ⟨q, v, hrest, hnesting, rfl, -⟩
    exact ⟨v, hrest.symm, hnesting, rfl⟩
  · rintro ⟨v, htokens, hnesting, rfl⟩
    exact ⟨_, v, htokens.symm, hnesting, rfl, rfl⟩

theorem Document.ofText_eq_ok_iff {profile : Profile} {text : Text} {doc : Document} :
    Document.ofText profile text = .ok doc ↔
      text.length ≤ profile.limits.maxSize ∧
        (Lexed.ofText profile.dialect text).fault? = none ∧
        Document.ofTokens profile text (Lexed.ofText profile.dialect text).tokens = .ok doc := by
  unfold Document.ofText Limits.sizeExcess?
  by_cases hsize : profile.limits.maxSize < text.length
  · simp only [if_pos hsize, reduceCtorEq, false_iff, not_and]
    omega
  · have hle : text.length ≤ profile.limits.maxSize := by omega
    simp only [if_neg hsize, hle, true_and]
    cases hfault : (Lexed.ofText profile.dialect text).fault? <;> simp

theorem Document.tokens_of_ofText {profile : Profile} {text : Text} {doc : Document}
    (h : Document.ofText profile text = .ok doc) :
    doc.tokens = (Lexed.ofText profile.dialect text).tokens := by
  obtain ⟨-, -, hdoc⟩ := Document.ofText_eq_ok_iff.mp h
  obtain ⟨v, -, -, rfl⟩ := Document.ofTokens_eq_ok_iff.mp hdoc
  rfl

/-- That a text is a document can be found by evaluation. -/
theorem Document.exists_of_toBool {profile : Profile} {text : Text}
    (h : (Document.ofText profile text).toBool = true) :
    ∃ doc, Document.ofText profile text = .ok doc := by
  cases hdoc : Document.ofText profile text with
  | ok doc => exact ⟨doc, rfl⟩
  | error fault =>
      rw [hdoc] at h
      cases h

/-- What is so of the document of a text can be found by evaluation. -/
theorem Document.exists_of_any {profile : Profile} {text : Text} {p : Document → Bool}
    (h : (Document.ofText profile text).toOption.any p = true) :
    ∃ doc, Document.ofText profile text = .ok doc ∧ p doc = true := by
  cases hdoc : Document.ofText profile text with
  | ok doc =>
      rw [hdoc] at h
      exact ⟨doc, rfl, h⟩
  | error fault =>
      rw [hdoc] at h
      cases h

/-- Tokens are read as a document with a body exactly when the code tokens, in order and all
of them, are a derivation of that body within the limit on nesting; and code tokens never have
two derivations. -/
theorem Document.ofTokens_iff_derivation (profile : Profile) (text : Text)
    (tokens : List Token) :
    (∀ body : Node, (∃ doc, Document.ofTokens profile text tokens = .ok doc ∧ doc.body = body) ↔
      ∃ v : Value profile.dialect profile.allowsTrailingCommas,
        v.tokens = tokens.filter Token.isCode ∧ v.nesting ≤ profile.limits.maxDepth ∧
        v.node = body) ∧
    Subsingleton { v : Value profile.dialect profile.allowsTrailingCommas //
      v.tokens = tokens.filter Token.isCode } := by
  constructor
  · intro body
    simp only [Document.ofTokens_eq_ok_iff]
    constructor
    · rintro ⟨doc, ⟨v, htokens, hnesting, rfl⟩, rfl⟩
      exact ⟨v, htokens, hnesting, rfl⟩
    · rintro ⟨v, htokens, hnesting, rfl⟩
      exact ⟨_, ⟨v, htokens, hnesting, rfl⟩, rfl⟩
  · constructor
    rintro ⟨v, hv⟩ ⟨v', hv'⟩
    have hsame : v.tokens ++ [] = v'.tokens ++ [] := by rw [hv, hv']
    exact Subtype.ext (Value.eq_of_tokens_append v v' hsame).1

end LocatedJson
