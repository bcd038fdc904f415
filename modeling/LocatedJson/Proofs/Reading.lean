import LocatedJson.Proofs.Grammar

/-!
# Readings that succeed

`Yields x p a q` says that the reading `x` succeeds from the state `p` with
the result `a` and leaves the state `q`, and `Consumes ts p q` that the two
states differ by the tokens `ts`. For every step of a reading there is one
lemma that says exactly when it succeeds and with what; proofs about
readings cite these lemmas and never run a reading.

The lemmas about `scalar` and `key` tie the reading to the terminals of the
grammar.
-/

namespace LocatedJson.Parse

open LocatedJson.Grammar LocatedJson.Text

/-- The reading succeeds: from one state it gives a result and leaves another. -/
def Yields {α : Type} (x : Reading α) (p : Progress) (a : α) (q : Progress) : Prop :=
  x.run p = .ok a q

variable {α β : Type} {p q : Progress}

/-! ## Combinators -/

@[simp] theorem yields_pure {a b : α} :
    Yields (pure a) p b q ↔ b = a ∧ q = p := by
  constructor
  · intro h
    cases h
    exact ⟨rfl, rfl⟩
  · rintro ⟨rfl, rfl⟩
    rfl

@[simp] theorem yields_bind {x : Reading α} {f : α → Reading β} {b : β} :
    Yields (x >>= f) p b q ↔ ∃ a m, Yields x p a m ∧ Yields (f a) m b q := by
  constructor
  · intro h
    replace h : EStateM.bind x f p = .ok b q := h
    unfold EStateM.bind at h
    split at h
    · rename_i a m hx
      exact ⟨a, m, hx, h⟩
    · cases h
  · rintro ⟨a, m, hx, hf⟩
    show EStateM.bind x f p = .ok b q
    unfold EStateM.bind
    rw [show x p = .ok a m from hx]
    exact hf

@[simp] theorem yields_throw {fault : Fault} {a : α} :
    ¬ Yields (throw fault) p a q := by
  intro h
  cases h

@[simp] theorem yields_get {r : Progress} : Yields get p r q ↔ r = p ∧ q = p := by
  constructor
  · intro h
    cases h
    exact ⟨rfl, rfl⟩
  · rintro ⟨rfl, rfl⟩
    rfl

@[simp] theorem yields_set {r : Progress} {u : PUnit} : Yields (set r) p u q ↔ q = r := by
  constructor
  · intro h
    cases h
    rfl
  · rintro rfl
    rfl

@[simp] theorem yields_modify {f : Progress → Progress} {u : PUnit} :
    Yields (modify f) p u q ↔ q = f p := by
  constructor
  · intro h
    cases h
    rfl
  · rintro rfl
    rfl

theorem yields_ite {c : Prop} [Decidable c] {x y : Reading α} {a : α} :
    Yields (if c then x else y) p a q ↔ c ∧ Yields x p a q ∨ ¬ c ∧ Yields y p a q := by
  split <;> simp_all

variable {s : Setting}

@[simp] theorem yields_failAt {t : Option Token} {cause : Malformation} {a : α} :
    ¬ Yields (failAt s t cause) p a q := yields_throw

/-! ## Single tokens -/

/-- The state after some tokens: they stood at the front, and they are counted. -/
def Consumes (ts : List Token) (p q : Progress) : Prop :=
  p.rest = ts ++ q.rest ∧ q.taken = p.taken + ts.length ∧ q.depth = p.depth

def Progress.nextKind (p : Progress) : Option Token.Kind := p.rest.head?.map Token.kind

@[simp] theorem consumes_nil : Consumes [] p q ↔ q = p := by
  constructor
  · rintro ⟨hrest, htaken, hdepth⟩
    cases p
    cases q
    simp_all
  · rintro rfl
    exact ⟨rfl, rfl, rfl⟩

theorem consumes_append {ts us : List Token} :
    Consumes (ts ++ us) p q ↔ ∃ m, Consumes ts p m ∧ Consumes us m q := by
  constructor
  · rintro ⟨hrest, htaken, hdepth⟩
    refine ⟨⟨p.taken + ts.length, us ++ q.rest, p.depth⟩, ⟨?_, rfl, rfl⟩, rfl, ?_, hdepth⟩
    · rw [hrest, List.append_assoc]
    · rw [htaken, List.length_append, Nat.add_assoc]
  · rintro ⟨m, ⟨hrest, htaken, hdepth⟩, hrest', htaken', hdepth'⟩
    refine ⟨?_, ?_, hdepth'.trans hdepth⟩
    · rw [hrest, hrest', List.append_assoc]
    · rw [htaken', htaken, List.length_append, Nat.add_assoc]

theorem consumes_cons {t : Token} {ts : List Token} :
    Consumes (t :: ts) p q ↔ ∃ m, Consumes [t] p m ∧ Consumes ts m q := by
  rw [← List.singleton_append, consumes_append]

theorem Consumes.nextKind_eq {t : Token} {ts : List Token} (h : Consumes (t :: ts) p q) :
    p.nextKind = some t.kind := by
  simp [Progress.nextKind, h.1]

/-- Tokens between brackets: the depth is raised inside and restored outside. -/
theorem consumes_brackets {opening closing : Token} {ts : List Token} :
    Consumes (opening :: ts ++ [closing]) p q ↔
      ∃ m n o, Consumes [opening] p m ∧ Consumes ts { m with depth := m.depth + 1 } n ∧
        Consumes [closing] n o ∧ q = { o with depth := o.depth - 1 } := by
  constructor
  · rintro ⟨hrest, htaken, hdepth⟩
    refine ⟨⟨p.taken + 1, ts ++ closing :: q.rest, p.depth⟩,
      ⟨p.taken + 1 + ts.length, closing :: q.rest, p.depth + 1⟩,
      ⟨q.taken, q.rest, p.depth + 1⟩, ⟨?_, rfl, rfl⟩, ⟨rfl, rfl, rfl⟩, ⟨rfl, ?_, rfl⟩, ?_⟩
    · simpa using hrest
    · simp only [List.length_append, List.length_cons, List.length_nil] at htaken ⊢
      omega
    · cases q
      simp only [Progress.mk.injEq, true_and]
      exact hdepth
  · rintro ⟨m, n, o, ⟨hrest, htaken, hdepth⟩, ⟨hrest', htaken', hdepth'⟩,
      ⟨hrest'', htaken'', hdepth''⟩, rfl⟩
    dsimp only at hrest' htaken' hdepth'
    refine ⟨?_, ?_, ?_⟩
    · rw [hrest, hrest', hrest'']
      simp
    · simp only [List.length_append, List.length_cons, List.length_nil] at htaken htaken'' ⊢
      omega
    · dsimp only
      omega

@[simp] theorem yields_current {t : Option Token} :
    Yields current p t q ↔ t = p.rest.head? ∧ q = p := by
  simp only [current, yields_bind, yields_get, yields_pure]
  constructor
  · rintro ⟨r, m, ⟨rfl, rfl⟩, h⟩
    exact h
  · intro h
    exact ⟨p, p, ⟨rfl, rfl⟩, h⟩

@[simp] theorem yields_take {t : Token} : Yields (take s) p t q ↔ Consumes [t] p q := by
  simp only [take, yields_bind, yields_get]
  constructor
  · rintro ⟨r, m, ⟨rfl, rfl⟩, h⟩
    split at h
    · exact absurd h yields_failAt
    · rename_i t' rest hrest
      simp only [yields_bind, yields_set, yields_pure] at h
      obtain ⟨-, m, rfl, rfl, rfl⟩ := h
      exact ⟨hrest, rfl, rfl⟩
  · rintro ⟨hrest, htaken, hdepth⟩
    refine ⟨p, p, ⟨rfl, rfl⟩, ?_⟩
    rw [hrest]
    refine yields_bind.mpr ⟨⟨⟩, _, yields_set.mpr rfl, yields_pure.mpr ⟨rfl, ?_⟩⟩
    cases q
    simp_all

@[simp] theorem yields_expect {kind : Token.Kind} {what : String} {t : Token} :
    Yields (expect s kind what) p t q ↔ t.kind = kind ∧ Consumes [t] p q := by
  simp only [expect, yields_bind, yields_current, yields_ite, yields_take, yields_failAt,
    and_false, or_false]
  constructor
  · rintro ⟨o, m, ⟨rfl, rfl⟩, hkind, h⟩
    refine ⟨?_, h⟩
    simpa [h.1] using hkind
  · rintro ⟨hkind, h⟩
    exact ⟨_, _, ⟨rfl, rfl⟩, by simp [h.1, hkind], h⟩

@[simp] theorem yields_isNext {kind : Token.Kind} {b : Bool} :
    Yields (isNext kind) p b q ↔ b = decide (p.nextKind = some kind) ∧ q = p := by
  simp only [isNext, yields_bind, yields_current, yields_pure]
  constructor
  · rintro ⟨o, m, ⟨rfl, rfl⟩, rfl, rfl⟩
    exact ⟨rfl, rfl⟩
  · rintro ⟨rfl, rfl⟩
    exact ⟨_, _, ⟨rfl, rfl⟩, rfl, rfl⟩

@[simp] theorem yields_enter {u : Unit} :
    Yields (enter s) p u q ↔
      p.depth + 1 ≤ s.profile.limits.maxDepth ∧ q = { p with depth := p.depth + 1 } := by
  simp only [enter, Limits.enter, Limits.depthExcess?, yields_bind, yields_get, yields_set]
  constructor
  · rintro ⟨r, m, ⟨rfl, rfl⟩, -, m', rfl, h⟩
    by_cases hdeep : s.profile.limits.maxDepth < m.depth + 1
    · rw [if_pos hdeep] at h
      exact absurd h yields_throw
    · rw [if_neg hdeep] at h
      exact ⟨by omega, (yields_pure.mp h).2⟩
  · rintro ⟨hdepth, rfl⟩
    refine ⟨p, p, ⟨rfl, rfl⟩, (), _, rfl, ?_⟩
    rw [if_neg (by omega)]
    exact yields_pure.mpr ⟨rfl, rfl⟩

@[simp] theorem yields_leave {u : PUnit} :
    Yields leave p u q ↔ q = { p with depth := p.depth - 1 } := by
  simp [leave, Limits.leave]

/-- After an item the reading stops at anything but a comma, and at a comma before the
closing bracket where that is allowed; after any other comma it goes on. -/
theorem yields_continues {closing : Token.Kind} {b : Bool} :
    Yields (continues s closing) p b q ↔
      p.nextKind ≠ some .comma ∧ b = false ∧ q = p ∨
      ∃ comma, comma.kind = .comma ∧ Consumes [comma] p q ∧
        (q.nextKind = some closing ∧ s.profile.allowsTrailingCommas = true ∧ b = false ∨
          q.nextKind ≠ some closing ∧ b = true) := by
  simp only [continues, yields_bind, yields_current, yields_ite, yields_take, yields_isNext,
    yields_pure, yields_failAt, and_false, or_false]
  constructor
  · rintro ⟨o, m, ⟨rfl, rfl⟩, ⟨hcomma, comma, m', htake, b', m'', ⟨rfl, rfl⟩, h⟩ |
      ⟨hcomma, rfl, rfl⟩⟩
    · have hkind : comma.kind = .comma := by
        simpa [htake.1] using hcomma
      rcases h with ⟨hclosing, hallowed, rfl, rfl⟩ | ⟨hclosing, rfl, rfl⟩
      · exact Or.inr ⟨comma, hkind, htake, Or.inl ⟨of_decide_eq_true hclosing, hallowed, rfl⟩⟩
      · exact Or.inr ⟨comma, hkind, htake, Or.inr ⟨by simpa using hclosing, rfl⟩⟩
    · exact Or.inl ⟨hcomma, rfl, rfl⟩
  · rintro (⟨hcomma, rfl, rfl⟩ | ⟨comma, hkind, htake, h⟩)
    · exact ⟨_, _, ⟨rfl, rfl⟩, Or.inr ⟨hcomma, rfl, rfl⟩⟩
    · refine ⟨_, _, ⟨rfl, rfl⟩, Or.inl ⟨by simp [htake.1, hkind], comma, q, htake,
        _, _, ⟨rfl, rfl⟩, ?_⟩⟩
      rcases h with ⟨hclosing, hallowed, rfl⟩ | ⟨hclosing, rfl⟩
      · exact Or.inl ⟨decide_eq_true hclosing, hallowed, rfl, rfl⟩
      · exact Or.inr ⟨by simpa using hclosing, rfl, rfl⟩

/-! ## Scalars and names -/

theorem yields_stringValue {t : Token} {points : List CodePoint} :
    Yields (stringValue s t) p points q ↔
      StringBody.decode s.profile.dialect (slice t.text 1 (-1)) = .ok points ∧ q = p := by
  unfold stringValue
  split
  · rename_i points' h
    simp only [h, yields_pure, Except.ok.injEq, eq_comm]
  all_goals simp_all

theorem yields_numberValue {t : Token} {n : Number} :
    Yields (numberValue t) p n q ↔ Numeral.literalValue t.text = .ok n ∧ q = p := by
  unfold numberValue
  split
  · rename_i n' h
    simp only [h, yields_pure, Except.ok.injEq, eq_comm]
  · simp_all

theorem yields_scalar {t : Token} {node : Node} :
    Yields (scalar s t) p node q ↔ Scalar s.profile.dialect t node ∧ q = p := by
  unfold scalar
  constructor
  · intro h
    split at h
    · rename_i hkind
      obtain ⟨points, m, hvalue, hnode⟩ := yields_bind.mp h
      obtain ⟨hdecode, rfl⟩ := yields_stringValue.mp hvalue
      obtain ⟨rfl, rfl⟩ := yields_pure.mp hnode
      exact ⟨.string hkind hdecode, rfl⟩
    · rename_i hkind
      obtain ⟨n, m, hvalue, hnode⟩ := yields_bind.mp h
      obtain ⟨hconvert, rfl⟩ := yields_numberValue.mp hvalue
      obtain ⟨rfl, rfl⟩ := yields_pure.mp hnode
      exact ⟨.number hkind hconvert, rfl⟩
    · rename_i hkind
      obtain ⟨rfl, rfl⟩ := yields_pure.mp h
      exact ⟨.boolean hkind, rfl⟩
    · rename_i hkind
      obtain ⟨rfl, rfl⟩ := yields_pure.mp h
      exact ⟨.null hkind, rfl⟩
    · rename_i hkind
      obtain ⟨rfl, rfl⟩ := yields_pure.mp h
      exact ⟨.nan hkind, rfl⟩
    · rename_i hkind
      obtain ⟨rfl, rfl⟩ := yields_pure.mp h
      exact ⟨.infinity hkind, rfl⟩
    · exact absurd h yields_failAt
  · rintro ⟨h, rfl⟩
    cases h with
    | string hkind hdecode =>
        rw [hkind]
        exact yields_bind.mpr
          ⟨_, _, yields_stringValue.mpr ⟨hdecode, rfl⟩, yields_pure.mpr ⟨rfl, rfl⟩⟩
    | number hkind hconvert =>
        rw [hkind]
        exact yields_bind.mpr
          ⟨_, _, yields_numberValue.mpr ⟨hconvert, rfl⟩, yields_pure.mpr ⟨rfl, rfl⟩⟩
    | boolean hkind | null hkind | nan hkind | infinity hkind =>
        rw [hkind]
        exact yields_pure.mpr ⟨rfl, rfl⟩

theorem isBareKey_iff {d : Dialect} {kind : Token.Kind} :
    isBareKey d kind = true ↔
      d = .json5 ∧ kind ∈ [.identifier, .nan, .infinity, .boolean, .null] := by
  simp [isBareKey]

theorem yields_key {k : Key} :
    Yields (key s) p k q ↔ ∃ t, Name s.profile.dialect t k ∧ Consumes [t] p q := by
  simp only [key, yields_bind, yields_current]
  constructor
  · rintro ⟨o, m, ⟨rfl, rfl⟩, h⟩
    split at h
    · rename_i t ht
      simp only [yields_ite, yields_bind, yields_take, yields_pure, yields_failAt, and_false,
        or_false, yields_stringValue] at h
      rcases h with ⟨hkind, t', m', htake, points, m'', ⟨hdecode, rfl⟩, rfl, rfl⟩ |
        ⟨hkind, hbare, t', m', htake, rfl, rfl⟩
      · obtain rfl : t' = t := by simpa [htake.1] using ht
        exact ⟨t', .quoted hkind hdecode, htake⟩
      · obtain rfl : t' = t := by simpa [htake.1] using ht
        obtain ⟨hjson5, hmem⟩ := isBareKey_iff.mp hbare
        exact ⟨t', .bare hjson5 hmem, htake⟩
    · exact absurd h yields_failAt
  · rintro ⟨t, hname, htake⟩
    refine ⟨some t, p, ⟨by rw [htake.1]; rfl, rfl⟩, ?_⟩
    simp only [yields_ite, yields_bind, yields_take, yields_pure, yields_failAt, and_false,
      or_false, yields_stringValue]
    cases hname with
    | quoted hkind hdecode =>
        exact Or.inl ⟨hkind, t, q, htake, _, _, ⟨hdecode, rfl⟩, rfl, rfl⟩
    | bare hjson5 hmem =>
        refine Or.inr ⟨?_, isBareKey_iff.mpr ⟨hjson5, hmem⟩, t, q, htake, rfl, rfl⟩
        intro hkind
        simp [hkind] at hmem

end LocatedJson.Parse
