import LocatedJson.Proofs.Derivation

/-!
# Limits only reject

A text that is read within some limits is read to the same document within
wider ones, and a fault within wider limits is found within narrower ones too,
unless these are exceeded before (`Document.ofText_within_limits`).

This compares two runs of the same reading. `Follows limit x y` says that `x`
does what `y` does, step by step and to the same state, or else stops because
one bracket more than the limit is open. The property composes, so it follows
the descent, and the one step at which two settings that differ in their limits
can part is `enter`. The invariant behind it is that the counter never stands
above the limit: it is raised at brackets that open, and each of these is
either counted down again or the end of the reading.
-/

namespace LocatedJson

/-! ## The nesting of a node -/

mutual

/-- How many objects and arrays of a value are inside each other, itself counted. -/
def Node.nesting : Node → Nat
  | .object _ members => Node.memberNesting members + 1
  | .array _ elements => Node.elementNesting elements + 1
  | _ => 0

def Node.memberNesting : List (Key × Node) → Nat
  | [] => 0
  | (_, value) :: rest => max value.nesting (Node.memberNesting rest)

def Node.elementNesting : List Node → Nat
  | [] => 0
  | value :: rest => max value.nesting (Node.elementNesting rest)

end

namespace Grammar

variable {d : Dialect} {trailing : Bool}

theorem Scalar.nesting_eq {t : Token} {node : Node} (h : Scalar d t node) : node.nesting = 0 := by
  cases h <;> rfl

mutual

/-- The brackets of a derivation are the objects and arrays of its node. -/
theorem Value.nesting_node (v : Value d trailing) : v.node.nesting = v.nesting := by
  match v with
  | .scalar t node is => exact is.nesting_eq
  | .emptyObject opening closing | .emptyArray opening closing => rfl
  | .object opening members closing =>
      rw [Value.node, Node.nesting, members.nesting_pairs, Value.nesting]
  | .array opening elements closing =>
      rw [Value.node, Node.nesting, elements.nesting_nodes, Value.nesting]

theorem Members.nesting_pairs (m : Members d trailing) :
    Node.memberNesting m.pairs = m.nesting := by
  match m with
  | .last t key is colon value trailer =>
      rw [Members.pairs, Node.memberNesting, value.nesting_node, Node.memberNesting, Nat.max_zero,
        Members.nesting]
  | .more t key is colon value comma rest =>
      rw [Members.pairs, Node.memberNesting, value.nesting_node, rest.nesting_pairs,
        Members.nesting]

theorem Elements.nesting_nodes (e : Elements d trailing) :
    Node.elementNesting e.nodes = e.nesting := by
  match e with
  | .last value trailer =>
      rw [Elements.nodes, Node.elementNesting, value.nesting_node, Node.elementNesting,
        Nat.max_zero, Elements.nesting]
  | .more value comma rest =>
      rw [Elements.nodes, Node.elementNesting, value.nesting_node, rest.nesting_nodes,
        Elements.nesting]

end

end Grammar

namespace Parse

variable {α β : Type} {limit : Nat}

/-! ## Two runs -/

/-- The fault of a reading in which one bracket more than the limit is open. -/
def tooDeep (limit : Nat) : Fault := .complaint (.exceeded (.depth (limit + 1) limit))

/-- From a state within the limit the first reading stops because it gets too deep, or it ends as
the second one does, and if that is with a result, within the limit. -/
def Follows (limit : Nat) (x y : Reading α) : Prop :=
  ∀ p, p.depth ≤ limit →
    (∃ q, x.run p = .error (tooDeep limit) q) ∨
      x.run p = y.run p ∧ ∀ a q, Yields x p a q → q.depth ≤ limit

/-- A reading that leaves no more brackets open than it found follows itself. -/
theorem follows_self {x : Reading α} (h : ∀ p a q, Yields x p a q → q.depth ≤ p.depth) :
    Follows limit x x :=
  fun p hp => .inr ⟨rfl, fun a q hx => Nat.le_trans (h p a q hx) hp⟩

theorem follows_pure (a : α) : Follows limit (pure a) (pure a) :=
  follows_self fun _ _ _ h => Nat.le_of_eq (by rw [(yields_pure.mp h).2])

theorem run_bind_of_ok {x : Reading α} {f : α → Reading β} {p q : Progress} {a : α}
    (h : x.run p = .ok a q) : (x >>= f).run p = (f a).run q := by
  show EStateM.bind x f p = _
  rw [EStateM.bind, show x p = _ from h]
  rfl

theorem run_bind_of_error {x : Reading α} {f : α → Reading β} {p q : Progress} {fault : Fault}
    (h : x.run p = .error fault q) : (x >>= f).run p = .error fault q := by
  show EStateM.bind x f p = _
  rw [EStateM.bind, show x p = _ from h]

theorem follows_bind {x y : Reading α} {f g : α → Reading β} (hx : Follows limit x y)
    (hf : ∀ a, Follows limit (f a) (g a)) : Follows limit (x >>= f) (y >>= g) := by
  intro p hp
  rcases hx p hp with ⟨q, hdeep⟩ | ⟨hsame, hwithin⟩
  · exact .inl ⟨q, run_bind_of_error hdeep⟩
  · cases hend : x.run p with
    | error fault q =>
        have hx' : (x >>= f).run p = .error fault q := run_bind_of_error hend
        have hy' : (y >>= g).run p = .error fault q := run_bind_of_error (hsame ▸ hend)
        refine .inr ⟨hx'.trans hy'.symm, fun b q' hb => ?_⟩
        cases hx'.symm.trans hb
    | ok a q =>
        have hx' : (x >>= f).run p = (f a).run q := run_bind_of_ok hend
        have hy' : (y >>= g).run p = (g a).run q := run_bind_of_ok (hsame ▸ hend)
        rcases hf a q (hwithin a q hend) with ⟨q', hdeep⟩ | ⟨hsame', hwithin'⟩
        · exact .inl ⟨q', hx'.trans hdeep⟩
        · refine .inr ⟨(hx'.trans hsame').trans hy'.symm, fun b q' hb => ?_⟩
          exact hwithin' b q' (hx'.symm.trans hb)

theorem follows_ite {P : Prop} [Decidable P] {x y x' y' : Reading α} (hx : Follows limit x y)
    (hx' : Follows limit x' y') : Follows limit (if P then x else x') (if P then y else y') := by
  split
  · exact hx
  · exact hx'

/-! ## Single tokens -/

variable {s : Setting} {wider : Limits}

theorem follows_failAt {t : Option Token} {cause : Malformation} :
    Follows limit (failAt s t cause : Reading α) (failAt s t cause) :=
  follows_self fun _ _ _ h => absurd h yields_failAt

theorem follows_current : Follows limit current current :=
  follows_self fun _ _ _ h => Nat.le_of_eq (by rw [(yields_current.mp h).2])

theorem follows_take : Follows limit (take s) (take s) :=
  follows_self fun _ _ _ h => Nat.le_of_eq (yields_take.mp h).2.2

theorem follows_expect {kind : Token.Kind} {what : String} :
    Follows limit (expect s kind what) (expect s kind what) :=
  follows_self fun _ _ _ h => Nat.le_of_eq (yields_expect.mp h).2.2.2

theorem follows_isNext {kind : Token.Kind} : Follows limit (isNext kind) (isNext kind) :=
  follows_self fun _ _ _ h => Nat.le_of_eq (by rw [(yields_isNext.mp h).2])

theorem follows_leave : Follows limit leave leave :=
  follows_self fun p _ _ h => by
    rw [yields_leave.mp h]
    exact Nat.sub_le p.depth 1

theorem follows_continues {closing : Token.Kind} :
    Follows limit (continues s closing) (continues s closing) :=
  follows_self fun p a q h => by
    rcases yields_continues.mp h with ⟨-, -, rfl⟩ | ⟨comma, -, htake, -⟩
    · exact Nat.le_refl _
    · exact Nat.le_of_eq htake.2.2

theorem follows_scalar {t : Token} : Follows limit (scalar s t) (scalar s t) :=
  follows_self fun _ _ _ h => Nat.le_of_eq (by rw [(yields_scalar.mp h).2])

theorem follows_key : Follows limit (key s) (key s) :=
  follows_self fun p a q h => by
    obtain ⟨t, -, htake⟩ := yields_key.mp h
    exact Nat.le_of_eq htake.2.2

/-- The setting with other limits. -/
def Setting.withLimits (s : Setting) (limits : Limits) : Setting :=
  { s with profile := { s.profile with limits := limits } }

/-- A bracket beyond the limit is counted before it is refused. -/
theorem run_enter_of_lt {p : Progress} (h : s.profile.limits.maxDepth < p.depth + 1) :
    (enter s).run p =
      .error (.complaint (.exceeded (.depth (p.depth + 1) s.profile.limits.maxDepth)))
        { p with depth := p.depth + 1 } := by
  have hexcess : s.profile.limits.depthExcess? (p.depth + 1) =
      some (.depth (p.depth + 1) s.profile.limits.maxDepth) := if_pos h
  have hcount : s.profile.limits.enter p.depth =
      (p.depth + 1, some (.depth (p.depth + 1) s.profile.limits.maxDepth)) :=
    congrArg (p.depth + 1, ·) hexcess
  have hget : (get : Reading Progress).run p = .ok p p := rfl
  rw [enter, run_bind_of_ok hget, hcount]
  rfl

/-- The one step at which the limit on brackets matters. -/
theorem follows_enter (hwider : s.profile.limits.maxDepth ≤ wider.maxDepth) :
    Follows s.profile.limits.maxDepth (enter s) (enter (s.withLimits wider)) := by
  intro p hp
  by_cases hdeep : s.profile.limits.maxDepth < p.depth + 1
  · have hdepth : p.depth = s.profile.limits.maxDepth := by omega
    exact .inl ⟨_, by rw [run_enter_of_lt hdeep, hdepth, tooDeep]⟩
  · have hroom : p.depth + 1 ≤ s.profile.limits.maxDepth := by omega
    have hhere : Yields (enter s) p () { p with depth := p.depth + 1 } :=
      yields_enter.mpr ⟨hroom, rfl⟩
    have hthere : Yields (enter (s.withLimits wider)) p () { p with depth := p.depth + 1 } :=
      yields_enter.mpr ⟨Nat.le_trans hroom hwider, rfl⟩
    refine .inr ⟨hhere.trans hthere.symm, fun a q h => ?_⟩
    rw [(yields_enter.mp h).2]
    exact hroom

/-! ## Structures

A step other than `enter` does not look at the limits, so what it does in a setting with
others is the same by definition. -/

/-- What objects and arrays share. -/
theorem follows_brackets (hwider : s.profile.limits.maxDepth ≤ wider.maxDepth)
    {opening closing : Token.Kind} {what what' : String} {inner inner' : Reading α}
    {wrap : Extent → α → Node}
    (hinner : Follows s.profile.limits.maxDepth inner inner') :
    Follows s.profile.limits.maxDepth
      (do
        let first ← expect s opening what
        enter s
        let items ← inner
        let last ← expect s closing what'
        leave
        return wrap (first.extent.join last.extent) items)
      (do
        let first ← expect (s.withLimits wider) opening what
        enter (s.withLimits wider)
        let items ← inner'
        let last ← expect (s.withLimits wider) closing what'
        leave
        return wrap (first.extent.join last.extent) items) := by
  refine follows_bind follows_expect fun _ => follows_bind (follows_enter hwider) fun _ => ?_
  refine follows_bind hinner fun _ => follows_bind follows_expect fun _ => ?_
  exact follows_bind follows_leave fun _ => follows_pure _

/-- One round of the loop that objects and arrays share. -/
theorem follows_items {closing : Token.Kind} {item item' : Reading α}
    {later later' : Reading (List α)} (hitem : Follows limit item item')
    (hlater : Follows limit later later') :
    Follows limit
      (do
        if ← isNext closing then return []
        else
          let x ← item
          if ← continues s closing then return x :: (← later)
          else return [x])
      (do
        if ← isNext closing then return []
        else
          let x ← item'
          if ← continues (s.withLimits wider) closing then return x :: (← later')
          else return [x]) := by
  refine follows_bind follows_isNext fun _ => follows_ite (follows_pure _) ?_
  refine follows_bind hitem fun _ => follows_bind follows_continues fun _ => ?_
  exact follows_ite (follows_bind hlater fun _ => follows_pure _) (follows_pure _)

mutual

theorem follows_valueWithin (hwider : s.profile.limits.maxDepth ≤ wider.maxDepth) (bound : Nat) :
    Follows s.profile.limits.maxDepth (valueWithin s bound)
      (valueWithin (s.withLimits wider) bound) := by
  match bound with
  | 0 => exact follows_failAt
  | bound + 1 =>
      refine follows_bind follows_current fun t? => ?_
      cases t? with
      | none => exact follows_failAt
      | some t =>
          refine follows_ite (follows_objectWithin hwider bound) ?_
          refine follows_ite (follows_arrayWithin hwider bound) ?_
          exact follows_bind follows_take fun _ => follows_scalar

theorem follows_objectWithin (hwider : s.profile.limits.maxDepth ≤ wider.maxDepth) (bound : Nat) :
    Follows s.profile.limits.maxDepth (objectWithin s bound)
      (objectWithin (s.withLimits wider) bound) := by
  match bound with
  | 0 => exact follows_failAt
  | bound + 1 => exact follows_brackets hwider (follows_membersWithin hwider bound)

theorem follows_membersWithin (hwider : s.profile.limits.maxDepth ≤ wider.maxDepth) (bound : Nat) :
    Follows s.profile.limits.maxDepth (membersWithin s bound)
      (membersWithin (s.withLimits wider) bound) := by
  match bound with
  | 0 => exact follows_failAt
  | bound + 1 =>
      rw [membersWithin_succ, membersWithin_succ]
      refine follows_items ?_ (follows_membersWithin hwider bound)
      refine follows_bind follows_key fun _ => follows_bind follows_expect fun _ => ?_
      exact follows_bind (follows_valueWithin hwider bound) fun _ => follows_pure _

theorem follows_arrayWithin (hwider : s.profile.limits.maxDepth ≤ wider.maxDepth) (bound : Nat) :
    Follows s.profile.limits.maxDepth (arrayWithin s bound)
      (arrayWithin (s.withLimits wider) bound) := by
  match bound with
  | 0 => exact follows_failAt
  | bound + 1 => exact follows_brackets hwider (follows_elementsWithin hwider bound)

theorem follows_elementsWithin (hwider : s.profile.limits.maxDepth ≤ wider.maxDepth) (bound : Nat) :
    Follows s.profile.limits.maxDepth (elementsWithin s bound)
      (elementsWithin (s.withLimits wider) bound) := by
  match bound with
  | 0 => exact follows_failAt
  | bound + 1 =>
      exact follows_items (follows_valueWithin hwider bound) (follows_elementsWithin hwider bound)

end

theorem follows_document (hwider : s.profile.limits.maxDepth ≤ wider.maxDepth) {text : Text}
    {tokens : List Token} :
    Follows s.profile.limits.maxDepth (document s text tokens)
      (document (s.withLimits wider) text tokens) := by
  have hreset : Follows s.profile.limits.maxDepth (modify fun p => { p with depth := 0 })
      (modify fun p => { p with depth := 0 }) := by
    refine follows_self fun p _ q h => ?_
    rw [yields_modify.mp h]
    exact Nat.zero_le _
  have hget : Follows s.profile.limits.maxDepth (get : Reading Progress) get :=
    follows_self fun _ _ _ h => Nat.le_of_eq (by rw [(yields_get.mp h).2])
  refine follows_bind hreset fun _ => ?_
  refine follows_bind (follows_bind hget fun p => follows_valueWithin hwider _) fun body => ?_
  refine follows_bind follows_current fun t? => ?_
  cases t? with
  | none => exact follows_pure _
  | some t => exact follows_failAt

end Parse

/-! ## Documents -/

open LocatedJson.Parse

variable {profile : Profile} {text : Text} {wider : Limits}

/-- Tokens are read as within wider limits on nesting, unless too many brackets are open. -/
theorem Document.ofTokens_within (hwider : profile.limits.maxDepth ≤ wider.maxDepth)
    (tokens : List Token) :
    Document.ofTokens profile text tokens = .error (tooDeep profile.limits.maxDepth) ∨
      Document.ofTokens profile text tokens =
        Document.ofTokens { profile with limits := wider } text tokens := by
  have hfollows := @follows_document (.ofText profile text) wider hwider text tokens
  unfold Document.ofTokens Reading.outcome
  rcases hfollows (start tokens) (Nat.zero_le _) with ⟨q, hdeep⟩ | ⟨hsame, -⟩
  · refine .inl ?_
    rw [hdeep]
    rfl
  · refine .inr ?_
    rw [hsame]
    rfl

/-- A text within the limit on its size is read as within wider limits, unless too many brackets
are open. -/
theorem Document.ofText_within (hsize : text.length ≤ profile.limits.maxSize)
    (hwiderSize : profile.limits.maxSize ≤ wider.maxSize)
    (hwider : profile.limits.maxDepth ≤ wider.maxDepth) :
    Document.ofText profile text = .error (tooDeep profile.limits.maxDepth) ∨
      Document.ofText profile text = Document.ofText { profile with limits := wider } text := by
  have hnone : profile.limits.sizeExcess? text.length = none := if_neg (by omega)
  have hnone' : wider.sizeExcess? text.length = none := if_neg (by omega)
  unfold Document.ofText
  simp only [hnone, hnone']
  cases (Lexed.ofText profile.dialect text).fault? with
  | some fault => exact .inr rfl
  | none => exact Document.ofTokens_within hwider _

/-- The document of a text has a nesting within the limit. -/
theorem Document.nesting_le_of_ofText {doc : Document}
    (h : Document.ofText profile text = .ok doc) :
    doc.body.nesting ≤ profile.limits.maxDepth := by
  obtain ⟨-, -, htokens⟩ := Document.ofText_eq_ok_iff.mp h
  obtain ⟨v, -, hnesting, rfl⟩ := Document.ofTokens_eq_ok_iff.mp htokens
  rwa [v.nesting_node]

/-- A document within wider limits is one within narrower limits that it does not exceed. -/
theorem Document.ofText_of_nesting_le {doc : Document}
    (h : Document.ofText { profile with limits := wider } text = .ok doc)
    (hsize : text.length ≤ profile.limits.maxSize)
    (hnesting : doc.body.nesting ≤ profile.limits.maxDepth) :
    Document.ofText profile text = .ok doc := by
  obtain ⟨-, hfault, htokens⟩ := Document.ofText_eq_ok_iff.mp h
  obtain ⟨v, hv, -, rfl⟩ := Document.ofTokens_eq_ok_iff.mp htokens
  rw [v.nesting_node] at hnesting
  exact Document.ofText_eq_ok_iff.mpr
    ⟨hsize, hfault, Document.ofTokens_eq_ok_iff.mpr ⟨v, hv, hnesting, rfl⟩⟩

/-- Limits reject a text or have no part in how it is read. A text that is too long is refused.
Any other is compared with the reading within limits that are at least as wide: a document of
those is found here as well if its nesting is within the limit, and is refused at the first bracket
too many otherwise; and what fails there fails here, for the same reason or for that one. -/
theorem Document.ofText_within_limits (profile : Profile) (text : Text) :
    (profile.limits.maxSize < text.length →
      Document.ofText profile text =
        .error (.complaint (.exceeded (.size text.length profile.limits.maxSize)))) ∧
    (text.length ≤ profile.limits.maxSize →
      ∀ wider : Limits, profile.limits.maxSize ≤ wider.maxSize →
        profile.limits.maxDepth ≤ wider.maxDepth →
        (∀ doc, Document.ofText { profile with limits := wider } text = .ok doc →
          (doc.body.nesting ≤ profile.limits.maxDepth → Document.ofText profile text = .ok doc) ∧
          (profile.limits.maxDepth < doc.body.nesting →
            Document.ofText profile text = .error (.complaint (.exceeded
              (.depth (profile.limits.maxDepth + 1) profile.limits.maxDepth))))) ∧
        ∀ fault, Document.ofText { profile with limits := wider } text = .error fault →
          Document.ofText profile text = .error fault ∨
          Document.ofText profile text = .error (.complaint (.exceeded
            (.depth (profile.limits.maxDepth + 1) profile.limits.maxDepth)))) := by
  refine ⟨fun hlong => ?_, fun hsize wider hwiderSize hwider => ⟨fun doc hdoc => ⟨?_, ?_⟩, ?_⟩⟩
  · have hexcess : profile.limits.sizeExcess? text.length =
        some (.size text.length profile.limits.maxSize) := if_pos hlong
    simp only [Document.ofText, hexcess]
  · exact Document.ofText_of_nesting_le hdoc hsize
  · intro hdeep
    rcases Document.ofText_within hsize hwiderSize hwider with hfault | hsame
    · exact hfault
    · have hle := Document.nesting_le_of_ofText (hsame.trans hdoc)
      omega
  · intro fault hfault
    rcases Document.ofText_within hsize hwiderSize hwider with hdeep | hsame
    · exact .inr hdeep
    · exact .inl (hsame.trans hfault)

/-- An array in an array is a document, and too deep where one open bracket is the limit. -/
theorem Document.ofText_within_limits_array :
    ∃ doc, Document.ofText {} "[1, []]".toList = .ok doc ∧ doc.body.nesting = 2 ∧
      Document.ofText { limits := { maxDepth := 1 } } "[1, []]".toList =
        .error (.complaint (.exceeded (.depth 2 1))) := by
  have hread : (Document.ofText {} "[1, []]".toList).toOption.any
      (fun doc => doc.body.nesting == 2) = true := by decide +kernel
  have hsize : "[1, []]".toList.length ≤ 100 := by decide
  generalize "[1, []]".toList = text at hread hsize ⊢
  obtain ⟨doc, hdoc, hnesting⟩ := Document.exists_of_any hread
  rw [beq_iff_eq] at hnesting
  obtain ⟨hnarrow, -⟩ := (Document.ofText_within_limits { limits := { maxDepth := 1 } } text).2
    (Nat.le_trans hsize (by decide)) {} (Nat.le_refl _) (by decide)
  exact ⟨doc, hdoc, hnesting, (hnarrow doc hdoc).2 (by rw [hnesting]; decide)⟩

end LocatedJson
