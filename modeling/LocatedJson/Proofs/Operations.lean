import LocatedJson.Proofs.Limits

/-!
# Readings that are carried on

A reading need not end with its first fault. Single tokens, values, objects,
arrays and documents can be asked for in any order, and a fault leaves the
state as it was when it was found, so the next operation starts from there.
What can be relied on after any such history is collected in `Orderly`.

The number of brackets open is what a fault spoils: it is raised where a bracket
opens and lowered where it closes, and a fault in between leaves it raised. It is
followed relative to a base. `Moves a b x` says that a reading that begins `a`
brackets above any base ends `b` brackets above it, and that a fault never goes
below the base. So an opening bracket goes from none to one, a closing one back
from one to none, the lowering is never stopped at zero, and the rest composes.

That a value says by itself where it ends needs no further induction: what was
taken is a derivation, and a derivation is read wherever it stands.
-/

namespace LocatedJson.Parse

open LocatedJson.Grammar LocatedJson.Text

/-! ## Operations -/

/-- What is read as a node. -/
inductive Shape where
  | value
  | object
  | array
  deriving DecidableEq, Repr

def Shape.reading (s : Setting) : Shape → Reading Node
  | .value => Parse.value s
  | .object => Parse.object s
  | .array => Parse.array s

/-- What can be asked of a reader. -/
inductive Operation where
  | current
  | take
  | expect (kind : Token.Kind) (what : String)
  | node (shape : Shape)
  | document
  deriving DecidableEq, Repr

def Operation.Result : Operation → Type
  | .current => Option Token
  | .take => Token
  | .expect _ _ => Token
  | .node _ => Node
  | .document => Document

/-- The state that a reading ends in, with a result or with a fault. -/
def Reading.endState {α : Type} (x : Reading α) (p : Progress) : Progress :=
  match x.run p with
  | .ok _ q => q
  | .error _ q => q

/-- What a reader of tokens is made from. -/
structure Reader where
  profile : Profile
  text : Text
  tokens : List Token
  deriving DecidableEq, Repr

namespace Reader

def setting (r : Reader) : Setting := .ofText r.profile r.text

def code (r : Reader) : List Token := r.tokens.filter Token.isCode

def reading (r : Reader) : (op : Operation) → Reading op.Result
  | .current => Parse.current
  | .take => Parse.take r.setting
  | .expect kind what => Parse.expect r.setting kind what
  | .node shape => shape.reading r.setting
  | .document => Parse.document r.setting r.text r.tokens

/-- The state after an operation. -/
def perform (r : Reader) (p : Progress) (op : Operation) : Progress := (r.reading op).endState p

/-- The state after operations, from the start. -/
def after (r : Reader) (ops : List Operation) : Progress := ops.foldl r.perform (start r.tokens)

end Reader

/-! ## Tokens taken and brackets open -/

/-- Tokens are taken from the front, and counted. -/
def Along (p q : Progress) : Prop := ∃ ts, p.rest = ts ++ q.rest ∧ q.taken = p.taken + ts.length

variable {α β : Type} {a b c : Nat} {p q : Progress} {s : Setting}

theorem Along.refl (p : Progress) : Along p p := ⟨[], rfl, rfl⟩

theorem Along.trans {o : Progress} (h : Along p q) (h' : Along q o) : Along p o := by
  obtain ⟨ts, hrest, htaken⟩ := h
  obtain ⟨us, hrest', htaken'⟩ := h'
  refine ⟨ts ++ us, ?_, ?_⟩
  · rw [hrest, hrest', List.append_assoc]
  · rw [htaken', htaken, List.length_append, Nat.add_assoc]

/-- From `a` brackets above a base the reading comes to `b` brackets above it, or to a fault that is
not below it. -/
def Moves (a b : Nat) (x : Reading α) : Prop :=
  ∀ p base, p.depth = base + a →
    match x.run p with
    | .ok _ q => Along p q ∧ q.depth = base + b
    | .error _ q => Along p q ∧ base ≤ q.depth

theorem moves_of_ok {x : Reading α} (h : ∀ p base, p.depth = base + a →
    ∃ r q, x.run p = .ok r q ∧ Along p q ∧ q.depth = base + b) : Moves a b x := by
  intro p base hp
  obtain ⟨r, q, hrun, hend⟩ := h p base hp
  rw [hrun]
  exact hend

theorem moves_throw {fault : Fault} : Moves a b (throw fault : Reading α) := by
  intro p base hp
  exact ⟨.refl p, by omega⟩

theorem moves_pure {r : α} : Moves a a (pure r : Reading α) :=
  moves_of_ok fun p _ hp => ⟨r, p, rfl, .refl p, hp⟩

theorem moves_bind {x : Reading α} {f : α → Reading β} (hx : Moves a b x)
    (hf : ∀ r, Moves b c (f r)) : Moves a c (x >>= f) := by
  intro p base hp
  have hfirst := hx p base hp
  cases hrun : x.run p with
  | ok r q =>
      rw [hrun] at hfirst
      obtain ⟨halong, hdepth⟩ := hfirst
      have hsecond := hf r q base hdepth
      rw [run_bind_of_ok hrun]
      split at hsecond
      · exact ⟨halong.trans hsecond.1, hsecond.2⟩
      · exact ⟨halong.trans hsecond.1, hsecond.2⟩
  | error fault q =>
      rw [hrun] at hfirst
      rw [run_bind_of_error hrun]
      exact hfirst

theorem moves_ite {P : Prop} [Decidable P] {x y : Reading α} (hx : Moves a b x)
    (hy : Moves a b y) : Moves a b (if P then x else y) := by
  split
  · exact hx
  · exact hy

/-! ## Single tokens -/

theorem moves_failAt {t : Option Token} {cause : Malformation} :
    Moves a b (failAt s t cause : Reading α) := moves_throw

theorem moves_current : Moves a a current :=
  moves_of_ok fun p _ hp => ⟨p.rest.head?, p, rfl, .refl p, hp⟩

theorem moves_isNext {kind : Token.Kind} : Moves a a (isNext kind) :=
  moves_bind moves_current fun _ => moves_pure

theorem moves_take : Moves a a (take s) := by
  rintro ⟨taken, rest, depth⟩ base hp
  cases rest with
  | nil => exact ⟨.refl _, by dsimp only at hp ⊢; omega⟩
  | cons t rest => exact ⟨⟨[t], rfl, rfl⟩, hp⟩

theorem moves_expect {kind : Token.Kind} {what : String} : Moves a a (expect s kind what) :=
  moves_bind moves_current fun _ => moves_ite moves_take moves_failAt

/-- A bracket is counted even if it is refused. -/
theorem moves_enter : Moves 0 1 (enter s) := by
  intro p base hp
  by_cases hdeep : s.profile.limits.maxDepth < p.depth + 1
  · rw [run_enter_of_lt hdeep]
    exact ⟨⟨[], rfl, rfl⟩, by dsimp only; omega⟩
  · have hrun : Yields (enter s) p () { p with depth := p.depth + 1 } :=
      yields_enter.mpr ⟨by omega, rfl⟩
    rw [show (enter s).run p = _ from hrun]
    exact ⟨⟨[], rfl, rfl⟩, by dsimp only; omega⟩

/-- Behind a bracket that was counted the depth is not zero, so it is lowered. -/
theorem moves_leave : Moves 1 0 leave := by
  refine moves_of_ok fun p base hp => ⟨(), _, yields_leave.mpr rfl, ⟨[], rfl, rfl⟩, ?_⟩
  dsimp only
  omega

theorem moves_continues {closing : Token.Kind} : Moves a a (continues s closing) := by
  refine moves_bind moves_current fun t => moves_ite ?_ moves_pure
  refine moves_bind moves_take fun _ => moves_bind moves_isNext fun _ => ?_
  exact moves_ite (moves_ite moves_pure moves_failAt) moves_pure

/-! ## Scalars and names -/

theorem moves_stringValue {t : Token} : Moves a a (stringValue s t) := by
  unfold stringValue
  split
  · exact moves_pure
  · exact moves_failAt
  · exact moves_failAt
  · exact moves_failAt
  · exact moves_throw

theorem moves_numberValue {t : Token} : Moves a a (numberValue t) := by
  unfold numberValue
  split
  · exact moves_pure
  · exact moves_throw

theorem moves_scalar {t : Token} : Moves a a (scalar s t) := by
  unfold scalar
  split
  · exact moves_bind moves_stringValue fun _ => moves_pure
  · exact moves_bind moves_numberValue fun _ => moves_pure
  · exact moves_pure
  · exact moves_pure
  · exact moves_pure
  · exact moves_pure
  · exact moves_failAt

theorem moves_key : Moves a a (key s) := by
  refine moves_bind moves_current fun t? => ?_
  cases t? with
  | none => exact moves_failAt
  | some t =>
      refine moves_ite ?_ (moves_ite ?_ moves_failAt)
      · refine moves_bind moves_take fun _ => ?_
        exact moves_bind moves_stringValue fun _ => moves_pure
      · exact moves_bind moves_take fun _ => moves_pure

/-! ## Structures -/

/-- What keeps the depth does so on every level. -/
theorem Moves.raise {x : Reading α} (h : Moves 0 0 x) : Moves a a x := by
  intro p base hp
  have hmoves := h p (base + a) hp
  split at hmoves
  · exact hmoves
  · exact ⟨hmoves.1, by omega⟩

/-- What objects and arrays share: whatever happens between the brackets happens above the depth
that the opening bracket was found at. -/
theorem moves_brackets {opening closing : Token.Kind} {what what' : String} {inner : Reading α}
    {wrap : Extent → α → Node} (hinner : Moves 0 0 inner) :
    Moves 0 0 (do
      let first ← expect s opening what
      enter s
      let items ← inner
      let last ← expect s closing what'
      leave
      return wrap (first.extent.join last.extent) items) := by
  refine moves_bind moves_expect fun _ => moves_bind moves_enter fun _ => ?_
  refine moves_bind hinner.raise fun _ => moves_bind moves_expect fun _ => ?_
  exact moves_bind moves_leave fun _ => moves_pure

/-- One round of the loop that objects and arrays share. -/
theorem moves_items {closing : Token.Kind} {item : Reading α} {later : Reading (List α)}
    (hitem : Moves 0 0 item) (hlater : Moves 0 0 later) :
    Moves 0 0 (do
      if ← isNext closing then return []
      else
        let x ← item
        if ← continues s closing then return x :: (← later)
        else return [x]) := by
  refine moves_bind moves_isNext fun _ => moves_ite moves_pure ?_
  refine moves_bind hitem fun _ => moves_bind moves_continues fun _ => ?_
  exact moves_ite (moves_bind hlater fun _ => moves_pure) moves_pure

mutual

theorem moves_valueWithin (bound : Nat) : Moves 0 0 (valueWithin s bound) := by
  match bound with
  | 0 => exact moves_failAt
  | bound + 1 =>
      refine moves_bind moves_current fun t? => ?_
      cases t? with
      | none => exact moves_failAt
      | some t =>
          refine moves_ite (moves_objectWithin bound) (moves_ite (moves_arrayWithin bound) ?_)
          exact moves_bind moves_take fun _ => moves_scalar

theorem moves_objectWithin (bound : Nat) : Moves 0 0 (objectWithin s bound) := by
  match bound with
  | 0 => exact moves_failAt
  | bound + 1 => exact moves_brackets (moves_membersWithin bound)

theorem moves_membersWithin (bound : Nat) : Moves 0 0 (membersWithin s bound) := by
  match bound with
  | 0 => exact moves_failAt
  | bound + 1 =>
      rw [membersWithin_succ]
      refine moves_items ?_ (moves_membersWithin bound)
      refine moves_bind moves_key fun _ => moves_bind moves_expect fun _ => ?_
      exact moves_bind (moves_valueWithin bound) fun _ => moves_pure

theorem moves_arrayWithin (bound : Nat) : Moves 0 0 (arrayWithin s bound) := by
  match bound with
  | 0 => exact moves_failAt
  | bound + 1 => exact moves_brackets (moves_elementsWithin bound)

theorem moves_elementsWithin (bound : Nat) : Moves 0 0 (elementsWithin s bound) := by
  match bound with
  | 0 => exact moves_failAt
  | bound + 1 => exact moves_items (moves_valueWithin bound) (moves_elementsWithin bound)

end

/-- The bound is taken from the state that a reading starts from. -/
theorem run_get_bind {f : Progress → Reading α} :
    ((get : Reading Progress) >>= f).run p = (f p).run p := run_bind_of_ok rfl

theorem yields_get_bind {f : Progress → Reading α} {r : α} :
    Yields ((get : Reading Progress) >>= f) p r q ↔ Yields (f p) p r q := by
  rw [Yields, Yields, run_get_bind]

theorem moves_shape (shape : Shape) : Moves 0 0 (shape.reading s) := by
  intro p
  cases shape with
  | value =>
      rw [Shape.reading, value, run_get_bind]
      exact moves_valueWithin _ p
  | object =>
      rw [Shape.reading, object, run_get_bind]
      exact moves_objectWithin _ p
  | array =>
      rw [Shape.reading, array, run_get_bind]
      exact moves_arrayWithin _ p

/-! ## Nodes -/

variable {node : Node} {bound : Nat}

theorem run_valueWithin_leftBrace (h : p.nextKind = some .leftBrace) :
    (valueWithin s (bound + 1)).run p = (objectWithin s bound).run p := by
  obtain ⟨t, hhead, hkind⟩ := Option.map_eq_some_iff.mp h
  have hcurrent : current.run p = .ok (some t) p := hhead ▸ rfl
  rw [valueWithin, run_bind_of_ok hcurrent]
  simp only [if_pos hkind]

theorem run_valueWithin_leftBracket (h : p.nextKind = some .leftBracket) :
    (valueWithin s (bound + 1)).run p = (arrayWithin s bound).run p := by
  obtain ⟨t, hhead, hkind⟩ := Option.map_eq_some_iff.mp h
  have hcurrent : current.run p = .ok (some t) p := hhead ▸ rfl
  have hbrace : t.kind ≠ .leftBrace := by simp [hkind]
  rw [valueWithin, run_bind_of_ok hcurrent]
  simp only [if_neg hbrace, if_pos hkind]

/-- A value is read within any bound that is large enough. -/
theorem yields_valueWithin_of_value (h : Yields (value s) p node q)
    (hbound : boundFor p.rest.length ≤ bound) : Yields (valueWithin s bound) p node q := by
  obtain ⟨v, rfl, hv, hfits⟩ := yields_value_iff.mp h
  refine valueWithin_of_value v ?_ hv hfits
  rw [boundFor, hv.1, List.length_append] at hbound
  omega

theorem nextKind_of_brackets {opening closing : Token.Kind} {what what' : String}
    {inner : Reading α} {wrap : Extent → α → Node}
    (h : Yields (do
      let first ← expect s opening what
      enter s
      let items ← inner
      let last ← expect s closing what'
      leave
      return wrap (first.extent.join last.extent) items) p node q) :
    p.nextKind = some opening := by
  obtain ⟨first, -, -, m, -, -, hopen, -⟩ := yields_brackets.mp h
  rw [hopen.nextKind_eq, first.property]

/-- A reading that values with an opening bracket are handed to reads exactly these values. -/
theorem yields_within_iff {opening : Token.Kind} {x : Reading Node}
    (hopens : Yields x p node q → p.nextKind = some opening)
    (hvalue : Yields x p node q →
      ∃ v : ValueIn s, v.node = node ∧ Consumes v.tokens p q ∧ Fits s p.depth v.nesting)
    (hrun : p.nextKind = some opening →
      (valueWithin s (boundFor p.rest.length + 1)).run p = x.run p) :
    Yields x p node q ↔ p.nextKind = some opening ∧ Yields (value s) p node q := by
  constructor
  · intro h
    exact ⟨hopens h, yields_value_iff.mpr (hvalue h)⟩
  · rintro ⟨hnext, h⟩
    have hwithin := yields_valueWithin_of_value h (Nat.le_succ _)
    rwa [Yields, hrun hnext] at hwithin

/-- An object is a value that starts with a brace. -/
theorem yields_object_iff :
    Yields (object s) p node q ↔ p.nextKind = some .leftBrace ∧ Yields (value s) p node q := by
  rw [object, yields_get_bind]
  refine yields_within_iff (fun h => ?_) (exists_value_of_objectWithin _) run_valueWithin_leftBrace
  rw [boundFor, objectWithin] at h
  exact nextKind_of_brackets h

/-- An array is a value that starts with a bracket. -/
theorem yields_array_iff :
    Yields (array s) p node q ↔ p.nextKind = some .leftBracket ∧ Yields (value s) p node q := by
  rw [array, yields_get_bind]
  refine yields_within_iff (fun h => ?_) (exists_value_of_arrayWithin _) run_valueWithin_leftBracket
  rw [boundFor, arrayWithin] at h
  exact nextKind_of_brackets h

/-- The token that a node has to start with. -/
def Shape.opening? : Shape → Option Token.Kind
  | .value => none
  | .object => some .leftBrace
  | .array => some .leftBracket

theorem yields_shape_iff {shape : Shape} :
    Yields (shape.reading s) p node q ↔
      (∀ kind, shape.opening? = some kind → p.nextKind = some kind) ∧
        Yields (value s) p node q := by
  cases shape with
  | value => simp [Shape.reading, Shape.opening?]
  | object => simp [Shape.reading, Shape.opening?, yields_object_iff]
  | array => simp [Shape.reading, Shape.opening?, yields_array_iff]

/-- The tokens that were taken are read in the same way wherever they stand. -/
theorem exists_consumed_of_shape {shape : Shape} (h : Yields (shape.reading s) p node q) :
    ∃ consumed, 0 < consumed.length ∧ Consumes consumed p q ∧
      ∀ (s' : Setting) (p' q' : Progress), s'.profile = s.profile → p'.depth = p.depth →
        Consumes consumed p' q' → Yields (shape.reading s') p' node q' := by
  obtain ⟨hopening, hvalue⟩ := yields_shape_iff.mp h
  obtain ⟨v, rfl, hv, hfits⟩ := yields_value_iff.mp hvalue
  refine ⟨v.tokens, v.length_tokens_pos, hv, ?_⟩
  rintro ⟨profile, stop⟩ p' q' rfl hdepth hv'
  obtain ⟨t, rest, htokens, -⟩ := v.exists_tokens_eq_cons
  have hnext : p'.nextKind = p.nextKind := by
    rw [htokens] at hv hv'
    rw [hv.nextKind_eq, hv'.nextKind_eq]
  refine yields_shape_iff.mpr ⟨fun kind hkind => hnext.trans (hopening kind hkind), ?_⟩
  exact yields_value_iff.mpr ⟨v, rfl, hv', hdepth ▸ hfits⟩

/-! ## Documents -/

variable {text : Text} {tokens : List Token}

/-- The depth is not looked at. -/
theorem run_document_reset (p : Progress) :
    (document s text tokens).run p = (document s text tokens).run ⟨p.taken, p.rest, 0⟩ := rfl

theorem run_document_of_fault {fault : Fault}
    (h : (value s).run { p with depth := 0 } = .error fault q) :
    (document s text tokens).run p = .error fault q := by
  have hreset : (modify fun p => { p with depth := 0 } : Reading Unit).run p =
      .ok () { p with depth := 0 } := rfl
  rw [document, run_bind_of_ok hreset, run_bind_of_error h]

theorem run_document_of_yields {body : Node} (h : Yields (value s) { p with depth := 0 } body q) :
    (document s text tokens).run p =
      match q.rest with
      | [] => .ok ⟨⟨⟨0, text.length⟩, ⟨.origin, s.stop⟩⟩, body, tokens⟩ q
      | t :: _ => .error (.complaint (.malformed (.extraToken t.text) t.start)) q := by
  have hreset : (modify fun p => { p with depth := 0 } : Reading Unit).run p =
      .ok () { p with depth := 0 } := rfl
  rw [document, run_bind_of_ok hreset, run_bind_of_ok h]
  obtain ⟨taken, rest, depth⟩ := q
  cases rest <;> rfl

/-! ## Histories -/

theorem Moves.along {x : Reading α} (h : Moves 0 0 x) (p : Progress) : Along p (x.endState p) := by
  have hmoves := h p p.depth rfl
  unfold Reading.endState
  split at hmoves
  · exact hmoves.1
  · exact hmoves.1

theorem along_document : Along p ((document s text tokens).endState p) := by
  -- only the depth is reset, so what is taken is what the value takes
  have hvalue : Along p ((value s).endState { p with depth := 0 }) :=
    (moves_shape .value).along { p with depth := 0 }
  unfold Reading.endState at hvalue ⊢
  cases hrun : (value s).run { p with depth := 0 } with
  | error fault q =>
      rw [hrun] at hvalue
      rw [run_document_of_fault hrun]
      exact hvalue
  | ok body q =>
      rw [hrun] at hvalue
      rw [run_document_of_yields hrun]
      obtain ⟨taken, rest, depth⟩ := q
      cases rest with
      | nil => exact hvalue
      | cons t rest => exact hvalue

namespace Reader

variable {r : Reader}

theorem along_perform (p : Progress) (op : Operation) : Along p (r.perform p op) := by
  cases op with
  | current => exact moves_current.along p
  | take => exact moves_take.along p
  | expect kind what => exact moves_expect.along p
  | node shape => exact (moves_shape shape).along p
  | document => exact along_document

theorem along_foldl (p : Progress) (ops : List Operation) : Along p (ops.foldl r.perform p) := by
  induction ops generalizing p with
  | nil => exact .refl p
  | cons op ops ih => exact (along_perform p op).trans (ih (r.perform p op))

/-- What has been taken says what is left. -/
theorem rest_after (r : Reader) (ops : List Operation) :
    (r.after ops).taken ≤ r.code.length ∧ (r.after ops).rest = r.code.drop (r.after ops).taken := by
  obtain ⟨ts, hrest, htaken⟩ := along_foldl (r := r) (start r.tokens) ops
  have hcode : r.code = ts ++ (r.after ops).rest := hrest
  have hcount : (r.after ops).taken = ts.length := htaken.trans (Nat.zero_add _)
  rw [hcount, hcode]
  exact ⟨by simp, List.drop_left.symm⟩

/-- What can be relied on in a state of a reader, whatever was asked of it before. -/
structure Orderly (r : Reader) (p : Progress) : Prop where
  taken_le : p.taken ≤ r.code.length
  rest_eq : p.rest = r.code.drop p.taken
  /-- No operation gives tokens back. -/
  taken_le_perform : ∀ op, p.taken ≤ (r.perform p op).taken
  /-- A node that is read leaves the depth as it was, takes tokens, and comes out the same wherever
  these stand at the same depth, whatever stands behind them. -/
  of_yields : ∀ (shape : Shape) (node : Node) (q : Progress),
    Yields (shape.reading r.setting) p node q →
      q.depth = p.depth ∧ p.taken < q.taken ∧ ∃ consumed, Consumes consumed p q ∧
        ∀ (r' : Reader) (p' : Progress) (behind : List Token), r'.profile = r.profile →
          p'.depth = p.depth → p'.rest = consumed ++ behind →
          Yields (shape.reading r'.setting) p' node
            ⟨p'.taken + consumed.length, behind, p.depth⟩
  /-- A fault leaves no fewer brackets open. -/
  of_fault : ∀ (shape : Shape) (fault : Fault) (q : Progress),
    (shape.reading r.setting).run p = .error fault q → p.depth ≤ q.depth
  /-- A document is a value from depth zero with nothing behind it. -/
  document_of_yields : ∀ (body : Node) (q : Progress),
    Yields (value r.setting) { p with depth := 0 } body q →
      q.depth = 0 ∧ (document r.setting r.text r.tokens).run p =
        match q.rest with
        | [] => .ok ⟨⟨⟨0, r.text.length⟩, ⟨.origin, r.setting.stop⟩⟩, body, r.tokens⟩ q
        | t :: _ => .error (.complaint (.malformed (.extraToken t.text) t.start)) q
  document_of_fault : ∀ (fault : Fault) (q : Progress),
    (value r.setting).run { p with depth := 0 } = .error fault q →
      (document r.setting r.text r.tokens).run p = .error fault q

theorem orderly_of_rest (htaken : p.taken ≤ r.code.length) (hrest : p.rest = r.code.drop p.taken) :
    r.Orderly p where
  taken_le := htaken
  rest_eq := hrest
  taken_le_perform op := by
    obtain ⟨ts, -, hcount⟩ := along_perform (r := r) p op
    omega
  of_yields shape node q h := by
    obtain ⟨consumed, hlength, hconsumed, hanywhere⟩ := exists_consumed_of_shape h
    have hcount := hconsumed.2.1
    refine ⟨hconsumed.2.2, by omega, consumed, hconsumed, ?_⟩
    intro r' p' behind hprofile hdepth hrest
    exact hanywhere r'.setting p' _ hprofile hdepth ⟨hrest, rfl, hdepth.symm⟩
  of_fault shape fault q h := by
    have hmoves := moves_shape (s := r.setting) shape p p.depth rfl
    rw [h] at hmoves
    exact hmoves.2
  document_of_yields body q h := by
    obtain ⟨v, -, ⟨-, -, hdepth⟩, -⟩ := yields_value_iff.mp h
    exact ⟨hdepth, run_document_of_yields h⟩
  document_of_fault fault q h := run_document_of_fault h

/-- After any operations, whether they gave results or faults, the reader is in order; the count of
tokens never goes back; and a document that is asked for next depends on that count alone. -/
theorem orderly_after (r : Reader) (ops : List Operation) :
    r.Orderly (r.after ops) ∧
    (∀ more, (r.after ops).taken ≤ (r.after (ops ++ more)).taken) ∧
    ∀ others, (r.after others).taken = (r.after ops).taken →
      (document r.setting r.text r.tokens).run (r.after others) =
        (document r.setting r.text r.tokens).run (r.after ops) := by
  obtain ⟨htaken, hrest⟩ := r.rest_after ops
  refine ⟨orderly_of_rest htaken hrest, fun more => ?_, fun others hsame => ?_⟩
  · have happend : r.after (ops ++ more) = more.foldl r.perform (r.after ops) := List.foldl_append
    obtain ⟨ts, -, hcount⟩ := along_foldl (r := r) (r.after ops) more
    rw [happend]
    omega
  · have hleft : (r.after others).rest = (r.after ops).rest := by
      rw [(r.rest_after others).2, hrest, hsame]
    rw [run_document_reset (r.after others), run_document_reset (r.after ops), hsame, hleft]

/-- Two faults, a bracket left open by each of them, and a document read after all. -/
theorem orderly_after_faults :
    let token (kind : Token.Kind) (text : String) : Token :=
      ⟨kind, text.toList, .between .origin .origin⟩
    let opening := token .leftBracket "["
    let closing := token .rightBracket "]"
    let r : Reader := ⟨⟨.json, { maxDepth := 1 }, false⟩, "[null:[][]".toList,
      [opening, token .null "null", token .colon ":", opening, closing, opening, closing]⟩
    let p := r.after [.node .array, .take, .node .value, .take]
    p = ⟨5, [opening, closing], 2⟩ ∧
      (∃ fault q, (array r.setting).run p = .error fault q ∧ 2 ≤ q.depth) ∧
      ∃ doc q, Yields (document r.setting r.text r.tokens) p doc q ∧ q.taken = 7 ∧ q.depth = 0 := by
  intro token opening closing r p
  have hstate : p = ⟨5, [opening, closing], 2⟩ := by decide +kernel
  have horderly : r.Orderly p := (r.orderly_after [.node .array, .take, .node .value, .take]).1
  have hfault : (array r.setting).run p =
      .error (.complaint (.exceeded (.depth 3 1))) ⟨6, [closing], 3⟩ := by
    rw [hstate]
    rfl
  have hvalue : Yields (value r.setting) { p with depth := 0 }
      (.array (opening.extent.join closing.extent) []) ⟨7, [], 0⟩ := by
    rw [hstate]
    rfl
  obtain ⟨hdepth, hdocument⟩ := horderly.document_of_yields _ _ hvalue
  refine ⟨hstate, ⟨_, _, hfault, ?_⟩, _, _, hdocument, rfl, hdepth⟩
  have hkept := horderly.of_fault .array _ _ hfault
  rwa [hstate] at hkept

end Reader

end LocatedJson.Parse
