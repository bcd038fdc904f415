import LocatedJson.Parse

/-!
# The grammar of code tokens

A derivation is a tree whose leaves are tokens. Read from left to right
the leaves are the sentence (`Value.tokens`), and the tree that a document
keeps is computed from the derivation (`Value.node`): brackets, colons and
commas only show in the derivation. `Value.nesting` counts how many
brackets are open at once.

    value    = scalar | '{' [members] '}' | '[' [elements] ']'
    members  = member trailer | member ',' members
    member   = name ':' value
    elements = value trailer | value ',' elements
    trailer  = [',']

The comma of a trailer is only there when a comma may stand before a
closing bracket.

A sentence has at most one derivation (`Value.eq_of_tokens_append`): the
first token of a value says which production it is, and after an item the
next two tokens say how its list goes on.
-/

namespace LocatedJson.Grammar

open LocatedJson.Text

/-! ## Terminals -/

abbrev Terminal (kind : Token.Kind) := { t : Token // t.kind = kind }

/-- The tokens that are values by themselves, with the node of each. A string
has to decode and a number has to convert. -/
inductive Scalar (d : Dialect) : Token → Node → Prop
  | string {t : Token} {points : List CodePoint} (kind : t.kind = .string)
      (decodes : StringBody.decode d (slice t.text 1 (-1)) = .ok points) :
      Scalar d t (.string t.extent points)
  | number {t : Token} {n : Number} (kind : t.kind = .number)
      (converts : Numeral.literalValue t.text = .ok n) : Scalar d t (.number t.extent n)
  | boolean {t : Token} (kind : t.kind = .boolean) :
      Scalar d t (.boolean t.extent (t.text = ['t', 'r', 'u', 'e']))
  | null {t : Token} (kind : t.kind = .null) : Scalar d t (.null t.extent)
  | nan {t : Token} (kind : t.kind = .nan) : Scalar d t (.nan t.extent (sliceTo t.text (-3)))
  | infinity {t : Token} (kind : t.kind = .infinity) :
      Scalar d t (.infinity t.extent (sliceTo t.text (-8)))

/-- The tokens that name members, with the key of each: strings, and in json5
also words of every kind. -/
inductive Name (d : Dialect) : Token → Key → Prop
  | quoted {t : Token} {points : List CodePoint} (kind : t.kind = .string)
      (decodes : StringBody.decode d (slice t.text 1 (-1)) = .ok points) :
      Name d t (.quoted t.extent points)
  | bare {t : Token} (json5 : d = .json5)
      (kind : t.kind ∈ [.identifier, .nan, .infinity, .boolean, .null]) :
      Name d t (.bare t.extent t.text)

/-- Whether tokens of the kind are brackets, colons or commas. -/
def isMark : Token.Kind → Bool
  | .leftBrace | .rightBrace | .leftBracket | .rightBracket | .colon | .comma => true
  | _ => false

/-! ## Derivations -/

/-- What may stand between the last item of a list and the closing bracket. -/
inductive Trailer (trailing : Bool) where
  | none
  | comma (t : Terminal .comma) (allowed : trailing = true)

mutual

inductive Value (d : Dialect) (trailing : Bool) where
  | scalar (t : Token) (node : Node) (is : Scalar d t node)
  | emptyObject (opening : Terminal .leftBrace) (closing : Terminal .rightBrace)
  | object (opening : Terminal .leftBrace) (members : Members d trailing)
      (closing : Terminal .rightBrace)
  | emptyArray (opening : Terminal .leftBracket) (closing : Terminal .rightBracket)
  | array (opening : Terminal .leftBracket) (elements : Elements d trailing)
      (closing : Terminal .rightBracket)

inductive Members (d : Dialect) (trailing : Bool) where
  | last (t : Token) (key : Key) (is : Name d t key) (colon : Terminal .colon)
      (value : Value d trailing) (trailer : Trailer trailing)
  | more (t : Token) (key : Key) (is : Name d t key) (colon : Terminal .colon)
      (value : Value d trailing) (comma : Terminal .comma) (rest : Members d trailing)

inductive Elements (d : Dialect) (trailing : Bool) where
  | last (value : Value d trailing) (trailer : Trailer trailing)
  | more (value : Value d trailing) (comma : Terminal .comma) (rest : Elements d trailing)

end

variable {d : Dialect} {trailing : Bool}

def Trailer.tokens : Trailer trailing → List Token
  | .none => []
  | .comma t _ => [t.val]

mutual

/-- The tokens of a derivation, from left to right. -/
def Value.tokens : Value d trailing → List Token
  | .scalar t _ _ => [t]
  | .emptyObject opening closing => [opening.val, closing.val]
  | .object opening members closing => opening.val :: members.tokens ++ [closing.val]
  | .emptyArray opening closing => [opening.val, closing.val]
  | .array opening elements closing => opening.val :: elements.tokens ++ [closing.val]

def Members.tokens : Members d trailing → List Token
  | .last t _ _ colon value trailer => t :: colon.val :: value.tokens ++ trailer.tokens
  | .more t _ _ colon value comma rest =>
    t :: colon.val :: value.tokens ++ comma.val :: rest.tokens

def Elements.tokens : Elements d trailing → List Token
  | .last value trailer => value.tokens ++ trailer.tokens
  | .more value comma rest => value.tokens ++ comma.val :: rest.tokens

end

mutual

/-- The node that a derivation stands for. -/
def Value.node : Value d trailing → Node
  | .scalar _ node _ => node
  | .emptyObject opening closing => .object (opening.val.extent.join closing.val.extent) []
  | .object opening members closing =>
    .object (opening.val.extent.join closing.val.extent) members.pairs
  | .emptyArray opening closing => .array (opening.val.extent.join closing.val.extent) []
  | .array opening elements closing =>
    .array (opening.val.extent.join closing.val.extent) elements.nodes

/-- The members that a derivation stands for, in the order of the tokens. -/
def Members.pairs : Members d trailing → List (Key × Node)
  | .last _ key _ _ value _ => [(key, value.node)]
  | .more _ key _ _ value _ rest => (key, value.node) :: rest.pairs

/-- The elements that a derivation stands for, in the order of the tokens. -/
def Elements.nodes : Elements d trailing → List Node
  | .last value _ => [value.node]
  | .more value _ rest => value.node :: rest.nodes

end

mutual

/-- The most brackets of a derivation that are open at once. -/
def Value.nesting : Value d trailing → Nat
  | .scalar _ _ _ => 0
  | .emptyObject _ _ => 1
  | .object _ members _ => members.nesting + 1
  | .emptyArray _ _ => 1
  | .array _ elements _ => elements.nesting + 1

/-- The most brackets of the values of members that are open at once. -/
def Members.nesting : Members d trailing → Nat
  | .last _ _ _ _ value _ => value.nesting
  | .more _ _ _ _ value _ rest => max value.nesting rest.nesting

def Elements.nesting : Elements d trailing → Nat
  | .last value _ => value.nesting
  | .more value _ rest => max value.nesting rest.nesting

end

theorem Value.length_tokens_pos (v : Value d trailing) : 0 < v.tokens.length := by
  cases v <;> simp [Value.tokens]

/-! ## The tokens of a derivation -/

/-- What a token is in a derivation: a bracket, colon or comma, a value by itself, or the name of a
member. -/
inductive Role (d : Dialect) (t : Token) : Prop
  | mark (h : isMark t.kind = true)
  | scalar {node : Node} (is : Scalar d t node)
  | name {key : Key} (is : Name d t key)

theorem Terminal.role {kind : Token.Kind} (t : Terminal kind) (h : isMark kind = true) :
    Role d t.val :=
  .mark (by rw [t.property, h])

theorem Trailer.role_of_mem {t : Token} : (trailer : Trailer trailing) → t ∈ trailer.tokens →
    Role d t
  | .comma t' _, h => by
      obtain rfl : t = t'.val := by simpa [Trailer.tokens] using h
      exact Terminal.role t' rfl

mutual

theorem Value.role_of_mem {t : Token} (v : Value d trailing) (h : t ∈ v.tokens) : Role d t := by
  match v with
  | .scalar t' node is =>
      obtain rfl : t = t' := by simpa [Value.tokens] using h
      exact .scalar is
  | .emptyObject opening closing =>
      obtain rfl | rfl : t = opening.val ∨ t = closing.val := by simpa [Value.tokens] using h
      · exact Terminal.role opening rfl
      · exact Terminal.role closing rfl
  | .object opening members closing =>
      obtain rfl | h | rfl : t = opening.val ∨ t ∈ members.tokens ∨ t = closing.val := by
        simpa [Value.tokens] using h
      · exact Terminal.role opening rfl
      · exact members.role_of_mem h
      · exact Terminal.role closing rfl
  | .emptyArray opening closing =>
      obtain rfl | rfl : t = opening.val ∨ t = closing.val := by simpa [Value.tokens] using h
      · exact Terminal.role opening rfl
      · exact Terminal.role closing rfl
  | .array opening elements closing =>
      obtain rfl | h | rfl : t = opening.val ∨ t ∈ elements.tokens ∨ t = closing.val := by
        simpa [Value.tokens] using h
      · exact Terminal.role opening rfl
      · exact elements.role_of_mem h
      · exact Terminal.role closing rfl

theorem Members.role_of_mem {t : Token} (m : Members d trailing) (h : t ∈ m.tokens) :
    Role d t := by
  match m with
  | .last t' key is colon value trailer =>
      obtain rfl | rfl | h | h : t = t' ∨ t = colon.val ∨ t ∈ value.tokens ∨
          t ∈ trailer.tokens := by
        simpa [Members.tokens] using h
      · exact .name is
      · exact Terminal.role colon rfl
      · exact value.role_of_mem h
      · exact trailer.role_of_mem h
  | .more t' key is colon value comma rest =>
      obtain rfl | rfl | h | rfl | h : t = t' ∨ t = colon.val ∨ t ∈ value.tokens ∨
          t = comma.val ∨ t ∈ rest.tokens := by
        simpa [Members.tokens] using h
      · exact .name is
      · exact Terminal.role colon rfl
      · exact value.role_of_mem h
      · exact Terminal.role comma rfl
      · exact rest.role_of_mem h

theorem Elements.role_of_mem {t : Token} (e : Elements d trailing) (h : t ∈ e.tokens) :
    Role d t := by
  match e with
  | .last value trailer =>
      obtain h | h : t ∈ value.tokens ∨ t ∈ trailer.tokens := by simpa [Elements.tokens] using h
      · exact value.role_of_mem h
      · exact trailer.role_of_mem h
  | .more value comma rest =>
      obtain h | rfl | h : t ∈ value.tokens ∨ t = comma.val ∨ t ∈ rest.tokens := by
        simpa [Elements.tokens] using h
      · exact value.role_of_mem h
      · exact Terminal.role comma rfl
      · exact rest.role_of_mem h

end

theorem isCode_of_isMark {t : Token} (h : isMark t.kind = true) : t.isCode = true := by
  cases t with
  | mk kind text extent => cases kind <;> first | rfl | cases h

theorem Scalar.isCode {t : Token} {node : Node} (h : Scalar d t node) : t.isCode = true := by
  cases h <;> simp_all [Token.isCode, Token.isComment, Token.Kind.isComment]

theorem Name.isCode {t : Token} {key : Key} (h : Name d t key) : t.isCode = true := by
  cases h with
  | quoted kind decodes => simp [Token.isCode, Token.isComment, Token.Kind.isComment, kind]
  | bare json5 kind =>
      simp only [List.mem_cons, List.not_mem_nil, or_false] at kind
      rcases kind with kind | kind | kind | kind | kind <;>
        simp [Token.isCode, Token.isComment, Token.Kind.isComment, kind]

/-- All tokens of a derivation are code. -/
theorem Value.isCode_of_mem {t : Token} (v : Value d trailing) (h : t ∈ v.tokens) :
    t.isCode = true := by
  cases v.role_of_mem h with
  | mark h => exact isCode_of_isMark h
  | scalar is => exact is.isCode
  | name is => exact is.isCode

theorem Value.filter_isCode_tokens (v : Value d trailing) :
    v.tokens.filter Token.isCode = v.tokens :=
  List.filter_eq_self.mpr fun _ => v.isCode_of_mem

/-! ## One derivation for a sentence -/

theorem Scalar.isMark_eq_false {t : Token} {node : Node} (h : Scalar d t node) :
    isMark t.kind = false := by
  cases h <;> simp_all [isMark]

theorem Name.isMark_eq_false {t : Token} {key : Key} (h : Name d t key) :
    isMark t.kind = false := by
  cases h with
  | quoted kind decodes => simp [kind, isMark]
  | bare json5 kind =>
      simp only [List.mem_cons, List.not_mem_nil, or_false] at kind
      rcases kind with kind | kind | kind | kind | kind <;> simp [kind, isMark]

theorem Scalar.node_unique {t : Token} {node node' : Node} (h : Scalar d t node)
    (h' : Scalar d t node') : node = node' := by
  cases h <;> cases h' <;> simp_all

theorem Name.key_unique {t : Token} {key key' : Key} (h : Name d t key)
    (h' : Name d t key') : key = key' := by
  cases h <;> cases h' <;> simp_all

/-- The bracket that a value opens with; scalars have none. -/
def Value.opening : Value d trailing → Option Token.Kind
  | .scalar _ _ _ => none
  | .emptyObject _ _ | .object _ _ _ => some .leftBrace
  | .emptyArray _ _ | .array _ _ _ => some .leftBracket

/-- The kind of a bracket, colon or comma. -/
def mark? (kind : Token.Kind) : Option Token.Kind := if isMark kind then some kind else none

/-- The first token of a value says how it opens. -/
theorem Value.exists_tokens_eq_cons (v : Value d trailing) :
    ∃ t rest, v.tokens = t :: rest ∧ mark? t.kind = v.opening := by
  cases v with
  | scalar t node is => exact ⟨t, [], rfl, by rw [mark?, is.isMark_eq_false]; rfl⟩
  | emptyObject opening closing => exact ⟨_, _, rfl, by rw [opening.property]; rfl⟩
  | object opening members closing => exact ⟨_, _, rfl, by rw [opening.property]; rfl⟩
  | emptyArray opening closing => exact ⟨_, _, rfl, by rw [opening.property]; rfl⟩
  | array opening elements closing => exact ⟨_, _, rfl, by rw [opening.property]; rfl⟩

theorem Value.opening_eq (v v' : Value d trailing) {rest rest' : List Token}
    (h : v.tokens ++ rest = v'.tokens ++ rest') : v.opening = v'.opening := by
  obtain ⟨t, ts, htokens, hopening⟩ := v.exists_tokens_eq_cons
  obtain ⟨t', ts', htokens', hopening'⟩ := v'.exists_tokens_eq_cons
  rw [htokens, htokens'] at h
  obtain rfl : t = t' := (List.cons.inj h).1
  rw [← hopening, hopening']

/-- No element starts with a closing bracket. -/
theorem Elements.exists_tokens_eq_cons (e : Elements d trailing) :
    ∃ t rest, e.tokens = t :: rest ∧ t.kind ≠ .rightBracket := by
  cases e with
  | last value trailer | more value comma rest =>
      obtain ⟨t, rest, h, hopening⟩ := value.exists_tokens_eq_cons
      refine ⟨t, _, by rw [Elements.tokens, h, List.cons_append], ?_⟩
      intro hkind
      rw [hkind] at hopening
      cases value <;> cases hopening

/-- No member starts with a closing brace. -/
theorem Members.exists_tokens_eq_cons (m : Members d trailing) :
    ∃ t rest, m.tokens = t :: rest ∧ t.kind ≠ .rightBrace := by
  cases m with
  | last t key is colon value trailer | more t key is colon value comma rest =>
      refine ⟨t, _, rfl, ?_⟩
      intro hkind
      have hname := is.isMark_eq_false
      rw [hkind] at hname
      cases hname

theorem Terminal.val_ne_of_kind {kind : Token.Kind} (t : Terminal kind) {t' : Token}
    (h : t'.kind ≠ kind) : t.val ≠ t' := by
  rintro rfl
  exact h t.property

/-- A closing bracket says whether a comma stands in front of it. -/
theorem Trailer.eq_of_tokens_append {closing : Token.Kind} (hclosing : closing ≠ .comma)
    {c c' : Terminal closing} {rest rest' : List Token} (trailer trailer' : Trailer trailing)
    (h : trailer.tokens ++ c.val :: rest = trailer'.tokens ++ c'.val :: rest') :
    trailer = trailer' ∧ c = c' ∧ rest = rest' := by
  cases trailer with
  | none =>
      cases trailer' with
      | none =>
          obtain ⟨hc, rfl⟩ := List.cons.inj h
          exact ⟨rfl, Subtype.ext hc, rfl⟩
      | comma t' allowed' =>
          refine absurd (List.cons.inj h).1 (c.val_ne_of_kind ?_)
          rw [t'.property]
          exact hclosing.symm
  | comma t allowed =>
      cases trailer' with
      | none =>
          refine absurd (List.cons.inj h).1 (t.val_ne_of_kind ?_)
          rw [c'.property]
          exact hclosing
      | comma t' allowed' =>
          obtain ⟨ht, h⟩ := List.cons.inj h
          obtain ⟨hc, rfl⟩ := List.cons.inj h
          obtain rfl := Subtype.ext ht
          exact ⟨rfl, Subtype.ext hc, rfl⟩

/-- What goes on behind a comma starts with no closing bracket, so it is not a trailer. -/
theorem Trailer.tokens_append_ne {closing : Token.Kind} (hclosing : closing ≠ .comma)
    (trailer : Trailer trailing) (c : Terminal closing) (comma : Terminal .comma)
    {t : Token} (hkind : t.kind ≠ closing) {rest ts : List Token} :
    trailer.tokens ++ c.val :: rest ≠ comma.val :: t :: ts := by
  intro h
  cases trailer with
  | none =>
      refine c.val_ne_of_kind ?_ (List.cons.inj h).1
      rw [comma.property]
      exact hclosing.symm
  | comma t' allowed =>
      obtain ⟨hc, -⟩ := List.cons.inj (List.cons.inj h).2
      exact c.val_ne_of_kind hkind hc

mutual

/-- Of two values at the front of one list of tokens, neither goes on where the
other ends: they are the same derivation. -/
theorem Value.eq_of_tokens_append : (v v' : Value d trailing) → {rest rest' : List Token} →
    v.tokens ++ rest = v'.tokens ++ rest' → v = v' ∧ rest = rest' := by
  intro v v' rest rest' h
  cases v with
  | scalar t node is =>
      cases v' with
      | scalar t' node' is' =>
          simp only [Value.tokens, List.cons_append, List.nil_append, List.cons.injEq] at h
          obtain ⟨rfl, rfl⟩ := h
          obtain rfl := is.node_unique is'
          exact ⟨rfl, rfl⟩
      | emptyObject o' c' | object o' members' c' | emptyArray o' c' | array o' elements' c' =>
          cases Value.opening_eq _ _ h
  | emptyObject o c =>
      cases v' with
      | emptyObject o' c' =>
          obtain ⟨ho, hc, rfl⟩ : o.val = o'.val ∧ c.val = c'.val ∧ rest = rest' := by
            simpa [Value.tokens] using h
          obtain rfl := Subtype.ext ho
          obtain rfl := Subtype.ext hc
          exact ⟨rfl, rfl⟩
      | object o' members' c' =>
          obtain ⟨t, _, htokens, hkind⟩ := members'.exists_tokens_eq_cons
          simp only [Value.tokens, htokens, List.cons_append, List.cons.injEq] at h
          exact absurd h.2.1 (c.val_ne_of_kind hkind)
      | scalar t' node' is' | emptyArray o' c' | array o' elements' c' =>
          cases Value.opening_eq _ _ h
  | object o members c =>
      cases v' with
      | emptyObject o' c' =>
          obtain ⟨t, _, htokens, hkind⟩ := members.exists_tokens_eq_cons
          simp only [Value.tokens, htokens, List.cons_append, List.cons.injEq] at h
          exact absurd h.2.1.symm (c'.val_ne_of_kind hkind)
      | object o' members' c' =>
          simp only [Value.tokens, List.cons_append, List.append_assoc, List.nil_append,
            List.cons.injEq] at h
          obtain ⟨ho, h⟩ := h
          obtain ⟨rfl, rfl, rfl⟩ := Members.eq_of_tokens_append members members' h
          obtain rfl := Subtype.ext ho
          exact ⟨rfl, rfl⟩
      | scalar t' node' is' | emptyArray o' c' | array o' elements' c' =>
          cases Value.opening_eq _ _ h
  | emptyArray o c =>
      cases v' with
      | emptyArray o' c' =>
          obtain ⟨ho, hc, rfl⟩ : o.val = o'.val ∧ c.val = c'.val ∧ rest = rest' := by
            simpa [Value.tokens] using h
          obtain rfl := Subtype.ext ho
          obtain rfl := Subtype.ext hc
          exact ⟨rfl, rfl⟩
      | array o' elements' c' =>
          obtain ⟨t, _, htokens, hkind⟩ := elements'.exists_tokens_eq_cons
          simp only [Value.tokens, htokens, List.cons_append, List.cons.injEq] at h
          exact absurd h.2.1 (c.val_ne_of_kind hkind)
      | scalar t' node' is' | emptyObject o' c' | object o' members' c' =>
          cases Value.opening_eq _ _ h
  | array o elements c =>
      cases v' with
      | emptyArray o' c' =>
          obtain ⟨t, _, htokens, hkind⟩ := elements.exists_tokens_eq_cons
          simp only [Value.tokens, htokens, List.cons_append, List.cons.injEq] at h
          exact absurd h.2.1.symm (c'.val_ne_of_kind hkind)
      | array o' elements' c' =>
          simp only [Value.tokens, List.cons_append, List.append_assoc, List.nil_append,
            List.cons.injEq] at h
          obtain ⟨ho, h⟩ := h
          obtain ⟨rfl, rfl, rfl⟩ := Elements.eq_of_tokens_append elements elements' h
          obtain rfl := Subtype.ext ho
          exact ⟨rfl, rfl⟩
      | scalar t' node' is' | emptyObject o' c' | object o' members' c' =>
          cases Value.opening_eq _ _ h

/-- Members up to a closing brace are one derivation: after a value the next
token is a comma or the brace, and after the comma only a name goes on. -/
theorem Members.eq_of_tokens_append : (m m' : Members d trailing) →
    {c c' : Terminal .rightBrace} → {rest rest' : List Token} →
    m.tokens ++ c.val :: rest = m'.tokens ++ c'.val :: rest' →
    m = m' ∧ c = c' ∧ rest = rest' := by
  intro m m' c c' rest rest' h
  cases m with
  | last t key is colon value trailer =>
      cases m' with
      | last t' key' is' colon' value' trailer' =>
          simp only [Members.tokens, List.cons_append, List.append_assoc, List.cons.injEq] at h
          obtain ⟨rfl, hcolon, h⟩ := h
          obtain ⟨rfl, hend⟩ := Value.eq_of_tokens_append value value' h
          obtain rfl := is.key_unique is'
          obtain rfl := Subtype.ext hcolon
          obtain ⟨rfl, rfl, rfl⟩ := Trailer.eq_of_tokens_append (by decide) trailer trailer' hend
          exact ⟨rfl, rfl, rfl⟩
      | more t' key' is' colon' value' comma' tail' =>
          simp only [Members.tokens, List.cons_append, List.append_assoc, List.cons.injEq] at h
          obtain ⟨-, -, h⟩ := h
          obtain ⟨-, hend⟩ := Value.eq_of_tokens_append value value' h
          obtain ⟨t, _, htokens, hkind⟩ := tail'.exists_tokens_eq_cons
          rw [htokens] at hend
          exact absurd hend (trailer.tokens_append_ne (by decide) c comma' hkind)
  | more t key is colon value comma tail =>
      cases m' with
      | last t' key' is' colon' value' trailer' =>
          simp only [Members.tokens, List.cons_append, List.append_assoc, List.cons.injEq] at h
          obtain ⟨-, -, h⟩ := h
          obtain ⟨-, hend⟩ := Value.eq_of_tokens_append value value' h
          obtain ⟨t, _, htokens, hkind⟩ := tail.exists_tokens_eq_cons
          rw [htokens] at hend
          exact absurd hend.symm (trailer'.tokens_append_ne (by decide) c' comma hkind)
      | more t' key' is' colon' value' comma' tail' =>
          simp only [Members.tokens, List.cons_append, List.append_assoc, List.cons.injEq] at h
          obtain ⟨rfl, hcolon, h⟩ := h
          obtain ⟨rfl, hrest⟩ := Value.eq_of_tokens_append value value' h
          obtain ⟨hcomma, htail⟩ := List.cons.inj hrest
          obtain ⟨rfl, rfl, rfl⟩ := Members.eq_of_tokens_append tail tail' htail
          obtain rfl := is.key_unique is'
          obtain rfl := Subtype.ext hcolon
          obtain rfl := Subtype.ext hcomma
          exact ⟨rfl, rfl, rfl⟩

/-- Elements up to a closing bracket are one derivation. -/
theorem Elements.eq_of_tokens_append : (e e' : Elements d trailing) →
    {c c' : Terminal .rightBracket} → {rest rest' : List Token} →
    e.tokens ++ c.val :: rest = e'.tokens ++ c'.val :: rest' →
    e = e' ∧ c = c' ∧ rest = rest' := by
  intro e e' c c' rest rest' h
  cases e with
  | last value trailer =>
      cases e' with
      | last value' trailer' =>
          simp only [Elements.tokens, List.append_assoc] at h
          obtain ⟨rfl, hend⟩ := Value.eq_of_tokens_append value value' h
          obtain ⟨rfl, rfl, rfl⟩ := Trailer.eq_of_tokens_append (by decide) trailer trailer' hend
          exact ⟨rfl, rfl, rfl⟩
      | more value' comma' tail' =>
          simp only [Elements.tokens, List.append_assoc, List.cons_append] at h
          obtain ⟨-, hend⟩ := Value.eq_of_tokens_append value value' h
          obtain ⟨t, _, htokens, hkind⟩ := tail'.exists_tokens_eq_cons
          rw [htokens] at hend
          exact absurd hend (trailer.tokens_append_ne (by decide) c comma' hkind)
  | more value comma tail =>
      cases e' with
      | last value' trailer' =>
          simp only [Elements.tokens, List.append_assoc, List.cons_append] at h
          obtain ⟨-, hend⟩ := Value.eq_of_tokens_append value value' h
          obtain ⟨t, _, htokens, hkind⟩ := tail.exists_tokens_eq_cons
          rw [htokens] at hend
          exact absurd hend.symm (trailer'.tokens_append_ne (by decide) c' comma hkind)
      | more value' comma' tail' =>
          simp only [Elements.tokens, List.append_assoc, List.cons_append] at h
          obtain ⟨rfl, hrest⟩ := Value.eq_of_tokens_append value value' h
          obtain ⟨hcomma, htail⟩ := List.cons.inj hrest
          obtain ⟨rfl, rfl, rfl⟩ := Elements.eq_of_tokens_append tail tail' htail
          obtain rfl := Subtype.ext hcomma
          exact ⟨rfl, rfl, rfl⟩

end

end LocatedJson.Grammar
