import LocatedJson.Parse

/-!
# The faults of a reading

A reading fails for a few reasons only: it complains about a token that it has
come to or about the end of the text, it exceeds the depth, or a string or a
number has no value. `Allows` lists these reasons for tokens with some
property, and `Reports fair allowed x post` says of a reading that from such
tokens it ends with a fault of the list or with a result. The property
composes, so it follows the reading through its steps, and through the descent
by induction on the bound (`reports_document`).

What the faults are is left open here. A theorem about the faults of a text
chooses the property of the tokens and the list, and has only the five reasons
to look at.
-/

namespace LocatedJson.Parse

open LocatedJson.Text

variable {α β : Type} {fair : Token → Prop} {allowed : Fault → Prop}

/-- All tokens that are left have the property. -/
def Fair (fair : Token → Prop) (p : Progress) : Prop := ∀ t ∈ p.rest, fair t

/-- The reading fails with a fault of the list only, and a result has a property. -/
def Reports (fair : Token → Prop) (allowed : Fault → Prop) (x : Reading α) (post : α → Prop) :
    Prop :=
  ∀ p, Fair fair p →
    match x.run p with
    | .ok a q => Fair fair q ∧ post a
    | .error fault _ => allowed fault

/-- The reasons for which a reading of tokens with the property fails. -/
structure Allows (s : Setting) (fair : Token → Prop) (allowed : Fault → Prop) : Prop where
  atEnd : ∀ cause, allowed (.complaint (.malformed cause s.stop))
  atToken : ∀ cause t, fair t → allowed (.complaint (.malformed cause t.start))
  tooDeep : ∀ excess, allowed (.complaint (.exceeded excess))
  string : ∀ t, fair t → t.kind = .string →
    StringBody.decode s.profile.dialect (slice t.text 1 (-1)) = .error .outOfRange →
    allowed (.unconvertible .codePoint)
  number : ∀ cause t, fair t → t.kind = .number → Numeral.literalValue t.text = .error cause →
    allowed (.unconvertible cause)

/-! ## Combinators -/

theorem reports_pure {a : α} {post : α → Prop} (h : post a) : Reports fair allowed (pure a) post :=
  fun _ hp => ⟨hp, h⟩

theorem reports_bind {x : Reading α} {f : α → Reading β} {mid : α → Prop} {post : β → Prop}
    (hx : Reports fair allowed x mid) (hf : ∀ a, mid a → Reports fair allowed (f a) post) :
    Reports fair allowed (x >>= f) post := by
  intro p hp
  have hstep := hx p hp
  change match EStateM.bind x f p with | .ok a q => _ | .error fault _ => _
  unfold EStateM.bind
  change match x p with | .ok a q => _ | .error fault _ => _ at hstep
  cases hrun : x p with
  | ok a q =>
      rw [hrun] at hstep
      exact hf a hstep.2 q hstep.1
  | error fault q =>
      rw [hrun] at hstep
      exact hstep

theorem reports_get : Reports fair allowed get (Fair fair) := fun _ hp => ⟨hp, hp⟩

theorem reports_set {p : Progress} (h : Fair fair p) :
    Reports fair allowed (set p) fun _ => True :=
  fun _ _ => ⟨h, trivial⟩

theorem reports_throw {fault : Fault} {post : α → Prop} (h : allowed fault) :
    Reports fair allowed (throw fault) post :=
  fun _ _ => h

theorem reports_ite {x y : Reading α} {post : α → Prop} {P : Prop} [Decidable P]
    (hx : P → Reports fair allowed x post) (hy : ¬ P → Reports fair allowed y post) :
    Reports fair allowed (if P then x else y) post := by
  split
  · exact hx ‹_›
  · exact hy ‹_›

/-! ## Single tokens -/

theorem reports_current :
    Reports fair allowed current fun t? => ∀ t, t? = some t → fair t :=
  fun _ hp => ⟨hp, fun t ht => hp t (List.mem_of_head? ht)⟩

theorem reports_isNext {kind : Token.Kind} : Reports fair allowed (isNext kind) fun _ => True :=
  reports_bind reports_current fun _ _ => reports_pure trivial

theorem reports_leave : Reports fair allowed leave fun _ => True := fun _ hp => ⟨hp, trivial⟩

variable {s : Setting} (hs : Allows s fair allowed)
include hs

theorem reports_failAt {t? : Option Token} {cause : Malformation} {post : α → Prop}
    (ht : ∀ t, t? = some t → fair t) : Reports fair allowed (failAt s t? cause) post := by
  refine reports_throw ?_
  cases t? with
  | none => exact hs.atEnd cause
  | some t => exact hs.atToken cause t (ht t rfl)

theorem reports_failAtEnd {cause : Malformation} {post : α → Prop} :
    Reports fair allowed (failAt s none cause) post :=
  reports_throw (hs.atEnd cause)

theorem reports_enter : Reports fair allowed (enter s) fun _ => True := by
  refine reports_bind reports_get fun p hp => reports_bind (reports_set hp) fun _ _ => ?_
  split
  · exact reports_throw (hs.tooDeep _)
  · exact reports_pure trivial

theorem reports_take : Reports fair allowed (take s) fair := by
  refine reports_bind reports_get fun p hp => ?_
  split
  · exact reports_failAtEnd hs
  · rename_i t rest hrest
    obtain ⟨ht, hahead⟩ : fair t ∧ ∀ t' ∈ rest, fair t' := by
      rw [Fair, hrest] at hp
      exact List.forall_mem_cons.mp hp
    exact reports_bind (reports_set hahead) fun _ _ => reports_pure ht

theorem reports_expect {kind : Token.Kind} {what : String} :
    Reports fair allowed (expect s kind what) fair :=
  reports_bind reports_current fun _ ht =>
    reports_ite (fun _ => reports_take hs) fun _ => reports_failAt hs ht

theorem reports_continues {closing : Token.Kind} :
    Reports fair allowed (continues s closing) fun _ => True := by
  refine reports_bind reports_current fun t ht => reports_ite (fun _ => ?_) fun _ => ?_
  · refine reports_bind (reports_take hs) fun _ _ => reports_bind reports_isNext fun _ _ => ?_
    refine reports_ite (fun _ => reports_ite (fun _ => ?_) fun _ => ?_) fun _ => ?_
    · exact reports_pure trivial
    · -- the complaint is about the comma, which was taken by now
      exact reports_failAt hs ht
    · exact reports_pure trivial
  · exact reports_pure trivial

/-! ## Scalars and names -/

theorem reports_stringValue {t : Token} (ht : fair t) (hkind : t.kind = .string) :
    Reports fair allowed (stringValue s t) fun _ => True := by
  have hat : ∀ t', some t = some t' → fair t' := by
    rintro t' ⟨⟩
    exact ht
  unfold stringValue
  split
  · exact reports_pure trivial
  · exact reports_failAt hs hat
  · exact reports_failAt hs hat
  · exact reports_failAt hs hat
  · rename_i hdecode
    exact reports_throw (hs.string t ht hkind hdecode)

theorem reports_numberValue {t : Token} (ht : fair t) (hkind : t.kind = .number) :
    Reports fair allowed (numberValue t) fun _ => True := by
  unfold numberValue
  split
  · exact reports_pure trivial
  · rename_i cause hvalue
    exact reports_throw (hs.number cause t ht hkind hvalue)

theorem reports_scalar {t : Token} (ht : fair t) :
    Reports fair allowed (scalar s t) fun _ => True := by
  unfold scalar
  split
  · rename_i hkind
    exact reports_bind (reports_stringValue hs ht hkind) fun _ _ => reports_pure trivial
  · rename_i hkind
    exact reports_bind (reports_numberValue hs ht hkind) fun _ _ => reports_pure trivial
  · exact reports_pure trivial
  · exact reports_pure trivial
  · exact reports_pure trivial
  · exact reports_pure trivial
  · refine reports_failAt hs ?_
    rintro t' ⟨⟩
    exact ht

theorem reports_key : Reports fair allowed (key s) fun _ => True := by
  refine reports_bind reports_current fun t? ht => ?_
  split
  · rename_i t
    refine reports_ite (fun hkind => ?_) fun _ => reports_ite (fun _ => ?_) fun _ => ?_
    · refine reports_bind (reports_take hs) fun _ _ => ?_
      exact reports_bind (reports_stringValue hs (ht t rfl) hkind) fun _ _ => reports_pure trivial
    · exact reports_bind (reports_take hs) fun _ _ => reports_pure trivial
    · exact reports_failAt hs ht
  · exact reports_failAtEnd hs

/-! ## Structures -/

mutual

theorem reports_valueWithin (bound : Nat) :
    Reports fair allowed (valueWithin s bound) fun _ => True := by
  match bound with
  | 0 => exact reports_failAtEnd hs
  | bound + 1 =>
      refine reports_bind reports_current fun t? ht => ?_
      split
      · exact reports_failAtEnd hs
      · refine reports_ite (fun _ => reports_objectWithin bound) fun _ =>
          reports_ite (fun _ => reports_arrayWithin bound) fun _ => ?_
        exact reports_bind (reports_take hs) fun t ht => reports_scalar hs ht

theorem reports_objectWithin (bound : Nat) :
    Reports fair allowed (objectWithin s bound) fun _ => True := by
  match bound with
  | 0 => exact reports_failAtEnd hs
  | bound + 1 =>
      refine reports_bind (reports_expect hs) fun _ _ => ?_
      refine reports_bind (reports_enter hs) fun _ _ => ?_
      refine reports_bind (reports_membersWithin bound) fun _ _ => ?_
      refine reports_bind (reports_expect hs) fun _ _ => reports_bind reports_leave fun _ _ => ?_
      exact reports_pure trivial

theorem reports_membersWithin (bound : Nat) :
    Reports fair allowed (membersWithin s bound) fun _ => True := by
  match bound with
  | 0 => exact reports_failAtEnd hs
  | bound + 1 =>
      refine reports_bind reports_isNext fun _ _ => reports_ite (fun _ => ?_) fun _ => ?_
      · exact reports_pure trivial
      · refine reports_bind (reports_key hs) fun _ _ => ?_
        refine reports_bind (reports_expect hs) fun _ _ => ?_
        refine reports_bind (reports_valueWithin bound) fun _ _ => ?_
        refine reports_bind (reports_continues hs) fun _ _ => ?_
        refine reports_ite (fun _ => ?_) fun _ => ?_
        · exact reports_bind (reports_membersWithin bound) fun _ _ => reports_pure trivial
        · exact reports_pure trivial

theorem reports_arrayWithin (bound : Nat) :
    Reports fair allowed (arrayWithin s bound) fun _ => True := by
  match bound with
  | 0 => exact reports_failAtEnd hs
  | bound + 1 =>
      refine reports_bind (reports_expect hs) fun _ _ => ?_
      refine reports_bind (reports_enter hs) fun _ _ => ?_
      refine reports_bind (reports_elementsWithin bound) fun _ _ => ?_
      refine reports_bind (reports_expect hs) fun _ _ => reports_bind reports_leave fun _ _ => ?_
      exact reports_pure trivial

theorem reports_elementsWithin (bound : Nat) :
    Reports fair allowed (elementsWithin s bound) fun _ => True := by
  match bound with
  | 0 => exact reports_failAtEnd hs
  | bound + 1 =>
      refine reports_bind reports_isNext fun _ _ => reports_ite (fun _ => ?_) fun _ => ?_
      · exact reports_pure trivial
      · refine reports_bind (reports_valueWithin bound) fun _ _ => ?_
        refine reports_bind (reports_continues hs) fun _ _ => ?_
        refine reports_ite (fun _ => ?_) fun _ => ?_
        · exact reports_bind (reports_elementsWithin bound) fun _ _ => reports_pure trivial
        · exact reports_pure trivial

end

theorem reports_document {text : Text} {tokens : List Token} :
    Reports fair allowed (document s text tokens) fun _ => True := by
  have hreset : Reports fair allowed (modify fun p => { p with depth := 0 }) fun _ => True :=
    fun _ hp => ⟨hp, trivial⟩
  have hvalue : Reports fair allowed (value s) fun _ => True :=
    reports_bind reports_get fun p _ => reports_valueWithin hs (boundFor p.rest.length)
  refine reports_bind hreset fun _ _ => reports_bind hvalue fun _ _ => ?_
  refine reports_bind reports_current fun t? ht => ?_
  split
  · exact reports_failAt hs ht
  · exact reports_pure trivial

end LocatedJson.Parse

namespace LocatedJson

open LocatedJson.Parse

/-- The fault of tokens that are no document is one of those that the tokens allow. -/
theorem Document.allowed_of_ofTokens {fair : Token → Prop} {allowed : Fault → Prop}
    {profile : Profile} {text : Text} {tokens : List Token} {fault : Fault}
    (hs : Allows (.ofText profile text) fair allowed) (htokens : ∀ t ∈ tokens, fair t)
    (h : Document.ofTokens profile text tokens = .error fault) : allowed fault := by
  have hfair : Fair fair (start tokens) := fun t ht => htokens t (List.mem_filter.mp ht).1
  have hreports := @reports_document fair allowed (.ofText profile text) hs text tokens _ hfair
  unfold Document.ofTokens Reading.outcome at h
  split at h
  · cases h
  · rename_i fault' _ hrun
    rw [hrun] at hreports
    cases h
    exact hreports

end LocatedJson
