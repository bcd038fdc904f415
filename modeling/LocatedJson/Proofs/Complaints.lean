import LocatedJson.Proofs.Faults
import LocatedJson.Proofs.Places

/-!
# Where complaints point

A reading complains about the token that it is looking at or, when there is
none, about the end of the text. Both are places of the text, and so is the
place where the tokens of a text end for a fault. So every complaint about a
text is at a place of the text (`Document.places_agree`).
-/

namespace LocatedJson

open LocatedJson.Parse LocatedJson.Text

/-- A complaint about tokens is at the start of one of them or at the end of the text. -/
theorem Document.good_of_ofTokens {good : Position → Prop} {profile : Profile} {text : Text}
    {tokens : List Token} {cause : Malformation} {position : Position}
    (htokens : ∀ t ∈ tokens, good t.start) (hend : good (Cursor.endOf text))
    (h : Document.ofTokens profile text tokens = .error (.complaint (.malformed cause position))) :
    good position := by
  have hallows : Allows (.ofText profile text) (fun t => good t.start) fun fault =>
      ∀ cause position, fault = .complaint (.malformed cause position) → good position := by
    constructor
    case atEnd =>
      rintro _ _ _ ⟨⟩
      exact hend
    case atToken =>
      rintro _ t ht _ _ ⟨⟩
      exact ht
    case tooDeep => exact fun _ _ _ h => nomatch h
    case string => exact fun _ _ _ _ _ _ h => nomatch h
    case number => exact fun _ _ _ _ _ _ _ h => nomatch h
  exact Document.allowed_of_ofTokens hallows htokens h cause position rfl

/-- Every place that is reported about a text is the place that the text has at its offset:
those that a cursor passes, the ends of tokens and nodes, and the places of faults. -/
theorem Document.places_agree (profile : Profile) (text : Text) :
    (∀ k ≤ text.length,
      locate text (.int k) = .ok (Cursor.advanceBy k (.ofText text)).position) ∧
    (∀ t ∈ (Lexed.ofText profile.dialect text).tokens, t.extent.Agrees text) ∧
    (∀ doc, Document.ofText profile text = .ok doc →
      (∀ t ∈ doc.tokens, t.extent.Agrees text) ∧
      ∀ e ∈ (Outline.ofDocument doc).entries, e.extent.Agrees text) ∧
    (∀ cause position, (Lexed.ofText profile.dialect text).fault? = some (cause, position) →
      position.Agrees text) ∧
    ∀ cause position,
      Document.ofText profile text = .error (.complaint (.malformed cause position)) →
      position.Agrees text := by
  have htokens : ∀ t ∈ (Lexed.ofText profile.dialect text).tokens,
      t.start.Agrees text ∧ t.extent.Agrees text := fun t => Lexed.agrees_of_mem_tokens
  refine ⟨fun k hk => Cursor.locate_atOffset hk, fun t ht => (htokens t ht).2, ?_,
    fun cause position h => Lexed.agrees_of_fault h, ?_⟩
  · intro doc h
    obtain ⟨-, -, hdoc⟩ := Document.ofText_eq_ok_iff.mp h
    refine ⟨?_, Document.agrees_of_ofTokens hdoc fun t ht => (htokens t ht).2⟩
    obtain ⟨v, -, -, rfl⟩ := Document.ofTokens_eq_ok_iff.mp hdoc
    exact fun t ht => (htokens t ht).2
  · intro cause position h
    unfold Document.ofText at h
    split at h
    · cases h
    · dsimp only at h
      split at h
      · rename_i cause' position' hfault
        cases h
        exact Lexed.agrees_of_fault hfault
      · exact Document.good_of_ofTokens (fun t ht => (htokens t ht).1)
          (Cursor.agrees_atOffset (Nat.le_refl _)) h

/-- The number behind an empty line is a document whose nodes stand where the text says. -/
theorem Document.places_agree_number :
    ∃ doc, Document.ofText {} ['\n', '1'] = .ok doc ∧
      ∀ e ∈ (Outline.ofDocument doc).entries, e.extent.Agrees ['\n', '1'] := by
  have hlexed : Lexed.ofText .json ['\n', '1'] =
      ⟨[⟨.number, ['1'], .between ⟨2, 1, 1⟩ ⟨2, 2, 2⟩⟩], none, ⟨2, 2, 2, []⟩⟩ := by
    rw [Lexed.ofText, Lexed.ofCursor_of_token rfl, Lexed.ofCursor_of_done rfl]
    rfl
  obtain ⟨doc, hdoc⟩ : ∃ doc, Document.ofText {} ['\n', '1'] = .ok doc := by
    simp only [Document.ofText_eq_ok_iff, hlexed]
    exact ⟨_, by decide, trivial, rfl⟩
  exact ⟨doc, hdoc, ((Document.places_agree {} ['\n', '1']).2.2.1 doc hdoc).2⟩

end LocatedJson
