import LocatedJson.Language
import LocatedJson.Proofs.Escapes
import LocatedJson.Proofs.Faults
import LocatedJson.Proofs.Literals
import LocatedJson.Proofs.Trivia

/-!
# When a text is refused

A language that is asked to read a text, with options that it can honour,
answers with a document or with one complaint. There is an exception: a token
whose characters are in order and have no value all the same. `Token.Defect`
says which tokens these are, decimal integers with too many digits and strings
with an escape by a negative number, and `Language.read_answers` says that
nothing else ends a reading without an answer, while either of them does when
it is all that the text consists of.
-/

namespace LocatedJson

open LocatedJson.Text LocatedJson.Numeral

variable {d : Dialect} {t : Token}

/-! ## Tokens without a value -/

/-- A token that is in order and has no value, and why it has none. -/
inductive Token.Defect (d : Dialect) (t : Token) : Unconvertible → Prop
  | overlong {count : Nat} (hkind : t.kind = .number) (h : Overlong isDecimal t.text count) :
      Defect d t (.tooManyDigits count)
  | negative {rest : Text} (hkind : t.kind = .string)
      (hreaches : StringBody.Reaches d (slice t.text 1 (-1)) ('\\' :: rest))
      (hrest : StringBody.SpellsNegative rest) : Defect d t .codePoint

theorem Lexeme.number?_of_scan {c : Char} {rest : Text} {size : Nat}
    (h : scan d c rest = .found .number size) :
    number? d (c :: rest) = some (.found .number size) := by
  simp only [scan, getD_eq_iff] at h
  rcases h with h | ⟨-, h | ⟨-, h | ⟨-, h | ⟨-, h | ⟨-, h | ⟨-, h⟩⟩⟩⟩⟩⟩
  · cases (isComment_of_comment? h).2
  · obtain ⟨kind, hkind, hfound⟩ := Option.map_eq_some_iff.mp h
    cases hfound
    unfold markKind? at hkind
    grind
  · obtain ⟨-, -, hkind, -⟩ := string?_eq_found_iff.mp h
    cases hkind
  · obtain ⟨-, ⟨-, hkind, -⟩ | ⟨-, hkind, -⟩⟩ := signedKeyword?_eq_found_iff.mp h
    · cases hkind
    · cases hkind
  · exact h
  · obtain ⟨-, hkind, -⟩ := word?_eq_found_iff.mp h
    unfold wordKind? at hkind
    grind
  · cases h

/-- The characters of a number token are a literal. -/
theorem Alone.literal (h : Alone d t) (hkind : t.kind = .number) : Literal isDecimal t.text := by
  obtain ⟨c, word, htext, hscan⟩ := h
  rw [hkind] at hscan
  obtain ⟨-, -, hsize⟩ := Lexeme.number?_eq_found_iff.mp (Lexeme.number?_of_scan hscan)
  rw [htext]
  split at hsize
  · have hliteral := @literal_wideSize isDecimal (c :: word) (by omega)
    rwa [hsize, ← List.length_cons, List.take_length] at hliteral
  · have hliteral := @literal_strictSize isDecimal (c :: word) digitClass_isDecimal (by omega)
    rwa [hsize, ← List.length_cons, List.take_length] at hliteral

/-- A number token has no value exactly if it has a defect. -/
theorem Alone.literalValue_eq_error_iff (h : Alone d t) (hkind : t.kind = .number)
    {cause : Unconvertible} : literalValue t.text = .error cause ↔ t.Defect d cause := by
  rw [Numeral.literalValue_eq_error_iff digitClass_isDecimal (h.literal hkind)]
  constructor
  · rintro ⟨count, rfl, hlong⟩
    exact .overlong hkind hlong
  · rintro (⟨-, hlong⟩ | ⟨hstring, -, -⟩)
    · exact ⟨_, rfl, hlong⟩
    · cases hkind.symm.trans hstring

/-- A string token stands for no code points exactly if it has a defect, complaints apart. -/
theorem Token.decode_eq_outOfRange_iff (hkind : t.kind = .string) :
    StringBody.decode d (slice t.text 1 (-1)) = .error .outOfRange ↔ t.Defect d .codePoint := by
  simp only [StringBody.decode_eq_error_iff, StringBody.piece_eq_outOfRange_iff]
  constructor
  · rintro ⟨c, rest, hreaches, rfl, hrest⟩
    exact .negative hkind hreaches hrest
  · intro h
    cases h with
    | negative hkind hreaches hrest => exact ⟨_, _, hreaches, rfl, hrest⟩

/-! ## Documents -/

namespace Document

open LocatedJson.Parse

variable {profile : Profile} {text : Text} {tokens : List Token} {cause : Unconvertible}

/-- A reading of tokens ends without an answer only for a token with a defect. -/
theorem exists_defect_of_ofTokens (htokens : ∀ t ∈ tokens, Alone profile.dialect t)
    (h : Document.ofTokens profile text tokens = .error (.unconvertible cause)) :
    ∃ t ∈ tokens, t.Defect profile.dialect cause := by
  have hallows : Allows (.ofText profile text) (fun t => t ∈ tokens) fun fault =>
      ∀ cause, fault = .unconvertible cause → ∃ t ∈ tokens, t.Defect profile.dialect cause := by
    constructor
    case atEnd => exact fun _ _ h => nomatch h
    case atToken => exact fun _ _ _ _ h => nomatch h
    case tooDeep => exact fun _ _ h => nomatch h
    case string =>
      rintro t ht hkind hdecode _ ⟨⟩
      exact ⟨t, ht, (Token.decode_eq_outOfRange_iff hkind).mp hdecode⟩
    case number =>
      rintro _ t ht hkind hvalue _ ⟨⟩
      exact ⟨t, ht, ((htokens t ht).literalValue_eq_error_iff hkind).mp hvalue⟩
  exact Document.allowed_of_ofTokens hallows (fun t ht => ht) h cause rfl

/-- A token with a defect that is alone ends the reading. -/
theorem ofTokens_of_defect {t : Token} (hcode : tokens.filter Token.isCode = [t])
    (halone : Alone profile.dialect t) (h : t.Defect profile.dialect cause) :
    Document.ofTokens profile text tokens = .error (.unconvertible cause) := by
  have hscalar : ∀ p,
      (scalar (.ofText profile text) t).run p = .error (.unconvertible cause) p := by
    intro p
    cases h with
    | overlong hkind hlong =>
        have hvalue := (halone.literalValue_eq_error_iff hkind).mpr (.overlong hkind hlong)
        simp only [scalar, hkind, numberValue, hvalue]
        rfl
    | negative hkind hreaches hrest =>
        have hvalue := (Token.decode_eq_outOfRange_iff hkind).mpr (.negative hkind hreaches hrest)
        simp only [scalar, hkind, stringValue, Setting.ofText, hvalue]
        rfl
  have hkind : t.kind ≠ .leftBrace ∧ t.kind ≠ .leftBracket := by
    cases h with
    | overlong hkind => simp [hkind]
    | negative hkind => simp [hkind]
  have hvalue : (value (.ofText profile text)).run ⟨0, [t], 0⟩ =
      .error (.unconvertible cause) ⟨1, [], 0⟩ := by
    change valueWithin (.ofText profile text) (boundFor 1) ⟨0, [t], 0⟩ = _
    rw [boundFor, valueWithin]
    change (if t.kind = .leftBrace then objectWithin (.ofText profile text) 5
      else if t.kind = .leftBracket then arrayWithin (.ofText profile text) 5
      else take (.ofText profile text) >>= scalar (.ofText profile text)) ⟨0, [t], 0⟩ = _
    rw [if_neg hkind.1, if_neg hkind.2]
    exact hscalar ⟨1, [], 0⟩
  have hdocument : (document (.ofText profile text) text tokens).run ⟨0, [t], 0⟩ =
      .error (.unconvertible cause) ⟨1, [], 0⟩ := by
    change EStateM.bind (value (.ofText profile text)) _ ⟨0, [t], 0⟩ = _
    rw [EStateM.bind, show value (.ofText profile text) ⟨0, [t], 0⟩ = _ from hvalue]
  rw [Document.ofTokens, Reading.outcome, start, hcode, hdocument]

end Document

/-! ## Answers -/

/-- With options that can be honoured, reading a text gives a document or one complaint, unless a
token of the text has a defect; and a text of nothing but such a token, comments and white space
apart, is refused for it. -/
theorem Language.read_answers (l : Language) (text : Text) (commas : CommaOption)
    (hvalid : l.validate commas = .ok ()) :
    ((∃ doc, l.read text commas = .ok (.document doc)) ∨
      (∃ about, l.read text commas = .ok (.rejected about)) ∨
      ∃ t ∈ (Lexed.ofText l.dialect text).tokens, ∃ cause, t.Defect l.dialect cause ∧
        l.read text commas = .error (.unconvertible cause)) ∧
    ∀ t cause, text.length ≤ l.limits.maxSize → (Lexed.ofText l.dialect text).fault? = none →
      (Lexed.ofText l.dialect text).tokens.filter Token.isCode = [t] → t.Defect l.dialect cause →
      l.read text commas = .error (.unconvertible cause) := by
  have halone : ∀ t ∈ (Lexed.ofText l.dialect text).tokens, Alone l.dialect t := by
    obtain ⟨n, m, hrun, -⟩ := Lexed.exists_run l.dialect (Nat.zero_le text.length)
    exact hrun.alone
  constructor
  · cases hdoc : Document.ofText (l.profile commas) text with
    | ok doc => exact .inl ⟨doc, by simp only [read, hvalid, hdoc]⟩
    | error fault =>
        cases fault with
        | complaint about => exact .inr (.inl ⟨about, by simp only [read, hvalid, hdoc]⟩)
        | unconvertible cause =>
            have hread : l.read text commas = .error (.unconvertible cause) := by
              simp only [read, hvalid, hdoc]
            have htokens : Document.ofTokens (l.profile commas) text
                (Lexed.ofText l.dialect text).tokens = .error (.unconvertible cause) := by
              unfold Document.ofText at hdoc
              split at hdoc
              · cases hdoc
              · dsimp only at hdoc
                split at hdoc
                · cases hdoc
                · exact hdoc
            obtain ⟨t, ht, hdefect⟩ := Document.exists_defect_of_ofTokens halone htokens
            exact .inr (.inr ⟨t, ht, cause, hdefect, hread⟩)
  · intro t cause hsize hfault hcode hdefect
    have ht : t ∈ (Lexed.ofText l.dialect text).tokens := by
      have hmem : t ∈ (Lexed.ofText l.dialect text).tokens.filter Token.isCode := by simp [hcode]
      exact (List.mem_filter.mp hmem).1
    have htokens := @Document.ofTokens_of_defect (l.profile commas) text _ cause t hcode
      (halone t ht) hdefect
    have hdoc : Document.ofText (l.profile commas) text = .error (.unconvertible cause) := by
      have hexcess : l.limits.sizeExcess? text.length = none := if_neg (by omega)
      simp only [Document.ofText, profile, hexcess, hfault]
      exact htokens
    simp only [read, hvalid, hdoc]

/-- The string `"\u-001"`: its four digits are read as minus one, which is no code point. -/
theorem Language.read_answers_negativeEscape :
    ({} : Language).validate .unset = .ok () ∧
      ({} : Language).read "\"\\u-001\"".toList .unset = .error (.unconvertible .codePoint) := by
  have htokens : (Lexed.ofText .json "\"\\u-001\"".toList).tokens.filter Token.isCode =
      [⟨.string, "\"\\u-001\"".toList, .between ⟨1, 1, 0⟩ ⟨1, 9, 8⟩⟩] := by decide +kernel
  have hdefect : Token.Defect .json
      ⟨.string, "\"\\u-001\"".toList, .between ⟨1, 1, 0⟩ ⟨1, 9, 8⟩⟩ .codePoint :=
    (Token.decode_eq_outOfRange_iff rfl).mp (by decide +kernel)
  exact ⟨rfl, (Language.read_answers {} _ .unset rfl).2 _ .codePoint (by decide)
    (by decide +kernel) htokens hdefect⟩

end LocatedJson
