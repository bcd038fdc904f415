import LocatedJson.Proofs.Interchange.Spelling
import LocatedJson.Proofs.Refusals

/-!
# Escapes by number

An escape by number is a backslash, a letter and hexadecimal digits, four of
them behind a `u` and two behind an `x`. In json5 such an escape is not refused
if it has its digits, but also if fewer characters than that are left in the
string, and if the characters in the place of the digits are read as an integer
all the same, with a sign, blanks or low lines (`Escape.Taken`).

These are all: a string is decoded exactly if each of its escapes is taken
(`decode_json5_isOk_iff`). Decoding goes from piece to piece and a piece may
cover two escapes, but the characters that it takes for digits are no
backslashes, so no escape is passed over (`exists_escapes_of_piece`).
-/

namespace LocatedJson.StringBody

open LocatedJson.Text LocatedJson.Numeral

/-! ## Escapes -/

/-- The letter behind a backslash, and what follows it in the string. -/
structure Escape where
  letter : Char
  rest : Text
  deriving DecidableEq, Repr

/-- The escapes of a body from left to right: a backslash takes the next character with it. -/
def escapes : Text → List Escape
  | [] => []
  | c :: rest =>
    if c = '\\' then
      match rest with
      | [] => []
      | letter :: after => ⟨letter, after⟩ :: escapes after
    else escapes rest

namespace Escape

/-- The number of digits of an escape by number. -/
def count? (e : Escape) : Option Nat :=
  if e.letter = 'u' then some 4 else if e.letter = 'x' then some 2 else none

/-- The hexadecimal digits that directly follow. -/
def digits (e : Escape) : Text := e.rest.takeWhile isAsciiHex

/-- The escapes that are not refused: those that are none by number, those with their digits, those
with fewer characters than digits behind them, and those with characters that are read as a number
in the place of the digits. -/
inductive Taken (e : Escape) : Prop
  | other (h : e.count? = none)
  | digits {count : Nat} (hcount : e.count? = some count) (h : count ≤ e.digits.length)
  | short {count : Nat} (hcount : e.count? = some count) (h : e.rest.length < count)
  | loose {count : Nat} {n : Int} (hcount : e.count? = some count)
      (hnumber : hexNumber? (e.rest.take count) = some n) (hn : 0 ≤ n)

end Escape

variable {body cs rest after : Text} {c : Char} {e : Escape} {count : Nat}

theorem escapes_plain (hc : c ≠ '\\') (rest : Text) : escapes (c :: rest) = escapes rest := by
  rw [escapes.eq_def]
  exact if_neg hc

theorem escapes_escape (letter : Char) (after : Text) :
    escapes ('\\' :: letter :: after) = ⟨letter, after⟩ :: escapes after := by
  rw [escapes.eq_def]
  rfl

theorem escapes_append (hcs : '\\' ∉ cs) (rest : Text) : escapes (cs ++ rest) = escapes rest := by
  induction cs with
  | nil => rfl
  | cons c cs ih =>
      obtain ⟨hc, hcs⟩ := not_or.mp (mt List.mem_cons.mpr hcs)
      rw [List.cons_append, escapes_plain (Ne.symm hc), ih hcs]

/-! ## Numbers have no backslash in them -/

theorem mem_of_digitRun {vs : List Nat} (hcs : '\\' ∈ cs)
    (h : digitRun .sixteen cs = some (vs, after)) : '\\' ∈ after := by
  induction cs generalizing vs with
  | nil => cases hcs
  | cons c cs ih =>
      rw [digitRun] at h
      split at h
      · rename_i v hv
        obtain ⟨⟨vs', after'⟩, hrun, hpair⟩ := Option.map_eq_some_iff.mp h
        cases hpair
        refine ih ((List.mem_cons.mp hcs).resolve_left ?_) hrun
        rintro rfl
        cases (show Base.sixteen.digit? '\\' = none by decide).symm.trans hv
      · split at h
        · rename_i hlow
          subst hlow
          split at h
          · exact ih (by simpa using hcs) h
          · cases h
        · cases h
          exact hcs

theorem mem_splitSign (hcs : '\\' ∈ cs) : '\\' ∈ (splitSign cs).2 := by
  unfold splitSign
  split <;> simpa using hcs

theorem mem_dropMark (hcs : '\\' ∈ cs) : '\\' ∈ dropMark .sixteen cs := by
  unfold dropMark
  split
  · rename_i z x rest hbase
    split
    · rename_i hmark
      obtain ⟨hz, hx⟩ := hmark
      have hz : '\\' ≠ z := by
        rintro rfl
        cases (show decimalValue? '\\' = none by decide).symm.trans hz
      have hx : '\\' ≠ x := by
        rcases hx with rfl | rfl
        · decide
        · decide
      have hrest : '\\' ∈ rest := by simpa [hz, hx] using hcs
      split
      · rename_i hlow
        obtain ⟨rest, rfl⟩ := List.head?_eq_some_iff.mp hlow
        simpa using hrest
      · exact hrest
    · exact hcs
  · exact hcs

theorem mem_dropWhile {p : Char → Bool} (hcs : c ∈ cs) (hc : p c = false) :
    c ∈ cs.dropWhile p := by
  rw [← List.takeWhile_append_dropWhile (p := p) (l := cs)] at hcs
  refine (List.mem_append.mp hcs).resolve_left fun htake => ?_
  cases hc.symm.trans (List.mem_takeWhile_imp htake)

/-- What is read as a number has no backslash in it. -/
theorem escape_notMem_of_hexNumber? {n : Int} (h : hexNumber? cs = some n) : '\\' ∉ cs := by
  intro hcs
  have hdigits := mem_dropMark (mem_splitSign (mem_dropWhile hcs
    (show isNumberBlank '\\' = false by decide)))
  unfold hexNumber? readInteger at h
  dsimp only at h
  split at h
  · cases h
  · split at h
    · cases h
    · rename_i vs after hrun
      have hafter : after.all isNumberBlank = false :=
        List.all_eq_false.mpr ⟨'\\', mem_of_digitRun hdigits hrun, by decide⟩
      rw [if_neg (by simp), if_pos (by simp [hafter])] at h
      cases h

/-! ## Which escapes are taken -/

theorem Escape.cases_of_count? (h : e.count? = some count) :
    e.letter = 'u' ∧ count = 4 ∨ e.letter = 'x' ∧ count = 2 := by
  unfold Escape.count? at h
  split at h
  · rename_i hu
    cases h
    exact .inl ⟨hu, rfl⟩
  · split at h
    · rename_i hx
      cases h
      exact .inr ⟨hx, rfl⟩
    · cases h

/-- Digits are read as a number. -/
theorem exists_hexNumber? (hcs : ∀ c ∈ cs, isAsciiHex c = true) (hlength : 2 ≤ cs.length) :
    ∃ n, hexNumber? cs = some n ∧ 0 ≤ n := by
  obtain ⟨ds, rfl⟩ : ∃ ds : List Interchange.HexDigit, ds.map Interchange.HexDigit.char = cs := by
    clear hlength
    induction cs with
    | nil => exact ⟨[], rfl⟩
    | cons c cs ih =>
        obtain ⟨hc, hmore⟩ := List.forall_mem_cons.mp hcs
        obtain ⟨d, rfl⟩ := exists_hexDigit hc
        obtain ⟨ds, rfl⟩ := ih hmore
        exact ⟨d :: ds, rfl⟩
  match ds, hlength with
  | a :: b :: ds, _ => exact ⟨_, Interchange.hexNumber?_map a b ds, Int.natCast_nonneg _⟩

theorem Escape.taken_iff :
    e.Taken ↔ ∀ count, e.count? = some count →
      e.rest.length < count ∨ ∃ n, hexNumber? (e.rest.take count) = some n ∧ 0 ≤ n := by
  constructor
  · intro h count hcount
    cases h with
    | other hnone => cases hnone.symm.trans hcount
    | short hcount' hshort =>
        obtain rfl := Option.some.inj (hcount.symm.trans hcount')
        exact .inl hshort
    | loose hcount' hnumber hn =>
        obtain rfl := Option.some.inj (hcount.symm.trans hcount')
        exact .inr ⟨_, hnumber, hn⟩
    | digits hcount' hdigits =>
        obtain rfl := Option.some.inj (hcount.symm.trans hcount')
        have htake : e.rest.take count = e.digits.take count := by
          rw [← List.takeWhile_append_dropWhile (p := isAsciiHex) (l := e.rest)]
          exact List.take_append_of_le_length hdigits
        rw [htake]
        refine .inr (exists_hexNumber? (fun c hc => ?_) ?_)
        · exact List.mem_takeWhile_imp (List.mem_of_mem_take hc)
        · have := Escape.cases_of_count? hcount
          rw [List.length_take]
          omega
  · intro h
    cases hcount : e.count? with
    | none => exact .other hcount
    | some count =>
        rcases h count hcount with hshort | ⟨n, hnumber, hn⟩
        · exact .short hcount hshort
        · exact .loose hcount hnumber hn

/-! ## Pieces -/

variable {digits : Text} {p : Piece}

/-- Up to four characters that are read as a number have a code point unless it is negative. -/
theorem exists_point_iff (hlength : digits.length ≤ 4) :
    (∃ point, (hexNumber? digits).bind pointOfInt? = some point) ↔
      ∃ n, hexNumber? digits = some n ∧ 0 ≤ n := by
  cases hnumber : hexNumber? digits with
  | none => simp
  | some n =>
      have hnone := pointOfInt?_eq_none_iff hnumber hlength
      rw [Option.bind_some, ← Option.isSome_iff_exists, ← Option.ne_none_iff_isSome, ne_eq, hnone]
      simp

theorem unicodePiece_isOk_iff :
    (∃ p, unicodePiece digits after = .ok p) ↔
      ∃ point, (hexNumber? digits).bind pointOfInt? = some point := by
  unfold unicodePiece
  cases hexNumber? digits with
  | none => simp
  | some n =>
      dsimp only [Option.bind_some]
      cases pointOfInt? n with
      | none => simp
      | some point =>
          dsimp only
          split <;> simp

theorem hexPiece_isOk_iff :
    (∃ p, hexPiece digits = .ok p) ↔
      ∃ point, (hexNumber? digits).bind pointOfInt? = some point := by
  unfold hexPiece
  cases (hexNumber? digits).bind pointOfInt? <;> simp

theorem escapePiece_u (h : 4 ≤ rest.length) :
    escapePiece .json5 'u' rest = unicodePiece (rest.take 4) (rest.drop 4) :=
  if_pos ⟨rfl, h⟩

theorem escapePiece_x (h : 2 ≤ rest.length) :
    escapePiece .json5 'x' rest = hexPiece (rest.take 2) :=
  if_pos ⟨rfl, h⟩

/-- An escape that is none by number, or too short for one, stands for its letter or for nothing. -/
theorem exists_escapePiece (h : ∀ count, e.count? = some count → e.rest.length < count) :
    ∃ p, escapePiece .json5 e.letter e.rest = .ok p ∧
      (p.size = 2 ∨ p.size = 3 ∧ ∃ more, e.rest = '\n' :: more) := by
  have hu : ¬ (e.letter = 'u' ∧ 4 ≤ e.rest.length) := by
    rintro ⟨hu, hlength⟩
    have := h 4 (by simp [Escape.count?, hu])
    omega
  have hx : ¬ (e.letter = 'x' ∧ 2 ≤ e.rest.length) := by
    rintro ⟨hx, hlength⟩
    have := h 2 (by simp [Escape.count?, hx])
    omega
  unfold escapePiece
  split
  · exact ⟨_, if_neg (by simp), .inl rfl⟩
  · rw [if_neg hu, if_pos rfl, json5Piece, if_neg hx]
    split
    · rename_i hpair
      exact ⟨_, rfl, .inr ⟨rfl, List.head?_eq_some_iff.mp hpair.2⟩⟩
    · split <;> exact ⟨_, rfl, .inl rfl⟩

/-- An escape is taken exactly if there is a piece for it. -/
theorem escapePiece_isOk_iff : (∃ p, escapePiece .json5 e.letter e.rest = .ok p) ↔ e.Taken := by
  rw [Escape.taken_iff]
  by_cases hshort : ∀ count, e.count? = some count → e.rest.length < count
  · obtain ⟨p, hp, -⟩ := exists_escapePiece hshort
    exact ⟨fun _ count hcount => .inl (hshort count hcount), fun _ => ⟨p, hp⟩⟩
  · push Not at hshort
    obtain ⟨count, hcount, hlength⟩ := hshort
    have htake : (e.rest.take count).length ≤ 4 := by
      have := Escape.cases_of_count? hcount
      rw [List.length_take]
      omega
    have hpoint := exists_point_iff htake
    have hiff : (∃ p, escapePiece .json5 e.letter e.rest = .ok p) ↔
        ∃ point, (hexNumber? (e.rest.take count)).bind pointOfInt? = some point := by
      rcases Escape.cases_of_count? hcount with ⟨hu, rfl⟩ | ⟨hx, rfl⟩
      · rw [hu, escapePiece_u hlength, unicodePiece_isOk_iff]
      · rw [hx, escapePiece_x hlength, hexPiece_isOk_iff]
    rw [hiff, hpoint]
    constructor
    · intro hnumber count' hcount'
      obtain rfl := Option.some.inj (hcount.symm.trans hcount')
      exact .inr hnumber
    · intro h
      exact (h count hcount).resolve_left (Nat.not_lt.mpr hlength)

/-- The second half of a surrogate pair is an escape of its own, and taken. -/
theorem exists_of_lowSurrogate?_eq_some {low : Nat} (h : lowSurrogate? after = some low) :
    ∃ rest, escapes after = ⟨'u', rest⟩ :: escapes (after.drop 6) ∧ Escape.Taken ⟨'u', rest⟩ := by
  unfold lowSurrogate? at h
  split at h
  · rename_i a b c e beyond
    split at h
    · rename_i n hnumber
      split at h
      · rename_i hlow
        refine ⟨a :: b :: c :: e :: beyond, ?_, .loose rfl hnumber hlow.1⟩
        rw [escapes_escape]
        exact congrArg _ (escapes_append (escape_notMem_of_hexNumber? hnumber) beyond)
      · cases h
    · cases h
  · cases h

/-- The escapes that a piece covers are taken, and those behind it are left. -/
theorem exists_escapes_of_escapePiece (h : escapePiece .json5 e.letter e.rest = .ok p) :
    ∃ covered, escapes e.rest = covered ++ escapes ((e.letter :: e.rest).drop (p.size - 1)) ∧
      ∀ e' ∈ covered, e'.Taken := by
  by_cases hshort : ∀ count, e.count? = some count → e.rest.length < count
  · obtain ⟨p', hp', hsize⟩ := exists_escapePiece hshort
    obtain rfl := Except.ok.inj (h.symm.trans hp')
    refine ⟨[], ?_, by simp⟩
    rcases hsize with hsize | ⟨hsize, more, hmore⟩
    · rw [hsize]
      rfl
    · rw [hsize, hmore]
      exact escapes_plain (by decide) more
  · push Not at hshort
    obtain ⟨count, hcount, hlength⟩ := hshort
    obtain ⟨n, hnumber, -⟩ :=
      (Escape.taken_iff.mp (escapePiece_isOk_iff.mp ⟨p, h⟩) count hcount).resolve_left
        (Nat.not_lt.mpr hlength)
    have hpass : escapes e.rest = escapes (e.rest.drop count) := by
      have happend := escapes_append (escape_notMem_of_hexNumber? hnumber) (e.rest.drop count)
      rwa [List.take_append_drop] at happend
    rw [hpass]
    rcases Escape.cases_of_count? hcount with ⟨hu, rfl⟩ | ⟨hx, rfl⟩
    · rw [hu, escapePiece_u hlength] at h
      rcases size_of_unicodePiece h with hsize | ⟨hsize, low, hlow⟩
      · rw [hsize]
        exact ⟨[], rfl, by simp⟩
      · obtain ⟨rest, hrest, htaken⟩ := exists_of_lowSurrogate?_eq_some hlow
        rw [hsize, hrest, List.drop_drop]
        exact ⟨[⟨'u', rest⟩], rfl, by simpa using htaken⟩
    · rw [hx, escapePiece_x hlength, hexPiece] at h
      split at h
      · cases h
        exact ⟨[], rfl, by simp⟩
      · cases h

theorem exists_escapes_of_piece (h : piece .json5 c rest = .ok p) :
    ∃ covered, escapes (c :: rest) = covered ++ escapes (rest.drop (p.size - 1)) ∧
      ∀ e ∈ covered, e.Taken := by
  unfold piece at h
  split at h
  · rename_i letter after
    split at h
    · rename_i hc
      subst hc
      have htaken := (@escapePiece_isOk_iff ⟨letter, after⟩).mp ⟨p, h⟩
      obtain ⟨covered, hcovered, hall⟩ := @exists_escapes_of_escapePiece ⟨letter, after⟩ p h
      refine ⟨⟨letter, after⟩ :: covered, ?_, List.forall_mem_cons.mpr ⟨htaken, hall⟩⟩
      rw [escapes_escape, hcovered]
      rfl
    · rename_i hc
      cases h
      exact ⟨[], escapes_plain hc _, by simp⟩
  · cases h
    refine ⟨[], ?_, by simp⟩
    rw [escapes.eq_def]
    exact ite_self _

/-- A piece that fails is an escape that is not taken. -/
theorem exists_escape_of_piece {fault : EscapeFault} (h : piece .json5 c rest = .error fault) :
    ∃ e ∈ escapes (c :: rest), ¬ e.Taken := by
  unfold piece at h
  split at h
  · rename_i letter after
    split at h
    · rename_i hc
      subst hc
      refine ⟨⟨letter, after⟩, by simp [escapes_escape], fun htaken => ?_⟩
      obtain ⟨p, hp⟩ := escapePiece_isOk_iff.mpr htaken
      cases hp.symm.trans h
    · cases h
  · cases h

/-- In json5 a body stands for code points exactly if all its escapes are taken. -/
theorem decode_json5_isOk_iff :
    (∃ points, decode .json5 body = .ok points) ↔ ∀ e ∈ escapes body, e.Taken := by
  fun_induction decode .json5 body with
  | case1 => simp [escapes]
  | case2 c rest fault hpiece =>
      obtain ⟨e, he, hnot⟩ := exists_escape_of_piece hpiece
      constructor
      · rintro ⟨points, ⟨⟩⟩
      · exact fun hall => absurd (hall e he) hnot
  | case3 c rest p hpiece fault hlater ih =>
      obtain ⟨covered, hcovered, -⟩ := exists_escapes_of_piece hpiece
      rw [hlater] at ih
      constructor
      · rintro ⟨points, ⟨⟩⟩
      · intro hall
        rw [hcovered] at hall
        obtain ⟨points, hpoints⟩ := ih.mpr (List.forall_mem_append.mp hall).2
        cases hpoints
  | case4 c rest p hpiece later hlater ih =>
      obtain ⟨covered, hcovered, htaken⟩ := exists_escapes_of_piece hpiece
      have hrest := ih.mp ⟨later, hlater⟩
      rw [hcovered]
      exact ⟨fun _ => List.forall_mem_append.mpr ⟨htaken, hrest⟩, fun _ => ⟨_, rfl⟩⟩

end LocatedJson.StringBody

namespace LocatedJson

open LocatedJson.Text

/-! ## Documents -/

/-- The escapes of a string token. -/
def Token.escapes (t : Token) : List StringBody.Escape := StringBody.escapes (slice t.text 1 (-1))

/-- The strings of a derivation are decoded. -/
theorem Grammar.Role.decodes {d : Dialect} {t : Token} (h : Grammar.Role d t)
    (hkind : t.kind = .string) :
    ∃ points, StringBody.decode d (slice t.text 1 (-1)) = .ok points := by
  cases h with
  | mark h =>
      rw [hkind] at h
      cases h
  | scalar is =>
      cases is with
      | string kind decodes => exact ⟨_, decodes⟩
      | number kind | boolean kind | null kind | nan kind | infinity kind =>
          cases hkind.symm.trans kind
  | name is =>
      cases is with
      | quoted kind decodes => exact ⟨_, decodes⟩
      | bare json5 kind => simp [hkind] at kind

namespace Document

variable {profile : Profile} {text : Text} {doc : Document}

/-- The strings of a document are decoded. -/
theorem decodes_of_ofText (h : Document.ofText profile text = .ok doc) {t : Token}
    (ht : t ∈ doc.tokens) (hkind : t.kind = .string) :
    ∃ points, StringBody.decode profile.dialect (slice t.text 1 (-1)) = .ok points := by
  obtain ⟨-, -, htokens⟩ := Document.ofText_eq_ok_iff.mp h
  obtain ⟨v, hv, -, rfl⟩ := Document.ofTokens_eq_ok_iff.mp htokens
  have hcode : t.isCode = true := by
    rw [Token.isCode, Token.isComment, hkind]
    rfl
  have hmem : t ∈ v.tokens := by
    rw [hv]
    exact List.mem_filter.mpr ⟨ht, hcode⟩
  exact (v.role_of_mem hmem).decodes hkind

/-- A text whose only code token is a string that is decoded is a document. -/
theorem exists_of_decodes {t : Token} {points : List CodePoint}
    (hsize : text.length ≤ profile.limits.maxSize)
    (hfault : (Lexed.ofText profile.dialect text).fault? = none)
    (hcode : (Lexed.ofText profile.dialect text).tokens.filter Token.isCode = [t])
    (hkind : t.kind = .string)
    (hdecode : StringBody.decode profile.dialect (slice t.text 1 (-1)) = .ok points) :
    ∃ doc, Document.ofText profile text = .ok doc := by
  let v : Grammar.Value profile.dialect profile.allowsTrailingCommas :=
    .scalar t _ (.string hkind hdecode)
  exact ⟨_, Document.ofText_eq_ok_iff.mpr ⟨hsize, hfault,
    Document.ofTokens_eq_ok_iff.mpr ⟨v, hcode.symm, Nat.zero_le _, rfl⟩⟩⟩

/-- A reading of a text ends without an answer only for a token with a defect. -/
theorem exists_defect_of_ofText {cause : Unconvertible}
    (h : Document.ofText profile text = .error (.unconvertible cause)) :
    ∃ t ∈ (Lexed.ofText profile.dialect text).tokens, t.Defect profile.dialect cause := by
  obtain ⟨n, m, hrun, -⟩ := Lexed.exists_run profile.dialect (Nat.zero_le text.length)
  refine @exists_defect_of_ofTokens profile text _ cause hrun.alone ?_
  unfold Document.ofText at h
  split at h
  · cases h
  · dsimp only at h
    split at h
    · cases h
    · exact h

end Document

/-- In json5 all escapes in the strings of a document are taken. A string with an escape that is not
makes the reading of a text fail, with a complaint unless a token has a defect, and nothing else
makes it fail if the text is that string alone. -/
theorem Document.escapes_taken (limits : Limits) (trailing : Bool) (text : Text) :
    (∀ doc, Document.ofText ⟨.json5, limits, trailing⟩ text = .ok doc →
      ∀ t ∈ doc.tokens, t.kind = .string → ∀ e ∈ t.escapes, e.Taken) ∧
    (∀ t ∈ (Lexed.ofText .json5 text).tokens, t.kind = .string → (∃ e ∈ t.escapes, ¬ e.Taken) →
      (∃ about, Document.ofText ⟨.json5, limits, trailing⟩ text = .error (.complaint about)) ∨
      ∃ t' ∈ (Lexed.ofText .json5 text).tokens, ∃ cause, t'.Defect .json5 cause ∧
        Document.ofText ⟨.json5, limits, trailing⟩ text = .error (.unconvertible cause)) ∧
    ∀ t, text.length ≤ limits.maxSize → (Lexed.ofText .json5 text).fault? = none →
      (Lexed.ofText .json5 text).tokens.filter Token.isCode = [t] → t.kind = .string →
      ((∃ doc, Document.ofText ⟨.json5, limits, trailing⟩ text = .ok doc) ↔
        ∀ e ∈ t.escapes, e.Taken) := by
  have htaken : ∀ doc, Document.ofText ⟨.json5, limits, trailing⟩ text = .ok doc →
      ∀ t ∈ doc.tokens, t.kind = .string → ∀ e ∈ t.escapes, e.Taken := by
    intro doc hdoc t ht hkind
    exact StringBody.decode_json5_isOk_iff.mp (Document.decodes_of_ofText hdoc ht hkind)
  refine ⟨htaken, ?_, ?_⟩
  · rintro t ht hkind ⟨e, he, hnot⟩
    cases hdoc : Document.ofText ⟨.json5, limits, trailing⟩ text with
    | ok doc =>
        rw [← Document.tokens_of_ofText hdoc] at ht
        exact absurd (htaken doc hdoc t ht hkind e he) hnot
    | error fault =>
        cases fault with
        | complaint about => exact .inl ⟨about, rfl⟩
        | unconvertible cause =>
            obtain ⟨t', ht', hdefect⟩ := Document.exists_defect_of_ofText hdoc
            exact .inr ⟨t', ht', cause, hdefect, rfl⟩
  · intro t hsize hfault hcode hkind
    constructor
    · rintro ⟨doc, hdoc⟩
      refine htaken doc hdoc t ?_ hkind
      have hmem : t ∈ (Lexed.ofText .json5 text).tokens.filter Token.isCode := by simp [hcode]
      rw [Document.tokens_of_ofText hdoc]
      exact List.mem_of_mem_filter hmem
    · intro hall
      obtain ⟨points, hpoints⟩ := StringBody.decode_json5_isOk_iff.mpr hall
      exact Document.exists_of_decodes hsize hfault hcode hkind hpoints

/-- Two digits in the place of four and a sign in the place of a digit are taken; a letter that is
no digit is refused. -/
theorem Document.escapes_taken_short :
    (∃ doc, Document.ofText ⟨.json5, {}, false⟩ "\"\\u12\"".toList = .ok doc) ∧
      (∃ doc, Document.ofText ⟨.json5, {}, false⟩ "\"\\x+1\"".toList = .ok doc) ∧
      ∃ about,
        Document.ofText ⟨.json5, {}, false⟩ "\"\\xg0\"".toList = .error (.complaint about) := by
  let token (text : Text) : Token := ⟨.string, text, .between .origin (Cursor.endOf text)⟩
  have hlexed (rest : Text)
      (hscan : Lexeme.scan .json5 '"' rest = .found .string ('"' :: rest).length) :
      (Lexed.ofText .json5 ('"' :: rest)).tokens = [token ('"' :: rest)] ∧
        (Lexed.ofText .json5 ('"' :: rest)).fault? = none :=
    Lexed.ofText_of_scan rfl (by decide) hscan
  have haccepted (rest : Text) (e : StringBody.Escape)
      (hsize : ('"' :: rest).length ≤ ({} : Limits).maxSize)
      (hscan : Lexeme.scan .json5 '"' rest = .found .string ('"' :: rest).length)
      (hescapes : (token ('"' :: rest)).escapes = [e]) (htaken : e.Taken) :
      ∃ doc, Document.ofText ⟨.json5, {}, false⟩ ('"' :: rest) = .ok doc := by
    obtain ⟨htokens, hfault⟩ := hlexed rest hscan
    refine ((Document.escapes_taken {} false ('"' :: rest)).2.2 (token ('"' :: rest)) hsize hfault
      (by rw [htokens]; rfl) rfl).mpr ?_
    rw [hescapes]
    exact List.forall_mem_singleton.mpr htaken
  refine ⟨?_, ?_, ?_⟩
  · exact haccepted "\\u12\"".toList ⟨'u', ['1', '2']⟩ (by decide)
      (by decide +kernel) (by decide +kernel) (.short rfl (by decide))
  · exact haccepted "\\x+1\"".toList ⟨'x', ['+', '1']⟩ (by decide)
      (by decide +kernel) (by decide +kernel)
      (.loose rfl (show StringBody.hexNumber? ['+', '1'] = some 1 by decide +kernel) (by decide))
  · let refused := "\"\\xg0\"".toList
    obtain ⟨htokens, -⟩ : (Lexed.ofText .json5 refused).tokens = [token refused] ∧ _ :=
      hlexed "\\xg0\"".toList (by decide +kernel)
    have hescapes : (token refused).escapes = [⟨'x', ['g', '0']⟩] := by decide +kernel
    have hnot : ¬ StringBody.Escape.Taken ⟨'x', ['g', '0']⟩ := by
      rw [StringBody.Escape.taken_iff]
      intro h
      have hnone : StringBody.hexNumber? ['g', '0'] = none := by decide +kernel
      rcases h 2 rfl with hshort | ⟨n, hnumber, -⟩
      · exact absurd hshort (by decide)
      · cases hnone.symm.trans hnumber
    have hanswer := (Document.escapes_taken {} false refused).2.1 (token refused)
      (by simp [htokens]) rfl ⟨_, by rw [hescapes]; exact List.mem_cons_self, hnot⟩
    rcases hanswer with hcomplaint | ⟨t, ht, cause, hdefect, -⟩
    · exact hcomplaint
    · obtain rfl : t = token refused := by simpa [htokens] using ht
      have hbad : StringBody.decode .json5 (slice refused 1 (-1)) = .error .badHex := by
        decide +kernel
      cases hdefect with
      | overlong hkind => cases hkind
      | negative hkind hreaches hrest =>
          have hrange := (Token.decode_eq_outOfRange_iff rfl).mpr
            (.negative (t := token refused) hkind hreaches hrest)
          cases hbad.symm.trans hrange

end LocatedJson
