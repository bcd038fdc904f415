import LocatedJson.Proofs.Derivation
import LocatedJson.Proofs.Lexing
import LocatedJson.Proofs.Sentences

/-!
# A chain of dialects

What is a document in one profile is the same document in every wider one
(`Document.ofText_of_widens`): with the same tokens, and with the same nodes
in the same places.

The tokens of a text are not the same in all dialects: `01` is two tokens in
one and a single token in another. They agree on documents, because a number
or a word of a document has white space, a comment, a mark or the end of the
text behind it (`Run.starts`), and there the wider dialect stops as well.
-/

namespace LocatedJson

open LocatedJson.Grammar LocatedJson.Text
open LocatedJson.Interchange (Starts starts_cons)

variable {d d' : Dialect} {text : Text} {k m n : Nat} {ts : List Token}

/-! ## What stands behind a token -/

/-- Of two tokens that are no comments, one is a mark. -/
def Follows (a b : Token) : Prop := a.isCode = true → b.isCode = true → Adjacent a b

theorem isChain_of_filter (h : (ts.filter Token.isCode).IsChain Adjacent) : ts.IsChain Follows := by
  induction ts with
  | nil => exact .nil
  | cons a ts ih =>
      cases ha : a.isCode with
      | false =>
          rw [List.filter_cons_of_neg (by simp [ha])] at h
          refine List.isChain_cons.mpr ⟨fun b _ hcode => ?_, ih h⟩
          rw [ha] at hcode
          cases hcode
      | true =>
          rw [List.filter_cons_of_pos ha] at h
          obtain ⟨hfirst, hrest⟩ := List.isChain_cons.mp h
          refine List.isChain_cons.mpr ⟨fun b hb _ hcode => hfirst b ?_, ih hrest⟩
          cases ts with
          | nil => cases hb
          | cons b' ts =>
              obtain rfl : b' = b := by simpa using hb
              rw [List.filter_cons_of_pos hcode]
              rfl

theorem Gap.starts (h : Gap d text k m) (hnext : Starts delimiters (text.drop m)) :
    Starts delimiters (text.drop k) := by
  intro c hc
  rw [List.head?_drop] at hc
  by_cases hkm : k = m
  · rw [← List.head?_drop, hkm] at hc
    exact hnext c hc
  · have hle := h.le
    exact mem_delimiters_of_isSpace (h.blank k c (Nat.le_refl k) (by omega) hc)

/-- In front of a comment, a mark or the end of the text there is a delimiter. -/
theorem Run.starts (h : Run d text k ts n) (hend : Gap d text n text.length)
    (hfirst : ∀ t, ts.head? = some t → t.isCode = true → isMark t.kind = true) :
    Starts delimiters (text.drop k) := by
  cases h with
  | nil =>
      refine hend.starts ?_
      rw [List.drop_length]
      exact fun _ hc => nomatch hc
  | @cons _ p _ size ch rest kind ts hgap hrest hscan hrun =>
      refine hgap.starts ?_
      rw [hrest]
      refine starts_cons (Lexeme.mem_delimiters_of_scan hscan ?_)
      cases hcomment : kind.isComment with
      | true => exact .inl rfl
      | false =>
          have hcode : ((Cursor.atOffset text p).tokenOf kind size).isCode = true := by
            simp [Token.isCode, Token.isComment, Cursor.tokenOf, hcomment]
          exact .inr (hfirst _ rfl hcode)

/-! ## Runs in wider dialects -/

theorem Gap.widens (hd : d.Widens d') (h : Gap d text k m)
    (hstop : ∀ ch, text[m]? = some ch → d'.isSpace ch = false) : Gap d' text k m where
  le := h.le
  le_length := h.le_length
  blank i ch hki him hch := hd.isSpace (h.blank i ch hki him hch)
  stop := hstop

theorem Run.widens (hd : d.Widens d') (h : Run d text k ts n) (hend : Gap d text n text.length)
    (hchain : ts.IsChain Follows) : Run d' text k ts n := by
  induction h with
  | nil k => exact .nil k
  | @cons k p n size ch rest kind ts hgap hrest hscan hrun ih =>
      have hstop : ∀ c, text[p]? = some c → d'.isSpace c = false := by
        intro c hc
        rw [← List.head?_drop, hrest] at hc
        obtain rfl : ch = c := by simpa using hc
        exact Lexeme.isSpace_eq_false_of_scan hscan
      refine .cons (hgap.widens hd hstop) hrest ?_ (ih hend hchain.of_cons)
      cases hcomment : kind.isComment with
      | true => exact Lexeme.scan_comment_of_widens hd hscan hcomment
      | false =>
          -- the characters of the token alone are the token, and the wider dialect finds it again
          obtain ⟨word, post, rfl, rfl, halone⟩ := Lexeme.exists_alone hscan
          refine Lexeme.scan_append hd halone hcomment fun hplain => ?_
          have hpost : text.drop (p + (word.length + 1)) = post := by
            rw [← List.drop_drop, hrest, List.drop_succ_cons, List.drop_left]
          rw [← hpost]
          refine hrun.starts hend fun t ht hcode => ?_
          have hfollows := (List.isChain_cons.mp hchain).1 t ht
          rcases hfollows (by simp [Token.isCode, Token.isComment, Cursor.tokenOf, hcomment]) hcode
            with hmark | hmark
          · rw [show isMark kind = true from hmark] at hplain
            cases hplain
          · exact hmark

theorem Lexed.ofText_of_widens (hd : d.Widens d')
    (hfault : (Lexed.ofText d text).fault? = none)
    (hchain : (Lexed.ofText d text).tokens.IsChain Follows) :
    (Lexed.ofText d' text).fault? = none ∧
      (Lexed.ofText d' text).tokens = (Lexed.ofText d text).tokens := by
  obtain ⟨n, hrun, hgap⟩ := Lexed.exists_run_of_fault?_eq_none hfault
  have hgap' : Gap d' text n text.length := hgap.widens hd (by simp)
  obtain ⟨htokens, hnone⟩ := (hrun.widens hd hgap hchain).ofText_eq hgap'
  exact ⟨hnone, htokens⟩

/-! ## Documents in wider profiles -/

/-- The second profile accepts more: a wider dialect, and a comma before a closing bracket where
the first one does. The limits are the same. -/
structure Profile.Widens (p q : Profile) : Prop where
  dialect : p.dialect.Widens q.dialect
  trailing : p.allowsTrailingCommas = true → q.allowsTrailingCommas = true
  limits : p.limits = q.limits

theorem Document.ofText_of_widens {p q : Profile} (hpq : p.Widens q) {doc : Document}
    (h : Document.ofText p text = .ok doc) : Document.ofText q text = .ok doc := by
  obtain ⟨hsize, hfault, hdoc⟩ := Document.ofText_eq_ok_iff.mp h
  obtain ⟨v, hv, hnesting, rfl⟩ := Document.ofTokens_eq_ok_iff.mp hdoc
  have hchain : (Lexed.ofText p.dialect text).tokens.IsChain Follows :=
    isChain_of_filter (hv ▸ v.isChain_tokens)
  obtain ⟨hfault', htokens⟩ := Lexed.ofText_of_widens hpq.dialect hfault hchain
  have hcarries : Carries p.dialect q.dialect p.allowsTrailingCommas q.allowsTrailingCommas id id :=
    ⟨hpq.dialect, hpq.trailing, fun _ _ => rfl, fun _ _ => rfl⟩
  obtain ⟨v', hv', hnode, hnesting'⟩ := v.exists_alike hcarries rfl
  rw [Node.mapExtent_id, Node.mapExtent_id] at hnode
  refine Document.ofText_eq_ok_iff.mpr ⟨hpq.limits ▸ hsize, hfault', ?_⟩
  refine Document.ofTokens_eq_ok_iff.mpr ⟨v', ?_, ?_, ?_⟩
  · rw [hv', hv, htokens]
  · rw [hnesting', ← hpq.limits]
    exact hnesting
  · rw [hnode, htokens]

/-- Json, jsonc, jsonc with a comma before closing brackets, and json5: a text that one of them
reads is read by the next as the same document. -/
theorem Document.ofText_dialect_chain (limits : Limits) (text : Text) (doc : Document) :
    (∀ asked, Document.ofText ⟨.json, limits, asked⟩ text = .ok doc →
      Document.ofText ⟨.jsonc, limits, false⟩ text = .ok doc) ∧
    (Document.ofText ⟨.jsonc, limits, false⟩ text = .ok doc →
      Document.ofText ⟨.jsonc, limits, true⟩ text = .ok doc) ∧
    ∀ asked, Document.ofText ⟨.jsonc, limits, true⟩ text = .ok doc →
      Document.ofText ⟨.json5, limits, asked⟩ text = .ok doc := by
  refine ⟨fun asked h => ?_, fun h => ?_, fun asked h => ?_⟩
  · have hwidens : Profile.Widens ⟨.json, limits, asked⟩ ⟨.jsonc, limits, false⟩ :=
      ⟨.inr (.inl rfl), nofun, rfl⟩
    exact Document.ofText_of_widens hwidens h
  · have hwidens : Profile.Widens ⟨.jsonc, limits, false⟩ ⟨.jsonc, limits, true⟩ :=
      ⟨.inl rfl, nofun, rfl⟩
    exact Document.ofText_of_widens hwidens h
  · have hwidens : Profile.Widens ⟨.jsonc, limits, true⟩ ⟨.json5, limits, asked⟩ :=
      ⟨.inr (.inr rfl), fun _ => rfl, rfl⟩
    exact Document.ofText_of_widens hwidens h

/-- The array `[-0.5e1, "\u0041"]` is one document in all of them. -/
theorem Document.ofText_dialect_chain_array :
    ∃ doc, ∀ p ∈ ([{}, ⟨.jsonc, {}, false⟩, ⟨.jsonc, {}, true⟩, ⟨.json5, {}, false⟩] :
        List Profile),
      Document.ofText p "[-0.5e1, \"\\u0041\"]".toList = .ok doc := by
  have hread : (Document.ofText {} "[-0.5e1, \"\\u0041\"]".toList).toBool = true := by
    decide +kernel
  generalize "[-0.5e1, \"\\u0041\"]".toList = text at hread ⊢
  obtain ⟨doc, hdoc⟩ := Document.exists_of_toBool hread
  obtain ⟨hjsonc, htrailing, hjson5⟩ := Document.ofText_dialect_chain {} text doc
  have hsecond := hjsonc false hdoc
  have hthird := htrailing hsecond
  have hfourth := hjson5 false hthird
  exact ⟨doc, by simp [hdoc, hsecond, hthird, hfourth]⟩

end LocatedJson
