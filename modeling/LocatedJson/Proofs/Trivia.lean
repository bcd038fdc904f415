import LocatedJson.Proofs.Derivation
import LocatedJson.Proofs.Lexing
import LocatedJson.Proofs.Sentences

/-!
# White space and comments do not matter

The tokens of a document that are no comments can be written again with any
white space and any comments around them, also with none at all, and the
new text is a document with the same tokens and the same tree
(`Document.ofText_woven`). Only the places differ.

Two things could go wrong. A token could be read on into what stands behind
it: this is where `Lexeme.scan_append` needs a delimiter, and there is one,
because trivia starts with a delimiter and two tokens without trivia between
them are not both numbers or words. And a comment could end early or late:
`Trivia` is made such that none does.
-/

namespace LocatedJson

open LocatedJson.Grammar LocatedJson.Text
open LocatedJson.Interchange (Starts starts_cons)

variable {d : Dialect} {text rest post : Text} {k n : Nat}

/-! ## Texts with trivia -/

/-- White space and comments of a dialect. A block comment ends at its first closing. A line
comment has a line end behind it, or nothing at all when the end of the text may follow. -/
inductive Trivia (d : Dialect) (atEnd : Bool) : Text → Prop
  | nil : Trivia d atEnd []
  | space {c : Char} {rest : Text} (hc : d.isSpace c = true) (hrest : Trivia d atEnd rest) :
      Trivia d atEnd (c :: rest)
  | block {body rest : Text} (hallowed : d.allowsComments = true)
      (hbody : ¬ ['*', '/'] <:+: body) (hrest : Trivia d atEnd rest) :
      Trivia d atEnd ('/' :: '*' :: (body ++ '*' :: '/' :: rest))
  | line {body rest : Text} (hallowed : d.allowsComments = true)
      (hbody : ∀ c ∈ body, isLineEnd c = false)
      (hend : rest.head? = some '\n' ∨ rest.head? = some '\r' ∨ atEnd = true ∧ rest = [])
      (hrest : Trivia d atEnd rest) : Trivia d atEnd ('/' :: '/' :: (body ++ rest))

/-- A text that is made of the given pieces in their order, with trivia before, between and
after them. -/
inductive Woven (d : Dialect) : List Text → Text → Prop
  | last {gap : Text} (hgap : Trivia d true gap) : Woven d [] gap
  | piece {gap value rest : Text} {values : List Text} (hgap : Trivia d false gap)
      (hrest : Woven d values rest) : Woven d (value :: values) (gap ++ value ++ rest)

def Token.unplaced (t : Token) : Token := t.mapExtent fun _ => .between .origin .origin

/-- The value without its place and the places of all below it. -/
def Node.unplaced (node : Node) : Node := node.mapExtent fun _ => .between .origin .origin

/-! ## Comments -/

namespace Lexeme

theorem blockTail?_append {body : Text} (hbody : ¬ ['*', '/'] <:+: body) (rest : Text) :
    blockTail? (body ++ '*' :: '/' :: rest) = some (body.length + 2) := by
  induction body with
  | nil => rfl
  | cons c body ih =>
      have hopen : ¬ (c = '*' ∧ (body ++ '*' :: '/' :: rest).head? = some '/') := by
        rintro ⟨rfl, hhead⟩
        cases body with
        | nil => cases hhead
        | cons e body =>
            obtain rfl : e = '/' := by simpa using hhead
            exact hbody ⟨[], body, rfl⟩
      have hbody' : ¬ ['*', '/'] <:+: body := fun h =>
        hbody (h.trans (List.suffix_cons c body).isInfix)
      rw [List.cons_append, blockTail?_cons, if_neg hopen, ih hbody']
      rfl

theorem comment?_block (hallowed : d.allowsComments = true) {body : Text}
    (hbody : ¬ ['*', '/'] <:+: body) (post : Text) :
    comment? d '/' ('*' :: (body ++ ['*', '/']) ++ post) =
      some (.found .blockComment (('*' :: (body ++ ['*', '/'])).length + 1)) := by
  refine comment?_eq_found_iff.mpr ⟨hallowed, rfl, body ++ '*' :: '/' :: post, .inr ⟨?_, rfl, ?_⟩⟩
  · simp
  · refine ⟨_, blockTail?_append hbody post, ?_⟩
    simp only [List.length_cons, List.length_append, List.length_nil]
    omega

theorem comment?_line (hallowed : d.allowsComments = true) {body : Text}
    (hbody : ∀ c ∈ body, isLineEnd c = false) (hpost : Starts ['\n', '\r'] post) :
    comment? d '/' ('/' :: body ++ post) = some (.found .lineComment (body.length + 2)) := by
  have hline : (body ++ post).takeWhile (fun x => !isLineEnd x) = body :=
    hpost.takeWhile_append (fun c hc => by rw [hbody c hc]; rfl) (by decide)
  refine comment?_eq_found_iff.mpr ⟨hallowed, rfl, body ++ post, .inl ⟨rfl, rfl, ?_⟩⟩
  rw [hline, Nat.add_comm]

end Lexeme

/-- A comment behind the white space is a run of one token, and that is no code. -/
theorem Spaced.exists_comment {kind : Token.Kind} (h : Spaced d text k ('/' :: rest ++ post))
    (hcomment : Lexeme.comment? d '/' (rest ++ post) = some (.found kind (rest.length + 1))) :
    ∃ t n, Run d text k [t] n ∧ t.isCode = false ∧ Spaced d text n post := by
  have hspace : d.isSpace '/' = false := by cases d <;> decide
  have hscan : Lexeme.scan d '/' (rest ++ post) = .found kind ('/' :: rest).length := by
    rw [Lexeme.scan, hcomment]
    rfl
  obtain ⟨t, n, hrun, hkind, -, hdrop⟩ := h.exists_token hspace hscan
  refine ⟨t, n, hrun, ?_, [], by simp, hdrop⟩
  rw [Token.isCode, Token.isComment, hkind, (Lexeme.isComment_of_comment? hcomment).2]
  rfl

/-! ## Trivia -/

namespace Trivia

variable {atEnd : Bool} {gap : Text}

theorem starts (h : Trivia d atEnd gap) (hpost : Starts delimiters post) :
    Starts delimiters (gap ++ post) := by
  cases h with
  | nil => exact hpost
  | space hc hrest => exact starts_cons (mem_delimiters_of_isSpace hc)
  | block hallowed hbody hrest => exact starts_cons (by decide)
  | line hallowed hbody hend hrest => exact starts_cons (by decide)

/-- The tokens of trivia are comments, and behind them there is at most white space. -/
theorem exists_run (h : Trivia d atEnd gap) (hpost : atEnd = true → post = [])
    (hat : Spaced d text k (gap ++ post)) :
    ∃ ts n, Run d text k ts n ∧ ts.filter Token.isCode = [] ∧ Spaced d text n post := by
  induction h generalizing k with
  | nil => exact ⟨[], k, .nil k, rfl, hat⟩
  | @space c rest hc hrest ih =>
      have hskip : Spaced d text k ([c] ++ (rest ++ post)) := hat
      exact ih (hskip.skip (by simpa using hc))
  | @block body rest hallowed hbody hrest ih =>
      have hcomment : Spaced d text k
          ('/' :: ('*' :: (body ++ ['*', '/'])) ++ (rest ++ post)) := by simpa using hat
      have hfound := Lexeme.comment?_block hallowed hbody (rest ++ post)
      obtain ⟨t, m, hrun, hcode, hspaced⟩ := hcomment.exists_comment hfound
      obtain ⟨ts, n, hrun', hcode', hend⟩ := ih hspaced
      refine ⟨t :: ts, n, hrun.append hrun', ?_, hend⟩
      rw [List.filter_cons_of_neg (by simp [hcode]), hcode']
  | @line body rest hallowed hbody hend hrest ih =>
      have hcomment : Spaced d text k ('/' :: ('/' :: body) ++ (rest ++ post)) := by
        simpa using hat
      have hline : Starts ['\n', '\r'] (rest ++ post) := by
        intro c hc
        rcases hend with hend | hend | ⟨hatEnd, rfl⟩
        · rw [List.head?_append, hend] at hc
          cases hc
          decide
        · rw [List.head?_append, hend] at hc
          cases hc
          decide
        · rw [hpost hatEnd] at hc
          cases hc
      have hfound := Lexeme.comment?_line hallowed hbody hline
      obtain ⟨t, m, hrun, hcode, hspaced⟩ := hcomment.exists_comment hfound
      obtain ⟨ts, n, hrun', hcode', hend⟩ := ih hspaced
      refine ⟨t :: ts, n, hrun.append hrun', ?_, hend⟩
      rw [List.filter_cons_of_neg (by simp [hcode]), hcode']

end Trivia

/-! ## Tokens on their own -/

/-- The characters of the token are the token also when nothing stands behind them. -/
def Alone (d : Dialect) (t : Token) : Prop :=
  ∃ c word, t.text = c :: word ∧ Lexeme.scan d c word = .found t.kind (word.length + 1)

theorem Run.alone {ts : List Token} (h : Run d text k ts n) : ∀ t ∈ ts, Alone d t := by
  induction h with
  | nil k => simp
  | @cons k m n size ch rest kind ts hgap hrest hscan hrun ih =>
      refine List.forall_mem_cons.mpr ⟨?_, ih⟩
      obtain ⟨word, post, rfl, rfl, halone⟩ := Lexeme.exists_alone hscan
      refine ⟨ch, word, ?_, halone⟩
      rw [Cursor.tokenOf, Cursor.rest_atOffset, hrest, List.take_succ_cons, List.take_left]

namespace Woven

variable {us : List Token}

/-- Where no token stands or a mark comes first, there is a delimiter. -/
theorem starts (h : Woven d (us.map Token.text) text) (halone : ∀ t ∈ us, Alone d t)
    (hfirst : ∀ t, us.head? = some t → isMark t.kind = true) : Starts delimiters text := by
  cases us with
  | nil =>
      cases h with
      | last hgap =>
          have hnil : Starts delimiters [] := fun c hc => nomatch hc
          simpa using hgap.starts hnil
  | cons u us =>
      rw [List.map_cons] at h
      cases h with
      | @piece gap value rest values hgap hrest =>
          obtain ⟨c, word, htext, hscan⟩ := halone u List.mem_cons_self
          rw [List.append_assoc]
          refine hgap.starts ?_
          rw [htext]
          exact starts_cons (Lexeme.mem_delimiters_of_scan hscan (.inr (hfirst u rfl)))

/-- The tokens of a text that is woven from tokens of a sentence: they come back, with comments
between them. -/
theorem exists_run (h : Woven d (us.map Token.text) rest) (halone : ∀ t ∈ us, Alone d t)
    (hcode : ∀ t ∈ us, t.isCode = true) (hchain : us.IsChain Adjacent)
    (hat : Spaced d text k rest) :
    ∃ ts n, Run d text k ts n ∧ Spaced d text n [] ∧
      (ts.filter Token.isCode).map Token.unplaced = us.map Token.unplaced := by
  induction us generalizing k rest with
  | nil =>
      cases h with
      | last hgap =>
          rw [← List.append_nil rest] at hat
          obtain ⟨ts, n, hrun, hcomments, hend⟩ := hgap.exists_run (fun _ => rfl) hat
          exact ⟨ts, n, hrun, hend, by rw [hcomments]⟩
  | cons u us ih =>
      rw [List.map_cons] at h
      cases h with
      | @piece gap value rest values hgap hrest =>
          obtain ⟨c, word, htext, hscan⟩ := halone u List.mem_cons_self
          have halone' : ∀ t ∈ us, Alone d t := fun t ht => halone t (List.mem_cons_of_mem u ht)
          have hcode' : ∀ t ∈ us, t.isCode = true := fun t ht => hcode t (List.mem_cons_of_mem u ht)
          obtain ⟨hfollow, hchain'⟩ := List.isChain_cons.mp hchain
          rw [List.append_assoc, htext] at hat
          obtain ⟨ts, m, hrun, hcomments, hat⟩ := hgap.exists_run nofun hat
          -- the token is found again: it is a mark, or what follows starts with a delimiter
          have hdelimited : isMark u.kind = false → Starts delimiters rest := by
            intro hplain
            refine hrest.starts halone' fun t ht => ?_
            rcases hfollow t ht with hmark | hmark
            · rw [hplain] at hmark
              cases hmark
            · exact hmark
          have hkind : u.kind.isComment = false := by
            simpa [Token.isCode, Token.isComment] using hcode u List.mem_cons_self
          have hfound := Lexeme.scan_append (.refl d) hscan hkind hdelimited
          obtain ⟨t, p, htoken, hkind', htext', hdrop⟩ :=
            hat.exists_token (Lexeme.isSpace_eq_false_of_scan hscan) hfound
          obtain ⟨ts', n, hrun', hend, hsame⟩ :=
            ih hrest halone' hcode' hchain' ⟨[], by simp, hdrop⟩
          refine ⟨ts ++ t :: ts', n, hrun.append (htoken.append hrun'), hend, ?_⟩
          have htcode : t.isCode = true := by
            simp [Token.isCode, Token.isComment, hkind', hkind]
          have hunplaced : t.unplaced = u.unplaced :=
            mapExtent_eq_iff.mpr ⟨hkind', htext'.trans htext.symm, rfl⟩
          rw [List.filter_append, hcomments, List.nil_append, List.filter_cons_of_pos htcode,
            List.map_cons, List.map_cons, hunplaced, hsame]

end Woven

/-! ## Documents -/

/-- Writing the tokens of a document again with other trivia around them gives the same document
up to places, as long as the text is not too long. -/
theorem Document.ofText_woven (profile : Profile) (text text' : Text) (doc : Document)
    (h : Document.ofText profile text = .ok doc)
    (hwoven : Woven profile.dialect ((doc.tokens.filter Token.isCode).map Token.text) text')
    (hsize : text'.length ≤ profile.limits.maxSize) :
    ∃ doc', Document.ofText profile text' = .ok doc' ∧
      (doc'.tokens.filter Token.isCode).map Token.unplaced =
        (doc.tokens.filter Token.isCode).map Token.unplaced ∧
      doc'.body.unplaced = doc.body.unplaced := by
  obtain ⟨-, hfault, hdoc⟩ := Document.ofText_eq_ok_iff.mp h
  obtain ⟨v, hv, hnesting, rfl⟩ := Document.ofTokens_eq_ok_iff.mp hdoc
  obtain ⟨n, hrun, -⟩ := Lexed.exists_run_of_fault?_eq_none hfault
  have halone : ∀ t ∈ (Lexed.ofText profile.dialect text).tokens.filter Token.isCode,
      Alone profile.dialect t := fun t ht => hrun.alone t (List.mem_filter.mp ht).1
  obtain ⟨ts, p, hrun', hend, hsame⟩ := hwoven.exists_run halone
    (fun t ht => (List.mem_filter.mp ht).2) (hv ▸ v.isChain_tokens)
    (show Spaced profile.dialect text' 0 text' from ⟨[], by simp, rfl⟩)
  obtain ⟨htokens, hfault'⟩ :=
    hrun'.ofText_eq (hend.gap_length (hrun'.le_length (Nat.zero_le text'.length)))
  rw [← hv] at hsame
  have hcarries : Carries profile.dialect profile.dialect profile.allowsTrailingCommas
      profile.allowsTrailingCommas (fun _ => .between .origin .origin)
      (fun _ => .between .origin .origin) :=
    ⟨.refl profile.dialect, id, fun _ _ => rfl, fun _ _ => rfl⟩
  obtain ⟨v', hv', hnode, hnesting'⟩ := v.exists_alike hcarries hsame
  have hdoc' : Document.ofTokens profile text' ts =
      .ok ⟨⟨⟨0, text'.length⟩, ⟨.origin, Cursor.endOf text'⟩⟩, v'.node, ts⟩ :=
    Document.ofTokens_eq_ok_iff.mpr ⟨v', hv', hnesting' ▸ hnesting, rfl⟩
  rw [← htokens] at hdoc'
  refine ⟨_, Document.ofText_eq_ok_iff.mpr ⟨hsize, hfault', hdoc'⟩, ?_, hnode⟩
  rw [htokens, hsame, hv]

/-- The array `[1,2]` with a block comment in front of it, a blank and a line comment between its
tokens and a line comment behind it. -/
theorem Document.ofText_woven_array :
    ∃ doc doc', Document.ofText ⟨.jsonc, {}, false⟩ "[1,2]".toList = .ok doc ∧
      Document.ofText ⟨.jsonc, {}, false⟩ "/***/[1, //,\n2]//]".toList = .ok doc' ∧
      doc'.body.unplaced = doc.body.unplaced := by
  have hread : (Document.ofText ⟨.jsonc, {}, false⟩ "[1,2]".toList).toBool = true := by
    decide +kernel
  have htexts : ((Lexed.ofText .jsonc "[1,2]".toList).tokens.filter Token.isCode).map Token.text =
      [['['], ['1'], [','], ['2'], [']']] := by decide +kernel
  have hopening : Trivia .jsonc false "/***/".toList :=
    @Trivia.block .jsonc false ['*'] [] rfl (by decide) .nil
  have hblank : Trivia .jsonc false " //,\n".toList :=
    .space rfl (@Trivia.line .jsonc false [','] ['\n'] rfl (List.forall_mem_singleton.mpr rfl)
      (.inl rfl) (.space rfl .nil))
  have hend : Trivia .jsonc true "//]".toList :=
    @Trivia.line .jsonc true [']'] [] rfl (List.forall_mem_singleton.mpr rfl)
      (.inr (.inr ⟨rfl, rfl⟩)) .nil
  have hwoven : Woven .jsonc [['['], ['1'], [','], ['2'], [']']] "/***/[1, //,\n2]//]".toList :=
    .piece hopening (.piece .nil (.piece .nil (.piece hblank (.piece .nil (.last hend)))))
  generalize "[1,2]".toList = text at hread htexts ⊢
  obtain ⟨doc, hdoc⟩ := Document.exists_of_toBool hread
  rw [← htexts, ← Document.tokens_of_ofText hdoc] at hwoven
  obtain ⟨doc', hread', -, hbody⟩ :=
    Document.ofText_woven ⟨.jsonc, {}, false⟩ text _ doc hdoc hwoven (by decide)
  exact ⟨doc, doc', hdoc, hread', hbody⟩

end LocatedJson
