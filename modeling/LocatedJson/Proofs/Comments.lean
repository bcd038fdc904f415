import LocatedJson.Proofs.Labels
import LocatedJson.Proofs.Tiling
import LocatedJson.Proofs.Trivia
import LocatedJson.SourceFile
import Mathlib.Data.List.Forall2

/-!
# The comments of a document

A source file finds the comments that bear directives by ranges: it cuts the
text of a comment out of its own text, takes the delimiters off, and looks at
the first word; whether a comment spans several lines is seen from the places
at its ends. Of a document that was read from the text all this can be said of
the tokens alone. `Token.commentBody?` is the text between the delimiters, and
`Document.inlineComments` lists the comments that are read with one of the
inline labels. The comments that the file finds are these (`Document.bears`),
and a comment spans several lines exactly if there is a line end in it.
-/

namespace LocatedJson

open LocatedJson.Text LocatedJson.Directive

/-! ## The text between the delimiters -/

/-- The text of a comment without its delimiters. -/
def Token.commentBody? (t : Token) : Option Text :=
  match t.kind with
  | .lineComment => some (t.text.drop 2)
  | .blockComment => some ((t.text.drop 2).take (t.text.length - 4))
  | _ => none

/-- A comment with one of the inline labels: its place among the tokens, and what it is read
as. -/
structure InlineComment where
  index : Nat
  token : Token
  comment : Comment
  deriving DecidableEq, Repr

namespace InlineComment

def of? (t : Token) (index : Nat) : Option InlineComment :=
  (t.commentBody?.bind Comment.ofText?).bind fun comment =>
    if comment.label.text ∈ inlineLabels then some ⟨index, t, comment⟩ else none

end InlineComment

/-- The inline comments of a document, in their order. -/
def Document.inlineComments (doc : Document) : List InlineComment :=
  doc.tokens.zipIdx.filterMap fun (t, index) => InlineComment.of? t index

/-- The characters of a comment token around its body. A line comment has no line end in it. -/
inductive Delimited : Token.Kind → Text → Text → Prop
  | line {body : Text} (hbody : ∀ c ∈ body, isLineEnd c = false) :
      Delimited .lineComment ('/' :: '/' :: body) body
  | block {body : Text} : Delimited .blockComment ('/' :: '*' :: (body ++ ['*', '/'])) body

theorem Lexeme.exists_of_blockTail? {cs : Text} {n : Nat} (h : blockTail? cs = some n) :
    ∃ body rest, cs = body ++ '*' :: '/' :: rest ∧ n = body.length + 2 := by
  induction cs generalizing n with
  | nil => cases h
  | cons c cs ih =>
      rw [blockTail?_cons] at h
      split at h
      · rename_i hclose
        obtain ⟨rfl, hhead⟩ := hclose
        obtain ⟨rest, rfl⟩ : ∃ rest, cs = '/' :: rest := List.head?_eq_some_iff.mp hhead
        cases h
        exact ⟨[], rest, rfl, rfl⟩
      · obtain ⟨m, hm, rfl⟩ := Option.map_eq_some_iff.mp h
        obtain ⟨body, rest, rfl, rfl⟩ := ih hm
        exact ⟨c :: body, rest, rfl, by simp⟩

/-- A comment token is a body between its delimiters. -/
theorem Alone.delimited {d : Dialect} {t : Token} (h : Alone d t) (hcomment : t.isComment = true) :
    ∃ body, Delimited t.kind t.text body := by
  obtain ⟨c, word, htext, hscan⟩ := h
  rw [htext]
  rcases Lexeme.scan_cases hscan with hfound | ⟨hcode, -, -⟩
  · obtain ⟨-, rfl, after, ⟨rfl, hkind, hsize⟩ | ⟨rfl, hkind, n, hn, hsize⟩⟩ :=
      Lexeme.comment?_eq_found_iff.mp hfound
    · rw [hkind]
      refine ⟨after, .line fun c hc => ?_⟩
      have hall : after.takeWhile (fun x => !isLineEnd x) = after := by
        refine (List.takeWhile_prefix _).eq_of_length ?_
        rw [List.length_cons] at hsize
        omega
      rw [← hall] at hc
      simpa using List.mem_takeWhile_imp hc
    · rw [hkind]
      obtain ⟨body, rest, rfl, rfl⟩ := Lexeme.exists_of_blockTail? hn
      simp only [List.length_cons, List.length_append] at hsize
      obtain rfl : rest = [] := List.length_eq_zero_iff.mp (by omega)
      exact ⟨body, .block⟩
  · rw [Token.isComment, hcode] at hcomment
    cases hcomment

namespace Delimited

variable {t : Token} {body : Text}

theorem commentBody?_eq (h : Delimited t.kind t.text body) : t.commentBody? = some body := by
  obtain ⟨kind, text, extent⟩ := t
  cases h with
  | line hbody => rfl
  | block => simp [Token.commentBody?]

/-- A file that has the characters of the token at its range finds its body there. -/
theorem commentText_eq {f : SourceFile} {form : CommentForm} (h : Delimited t.kind t.text body)
    (hform : t.kind.commentForm? = some form) (htext : f.textOf t.extent.range 0 0 = t.text) :
    f.commentText form t.extent.range = body := by
  unfold SourceFile.commentText
  rw [htext]
  clear htext
  obtain ⟨kind, text, extent⟩ := t
  cases h with
  | line hbody =>
      cases hform
      have hplace : place (body.length + 2) 2 = 2 := place_natCast (n := 2) (by omega)
      simp only [sliceFrom, List.length_cons, hplace]
      rfl
  | block =>
      cases hform
      have hstart : place (body.length + 2 + 2) 2 = 2 := place_natCast (n := 2) (by omega)
      have hstop : place (body.length + 2 + 2) (-2) = body.length + 2 := by
        unfold place
        split <;> omega
      simp only [slice, List.length_cons, List.length_append, List.length_nil, hstart, hstop]
      simp

/-- A comment does not end with a carriage return, which would go with what follows. -/
theorem getLast?_ne {kind : Token.Kind} {cs : Text} (h : Delimited kind cs body) :
    cs.getLast? ≠ some '\r' := by
  cases h with
  | line hbody =>
      intro hlast
      have hmem := List.mem_of_getLast? hlast
      simp only [List.mem_cons] at hmem
      rcases hmem with hslash | hslash | hmem
      · exact absurd hslash (by decide)
      · exact absurd hslash (by decide)
      · exact absurd (hbody _ hmem) (by decide)
  | block => simp [List.getLast?_cons, List.getLast?_append]

end Delimited

/-! ## Comments on several lines -/

namespace Cursor

theorem line_le_advanceBy (n : Nat) (c : Cursor) : c.line ≤ (advanceBy n c).line := by
  induction n generalizing c with
  | zero => exact Nat.le_refl _
  | succ n ih =>
      have hstep : c.line ≤ c.advance.line := by
        unfold advance
        split
        · exact Nat.le_refl _
        · split
          · exact Nat.le_succ _
          · exact Nat.le_refl _
      rw [advanceBy_succ]
      exact Nat.le_trans hstep (ih c.advance)

/-- The line stays the same over characters without a line end. A carriage return counts only
with what follows it, so it must not be the last of the characters. -/
theorem line_advanceBy_eq_iff (n : Nat) (c : Cursor)
    (hlast : (c.rest.take n).getLast? ≠ some '\r') :
    (advanceBy n c).line = c.line ↔ ∀ ch ∈ c.rest.take n, isLineEnd ch = false := by
  induction n generalizing c with
  | zero => simp [advanceBy]
  | succ n ih =>
      cases hrest : c.rest with
      | nil => simp [advanceBy, hrest]
      | cons ch rest =>
          rw [hrest, List.take_succ_cons] at hlast
          have hahead : c.advance.rest = rest := by
            rw [rest_advance, hrest, List.drop_one, List.tail_cons]
          have hlast' : (c.advance.rest.take n).getLast? ≠ some '\r' := by
            rw [hahead]
            intro h
            refine hlast ?_
            rw [List.getLast?_cons, h]
            rfl
          have hmono := line_le_advanceBy n c.advance
          rw [advanceBy_succ, List.take_succ_cons, List.forall_mem_cons]
          have hadvance := ih c.advance hlast'
          rw [hahead] at hadvance
          have hline : c.advance.line =
              if isLineEnd ch && !(ch == '\r' && rest.head? == some '\n') then c.line + 1
              else c.line := by
            rw [advance, hrest]
            dsimp only
            split <;> rfl
          cases hend : isLineEnd ch with
          | false =>
              rw [hend, Bool.false_and, if_neg Bool.false_ne_true] at hline
              rw [← hline, hadvance]
              simp
          | true =>
              simp only [hend, Bool.true_and] at hline
              simp only [Bool.true_eq_false, false_and, iff_false]
              split at hline
              · omega
              · -- the line feed behind a carriage return is among the characters
                rename_i hpair
                obtain ⟨rfl, hfeed⟩ : ch = '\r' ∧ rest.head? = some '\n' := by simpa using hpair
                obtain ⟨rest', rfl⟩ := List.head?_eq_some_iff.mp hfeed
                cases n with
                | zero => exact absurd rfl hlast
                | succ n =>
                    rw [← hline, hadvance]
                    intro hall
                    exact absurd (hall '\n' (by simp)) (by decide)

end Cursor

theorem Run.exists_tokenOf {d : Dialect} {text : Text} {k n : Nat} {ts : List Token}
    (h : Run d text k ts n) :
    ∀ t ∈ ts, ∃ m kind size, t = (Cursor.atOffset text m).tokenOf kind size := by
  induction h with
  | nil k => simp
  | cons hgap hrest hscan hrun ih => exact List.forall_mem_cons.mpr ⟨⟨_, _, _, rfl⟩, ih⟩

/-- A comment token spans several lines exactly if there is a line end in it. -/
theorem Delimited.isMultiline_iff {text : Text} {m size : Nat} {kind : Token.Kind} {body : Text}
    (h : Delimited kind ((Cursor.atOffset text m).tokenOf kind size).text body) :
    ((Cursor.atOffset text m).tokenOf kind size).extent.span.isMultiline = true ↔
      ∃ c ∈ ((Cursor.atOffset text m).tokenOf kind size).text, isLineEnd c = true := by
  have hline := Cursor.line_advanceBy_eq_iff size (Cursor.atOffset text m) h.getLast?_ne
  have hspan : ((Cursor.atOffset text m).tokenOf kind size).extent.span.isMultiline = true ↔
      ¬ (Cursor.advanceBy size (Cursor.atOffset text m)).line = (Cursor.atOffset text m).line := by
    change (((Cursor.atOffset text m).line : Int) !=
      (Cursor.advanceBy size (Cursor.atOffset text m)).line) = true ↔ _
    rw [bne_iff_ne]
    omega
  rw [hspan, hline]
  simp [Cursor.tokenOf]

/-! ## What the file finds -/

/-- What a file finds about a comment is what the comment is. -/
structure Bears (b : Bearer) (e : InlineComment) : Prop where
  index : b.index = e.index
  span : b.span = e.token.extent.span
  comment : Comment.ofText? b.text = some e.comment
  label : e.comment.label.text ∈ inlineLabels
  multiline : b.span.isMultiline = true ↔ ∃ c ∈ e.token.text, isLineEnd c = true

theorem commentForm?_eq_none_iff {t : Token} :
    t.kind.commentForm? = none ↔ t.isComment = false := by
  rw [Token.isComment]
  cases t.kind <;> simp [Token.Kind.commentForm?, Token.Kind.isComment]

theorem commentBody?_eq_none {t : Token} (h : t.isComment = false) : t.commentBody? = none := by
  rw [Token.isComment] at h
  rw [Token.commentBody?]
  cases hkind : t.kind <;> simp_all [Token.Kind.isComment]

/-- What a file finds about one token of a document. -/
theorem bears_of_delimited {f : SourceFile} {t : Token} {body : Text} {index : Nat}
    {form : CommentForm} (h : Delimited t.kind t.text body)
    (hform : t.kind.commentForm? = some form) (htext : f.textOf t.extent.range 0 0 = t.text)
    (hlines : t.extent.span.isMultiline = true ↔ ∃ c ∈ t.text, isLineEnd c = true) :
    Option.Rel Bears
      ((some ⟨index, t.extent.span, f.commentText form t.extent.range⟩ : Option Bearer).filter
        fun b => isInline b.text)
      (InlineComment.of? t index) := by
  rw [h.commentText_eq hform htext, InlineComment.of?, h.commentBody?_eq, Option.bind_some]
  cases hinline : isInline body with
  | true =>
      obtain ⟨comment, hcomment, hlabel⟩ := isInline_iff_label.mp hinline
      rw [hcomment, Option.bind_some, if_pos hlabel, Option.filter_some, if_pos hinline]
      exact .some ⟨rfl, rfl, hcomment, hlabel, hlines⟩
  | false =>
      rw [Option.filter_some, if_neg (by simp [hinline])]
      cases hcomment : Comment.ofText? body with
      | none => exact .none
      | some comment =>
          have hlabel : comment.label.text ∉ inlineLabels := by
            intro hlabel
            have htrue := isInline_iff_label.mpr ⟨comment, hcomment, hlabel⟩
            cases htrue.symm.trans hinline
          rw [Option.bind_some, if_neg hlabel]
          exact .none

/-- The comments that a file finds in a document are the inline comments of the document. -/
theorem Document.bears {profile : Profile} {text : Text} {doc : Document}
    (h : Document.ofText profile text = .ok doc) :
    List.Forall₂ Bears (SourceFile.ofDocument text doc).bearers doc.inlineComments := by
  obtain ⟨-, hfault, -⟩ := Document.ofText_eq_ok_iff.mp h
  obtain ⟨n, hrun, hgap⟩ := Lexed.exists_run_of_fault?_eq_none hfault
  rw [← Document.tokens_of_ofText h] at hrun
  have htiles := hrun.tiles hgap
  have hbears : ∀ t ∈ doc.tokens, ∀ index, Option.Rel Bears
      ((t.kind.commentForm?.map fun form => (⟨index, t.extent.span,
        (SourceFile.ofDocument text doc).commentText form t.extent.range⟩ : Bearer)).filter
          fun b => isInline b.text)
      (InlineComment.of? t index) := by
    intro t ht index
    cases hform : t.kind.commentForm? with
    | none =>
        rw [InlineComment.of?, commentBody?_eq_none (commentForm?_eq_none_iff.mp hform)]
        exact .none
    | some form =>
        have hcomment : t.isComment = true := by
          by_contra hcode
          rw [Bool.not_eq_true, ← commentForm?_eq_none_iff, hform] at hcode
          cases hcode
        obtain ⟨body, hbody⟩ := (hrun.alone t ht).delimited hcomment
        have htext : (SourceFile.ofDocument text doc).textOf t.extent.range 0 0 = t.text := by
          have hstart : 0 ≤ t.extent.range.start := (htiles.within t ht).1
          rw [htiles.text_eq t ht, SourceFile.textOf, Int.sub_zero, Int.add_zero,
            Int.max_eq_left hstart]
          rfl
        refine bears_of_delimited hbody hform htext ?_
        obtain ⟨m, kind, size, rfl⟩ := hrun.exists_tokenOf t ht
        exact hbody.isMultiline_iff
  rw [SourceFile.bearers, List.filter_filterMap]
  refine List.rel_filterMap (R := fun x y => x = y ∧ x.1 ∈ doc.tokens) ?_ ?_
  · rintro ⟨t, index⟩ - ⟨rfl, ht⟩
    exact hbears t ht index
  · exact List.forall₂_same.mpr fun x hx => ⟨rfl, List.fst_mem_of_mem_zipIdx hx⟩

/-! ## The order of the comments -/

theorem InlineComment.of?_eq_some {t : Token} {index : Nat} {e : InlineComment}
    (h : of? t index = some e) : e.token = t ∧ e.index = index := by
  obtain ⟨comment, -, he⟩ := Option.bind_eq_some_iff.mp h
  split at he
  · cases he
    exact ⟨rfl, rfl⟩
  · cases he

/-- An inline comment is the token at its place. -/
theorem Document.getElem?_of_mem_inlineComments {doc : Document} {e : InlineComment}
    (h : e ∈ doc.inlineComments) : doc.tokens[e.index]? = some e.token := by
  obtain ⟨⟨t, index⟩, ht, he⟩ := List.mem_filterMap.mp h
  obtain ⟨rfl, rfl⟩ := InlineComment.of?_eq_some he
  exact List.mem_zipIdx_iff_getElem?.mp ht

/-- The inline comments are in the order of the text. -/
theorem Document.pairwise_inlineComments {profile : Profile} {text : Text} {doc : Document}
    (h : Document.ofText profile text = .ok doc) :
    doc.inlineComments.Pairwise fun e e' =>
      e.token.extent.range.stop ≤ e'.token.extent.range.start := by
  obtain ⟨-, hfault, -⟩ := Document.ofText_eq_ok_iff.mp h
  obtain ⟨n, hrun, hgap⟩ := Lexed.exists_run_of_fault?_eq_none hfault
  have hordered := (hrun.tiles hgap).ordered
  rw [← Document.tokens_of_ofText h, ← List.zipIdx_map_fst 0 doc.tokens, List.pairwise_map]
    at hordered
  refine hordered.filterMap _ ?_
  rintro ⟨t, index⟩ ⟨t', index'⟩ hle e he e' he'
  rw [(InlineComment.of?_eq_some he).1, (InlineComment.of?_eq_some he').1]
  exact hle

end LocatedJson
