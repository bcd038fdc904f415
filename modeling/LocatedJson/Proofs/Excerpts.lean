import LocatedJson.Proofs.Alignment
import LocatedJson.Proofs.Comments
import LocatedJson.Proofs.Refusals
import LocatedJson.Proofs.Sentences
import LocatedJson.Session

/-!
# Values are documents of their own

The text of a value, cut out of the text of its document, is a document: its
body is the value and its tokens are those of the value, all with places
counted from where the value starts (`Document.ofText_excerpt`).

A run of tokens is taken to the cut-out text in two steps. Cutting off what
follows changes nothing (`Run.cut`), since a value does not end with a
carriage return that would go with a line feed behind it (`Alone.getLast?_ne`).
Cutting off what comes before moves all places in the same way (`Run.drop`),
since no step of the token loop looks back. The value is then found in the
moved tokens as it was found in the others (`Grammar.Value.exists_alike`).
-/

namespace LocatedJson

open LocatedJson.Grammar LocatedJson.Text

/-! ## Places counted from another place -/

/-- A place as it is counted from another one on, which is the first of its text then. Columns
are counted anew only on the line of the other place. -/
def Position.since (origin p : Position) : Position :=
  ⟨p.line - origin.line + 1,
    if p.line = origin.line then p.column - origin.column + 1 else p.column,
    p.offset - origin.offset⟩

def Extent.since (origin : Position) (e : Extent) : Extent :=
  ⟨⟨e.range.start - origin.offset, e.range.stop - origin.offset⟩,
    ⟨origin.since e.span.start, origin.since e.span.stop⟩⟩

mutual

/-- The value and all values below it; the names of members are none. -/
def Node.values : Node → List Node
  | .string e points => [.string e points]
  | .number e n => [.number e n]
  | .boolean e b => [.boolean e b]
  | .null e => [.null e]
  | .nan e sign => [.nan e sign]
  | .infinity e sign => [.infinity e sign]
  | .object e members => .object e members :: Node.memberValues members
  | .array e elements => .array e elements :: Node.elementValues elements

def Node.memberValues : List (Key × Node) → List Node
  | [] => []
  | (_, value) :: rest => value.values ++ Node.memberValues rest

def Node.elementValues : List Node → List Node
  | [] => []
  | value :: rest => value.values ++ Node.elementValues rest

end

variable {d : Dialect} {text : Text} {k s n : Nat} {ts : List Token}

namespace Cursor

/-- Cutting off the front of a text counts its places from the cut on. -/
theorem position_atOffset_drop (s j : Nat) :
    (atOffset (text.drop s) j).position =
      (atOffset text s).position.since (atOffset text (s + j)).position := by
  induction j with
  | zero =>
      rw [Nat.add_zero, Position.since, if_pos rfl]
      simp [atOffset, advanceBy, ofText, position]
  | succ j ih =>
      have hline : (atOffset text s).line ≤ (atOffset text (s + j)).line := by
        rw [← advanceBy_atOffset]
        exact line_le_advanceBy j _
      have hsame : (text.drop s).drop j = text.drop (s + j) := List.drop_drop
      rw [← Nat.add_assoc, atOffset_succ, atOffset_succ]
      cases hrest : text.drop (s + j) with
      | nil =>
          rw [advance, advance, rest_atOffset, rest_atOffset, hsame, hrest]
          exact ih
      | cons ch rest =>
          rw [position_advance (rest_atOffset.trans (hsame.trans hrest)),
            position_advance (rest_atOffset.trans hrest), ih]
          cases isLineEnd ch && !(ch == '\r' && rest.head? == some '\n') with
          | true =>
              -- a line that is counted lies behind the line of the cut
              have hbehind : ¬ ((atOffset text (s + j)).position.line + 1 =
                  (atOffset text s).position.line) := by
                simp only [position]
                omega
              simp only [Position.since, if_true, if_neg hbehind, Position.mk.injEq, true_and]
              omega
          | false =>
              simp only [Position.since, Bool.false_eq_true, if_false, Position.mk.injEq, true_and]
              split <;> omega

end Cursor

/-! ## Runs on cut-out texts -/

theorem Gap.drop {m : Nat} (h : Gap d text k m) (hs : s ≤ k) :
    Gap d (text.drop s) (k - s) (m - s) where
  le := Nat.sub_le_sub_right h.le s
  le_length := by
    rw [List.length_drop]
    exact Nat.sub_le_sub_right h.le_length s
  blank i ch hki him hch := by
    rw [List.getElem?_drop] at hch
    exact h.blank (s + i) ch (by omega) (by omega) hch
  stop ch hch := by
    have hle := h.le
    rw [List.getElem?_drop, Nat.add_sub_cancel' (by omega)] at hch
    exact h.stop ch hch

namespace Run

/-- A run is made again on the text without its front, with all places moved. -/
theorem drop (h : Run d text k ts n) (hs : s ≤ k) :
    Run d (text.drop s) (k - s)
      (ts.map (Token.mapExtent (Extent.since (Cursor.atOffset text s).position))) (n - s) := by
  induction h with
  | nil k => exact .nil (k - s)
  | @cons k m n size ch rest kind ts hgap hrest hscan hrun ih =>
      have hkm := hgap.le
      have hm : s + (m - s) = m := by omega
      have hsize : m - s + size = m + size - s := by omega
      have hrest' : (text.drop s).drop (m - s) = ch :: rest := by rw [List.drop_drop, hm, hrest]
      have htoken : (Cursor.atOffset (text.drop s) (m - s)).tokenOf kind size =
          ((Cursor.atOffset text m).tokenOf kind size).mapExtent
            (Extent.since (Cursor.atOffset text s).position) := by
        simp only [Cursor.tokenOf, Cursor.rest_atOffset, Cursor.advanceBy_atOffset,
          Cursor.position_atOffset_drop, List.drop_drop, ← Nat.add_assoc, hm]
        rfl
      rw [List.map_cons, ← htoken]
      refine .cons (hgap.drop hs) hrest' hscan ?_
      rw [hsize]
      exact ih (by omega)

theorem exists_of_append {us : List Token} (h : Run d text k (ts ++ us) n) :
    ∃ m, Run d text k ts m ∧ Run d text m us n := by
  induction ts generalizing k with
  | nil => exact ⟨k, .nil k, h⟩
  | cons t ts ih =>
      cases h with
      | cons hgap hrest hscan hrun =>
          obtain ⟨m, hfront, hback⟩ := ih hrun
          exact ⟨m, .cons hgap hrest hscan hfront, hback⟩

/-- A run may as well start at its first token. -/
theorem of_head {t : Token} (h : Run d text k (t :: ts) n) :
    ∃ m : Nat, t.extent.range.start = m ∧ t.extent.span.start = (Cursor.atOffset text m).position ∧
      Run d text m (t :: ts) n := by
  cases h with
  | @cons _ m _ size ch rest kind ts hgap hrest hscan hrun =>
      refine ⟨m, ?_, rfl, .cons (.refl hgap.le_length hgap.stop) hrest hscan hrun⟩
      rw [range_tokenOf (add_le_length_of_scan hrest hscan)]

/-- A run ends where its last token does. -/
theorem stop_of_getLast? {t : Token} (h : Run d text k ts n) (hlast : ts.getLast? = some t) :
    t.extent.range.stop = n := by
  induction h with
  | nil k => cases hlast
  | @cons k m n size ch rest kind ts hgap hrest hscan hrun ih =>
      cases hrun with
      | nil =>
          obtain rfl : (Cursor.atOffset text m).tokenOf kind size = t := by simpa using hlast
          rw [range_tokenOf (add_le_length_of_scan hrest hscan)]
      | cons hgap' hrest' hscan' hrun' =>
          rw [List.getLast?_cons_cons] at hlast
          exact ih hlast

end Run

/-! ## How tokens end -/

theorem Numeral.Literal.not_mem_return {cs : Text} (h : Numeral.Literal isDecimal cs) :
    '\r' ∉ cs := by
  obtain ⟨sign, body, rfl, hsign, hbody⟩ := h
  intro hmem
  rcases List.mem_append.mp hmem with hmem | hmem
  · simp only [List.mem_cons, List.not_mem_nil, or_false] at hsign
    rcases hsign with rfl | rfl | rfl <;> revert hmem <;> decide
  · rcases hbody with ⟨hx, hne, hds⟩ | hdecimal
    · simp only [List.mem_cons] at hmem
      rcases hmem with hmem | hmem | hmem
      · cases hmem
      · rw [← hmem] at hx
        revert hx
        decide
      · exact absurd (hds _ hmem) (by decide)
    · exact hdecimal.not_mem (by decide) (by decide) hmem

/-- A code token does not end with a carriage return: a quote ends a string, and the others have
none. -/
theorem Alone.getLast?_ne {t : Token} (h : Alone d t) (hcode : t.isCode = true) :
    t.text.getLast? ≠ some '\r' := by
  have hliteral := h.literal
  obtain ⟨c, word, htext, hscan⟩ := h
  rw [htext] at hliteral ⊢
  intro hlast
  have hmem := List.mem_of_getLast? hlast
  simp only [Lexeme.scan, Lexeme.getD_eq_iff] at hscan
  rcases hscan with h | ⟨-, h | ⟨-, h | ⟨-, h | ⟨-, h | ⟨-, h | ⟨-, h⟩⟩⟩⟩⟩⟩
  · have hcomment := (Lexeme.isComment_of_comment? h).2
    rw [Token.isCode, Token.isComment, hcomment] at hcode
    cases hcode
  · obtain ⟨kind, hkind, hfound⟩ := Option.map_eq_some_iff.mp h
    obtain ⟨-, hsize⟩ := Lexeme.found.inj hfound
    obtain rfl : word = [] := List.length_eq_zero_iff.mp (by omega)
    obtain rfl : c = '\r' := by simpa using hlast
    cases hkind
  · obtain ⟨hquote, hclosed, -, hsize⟩ := Lexeme.string?_eq_found_iff.mp h
    obtain ⟨body, after, rfl, -, hbody⟩ := Lexeme.exists_body_of_quotedTail hclosed
    rw [hbody, List.length_append, List.length_cons] at hsize
    obtain rfl : after = [] := List.length_eq_zero_iff.mp (by omega)
    obtain rfl : c = '\r' := by simpa [List.getLast?_cons] using hlast
    cases (Lexeme.isHardLineEnd_eq_false_of_isQuote hquote)
  · obtain ⟨⟨-, hsign⟩, ⟨hword, -, hsize⟩ | ⟨hword, -, hsize⟩⟩ :=
      Lexeme.signedKeyword?_eq_found_iff.mp h
    all_goals
      rw [← hword.eq_of_length (by simp only [List.length_cons, List.length_nil]; omega)] at hmem
      rcases hsign with rfl | rfl <;> revert hmem <;> decide
  · obtain ⟨hkind, -⟩ := Lexeme.number?_eq_found_iff.mp h
    exact (hliteral hkind).not_mem_return hmem
  · obtain ⟨hstart, -, hsize⟩ := Lexeme.word?_eq_found_iff.mp h
    have hall : word.takeWhile Lexeme.isWordPart = word :=
      (List.takeWhile_prefix _).eq_of_length (by omega)
    rcases List.mem_cons.mp hmem with rfl | hmem
    · revert hstart
      decide +kernel
    · rw [← hall] at hmem
      exact absurd (List.mem_takeWhile_imp hmem) (by decide +kernel)
  · cases h

/-! ## The tokens inside a range -/

/-- Whether a token lies in a range. -/
def Token.isWithin (range : Range) (t : Token) : Bool :=
  range.start ≤ t.extent.range.start && t.extent.range.stop ≤ range.stop

/-- Entries that a filter leaves side by side are, with what stands between them, a part of the
list. -/
theorem exists_part_of_filter {α : Type} {p : α → Bool} {xs ys : List α}
    (h : ys <:+: xs.filter p) (hne : ys ≠ []) :
    ∃ front part back, xs = front ++ part ++ back ∧ part.filter p = ys ∧
      part.head? = ys.head? ∧ part.getLast? = ys.getLast? := by
  obtain ⟨before, after, hfilter⟩ := h
  obtain ⟨xs₁, xs₂, rfl, hxs₁, -⟩ := List.filter_eq_append_iff.mp hfilter.symm
  obtain ⟨front, middle, rfl, -, hmiddle⟩ := List.filter_eq_append_iff.mp hxs₁
  obtain ⟨ys, y, rfl⟩ := List.eq_nil_or_concat' ys |>.resolve_left hne
  obtain ⟨init, last, rfl, hinit, hlast⟩ := List.filter_eq_append_iff.mp hmiddle
  obtain ⟨gap, rest, rfl, hgap, hy, -⟩ := List.filter_eq_cons_iff.mp hlast
  -- the part ends at its last entry; cut what comes before its first one
  have hpart : (init ++ gap ++ [y]).filter p = ys ++ [y] := by
    have hnone : gap.filter p = [] := by simpa using hgap
    simp [hinit, hnone, hy]
  cases hys : ys ++ [y] with
  | nil => simp at hys
  | cons a as =>
      obtain ⟨gap', part, hsplit, -, ha, hrest⟩ := List.filter_eq_cons_iff.mp (hpart.trans hys)
      refine ⟨front ++ gap', a :: part, rest ++ xs₂, ?_, ?_, rfl, ?_⟩
      · have hwhole : init ++ (gap ++ y :: rest) = gap' ++ a :: part ++ rest := by
          rw [← hsplit]
          simp
        simp [hwhole]
      · rw [List.filter_cons_of_pos ha, hrest]
      · have hend := congrArg List.getLast? hsplit
        rw [List.getLast?_concat, List.getLast?_append_cons] at hend
        rw [← hend, ← hys, List.getLast?_concat]

/-- Of tokens in a row those of a part of it are in its range. -/
theorem Ordered.filter_isWithin {front part back : List Token} {e : Extent}
    (h : Ordered (front ++ part ++ back)) (hspans : Spans part e) :
    (front ++ part ++ back).filter (Token.isWithin e.range) = part := by
  have hpart : Ordered part := h.sublist
    ((List.sublist_append_right front part).trans (List.sublist_append_left _ back))
  obtain ⟨first, hfirst, hstart⟩ := hspans.exists_first
  obtain ⟨last, hlast, hstop⟩ := hspans.exists_last
  have hbefore : front.filter (Token.isWithin e.range) = [] := by
    rw [List.filter_eq_nil_iff]
    intro t ht hin
    have hle := (h.sublist (List.sublist_append_left _ back)).stop_le_start ht hfirst
    have hpos := h.nonempty t (by simp [ht])
    simp only [Token.isWithin, Bool.and_eq_true, decide_eq_true_eq] at hin
    omega
  have hbehind : back.filter (Token.isWithin e.range) = [] := by
    rw [List.filter_eq_nil_iff]
    intro t ht hin
    have hle := h.stop_le_start (List.mem_append_right front hlast) ht
    have hpos := h.nonempty t (by simp [ht])
    simp only [Token.isWithin, Bool.and_eq_true, decide_eq_true_eq] at hin
    omega
  have hinside : part.filter (Token.isWithin e.range) = part := by
    rw [List.filter_eq_self]
    intro t ht
    have hle := hspans.le_of_mem hpart ht
    simpa [Token.isWithin] using hle
  rw [List.filter_append, List.filter_append, hbefore, hbehind, hinside, List.nil_append,
    List.append_nil]

/-! ## The values of a sentence -/

namespace Grammar

variable {trailing : Bool}

theorem Scalar.values_eq {t : Token} {node : Node} (h : Scalar d t node) :
    node.values = [node] := by
  cases h <;> rfl

mutual

/-- A value below the node of a derivation is the node of a part of it. -/
theorem Value.exists_of_mem_values (g : Value d trailing) {v : Node} (hv : v ∈ g.node.values) :
    ∃ part : Value d trailing, part.node = v ∧ part.tokens <:+: g.tokens ∧
      part.nesting ≤ g.nesting := by
  match g with
  | .scalar t node is =>
      rw [Value.node, is.values_eq, List.mem_singleton] at hv
      exact ⟨.scalar t node is, hv.symm, List.infix_rfl, Nat.le_refl _⟩
  | .emptyObject opening closing =>
      obtain rfl : v = _ := by simpa [Value.node, Node.values, Node.memberValues] using hv
      exact ⟨.emptyObject opening closing, rfl, List.infix_rfl, Nat.le_refl _⟩
  | .emptyArray opening closing =>
      obtain rfl : v = _ := by simpa [Value.node, Node.values, Node.elementValues] using hv
      exact ⟨.emptyArray opening closing, rfl, List.infix_rfl, Nat.le_refl _⟩
  | .object opening members closing =>
      rcases List.mem_cons.mp hv with rfl | hv
      · exact ⟨.object opening members closing, rfl, List.infix_rfl, Nat.le_refl _⟩
      · obtain ⟨part, hnode, htokens, hnesting⟩ := members.exists_of_mem_values hv
        exact ⟨part, hnode, htokens.trans ⟨[opening.val], [closing.val], rfl⟩,
          Nat.le_succ_of_le hnesting⟩
  | .array opening elements closing =>
      rcases List.mem_cons.mp hv with rfl | hv
      · exact ⟨.array opening elements closing, rfl, List.infix_rfl, Nat.le_refl _⟩
      · obtain ⟨part, hnode, htokens, hnesting⟩ := elements.exists_of_mem_values hv
        exact ⟨part, hnode, htokens.trans ⟨[opening.val], [closing.val], rfl⟩,
          Nat.le_succ_of_le hnesting⟩

theorem Members.exists_of_mem_values (m : Members d trailing) {v : Node}
    (hv : v ∈ Node.memberValues m.pairs) :
    ∃ part : Value d trailing, part.node = v ∧ part.tokens <:+: m.tokens ∧
      part.nesting ≤ m.nesting := by
  match m with
  | .last t key is colon value trailer =>
      simp only [Members.pairs, Node.memberValues, List.append_nil] at hv
      obtain ⟨part, hnode, htokens, hnesting⟩ := value.exists_of_mem_values hv
      exact ⟨part, hnode, htokens.trans ⟨[t, colon.val], trailer.tokens, rfl⟩, hnesting⟩
  | .more t key is colon value comma rest =>
      rcases List.mem_append.mp hv with hv | hv
      · obtain ⟨part, hnode, htokens, hnesting⟩ := value.exists_of_mem_values hv
        exact ⟨part, hnode, htokens.trans ⟨[t, colon.val], comma.val :: rest.tokens, rfl⟩,
          Nat.le_trans hnesting (Nat.le_max_left _ _)⟩
      · obtain ⟨part, hnode, htokens, hnesting⟩ := rest.exists_of_mem_values hv
        refine ⟨part, hnode, htokens.trans ?_, Nat.le_trans hnesting (Nat.le_max_right _ _)⟩
        exact ⟨t :: colon.val :: value.tokens ++ [comma.val], [], by simp [Members.tokens]⟩

theorem Elements.exists_of_mem_values (e : Elements d trailing) {v : Node}
    (hv : v ∈ Node.elementValues e.nodes) :
    ∃ part : Value d trailing, part.node = v ∧ part.tokens <:+: e.tokens ∧
      part.nesting ≤ e.nesting := by
  match e with
  | .last value trailer =>
      simp only [Elements.nodes, Node.elementValues, List.append_nil] at hv
      obtain ⟨part, hnode, htokens, hnesting⟩ := value.exists_of_mem_values hv
      exact ⟨part, hnode, htokens.trans ⟨[], trailer.tokens, rfl⟩, hnesting⟩
  | .more value comma rest =>
      rcases List.mem_append.mp hv with hv | hv
      · obtain ⟨part, hnode, htokens, hnesting⟩ := value.exists_of_mem_values hv
        exact ⟨part, hnode, htokens.trans ⟨[], comma.val :: rest.tokens, rfl⟩,
          Nat.le_trans hnesting (Nat.le_max_left _ _)⟩
      · obtain ⟨part, hnode, htokens, hnesting⟩ := rest.exists_of_mem_values hv
        refine ⟨part, hnode, htokens.trans ?_, Nat.le_trans hnesting (Nat.le_max_right _ _)⟩
        exact ⟨value.tokens ++ [comma.val], [], by simp [Elements.tokens]⟩

end

end Grammar

/-! ## The text of a value -/

namespace Run

theorem getElem?_of_getLast? {t : Token} (h : Run d text k ts n) (hlast : ts.getLast? = some t) :
    text[n - 1]? = t.text.getLast? := by
  induction h with
  | nil k => cases hlast
  | @cons k m n size ch rest kind ts hgap hrest hscan hrun ih =>
      cases hrun with
      | nil =>
          obtain rfl : (Cursor.atOffset text m).tokenOf kind size = t := by simpa using hlast
          have hsize := Lexeme.size_pos_of_scan hscan
          have hle := add_le_length_of_scan hrest hscan
          rw [Cursor.tokenOf, Cursor.rest_atOffset, List.getLast?_eq_getElem?, List.length_take,
            List.length_drop, List.getElem?_take_of_lt (by omega), List.getElem?_drop]
          congr 1
          omega
      | cons hgap' hrest' hscan' hrun' =>
          rw [List.getLast?_cons_cons] at hlast
          exact ih hlast

/-- The text between the first and the last token of a run has the tokens of the run, with their
places counted from its start. The last token must not be cut from a line feed. -/
theorem ofText_slice {e : Extent} (h : Run d text k ts n) (hk : k ≤ text.length)
    (hspans : Spans ts e) (hlast : ∀ t, ts.getLast? = some t → t.text.getLast? ≠ some '\r') :
    (Lexed.ofText d (slice text e.range.start e.range.stop)).tokens =
        ts.map (Token.mapExtent (Extent.since e.span.start)) ∧
      (Lexed.ofText d (slice text e.range.start e.range.stop)).fault? = none := by
  obtain ⟨first, last, hhead, htail, rfl⟩ := hspans
  obtain ⟨ts, rfl⟩ := List.head?_eq_some_iff.mp hhead
  obtain ⟨m, hstart, hplace, hrun⟩ := h.of_head
  have hstop := hrun.stop_of_getLast? htail
  have hn := h.le_length hk
  have hmn := hrun.le
  have hend : text[n - 1]? = some '\r' → text[n]? ≠ some '\n' := by
    intro hreturn
    rw [hrun.getElem?_of_getLast? htail] at hreturn
    exact absurd hreturn (hlast last htail)
  have hmoved := (hrun.cut (Nat.le_refl n) hn hend).drop (Nat.le_refl m)
  rw [Cursor.position_atOffset_take hmn hend, ← hplace, Nat.sub_self] at hmoved
  have htext : slice text first.extent.range.start last.extent.range.stop =
      (text.take n).drop m := by
    rw [hstart, hstop, slice_natCast (by omega) hn, List.drop_take]
  change (Lexed.ofText d (slice text first.extent.range.start last.extent.range.stop)).tokens = _ ∧
    (Lexed.ofText d (slice text first.extent.range.start last.extent.range.stop)).fault? = none
  rw [htext]
  have hlength : ((text.take n).drop m).length = n - m := by
    rw [List.length_drop, List.length_take, Nat.min_eq_left hn]
  refine hmoved.ofText_eq ?_
  rw [hlength]
  refine .refl (by omega) fun ch hch => ?_
  rw [List.getElem?_eq_none (by omega)] at hch
  cases hch

end Run

theorem Grammar.carries_since (d : Dialect) (trailing : Bool) (origin : Position) :
    Carries d d trailing trailing (Extent.since origin) id where
  widens := .refl d
  trailing := id
  join _ _ := rfl
  join' _ _ := rfl

theorem SourceFile.textOf_eq_slice (f : SourceFile) {range : Range} (h : 0 ≤ range.start) :
    f.textOf range 0 0 = slice f.text range.start range.stop := by
  rw [SourceFile.textOf, Int.sub_zero, Int.add_zero, Int.max_eq_left h]

/-! ## The node of a value -/

namespace Outline

mutual

/-- Every value below a node has an entry among those of the node. -/
theorem exists_entry_of_mem_values (id : Nat) (node : Node) {v : Node} (hv : v ∈ node.values) :
    ∃ e ∈ nodeEntries id node, e.type = v.type ∧ e.extent = v.extent := by
  match node with
  | .string _ _ | .number _ _ | .boolean _ _ | .null _ | .nan _ _ | .infinity _ _ =>
      obtain rfl : v = _ := List.mem_singleton.mp hv
      exact ⟨_, List.mem_singleton_self _, rfl, rfl⟩
  | .object extent members =>
      rcases List.mem_cons.mp hv with rfl | hv
      · exact ⟨_, List.mem_cons_self, rfl, rfl⟩
      · obtain ⟨e, he, hsame⟩ := exists_entry_of_mem_memberValues (id + 1) members hv
        exact ⟨e, List.mem_cons_of_mem _ he, hsame⟩
  | .array extent elements =>
      rcases List.mem_cons.mp hv with rfl | hv
      · exact ⟨_, List.mem_cons_self, rfl, rfl⟩
      · obtain ⟨e, he, hsame⟩ := exists_entry_of_mem_elementValues (id + 1) elements hv
        exact ⟨e, List.mem_cons_of_mem _ he, hsame⟩

theorem exists_entry_of_mem_memberValues (id : Nat) (members : List (Key × Node)) {v : Node}
    (hv : v ∈ Node.memberValues members) :
    ∃ e ∈ (memberEntries id members).2, e.type = v.type ∧ e.extent = v.extent := by
  match members with
  | (name, value) :: rest =>
      rcases List.mem_append.mp hv with hv | hv
      · obtain ⟨e, he, hsame⟩ := exists_entry_of_mem_values (id + 2) value hv
        exact ⟨e, by simp [memberEntries, he], hsame⟩
      · obtain ⟨e, he, hsame⟩ := exists_entry_of_mem_memberValues
          (id + 2 + (nodeEntries (id + 2) value).length) rest hv
        exact ⟨e, by simp [memberEntries, he], hsame⟩

theorem exists_entry_of_mem_elementValues (id : Nat) (elements : List Node) {v : Node}
    (hv : v ∈ Node.elementValues elements) :
    ∃ e ∈ (elementEntries id elements).2, e.type = v.type ∧ e.extent = v.extent := by
  match elements with
  | value :: rest =>
      rcases List.mem_append.mp hv with hv | hv
      · obtain ⟨e, he, hsame⟩ := exists_entry_of_mem_values (id + 1) value hv
        exact ⟨e, by simp [elementEntries, he], hsame⟩
      · obtain ⟨e, he, hsame⟩ := exists_entry_of_mem_elementValues
          (id + 1 + (nodeEntries (id + 1) value).length) rest hv
        exact ⟨e, by simp [elementEntries, he], hsame⟩

end

/-- The node of a value has a number in the outline of its document. -/
theorem exists_number_of_mem_values {doc : Document} {v : Node} (hv : v ∈ doc.body.values) :
    ∃ (id : Nat) (e : Entry), (Outline.ofDocument doc).entries[id]? = some e ∧
      e.type = v.type ∧ e.extent = v.extent := by
  obtain ⟨e, he, hsame⟩ := exists_entry_of_mem_values 1 doc.body hv
  have hmem : e ∈ (Outline.ofDocument doc).entries := List.mem_cons_of_mem _ he
  obtain ⟨id, hid⟩ := List.mem_iff_getElem?.mp hmem
  exact ⟨id, e, hid, hsame⟩

end Outline

/-- A session that is asked for the text of a node cuts it out by its extent. -/
theorem Session.ask_text {s : Session} {id : Nat} {e : Outline.Entry}
    (h : s.file.outline.entries[id]? = some e) :
    (s.ask (.text (.node id) 0 0)).1 = ⟨.ok (.text (s.file.textOf e.extent.range 0 0)), []⟩ := by
  have helement : s.file.element? (.node id) = some ⟨e.type.name, none, e.extent⟩ := by
    rw [SourceFile.element?, h]
    rfl
  simp only [Session.ask, Session.text, helement]

/-! ## Documents in documents -/

namespace Document

variable {profile : Profile} {doc : Document} {v : Node}

/-- The tokens in the range of a value are a run, and their code is a sentence of which the value
is the node. -/
theorem exists_run_of_mem_values (h : Document.ofText profile text = .ok doc)
    (hv : v ∈ doc.body.values) :
    ∃ (part : Value profile.dialect profile.allowsTrailingCommas) (ts : List Token) (k n : Nat),
      part.node = v ∧ part.nesting ≤ profile.limits.maxDepth ∧
      ts.filter Token.isCode = part.tokens ∧ Spans ts v.extent ∧
      doc.tokens.filter (Token.isWithin v.extent.range) = ts ∧ k ≤ text.length ∧
      Run profile.dialect text k ts n ∧
      ∀ t, ts.getLast? = some t → t.text.getLast? ≠ some '\r' := by
  obtain ⟨-, hfault, hdoc⟩ := Document.ofText_eq_ok_iff.mp h
  obtain ⟨g, hg, hnesting, rfl⟩ := Document.ofTokens_eq_ok_iff.mp hdoc
  obtain ⟨n, hrun, hgap⟩ := Lexed.exists_run_of_fault?_eq_none hfault
  have hordered := (hrun.tiles hgap).isOrdered
  dsimp only at hv ⊢
  generalize (Lexed.ofText profile.dialect text).tokens = tokens at hg hrun hordered ⊢
  obtain ⟨part, rfl, hpart, hdepth⟩ := g.exists_of_mem_values hv
  have hne : part.tokens ≠ [] := List.length_pos_iff.mp part.length_tokens_pos
  obtain ⟨front, ts, back, rfl, hcode, hhead, htail⟩ := exists_part_of_filter (hg ▸ hpart) hne
  have hspans : Spans ts part.node.extent := by
    obtain ⟨first, last, hfirst, hlast, hextent⟩ := part.spans
    exact ⟨first, last, hhead.trans hfirst, htail.trans hlast, hextent⟩
  obtain ⟨m, hfront, -⟩ := hrun.exists_of_append
  obtain ⟨k, hfront, hts⟩ := hfront.exists_of_append
  refine ⟨part, ts, k, m, rfl, Nat.le_trans hdepth hnesting, hcode, hspans,
    hordered.filter_isWithin hspans, hfront.le_length (Nat.zero_le _), hts, fun t ht => ?_⟩
  -- the last of the tokens is the last one of the sentence
  have hmem : t ∈ part.tokens := List.mem_of_getLast? (htail ▸ ht)
  exact (hts.alone t (List.mem_of_getLast? ht)).getLast?_ne (part.isCode_of_mem hmem)

/-- The text of a value is a document: its body is the value and its tokens are those in the range
of the value, with places counted from where the value starts. It is the text that a session
answers with when it is asked for the node of the value. -/
theorem ofText_excerpt (profile : Profile) (text : Text) (doc : Document)
    (h : Document.ofText profile text = .ok doc) (v : Node) (hv : v ∈ doc.body.values) :
    (∃ excerpt, Document.ofText profile
        ((SourceFile.ofDocument text doc).textOf v.extent.range 0 0) = .ok excerpt ∧
      excerpt.body = v.mapExtent (Extent.since v.extent.span.start) ∧
      excerpt.tokens = (doc.tokens.filter (Token.isWithin v.extent.range)).map
        (Token.mapExtent (Extent.since v.extent.span.start))) ∧
    ∃ (id : Nat) (e : Outline.Entry), (Outline.ofDocument doc).entries[id]? = some e ∧
      e.type = v.type ∧ e.extent = v.extent ∧
      ∀ s : Session, s.file = SourceFile.ofDocument text doc →
        (s.ask (.text (.node id) 0 0)).1 =
          ⟨.ok (.text ((SourceFile.ofDocument text doc).textOf v.extent.range 0 0)), []⟩ := by
  constructor
  · obtain ⟨part, ts, k, n, rfl, hnesting, hcode, hspans, hwithin, hk, hrun, hlast⟩ :=
      exists_run_of_mem_values h hv
    obtain ⟨htokens, hfault⟩ := hrun.ofText_slice hk hspans hlast
    have hstart : 0 ≤ part.node.extent.range.start := by
      obtain ⟨first, last, hhead, -, hextent⟩ := hspans
      obtain ⟨ts, rfl⟩ := List.head?_eq_some_iff.mp hhead
      obtain ⟨m, hm, -⟩ := hrun.of_head
      rw [hextent]
      change 0 ≤ first.extent.range.start
      omega
    rw [SourceFile.textOf_eq_slice _ hstart, hwithin]
    change ∃ excerpt, Document.ofText profile
      (slice text part.node.extent.range.start part.node.extent.range.stop) = _ ∧ _
    have hsame : (part.tokens.map (Token.mapExtent (Extent.since part.node.extent.span.start))).map
        (Token.mapExtent id) =
          part.tokens.map (Token.mapExtent (Extent.since part.node.extent.span.start)) :=
      List.map_id _
    obtain ⟨moved, hmoved, hnode, hdepth⟩ := part.exists_alike (carries_since _ _ _) hsame
    rw [Node.mapExtent_id] at hnode
    refine ⟨_, Document.ofText_eq_ok_iff.mpr ⟨?_, hfault, Document.ofTokens_eq_ok_iff.mpr
      ⟨moved, ?_, hdepth ▸ hnesting, rfl⟩⟩, hnode, htokens⟩
    · refine Nat.le_trans ?_ (Document.ofText_eq_ok_iff.mp h).1
      simp [slice]
    · rw [hmoved, htokens, ← hcode, List.filter_map]
      rfl
  · obtain ⟨id, e, he, htype, hextent⟩ := Outline.exists_number_of_mem_values hv
    refine ⟨id, e, he, htype, hextent, fun s hfile => ?_⟩
    have he' : s.file.outline.entries[id]? = some e := hfile ▸ he
    rw [Session.ask_text he', hextent, hfile]

/-- An object on the second line of an array, with a comment in it. -/
theorem ofText_excerpt_object :
    ∃ doc excerpt v,
      Document.ofText ⟨.jsonc, {}, false⟩ "[1,\n \x7b\"a\": /**/ 2\x7d]".toList = .ok doc ∧
        v ∈ doc.body.values ∧ v.extent = ⟨⟨5, 18⟩, ⟨⟨2, 2, 5⟩, ⟨2, 15, 18⟩⟩⟩ ∧
        Document.ofText ⟨.jsonc, {}, false⟩ "\x7b\"a\": /**/ 2\x7d".toList = .ok excerpt ∧
        excerpt.body = v.mapExtent (Extent.since ⟨2, 2, 5⟩) := by
  have hread : (Document.ofText ⟨.jsonc, {}, false⟩
      "[1,\n \x7b\"a\": /**/ 2\x7d]".toList).toOption.any
        (fun doc => doc.body.values.any
          (·.extent = ⟨⟨5, 18⟩, ⟨⟨2, 2, 5⟩, ⟨2, 15, 18⟩⟩⟩)) = true := by
    decide +kernel
  cases hdoc : Document.ofText ⟨.jsonc, {}, false⟩ "[1,\n \x7b\"a\": /**/ 2\x7d]".toList with
  | error fault =>
      rw [hdoc] at hread
      cases hread
  | ok doc =>
      rw [hdoc] at hread
      obtain ⟨v, hv, hextent⟩ := List.any_eq_true.mp hread
      have hextent : v.extent = ⟨⟨5, 18⟩, ⟨⟨2, 2, 5⟩, ⟨2, 15, 18⟩⟩⟩ := of_decide_eq_true hextent
      obtain ⟨⟨excerpt, hexcerpt, hbody, -⟩, -⟩ := ofText_excerpt _ _ doc hdoc v hv
      rw [hextent] at hexcerpt hbody
      exact ⟨doc, excerpt, v, rfl, hv, hextent, hexcerpt, hbody⟩

end Document

end LocatedJson
