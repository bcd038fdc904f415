import LocatedJson.Proofs.Excerpts
import LocatedJson.Proofs.LineTable
import LocatedJson.Proofs.Places

/-!
# Texts one after the other

A line feed between two texts separates their tokens: if the first text has no
fault, the tokens of the whole are those of the first, as they are, and those
of the second, further down (`Lexed.ofText_append_lineFeed`). A fault of the
second text is the fault of the whole.

The two texts are looked at in different ways. The second is the whole without
its front, so its tokens are the same with other places (`Lexed.ofText_drop`).
The first is the whole cut off, and there it matters that no recogniser finds
more in front of a line end than at the end of its text (`Lexeme.lasts_scan`).
Only the outcome of a carriage return at the very end changes, which goes with
the line feed then; no token ends with one (`Alone.not_return`), so this moves
no place of a token.
-/

namespace LocatedJson

open LocatedJson.Text
open LocatedJson.Interchange (Starts)

/-! ## Recognisers in front of a line end -/

namespace Lexeme

variable {d : Dialect} {c : Char} {post : Text}

/-- What is found at the front of a text is found again if the text goes on. -/
def Lasts (post : Text) (s : Text → Lexeme) : Prop :=
  ∀ rest kind size, s rest = .found kind size → s (rest ++ post) = .found kind size

/-- The same of a recogniser. If it does not answer, neither does it on the longer text. -/
structure Persists (post : Text) (r : Text → Option Lexeme) : Prop where
  found : ∀ {rest kind size}, r rest = some (.found kind size) →
    r (rest ++ post) = some (.found kind size)
  eq_none : ∀ {rest}, r rest = none → r (rest ++ post) = none

/-- One recogniser before all the others. -/
theorem Persists.getD {r : Text → Option Lexeme} {s : Text → Lexeme} (hr : Persists post r)
    (hs : Lasts post s) : Lasts post fun rest => (r rest).getD (s rest) := by
  intro rest kind size h
  rcases getD_eq_iff.mp h with h | ⟨hnone, h⟩
  · exact getD_eq_iff.mpr (.inl (hr.found h))
  · exact getD_eq_iff.mpr (.inr ⟨hr.eq_none hnone, hs rest kind size h⟩)

theorem blockTail?_append_right {cs : Text} {n : Nat} (h : blockTail? cs = some n) (post : Text) :
    blockTail? (cs ++ post) = some n := by
  induction cs generalizing n with
  | nil => cases h
  | cons c cs ih =>
      rw [List.cons_append, blockTail?_cons]
      rw [blockTail?_cons] at h
      cases cs with
      | nil => simp [blockTail?] at h
      | cons e cs =>
          split at h
          · rename_i hclose
            rw [if_pos (by simpa using hclose), h]
          · rename_i hclose
            obtain ⟨m, hm, rfl⟩ := Option.map_eq_some_iff.mp h
            rw [if_neg (by simpa using hclose), ih hm]
            rfl

theorem persists_mark? : Persists post fun _ => mark? c where
  found h := h
  eq_none h := h

theorem persists_string? : Persists post (string? d c) where
  found {rest kind size} h := by
    obtain ⟨hquote, hclosed, rfl, rfl⟩ := string?_eq_found_iff.mp h
    obtain ⟨body, after, rfl, hbody, hsize⟩ := exists_body_of_quotedTail hclosed
    have htail := quotedTail_of_body (isQuote_ne_escape hquote)
      (isHardLineEnd_eq_false_of_isQuote hquote) hbody (after ++ post)
    rw [List.append_assoc, List.cons_append]
    exact string?_eq_found_iff.mpr ⟨hquote, by rw [htail], rfl, by rw [htail, hsize]⟩
  eq_none {rest} h := by
    unfold string? at h ⊢
    grind

variable (hpost : Starts ['\n', '\r'] post)
include hpost

theorem delimits : Starts delimiters post := hpost.mono (by simp [delimiters, spaces])

theorem persists_comment? : Persists post (comment? d c) where
  found {rest kind size} h := by
    obtain ⟨hallowed, hc, after, ⟨rfl, rfl, rfl⟩ | ⟨rfl, rfl, n, hn, rfl⟩⟩ :=
      comment?_eq_found_iff.mp h
    · have hline := hpost.takeWhile_eq (p := fun x => !isLineEnd x) (by decide) after
      exact comment?_eq_found_iff.mpr ⟨hallowed, hc, after ++ post, .inl ⟨rfl, rfl, by rw [hline]⟩⟩
    · exact comment?_eq_found_iff.mpr
        ⟨hallowed, hc, after ++ post, .inr ⟨rfl, rfl, n, blockTail?_append_right hn post, rfl⟩⟩
  eq_none {rest} h := by
    cases rest with
    | cons e after =>
        simp only [comment?, List.cons_append] at h ⊢
        grind
    | nil =>
        cases post with
        | nil => rfl
        | cons e post =>
            have he : ¬ (e = '/' ∨ e = '*') := by
              have hmem := hpost e rfl
              rintro (rfl | rfl) <;> revert hmem <;> decide
            simp [comment?, he]

/-- A word without line ends does not reach over the end of a line. -/
theorem isPrefix_of_append {word rest : Text} (hword : ∀ c ∈ word, c ∉ ['\n', '\r'])
    (h : word <+: rest ++ post) : word <+: rest := by
  obtain ⟨after, hafter⟩ := h
  rcases List.append_eq_append_iff.mp hafter with ⟨tail, hrest, -⟩ | ⟨tail, rfl, hpost'⟩
  · exact ⟨tail, hrest.symm⟩
  · cases tail with
    | nil => simp
    | cons e tail =>
        have he := hpost e (by rw [hpost']; rfl)
        exact absurd he (hword e (by simp))

theorem persists_signedKeyword? : Persists post (signedKeyword? d c) where
  found {rest kind size} h := by
    exact signedKeyword?_append (.refl d) h
  eq_none {rest} h := by
    unfold signedKeyword? at h ⊢
    have hnan := @isPrefix_of_append post hpost ['N', 'a', 'N'] rest (by simp)
    have hinfinity := @isPrefix_of_append post hpost ['I', 'n', 'f', 'i', 'n', 'i', 't', 'y'] rest
      (by simp)
    simp only [List.isPrefixOf_iff_prefix] at h ⊢
    grind

theorem persists_number? : Persists post fun rest => number? d (c :: rest) := by
  have hsame (rest : Text) : number? d (c :: (rest ++ post)) = number? d (c :: rest) := by
    rw [number?, ← List.cons_append, Numeral.wideSize_append (delimits hpost),
      Numeral.strictSize_append (delimits hpost), number?]
  exact ⟨fun {rest kind size} h => (hsame rest).trans h, fun {rest} h => (hsame rest).trans h⟩

theorem persists_word? : Persists post (word? d c) := by
  have hsame (rest : Text) : word? d c (rest ++ post) = word? d c rest := by
    have hparts := (delimits hpost).takeWhile_eq (p := isWordPart) (by decide +kernel) rest
    rw [word?, hparts, word?]
  exact ⟨fun {rest kind size} h => (hsame rest).trans h, fun {rest} h => (hsame rest).trans h⟩

/-- A token is found again if a line ends behind the text. -/
theorem lasts_scan : Lasts post (scan d c) := by
  refine (persists_comment? hpost).getD ?_
  refine persists_mark?.getD ?_
  refine persists_string?.getD ?_
  refine (persists_signedKeyword? hpost).getD ?_
  refine (persists_number? hpost).getD ?_
  refine (persists_word? hpost).getD ?_
  intro rest kind size h
  cases h

end Lexeme

/-! ## The text in front -/

variable {d : Dialect} {text post : Text} {k m n : Nat} {ts : List Token}

/-- More text moves no place up to an offset, unless a carriage return stands in front of it. -/
theorem Cursor.position_atOffset_append (hk : k ≤ n) (hpos : 0 < n) (hn : n ≤ text.length)
    (hlast : text[n - 1]? ≠ some '\r') (post : Text) :
    (atOffset (text ++ post) k).position = (atOffset text k).position := by
  have hcut : (text ++ post).take n = text.take n := List.take_append_of_le_length hn
  have hlast' : (text ++ post)[n - 1]? ≠ some '\r' := by
    rwa [List.getElem?_append_left (by omega)]
  rw [← position_atOffset_take hk fun hreturn => absurd hreturn hlast', hcut,
    position_atOffset_take hk fun hreturn => absurd hreturn hlast]

theorem Gap.append (h : Gap d text k m) (hm : m < text.length) (post : Text) :
    Gap d (text ++ post) k m where
  le := h.le
  le_length := by
    rw [List.length_append]
    omega
  blank i ch hki him hch := by
    rw [List.getElem?_append_left (by omega)] at hch
    exact h.blank i ch hki him hch
  stop ch hch := by
    rw [List.getElem?_append_left hm] at hch
    exact h.stop ch hch

/-- No token ends with a carriage return. -/
theorem Alone.not_return {t : Token} (h : Alone d t) : t.text.getLast? ≠ some '\r' := by
  cases hcomment : t.isComment with
  | true =>
      obtain ⟨body, hbody⟩ := h.delimited hcomment
      exact hbody.getLast?_ne
  | false => exact h.getLast?_ne (by rw [Token.isCode, hcomment]; rfl)

/-- A run is made again on a text that goes on with a line end. -/
theorem Run.append_text (h : Run d text k ts n) (hpost : Starts ['\n', '\r'] post) :
    Run d (text ++ post) k ts n := by
  induction h with
  | nil k => exact .nil k
  | @cons k m n size ch rest kind ts hgap hrest hscan hrun ih =>
      have hle := add_le_length_of_scan hrest hscan
      have hsize := Lexeme.size_pos_of_scan hscan
      have hrest' : (text ++ post).drop m = ch :: (rest ++ post) := by
        rw [List.drop_append_of_le_length (by omega), hrest, List.cons_append]
      have hlast : text[m + size - 1]? ≠ some '\r' := by
        have hfirst : Run d text k [(Cursor.atOffset text m).tokenOf kind size] (m + size) :=
          .cons hgap hrest hscan (.nil _)
        rw [hfirst.getElem?_of_getLast? rfl]
        exact (hfirst.alone _ List.mem_cons_self).not_return
      have htoken : (Cursor.atOffset (text ++ post) m).tokenOf kind size =
          (Cursor.atOffset text m).tokenOf kind size := by
        unfold Cursor.tokenOf
        simp only [Cursor.rest_atOffset, Cursor.advanceBy_atOffset]
        rw [Cursor.position_atOffset_append (by omega) (by omega) hle hlast,
          Cursor.position_atOffset_append (by omega) (by omega) hle hlast,
          List.drop_append_of_le_length (by omega), List.take_append_of_le_length]
        rw [List.length_drop]
        omega
      rw [← htoken]
      exact .cons (hgap.append (by omega) post) hrest'
        (Lexeme.lasts_scan hpost rest kind size hscan) ih

/-! ## The text behind -/

/-- A place that is further down by a number of lines and characters. -/
def Position.later (lines chars : Nat) (p : Position) : Position :=
  ⟨p.line + lines, p.column, p.offset + chars⟩

/-- An extent that is further down by a number of lines and characters. -/
def Extent.later (lines chars : Nat) (e : Extent) : Extent :=
  ⟨⟨e.range.start + chars, e.range.stop + chars⟩,
    ⟨e.span.start.later lines chars, e.span.stop.later lines chars⟩⟩

/-- Counting from the start of a line is undone by moving the places down again. -/
theorem Position.later_since {origin : Position} {lines chars : Nat}
    (horigin : origin = ⟨lines + 1, 1, chars⟩) (p : Position) :
    (origin.since p).later lines chars = p := by
  obtain ⟨line, column, offset⟩ := p
  subst horigin
  simp only [Position.since, Position.later, Position.mk.injEq]
  refine ⟨by omega, ?_, by omega⟩
  split <;> omega

theorem Extent.later_since {origin : Position} {lines chars : Nat}
    (horigin : origin = ⟨lines + 1, 1, chars⟩) (e : Extent) :
    (e.since origin).later lines chars = e := by
  obtain ⟨⟨start, stop⟩, first, last⟩ := e
  simp only [Extent.since, Extent.later, Position.later_since horigin]
  subst horigin
  simp only [Int.sub_add_cancel]

theorem Token.map_later_since {origin : Position} {lines chars : Nat}
    (horigin : origin = ⟨lines + 1, 1, chars⟩) (ts : List Token) :
    (ts.map (Token.mapExtent (Extent.since origin))).map
      (Token.mapExtent (Extent.later lines chars)) = ts := by
  rw [List.map_map]
  refine (List.map_congr_left fun t _ => ?_).trans (List.map_id ts)
  exact congrArg (Token.mk t.kind t.text) (Extent.later_since horigin t.extent)

/-- A text without its front has the tokens behind the front, with places counted from there. -/
theorem Lexed.ofText_drop (d : Dialect) {s : Nat} (hs : s ≤ text.length) :
    let behind := Lexed.ofCursor d (.atOffset text s)
    let origin := (Cursor.atOffset text s).position
    (Lexed.ofText d (text.drop s)).tokens =
        behind.tokens.map (Token.mapExtent (Extent.since origin)) ∧
      (Lexed.ofText d (text.drop s)).fault? =
        behind.fault?.map fun (cause, p) => (cause, origin.since p) := by
  intro behind origin
  obtain ⟨n, m, hrun, hgap, hend⟩ := Lexed.exists_run d hs
  have hsn := hrun.le
  have hnm := hgap.le
  have hrun' := hrun.drop (Nat.le_refl s)
  rw [Nat.sub_self] at hrun'
  have hlexed := hrun'.tokens_ofCursor
  have hstep := (hgap.drop hsn).step_eq
  rw [List.drop_drop, Nat.add_sub_cancel' (Nat.le_trans hsn hnm)] at hstep
  rcases hend with ⟨hfault, rfl⟩ | ⟨cause, consumed, ch, rest, hrest, hscan, hfault⟩
  · simp only [List.drop_length] at hstep
    rw [Lexed.ofCursor_of_done hstep, List.append_nil] at hlexed
    exact ⟨hlexed.1, hlexed.2.trans (by rw [hfault]; rfl)⟩
  · simp only [hrest, hscan] at hstep
    rw [Lexed.ofCursor_of_fault hstep, List.append_nil] at hlexed
    refine ⟨hlexed.1, hlexed.2.trans ?_⟩
    rw [hfault, Cursor.position_atOffset_drop, Nat.add_sub_cancel' (Nat.le_trans hsn hnm)]
    rfl

/-! ## Both texts -/

theorem Lexed.ofCursor_congr {c c' : Cursor} (h : c.step d = c'.step d) :
    Lexed.ofCursor d c = Lexed.ofCursor d c' := by
  cases hstep : c'.step d with
  | done stopped => rw [ofCursor_of_done hstep, ofCursor_of_done (h.trans hstep)]
  | token t after => rw [ofCursor_of_token hstep, ofCursor_of_token (h.trans hstep)]
  | fault cause position stopped =>
      rw [ofCursor_of_fault hstep, ofCursor_of_fault (h.trans hstep)]

/-- White space in front of a place does not matter. -/
theorem Lexed.ofCursor_of_space (hk : k ≤ m) (hm : m ≤ text.length)
    (hspace : ∀ i ch, k ≤ i → i < m → text[i]? = some ch → d.isSpace ch = true) :
    Lexed.ofCursor d (.atOffset text k) = Lexed.ofCursor d (.atOffset text m) := by
  obtain ⟨n, hgap⟩ := Gap.exists_of_le d hm
  have hgap' : Gap d text k n := by
    refine ⟨Nat.le_trans hk hgap.le, hgap.le_length, fun i ch hki hin hch => ?_, hgap.stop⟩
    by_cases him : i < m
    · exact hspace i ch hki him hch
    · exact hgap.blank i ch (by omega) hin hch
  exact ofCursor_congr (hgap'.step_eq.trans hgap.step_eq.symm)

/-- At the end of a text the cursor is on its last line. -/
theorem Cursor.line_atOffset_length (text : Text) :
    (atOffset text text.length).position.line = (Text.lines text).length := by
  have hrows := rows_lines 0 text
  have hall : (lineStarts text).filter (· ≤ text.length) = lineStarts text := by
    refine List.filter_eq_self.mpr fun start hstart => ?_
    have := hrows.le_length_of_mem start hstart
    simp only [decide_eq_true_eq]
    omega
  rw [position_atOffset (Nat.le_refl _), placeOf, placeIn, hall, hrows.length_eq]
  rfl

/-- Behind a line feed the cursor is at the first column of a new line. -/
theorem Cursor.position_behind_lineFeed (front back : Text) :
    (atOffset (front ++ '\n' :: back) (front.length + 1)).position =
      ⟨((Text.lines (front ++ ['\n'])).length - 1 : Nat) + 1, 1, (front.length + 1 : Nat)⟩ := by
  have hfeed : (front ++ '\n' :: back)[front.length + 1 - 1]? ≠ some '\r' := by simp
  have hcut : (front ++ '\n' :: back).take (front.length + 1) = front ++ ['\n'] := by
    rw [List.take_append, List.take_of_length_le (Nat.le_succ _), Nat.add_sub_cancel_left]
    rfl
  have hlength : (front ++ ['\n']).length = front.length + 1 := List.length_append
  have hline := line_atOffset_length (front ++ ['\n'])
  have hoffset := @offset_atOffset (front ++ ['\n']) _ (Nat.le_refl _)
  have hcolumn : (atOffset (front ++ ['\n']) (front.length + 1)).position.column = 1 := by
    have hrest : (atOffset (front ++ ['\n']) front.length).rest = ['\n'] := by
      rw [rest_atOffset, List.drop_left]
    rw [atOffset_succ, position_advance hrest]
    rfl
  have hpos : 0 < (Text.lines (front ++ ['\n'])).length := by
    rw [(rows_lines 0 (front ++ ['\n'])).length_eq]
    exact Nat.succ_pos _
  rw [hlength] at hline hoffset
  rw [← position_atOffset_take (Nat.le_refl _) fun hreturn => absurd hreturn hfeed, hcut]
  simp only [position] at hline hcolumn ⊢
  rw [hline, hcolumn, hoffset]
  congr 1
  omega

/-- From the last token of a text up to the first one behind the line feed there is only white
space. -/
theorem Lexed.ofCursor_behind_lineFeed {front : Text} (hgap : Gap d front n front.length)
    (back : Text) :
    Lexed.ofCursor d (.atOffset (front ++ '\n' :: back) n) =
      Lexed.ofCursor d (.atOffset (front ++ '\n' :: back) (front.length + 1)) := by
  have hn := hgap.le
  refine Lexed.ofCursor_of_space (by omega) ?_ fun i ch hki hi hch => ?_
  · rw [List.length_append, List.length_cons]
    omega
  · by_cases hlast : i < front.length
    · rw [List.getElem?_append_left hlast] at hch
      exact hgap.blank i ch hki hlast hch
    · obtain rfl : i = front.length := by omega
      rw [List.getElem?_append_right (Nat.le_refl _), Nat.sub_self] at hch
      cases hch
      cases d <;> decide

/-- Two texts with a line feed between them: the tokens of the first, which has no fault, stay as
they are, and those of the second are further down. If the second has a fault, it is the fault of
the whole, with the same message and suggestions, and stands as much further down. -/
theorem Lexed.ofText_append_lineFeed (d : Dialect) (front back : Text)
    (h : (Lexed.ofText d front).fault? = none) :
    let whole := Lexed.ofText d (front ++ '\n' :: back)
    let lines := (Text.lines (front ++ ['\n'])).length - 1
    let chars := front.length + 1
    whole.tokens = (Lexed.ofText d front).tokens ++
        (Lexed.ofText d back).tokens.map (Token.mapExtent (Extent.later lines chars)) ∧
      whole.fault? =
        (Lexed.ofText d back).fault?.map fun (cause, p) => (cause, p.later lines chars) := by
  intro whole lines chars
  obtain ⟨n, hrun, hgap⟩ := Lexed.exists_run_of_fault?_eq_none h
  have hpost : Starts ['\n', '\r'] ('\n' :: back) := Interchange.starts_cons (by decide)
  have hwhole := (hrun.append_text hpost).tokens_ofCursor
  rw [Lexed.ofCursor_behind_lineFeed hgap] at hwhole
  have hlength : chars ≤ (front ++ '\n' :: back).length := by
    rw [List.length_append, List.length_cons]
    omega
  have hdrop : (front ++ '\n' :: back).drop chars = back := by
    rw [← List.drop_drop, List.drop_left, List.drop_one, List.tail_cons]
  have hback := Lexed.ofText_drop d hlength
  rw [hdrop] at hback
  have horigin := Cursor.position_behind_lineFeed front back
  refine ⟨hwhole.1.trans ?_, hwhole.2.trans ?_⟩
  · rw [hback.1, Token.map_later_since horigin]
  · rw [hback.2, Option.map_map]
    cases (Lexed.ofCursor d (.atOffset (front ++ '\n' :: back) chars)).fault? with
    | none => rfl
    | some fault =>
        obtain ⟨cause, p⟩ := fault
        exact congrArg (fun p => some (cause, p)) (Position.later_since horigin p).symm

/-- A carriage return at the end of the first text, which makes one line end with the line feed,
and a string that the second text leaves open. -/
theorem Lexed.ofText_append_lineFeed_return :
    let front := "1 //x\r".toList
    let whole := Lexed.ofText .jsonc (front ++ '\n' :: "[ \"".toList)
    (∃ bracket, whole.tokens = (Lexed.ofText .jsonc front).tokens ++ [bracket]) ∧
      whole.fault? = some (.unclosedString, ⟨2, 3, 9⟩) := by
  intro front whole
  have hfront : (Lexed.ofText .jsonc front).fault? = none := by decide +kernel
  have hback : Lexed.ofText .jsonc "[ \"".toList =
      ⟨[⟨.leftBracket, ['['], ⟨⟨0, 1⟩, ⟨⟨1, 1, 0⟩, ⟨1, 2, 1⟩⟩⟩⟩],
        some (.unclosedString, ⟨1, 3, 2⟩), ⟨1, 4, 3, []⟩⟩ := by decide +kernel
  obtain ⟨htokens, hfault⟩ := Lexed.ofText_append_lineFeed .jsonc front "[ \"".toList hfront
  rw [hback] at htokens hfault
  exact ⟨⟨_, htokens⟩, hfault⟩

end LocatedJson
