import LocatedJson.Proofs.Lookahead

/-!
# Runs of the token loop

Every cursor that the tokens of a text are read from stands at an offset of
that text (`Cursor.atOffset`), so a step of the loop is an equation about
offsets (`Gap.step_eq`): white space up to an offset, and the lexeme there. A
`Run` is a number of such steps one after the other. The loop makes a run and
then stops behind some white space, at the end of the text or at a lexeme that
fails (`Lexed.exists_run`).

A run can be repeated on a text that is cut off behind it (`Run.cut`). This is
where it matters that lexemes do not look further than they reach, and that
of all places only the one between a carriage return and a line feed depends
on what comes next.
-/

namespace LocatedJson

open LocatedJson.Text

/-! ## Cursors of a text -/

namespace Cursor

theorem advanceBy_succ (n : Nat) (c : Cursor) : advanceBy (n + 1) c = advanceBy n c.advance := by
  rw [advanceBy]
  split
  · rename_i hrest
    have hstay : c.advance = c := by
      unfold advance
      rw [hrest]
    rw [hstay]
    cases n with
    | zero => rfl
    | succ n => rw [advanceBy, if_pos hrest]
  · rfl

theorem advanceBy_advanceBy (m n : Nat) (c : Cursor) :
    advanceBy n (advanceBy m c) = advanceBy (m + n) c := by
  induction m generalizing c with
  | zero => rw [Nat.zero_add, advanceBy]
  | succ m ih => rw [advanceBy_succ, ih, Nat.add_right_comm, advanceBy_succ]

def atOffset (text : Text) (k : Nat) : Cursor := advanceBy k (ofText text)

variable {text : Text} {k : Nat}

@[simp] theorem rest_atOffset : (atOffset text k).rest = text.drop k :=
  rest_advanceBy k (ofText text)

theorem advanceBy_atOffset (n : Nat) : advanceBy n (atOffset text k) = atOffset text (k + n) :=
  advanceBy_advanceBy k n (ofText text)

theorem atOffset_succ : atOffset text (k + 1) = (atOffset text k).advance := by
  rw [← advanceBy_atOffset, advanceBy_succ, advanceBy]

/-- Where a cursor comes to stand depends on its place, the next character and, behind a
carriage return, on the character after that. -/
theorem position_advance {c : Cursor} {ch : Char} {rest : Text} (h : c.rest = ch :: rest) :
    c.advance.position =
      if isLineEnd ch && !(ch == '\r' && rest.head? == some '\n') then
        ⟨c.position.line + 1, 1, c.position.offset + 1⟩
      else ⟨c.position.line, c.position.column + 1, c.position.offset + 1⟩ := by
  unfold advance
  rw [h]
  dsimp only
  split <;> simp [position]

theorem offset_advance {c : Cursor} (h : c.rest ≠ []) : c.advance.offset = c.offset + 1 := by
  unfold advance
  split
  · contradiction
  · split <;> rfl

theorem offset_atOffset (h : k ≤ text.length) : (atOffset text k).offset = k := by
  induction k with
  | zero => rfl
  | succ k ih =>
      have hrest : (atOffset text k).rest ≠ [] := by
        rw [rest_atOffset, Ne, List.drop_eq_nil_iff]
        omega
      rw [atOffset_succ, offset_advance hrest, ih (by omega)]

/-- Cutting a text off at an offset moves no place before it, unless it separates a carriage
return from its line feed. -/
theorem position_atOffset_take {m : Nat} (hk : k ≤ m)
    (hend : text[m - 1]? = some '\r' → text[m]? ≠ some '\n') :
    (atOffset (text.take m) k).position = (atOffset text k).position := by
  induction k with
  | zero => rfl
  | succ k ih =>
      have ih := ih (by omega)
      rw [atOffset_succ, atOffset_succ]
      cases hrest : text.drop k with
      | nil =>
          have hcut : (text.take m).drop k = [] := by rw [List.drop_take, hrest, List.take_nil]
          simpa [advance, hrest, hcut] using ih
      | cons ch rest =>
          have hcut : (text.take m).drop k = ch :: rest.take (m - k - 1) := by
            rw [List.drop_take, hrest, ← Nat.sub_add_cancel (Nat.sub_pos_of_lt hk)]
            rfl
          have hthis : text[k]? = some ch := by rw [← List.head?_drop, hrest]; rfl
          have hnext : rest.head? = text[k + 1]? := by
            rw [← List.head?_drop, ← List.drop_drop, hrest]
            rfl
          have hpair : (ch == '\r' && (rest.take (m - k - 1)).head? == some '\n') =
              (ch == '\r' && rest.head? == some '\n') := by
            rw [List.head?_take]
            split
            · -- the next character is cut off, so it must not be the line feed of this one
              obtain rfl : k + 1 = m := by omega
              cases hch : ch == '\r' with
              | false => rfl
              | true =>
                  rw [Nat.add_sub_cancel, hthis, beq_iff_eq.mp hch] at hend
                  rw [hnext]
                  simpa using hend rfl
            · rfl
          rw [position_advance (rest_atOffset.trans hcut),
            position_advance (rest_atOffset.trans hrest), ih, hpair]

end Cursor

/-! ## One step -/

/-- White space from one offset up to another, and something else behind it. -/
structure Gap (d : Dialect) (text : Text) (k m : Nat) : Prop where
  le : k ≤ m
  le_length : m ≤ text.length
  blank : ∀ i ch, k ≤ i → i < m → text[i]? = some ch → d.isSpace ch = true
  stop : ∀ ch, text[m]? = some ch → d.isSpace ch = false

namespace Gap

variable {d : Dialect} {text : Text} {k m : Nat}

theorem isSpace_of_mem (h : Gap d text k m) {ch : Char}
    (hch : ch ∈ (text.drop k).take (m - k)) : d.isSpace ch = true := by
  obtain ⟨i, hi⟩ := List.mem_iff_getElem?.mp hch
  rw [List.getElem?_take] at hi
  split at hi
  · rw [List.getElem?_drop] at hi
    exact h.blank (k + i) ch (by omega) (by omega) hi
  · cases hi

theorem length_takeWhile (h : Gap d text k m) :
    ((text.drop k).takeWhile d.isSpace).length = m - k := by
  have hsplit : text.drop k = (text.drop k).take (m - k) ++ text.drop m := by
    rw [← Nat.add_sub_cancel' h.le, ← List.drop_drop, Nat.add_sub_cancel' h.le]
    exact (List.take_append_drop _ _).symm
  have hstop : (text.drop m).takeWhile d.isSpace = [] := by
    cases hrest : text.drop m with
    | nil => rfl
    | cons ch rest =>
        have hch : text[m]? = some ch := by rw [← List.head?_drop, hrest]; rfl
        rw [List.takeWhile_cons, h.stop ch hch]
        rfl
  have hle := h.le_length
  rw [hsplit, List.takeWhile_append_of_pos fun _ => h.isSpace_of_mem, hstop, List.append_nil,
    List.length_take, List.length_drop]
  omega

theorem skipSpace_eq (h : Gap d text k m) :
    (Cursor.atOffset text k).skipSpace d = Cursor.atOffset text m := by
  rw [Cursor.skipSpace, Cursor.rest_atOffset, h.length_takeWhile, Cursor.advanceBy_atOffset,
    Nat.add_sub_cancel' h.le]

theorem refl (hk : k ≤ text.length) (hstop : ∀ ch, text[k]? = some ch → d.isSpace ch = false) :
    Gap d text k k :=
  ⟨Nat.le_refl k, hk, fun i ch hki hik => by omega, hstop⟩

theorem exists_of_le (d : Dialect) {text : Text} {k : Nat} (hk : k ≤ text.length) :
    ∃ m, Gap d text k m := by
  cases hch : text[k]? with
  | none => exact ⟨k, refl hk (by simp [hch])⟩
  | some ch =>
      cases hspace : d.isSpace ch with
      | false => exact ⟨k, refl hk (by simp [hch, hspace])⟩
      | true =>
          have hlt : k < text.length := (List.getElem?_eq_some_iff.mp hch).1
          obtain ⟨m, hgap⟩ := exists_of_le d (show k + 1 ≤ text.length from hlt)
          refine ⟨m, ?_, hgap.le_length, fun i c hki him hc => ?_, hgap.stop⟩
          · have := hgap.le
            omega
          · by_cases hik : i = k
            · rw [hik, hch] at hc
              cases hc
              exact hspace
            · exact hgap.blank i c (by omega) him hc
termination_by text.length - k

theorem cut {n : Nat} (h : Gap d text k m) (hn : m ≤ n) : Gap d (text.take n) k m where
  le := h.le
  le_length := by
    rw [List.length_take]
    have := h.le_length
    omega
  blank i ch hki him hch := by
    rw [List.getElem?_take] at hch
    split at hch
    · exact h.blank i ch hki him hch
    · cases hch
  stop ch hch := by
    rw [List.getElem?_take] at hch
    split at hch
    · exact h.stop ch hch
    · cases hch

/-- Behind a gap there is no line feed, because that is white space in all dialects. -/
theorem getElem?_ne_lineFeed (h : Gap d text k m) : text[m]? ≠ some '\n' := by
  intro hline
  have := h.stop '\n' hline
  simp [Dialect.isSpace] at this

/-- A step passes the white space and takes the lexeme behind it. -/
theorem step_eq (h : Gap d text k m) :
    (Cursor.atOffset text k).step d =
      match text.drop m with
      | [] => .done (Cursor.atOffset text m)
      | ch :: rest =>
        match Lexeme.scan d ch rest with
        | .found kind size =>
          .token ((Cursor.atOffset text m).tokenOf kind size) (Cursor.atOffset text (m + size))
        | .failed cause consumed =>
          .fault cause (Cursor.atOffset text m).position (Cursor.atOffset text (m + consumed)) := by
  simp only [Cursor.step, h.skipSpace_eq, Cursor.rest_atOffset, Cursor.advanceBy_atOffset]
  rfl

end Gap

/-! ## Runs -/

namespace Lexed

variable {d : Dialect} {c : Cursor}

theorem ofCursor_of_done {stopped : Cursor} (h : c.step d = .done stopped) :
    ofCursor d c = ⟨[], none, stopped⟩ := by
  rw [ofCursor]
  split <;> simp_all

theorem ofCursor_of_token {t : Token} {after : Cursor} (h : c.step d = .token t after) :
    ofCursor d c =
      ⟨t :: (ofCursor d after).tokens, (ofCursor d after).fault?, (ofCursor d after).stopped⟩ := by
  rw [ofCursor]
  split <;> simp_all

theorem ofCursor_of_fault {cause : Malformation} {position : Position} {stopped : Cursor}
    (h : c.step d = .fault cause position stopped) :
    ofCursor d c = ⟨[], some (cause, position), stopped⟩ := by
  rw [ofCursor]
  split <;> simp_all

end Lexed

/-- Tokens one after the other between two offsets of a text. -/
inductive Run (d : Dialect) (text : Text) : Nat → List Token → Nat → Prop
  | nil (k : Nat) : Run d text k [] k
  | cons {k m n size : Nat} {ch : Char} {rest : Text} {kind : Token.Kind} {ts : List Token}
      (hgap : Gap d text k m) (hrest : text.drop m = ch :: rest)
      (hscan : Lexeme.scan d ch rest = .found kind size) (hrun : Run d text (m + size) ts n) :
      Run d text k ((Cursor.atOffset text m).tokenOf kind size :: ts) n

/-- A lexeme at an offset of a text ends in the text. -/
theorem add_le_length_of_scan {d : Dialect} {text rest : Text} {m size : Nat} {ch : Char}
    {kind : Token.Kind} (hrest : text.drop m = ch :: rest)
    (hscan : Lexeme.scan d ch rest = .found kind size) : m + size ≤ text.length := by
  have hsize := Lexeme.settles_scan.size_le hscan
  have hlength := congrArg List.length hrest
  rw [List.length_drop, List.length_cons] at hlength
  omega

namespace Run

variable {d : Dialect} {text : Text} {k n : Nat} {ts : List Token}

theorem le (h : Run d text k ts n) : k ≤ n := by
  induction h with
  | nil => exact Nat.le_refl _
  | cons hgap hrest hscan hrun ih =>
      have := hgap.le
      omega

theorem le_length (h : Run d text k ts n) (hk : k ≤ text.length) : n ≤ text.length := by
  induction h with
  | nil => exact hk
  | cons hgap hrest hscan hrun ih => exact ih (add_le_length_of_scan hrest hscan)

theorem append {m : Nat} {us : List Token} (h : Run d text k ts m) (h' : Run d text m us n) :
    Run d text k (ts ++ us) n := by
  induction h with
  | nil => exact h'
  | cons hgap hrest hscan hrun ih => exact .cons hgap hrest hscan (ih h')

/-- The loop makes the steps of a run and goes on behind them. -/
theorem tokens_ofCursor (h : Run d text k ts n) :
    (Lexed.ofCursor d (.atOffset text k)).tokens =
      ts ++ (Lexed.ofCursor d (.atOffset text n)).tokens ∧
    (Lexed.ofCursor d (.atOffset text k)).fault? =
      (Lexed.ofCursor d (.atOffset text n)).fault? := by
  induction h with
  | nil => exact ⟨rfl, rfl⟩
  | @cons k m n size ch rest kind ts hgap hrest hscan hrun ih =>
      have hstep : (Cursor.atOffset text k).step d =
          .token ((Cursor.atOffset text m).tokenOf kind size) (.atOffset text (m + size)) := by
        rw [hgap.step_eq]
        simp only [hrest, hscan]
      rw [Lexed.ofCursor_of_token hstep]
      exact ⟨by simp [ih.1], ih.2⟩

end Run

/-- The loop ends at a gap: behind it the text ends, or a lexeme fails. -/
theorem Lexed.exists_run (d : Dialect) {text : Text} {k : Nat} (hk : k ≤ text.length) :
    ∃ n m, Run d text k (Lexed.ofCursor d (.atOffset text k)).tokens n ∧ Gap d text n m ∧
      ((Lexed.ofCursor d (.atOffset text k)).fault? = none ∧ m = text.length ∨
        ∃ cause consumed ch rest, text.drop m = ch :: rest ∧
          Lexeme.scan d ch rest = .failed cause consumed ∧
          (Lexed.ofCursor d (.atOffset text k)).fault? =
            some (cause, (Cursor.atOffset text m).position)) := by
  obtain ⟨m, hgap⟩ := Gap.exists_of_le d hk
  have hstep := hgap.step_eq
  cases hrest : text.drop m with
  | nil =>
      have hm : text.length ≤ m := List.drop_eq_nil_iff.mp hrest
      simp only [hrest] at hstep
      rw [Lexed.ofCursor_of_done hstep]
      have hle := hgap.le_length
      exact ⟨k, m, .nil k, hgap, .inl ⟨rfl, by omega⟩⟩
  | cons ch rest =>
      simp only [hrest] at hstep
      cases hscan : Lexeme.scan d ch rest with
      | failed cause consumed =>
          simp only [hscan] at hstep
          rw [Lexed.ofCursor_of_fault hstep]
          exact ⟨k, m, .nil k, hgap, .inr ⟨cause, consumed, ch, rest, hrest, hscan, rfl⟩⟩
      | found kind size =>
          simp only [hscan] at hstep
          have hsize := Lexeme.size_pos_of_scan hscan
          have hle := add_le_length_of_scan hrest hscan
          have hkm := hgap.le
          -- a token is not empty, so there is less text behind it and the recursion is founded
          obtain ⟨n, stop, hrun, hstop, hend⟩ := Lexed.exists_run d hle
          rw [Lexed.ofCursor_of_token hstep]
          exact ⟨n, stop, .cons hgap hrest hscan hrun, hstop, hend⟩
termination_by text.length - k

/-- Without a fault the tokens of a text are a run up to white space at its end. -/
theorem Lexed.exists_run_of_fault?_eq_none {d : Dialect} {text : Text}
    (h : (Lexed.ofText d text).fault? = none) :
    ∃ n, Run d text 0 (Lexed.ofText d text).tokens n ∧ Gap d text n text.length := by
  obtain ⟨n, m, hrun, hgap, ⟨-, rfl⟩ | ⟨cause, consumed, ch, rest, -, -, hfault⟩⟩ :=
    Lexed.exists_run d (Nat.zero_le text.length)
  · exact ⟨n, hrun, hgap⟩
  · cases h.symm.trans hfault

namespace Run

variable {d : Dialect} {text : Text} {k m n : Nat} {ts : List Token}

/-- A run is made again on the text cut off behind it. -/
theorem cut (h : Run d text k ts n) (hn : n ≤ m) (hm : m ≤ text.length)
    (hend : text[m - 1]? = some '\r' → text[m]? ≠ some '\n') : Run d (text.take m) k ts n := by
  induction h with
  | nil k => exact .nil k
  | @cons k p n size ch rest kind ts hgap hrest hscan hrun ih =>
      have hsize := Lexeme.size_pos_of_scan hscan
      have hpn := hrun.le
      have hcut : (text.take m).drop p = ch :: rest.take (m - p - 1) := by
        rw [List.drop_take, hrest, ← Nat.sub_add_cancel (show 1 ≤ m - p by omega)]
        rfl
      have hlength := congrArg List.length hrest
      rw [List.length_drop, List.length_cons] at hlength
      have hscan' : Lexeme.scan d ch (rest.take (m - p - 1)) = .found kind size := by
        rw [← List.take_append_drop (m - p - 1) rest] at hscan
        refine Lexeme.settles_scan.of_append hscan ?_
        rw [List.length_take]
        omega
      have htoken : (Cursor.atOffset (text.take m) p).tokenOf kind size =
          (Cursor.atOffset text p).tokenOf kind size := by
        unfold Cursor.tokenOf
        simp only [Cursor.rest_atOffset, Cursor.advanceBy_atOffset]
        rw [Cursor.position_atOffset_take (by omega) hend,
          Cursor.position_atOffset_take (by omega) hend, List.drop_take, List.take_take,
          Nat.min_eq_left (by omega)]
      -- the constructor wants the token of the cut text
      rw [← htoken]
      exact .cons (hgap.cut (by omega)) hcut hscan' (ih hn)

/-- A text that ends behind a gap has the tokens of the run in front of it. -/
theorem ofText_take (h : Run d text 0 ts n) (hgap : Gap d text n m) :
    (Lexed.ofText d (text.take m)).tokens = ts ∧ (Lexed.ofText d (text.take m)).fault? = none := by
  have hrun := h.cut hgap.le hgap.le_length fun _ => hgap.getElem?_ne_lineFeed
  have hstep := (hgap.cut (Nat.le_refl m)).step_eq
  have hend : (text.take m).drop m = [] := by simp
  simp only [hend] at hstep
  have htokens := hrun.tokens_ofCursor
  rw [Lexed.ofCursor_of_done hstep, List.append_nil] at htokens
  exact htokens

theorem ofText_eq (h : Run d text 0 ts n) (hgap : Gap d text n text.length) :
    (Lexed.ofText d text).tokens = ts ∧ (Lexed.ofText d text).fault? = none := by
  have hlexed := h.ofText_take hgap
  rwa [List.take_length] at hlexed

end Run

/-- A lexeme that takes the whole text is its only token. -/
theorem Lexed.ofText_of_scan {d : Dialect} {c : Char} {rest text : Text} {kind : Token.Kind}
    (htext : text = c :: rest) (hspace : d.isSpace c = false)
    (hscan : Lexeme.scan d c rest = .found kind text.length) :
    (Lexed.ofText d text).tokens = [⟨kind, text, .between .origin (Cursor.endOf text)⟩] ∧
      (Lexed.ofText d text).fault? = none := by
  have hstart : Gap d text 0 0 := .refl (Nat.zero_le _) (by simp [htext, hspace])
  have hend : Gap d text text.length text.length := .refl (Nat.le_refl _) (by simp)
  have hrun : Run d text 0 [⟨kind, text, .between .origin (Cursor.endOf text)⟩] text.length := by
    have hrun := Run.cons hstart htext hscan (.nil _)
    rw [Nat.zero_add, Cursor.tokenOf, Cursor.rest_atOffset, List.drop_zero,
      List.take_length] at hrun
    exact hrun
  exact hrun.ofText_eq hend

/-! ## White space before a lexeme -/

/-- Behind some white space at an offset of a text stands the rest of it. -/
def Spaced (d : Dialect) (text : Text) (k : Nat) (rest : Text) : Prop :=
  ∃ gap : Text, (∀ c ∈ gap, d.isSpace c = true) ∧ text.drop k = gap ++ rest

namespace Spaced

variable {d : Dialect} {text rest post : Text} {k : Nat}

theorem skip {gap : Text} (h : Spaced d text k (gap ++ rest))
    (hgap : ∀ c ∈ gap, d.isSpace c = true) : Spaced d text k rest := by
  obtain ⟨before, hbefore, hdrop⟩ := h
  refine ⟨before ++ gap, fun c hc => ?_, by rw [hdrop, List.append_assoc]⟩
  rcases List.mem_append.mp hc with hc | hc
  · exact hbefore c hc
  · exact hgap c hc

theorem exists_gap (h : Spaced d text k rest) (hk : k ≤ text.length)
    (hrest : ∀ c, rest.head? = some c → d.isSpace c = false) :
    ∃ m, Gap d text k m ∧ text.drop m = rest := by
  obtain ⟨gap, hblank, hdrop⟩ := h
  have hrest' : text.drop (k + gap.length) = rest := by
    rw [← List.drop_drop, hdrop, List.drop_left]
  have hlength := congrArg List.length hdrop
  rw [List.length_drop, List.length_append] at hlength
  refine ⟨k + gap.length, ⟨by omega, by omega, ?_, ?_⟩, hrest'⟩
  · intro i c hki hi hc
    refine hblank c (List.mem_of_getElem? (i := i - k) ?_)
    rw [← hc, ← Nat.add_sub_cancel' hki, ← List.getElem?_drop, hdrop,
      List.getElem?_append_left (by omega), Nat.add_sub_cancel_left]
  · intro c hc
    exact hrest c (by rw [← hrest', List.head?_drop, hc])

/-- White space up to the end of the text. -/
theorem gap_length (h : Spaced d text k []) (hk : k ≤ text.length) :
    Gap d text k text.length := by
  obtain ⟨m, hgap, hm⟩ := h.exists_gap hk (fun c hc => nomatch hc)
  obtain rfl : m = text.length := Nat.le_antisymm hgap.le_length (List.drop_eq_nil_iff.mp hm)
  exact hgap

/-- A lexeme behind the white space is a run of one token. -/
theorem exists_token {c : Char} {kind : Token.Kind} (h : Spaced d text k (c :: rest ++ post))
    (hspace : d.isSpace c = false)
    (hscan : Lexeme.scan d c (rest ++ post) = .found kind (c :: rest).length) :
    ∃ t n, Run d text k [t] n ∧ t.kind = kind ∧ t.text = c :: rest ∧ text.drop n = post := by
  have hk : k ≤ text.length := by
    obtain ⟨gap, -, hdrop⟩ := h
    have hlength := congrArg List.length hdrop
    simp only [List.length_drop, List.length_append, List.length_cons] at hlength
    omega
  obtain ⟨m, hgap, hm⟩ := h.exists_gap hk fun c' hc' => by
    obtain rfl : c = c' := by simpa using hc'
    exact hspace
  refine ⟨_, _, .cons hgap hm hscan (.nil _), rfl, ?_, ?_⟩
  · rw [Cursor.tokenOf, Cursor.rest_atOffset, hm, List.take_left]
  · rw [← List.drop_drop, hm, List.drop_left]

end Spaced

end LocatedJson
