import LocatedJson.Proofs.History

/-!
# Lines and places

The lines of a text and the offsets where they start are computed apart from
each other, but they are one decomposition of the text: lines without line ends
in them, and one line end between each two (`rows_lines`). An offset is in the
row of the last start at or before it, so everything about places is proved row
by row: the offsets of the first row, and those of the rows below it.

An offset is behind the end of its row only between the two characters of a
line end. All other offsets have a place that leads back to them, and every
place that leads to an offset is the place of it (`Session.place_index`).
-/

namespace LocatedJson

namespace Text

/-! ## Rows -/

/-- What ends a line in front of the rest of a text. -/
inductive LineBreak : Text → Text → Prop
  | pair (rest : Text) : LineBreak ['\r', '\n'] rest
  | single {c : Char} {rest : Text} (hc : isLineEnd c = true)
      (hpair : c = '\r' → rest.head? ≠ some '\n') : LineBreak [c] rest

/-- A text that starts at an offset, where its lines start, and the lines. -/
inductive Rows : Nat → Text → List Nat → List Text → Prop
  | last {offset : Nat} {line : Text} (hline : ∀ c ∈ line, isLineEnd c = false) :
      Rows offset line [offset] [line]
  | cons {offset : Nat} {line stop rest : Text} {starts : List Nat} {lines : List Text}
      (hline : ∀ c ∈ line, isLineEnd c = false) (hstop : LineBreak stop rest)
      (hrest : Rows (offset + line.length + stop.length) rest starts lines) :
      Rows offset (line ++ stop ++ rest) (offset :: starts) (line :: lines)

/-- An offset between the two characters of one line end. -/
def SplitsPair (cs : Text) (i : Nat) : Prop :=
  ∃ k, i = k + 1 ∧ cs[k]? = some '\r' ∧ cs[k + 1]? = some '\n'

variable {cs line stop rest : Text} {starts : List Nat} {lines : List Text} {offset i j : Nat}

theorem LineBreak.length_pos (h : LineBreak stop rest) : 0 < stop.length := by
  cases h <;> exact Nat.succ_pos _

namespace Rows

theorem exists_starts (h : Rows offset cs starts lines) : ∃ later, starts = offset :: later := by
  cases h <;> exact ⟨_, rfl⟩

theorem le_of_mem (h : Rows offset cs starts lines) : ∀ start ∈ starts, offset ≤ start := by
  induction h with
  | last hline => simp
  | cons hline hstop hrest ih =>
      refine List.forall_mem_cons.mpr ⟨Nat.le_refl _, fun start hstart => ?_⟩
      have := ih start hstart
      omega

theorem le_length_of_mem (h : Rows offset cs starts lines) :
    ∀ start ∈ starts, start ≤ offset + cs.length := by
  induction h with
  | last hline => simp
  | cons hline hstop hrest ih =>
      refine List.forall_mem_cons.mpr ⟨Nat.le_add_right _ _, fun start hstart => ?_⟩
      have := ih start hstart
      simp only [List.length_append]
      omega

theorem length_eq (h : Rows offset cs starts lines) : lines.length = starts.length := by
  induction h with
  | last hline => rfl
  | cons hline hstop hrest ih => rw [List.length_cons, List.length_cons, ih]

/-- A character in front of the first line. -/
theorem cons_char {c : Char} (hc : isLineEnd c = false)
    (h : Rows (offset + 1) cs ((offset + 1) :: starts) lines) :
    ∃ first others, lines = first :: others ∧
      Rows offset (c :: cs) (offset :: starts) ((c :: first) :: others) := by
  generalize hstarts : (offset + 1) :: starts = all at h
  cases h with
  | last hline =>
      cases hstarts
      exact ⟨_, _, rfl, .last (List.forall_mem_cons.mpr ⟨hc, hline⟩)⟩
  | @cons _ line stop rest _ others hline hstop hrest =>
      cases hstarts
      refine ⟨_, _, rfl, .cons (List.forall_mem_cons.mpr ⟨hc, hline⟩) hstop ?_⟩
      rwa [List.length_cons, Nat.add_comm line.length 1, ← Nat.add_assoc]

/-- The first character of a line end in front of the second one. -/
theorem cons_return (hhead : cs.head? = some '\n')
    (h : Rows (offset + 1) cs ((offset + 1) :: starts) lines) :
    Rows offset ('\r' :: cs) (offset :: starts) lines := by
  generalize hstarts : (offset + 1) :: starts = all at h
  have hfeed {line : Text} (hline : ∀ c ∈ line, isLineEnd c = false) :
      line.head? ≠ some '\n' := by
    intro hfirst
    exact absurd (hline '\n' (List.mem_of_head? hfirst)) (by decide)
  cases h with
  | last hline => exact absurd hhead (hfeed hline)
  | @cons _ line stop rest _ others hline hstop hrest =>
      cases hstarts
      cases line with
      | cons c line => exact absurd (show (c :: line).head? = some '\n' from hhead) (hfeed hline)
      | nil =>
          cases hstop with
          | pair rest => cases hhead
          | single hc hpair =>
              obtain rfl := Option.some.inj hhead
              exact @cons offset [] _ _ _ _ hline (.pair rest) hrest

end Rows

/-- The lines of a text and their starts are one decomposition of it. -/
theorem rows_lines (offset : Nat) (cs : Text) :
    Rows offset cs (offset :: lineStartsFrom offset cs) (Text.lines cs) := by
  induction cs generalizing offset with
  | nil => exact .last (by simp)
  | cons c rest ih =>
      rw [Text.lines, lineStartsFrom]
      by_cases hend : (isLineEnd c && !(c == '\r' && rest.head? == some '\n')) = true
      · rw [if_pos hend, if_pos hend]
        simp only [Bool.and_eq_true, Bool.not_eq_true', Bool.and_eq_false_iff, beq_eq_false_iff_ne,
          ne_eq] at hend
        exact @Rows.cons offset [] [c] rest _ _ (by simp)
          (.single hend.1 fun hc => hend.2.resolve_left fun h => h hc) (ih (offset + 1))
      · rw [if_neg hend, if_neg hend]
        by_cases hreturn : c = '\r'
        · subst hreturn
          rw [if_pos (by rfl)]
          have hhead : rest.head? = some '\n' := by simpa [isLineEnd] using hend
          exact (ih (offset + 1)).cons_return hhead
        · have hplain : isLineEnd c = false := by simpa [hreturn] using hend
          obtain ⟨first, others, hlines, hrows⟩ := (ih (offset + 1)).cons_char hplain
          rw [if_neg (by simpa using hreturn), hlines]
          exact hrows

/-! ## Offsets of the first row and of the rows below it -/

theorem placeIn_front (h : ∀ start ∈ starts, offset + i < start) :
    placeIn (offset :: starts) (offset + i) = ⟨1, i + 1, (offset + i : Nat)⟩ := by
  have hnone : starts.filter (· ≤ offset + i) = [] := by
    rw [List.filter_eq_nil_iff]
    intro start hstart
    have := h start hstart
    simp only [decide_eq_true_eq]
    omega
  have hsome : (offset :: starts).filter (· ≤ offset + i) = [offset] := by
    rw [List.filter_cons_of_pos (by simp), hnone]
  simp only [placeIn, hsome, List.length_singleton, List.getLastD_cons, List.getLastD_nil]
  congr 1
  omega

theorem placeIn_cons {first : Nat} (hfirst : first ≤ i) (h : ∃ start ∈ starts, start ≤ i) :
    placeIn (first :: starts) i =
      ⟨(placeIn starts i).line + 1, (placeIn starts i).column, (placeIn starts i).offset⟩ := by
  obtain ⟨start, hstart, hle⟩ := h
  have hsome : start ∈ starts.filter (· ≤ i) := List.mem_filter.mpr ⟨hstart, by simpa using hle⟩
  obtain ⟨x, others, hfilter⟩ := List.exists_cons_of_ne_nil (List.ne_nil_of_mem hsome)
  simp only [placeIn, List.filter_cons_of_pos (p := (decide <| · ≤ i)) (by simpa using hfirst),
    hfilter, List.length_cons, List.getLastD_cons]
  congr 1

/-- No line end is between the characters of a line and those of the line end behind it. -/
theorem not_splitsPair_of_le (hline : ∀ c ∈ line, isLineEnd c = false) (hi : i ≤ line.length) :
    ¬ SplitsPair (line ++ rest) i := by
  rintro ⟨k, rfl, hreturn, -⟩
  rw [List.getElem?_append_left (by omega)] at hreturn
  exact absurd (hline _ (List.mem_of_getElem? hreturn)) (by decide)

theorem splitsPair_append_iff (hstop : LineBreak stop rest) :
    SplitsPair (line ++ stop ++ rest) (line.length + stop.length + j) ↔ SplitsPair rest j := by
  have hbehind (k : Nat) : (line ++ stop ++ rest)[line.length + stop.length + k]? = rest[k]? := by
    rw [← List.length_append, List.getElem?_append_right (Nat.le_add_right _ _),
      Nat.add_sub_cancel_left]
  constructor
  · rintro ⟨k, hk, hreturn, hfeed⟩
    rw [← hk, hbehind] at hfeed
    cases j with
    | zero =>
        -- the last character of the line end would be a carriage return in front of a line feed
        obtain ⟨k', hlast⟩ : ∃ k', stop.length = k' + 1 :=
          ⟨stop.length - 1, by have := hstop.length_pos; omega⟩
        obtain rfl : k = line.length + k' := by omega
        rw [List.getElem?_append_left (by rw [List.length_append]; omega),
          List.getElem?_append_right (Nat.le_add_right _ _), Nat.add_sub_cancel_left] at hreturn
        cases hstop with
        | pair rest =>
            obtain rfl : k' = 1 := by simpa using hlast.symm
            cases hreturn
        | single hc hpair =>
            obtain rfl : k' = 0 := by simpa using hlast.symm
            exact absurd (List.head?_eq_getElem?.trans hfeed) (hpair (Option.some.inj hreturn))
    | succ j =>
        obtain rfl : k = line.length + stop.length + j := by omega
        rw [hbehind] at hreturn
        exact ⟨j, rfl, hreturn, hfeed⟩
  · rintro ⟨k, rfl, hreturn, hfeed⟩
    exact ⟨line.length + stop.length + k, rfl, by rw [hbehind, hreturn],
      by rw [Nat.add_assoc, hbehind, hfeed]⟩

theorem LineBreak.splitsPair_iff (hstop : LineBreak stop rest)
    (hline : ∀ c ∈ line, isLineEnd c = false) (hi : i < line.length + stop.length) :
    SplitsPair (line ++ stop ++ rest) i ↔ i = line.length + 1 := by
  rw [List.append_assoc]
  constructor
  · intro hsplits
    have hbehind : ¬ i ≤ line.length := fun hle => not_splitsPair_of_le hline hle hsplits
    cases hstop with
    | pair rest =>
        simp only [List.length_cons, List.length_nil] at hi
        omega
    | single hc hpair =>
        simp only [List.length_cons, List.length_nil] at hi
        omega
  · rintro rfl
    cases hstop with
    | pair rest => exact ⟨line.length, rfl, by simp, by simp⟩
    | single hc hpair =>
        simp only [List.length_cons, List.length_nil] at hi
        omega

namespace Rows

/-- The place of an offset in the first of several rows. -/
theorem placeIn_first (hrest : Rows (offset + line.length + stop.length) rest starts lines)
    (hi : i < line.length + stop.length) :
    placeIn (offset :: starts) (offset + i) = ⟨1, i + 1, (offset + i : Nat)⟩ := by
  refine placeIn_front fun start hstart => ?_
  have := hrest.le_of_mem start hstart
  omega

/-- The place of an offset below the first row. -/
theorem placeIn_later (hrest : Rows (offset + line.length + stop.length) rest starts lines)
    (hi : offset + line.length + stop.length ≤ i) :
    placeIn (offset :: starts) i =
      ⟨(placeIn starts i).line + 1, (placeIn starts i).column, (placeIn starts i).offset⟩ := by
  obtain ⟨later, rfl⟩ := hrest.exists_starts
  exact placeIn_cons (by omega) ⟨_, List.mem_cons_self, hi⟩

/-- Every offset is in a row: at most at its end, or between the two characters of the line end
behind it. -/
theorem exists_row (h : Rows offset cs starts lines) (hi : i ≤ cs.length) :
    ∃ (row start : Nat) (line : Text), starts[row]? = some start ∧ lines[row]? = some line ∧
      placeIn starts (offset + i) =
        ⟨row + 1, (offset + i : Nat) - start + 1, (offset + i : Nat)⟩ ∧
      start ≤ offset + i ∧ (SplitsPair cs i → offset + i = start + line.length + 1) ∧
      (¬ SplitsPair cs i → offset + i ≤ start + line.length) := by
  induction h generalizing i with
  | @last offset line hline =>
      have hplace : placeIn [offset] (offset + i) = _ := placeIn_front (by simp)
      refine ⟨0, offset, line, rfl, rfl, ?_, Nat.le_add_right _ _, fun hsplits => ?_, fun _ => ?_⟩
      · rw [hplace]
        congr 1
        omega
      · rw [← List.append_nil line] at hsplits
        exact absurd hsplits (not_splitsPair_of_le hline hi)
      · exact Nat.add_le_add_left hi offset
  | @cons offset line stop rest starts lines hline hstop hrest ih =>
      by_cases hfirst : i < line.length + stop.length
      · have hsplits := hstop.splitsPair_iff hline hfirst
        refine ⟨0, offset, line, rfl, rfl, ?_, Nat.le_add_right _ _, fun h => ?_, fun h => ?_⟩
        · rw [hrest.placeIn_first hfirst]
          congr 1
          omega
        · rw [hsplits.mp h, Nat.add_assoc]
        · have hne : i ≠ line.length + 1 := fun hi => h (hsplits.mpr hi)
          have hshort : stop.length ≤ 2 := by cases hstop <;> simp
          omega
      · obtain ⟨j, rfl⟩ : ∃ j, i = line.length + stop.length + j :=
          ⟨i - (line.length + stop.length), by omega⟩
        simp only [List.length_append] at hi
        obtain ⟨row, start, below, hstart, hbelow, hplace, hle, hinside, houtside⟩ :=
          ih (i := j) (by omega)
        have hsame : offset + line.length + stop.length + j =
            offset + (line.length + stop.length + j) := by omega
        rw [hsame] at hplace hle hinside houtside
        refine ⟨row + 1, start, below, hstart, hbelow, ?_, hle, ?_, ?_⟩
        · rw [hrest.placeIn_later (by omega), hplace]
          congr 1
        · rwa [splitsPair_append_iff hstop]
        · rwa [splitsPair_append_iff hstop]

/-- The offsets from the start of a row to its end have their places in the row. -/
theorem placeIn_row (h : Rows offset cs starts lines) {row start k : Nat} {line : Text}
    (hstart : starts[row]? = some start) (hline : lines[row]? = some line) (hk : k ≤ line.length) :
    ∃ i, start + k = offset + i ∧ i ≤ cs.length ∧ ¬ SplitsPair cs i ∧
      placeIn starts (offset + i) = ⟨row + 1, k + 1, (offset + i : Nat)⟩ := by
  induction h generalizing row with
  | @last offset only honly =>
      cases row with
      | succ row => cases hstart
      | zero =>
          obtain rfl := Option.some.inj hstart
          obtain rfl := Option.some.inj hline
          refine ⟨k, rfl, hk, ?_, placeIn_front (by simp)⟩
          rw [← List.append_nil only]
          exact not_splitsPair_of_le honly hk
  | @cons offset first stop rest starts lines hfirst hstop hrest ih =>
      cases row with
      | zero =>
          obtain rfl := Option.some.inj hstart
          obtain rfl := Option.some.inj hline
          have hpos := hstop.length_pos
          refine ⟨k, rfl, ?_, ?_, hrest.placeIn_first (by omega)⟩
          · simp only [List.length_append]
            omega
          · rw [List.append_assoc]
            exact not_splitsPair_of_le hfirst hk
      | succ row =>
          obtain ⟨i, hi, hle, hsplits, hplace⟩ := ih hstart hline
          refine ⟨first.length + stop.length + i, by omega, ?_, ?_, ?_⟩
          · simp only [List.length_append]
            omega
          · rwa [splitsPair_append_iff hstop]
          · have hsame : offset + (first.length + stop.length + i) =
                offset + first.length + stop.length + i := by omega
            rw [hsame, hrest.placeIn_later (by omega), hplace]
            congr 1

end Rows

/-! ## Places and indices -/

theorem locate_eq_ok_iff {n : Int} {p : Position} :
    locate cs (.int n) = .ok p ↔
      ∃ i : Nat, n = i ∧ i ≤ cs.length ∧ placeIn (lineStarts cs) i = p := by
  by_cases hrange : n < 0 ∨ (cs.length : Int) < n
  · have herror : offsetOf cs.length (.int n) = .error (.indexOutOfRange n cs.length) :=
      if_pos hrange
    rw [locate, herror]
    constructor
    · intro h
      cases h
    · rintro ⟨i, rfl, hi, -⟩
      omega
  · have hoffset : offsetOf cs.length (.int n) = .ok n.toNat := if_neg hrange
    rw [locate, hoffset]
    constructor
    · intro h
      exact ⟨n.toNat, by omega, by omega, Except.ok.inj h⟩
    · rintro ⟨i, rfl, -, rfl⟩
      rfl

/-- The index of a place in a row. -/
theorem indexOf_of_row {row start : Nat} {line : Coordinate} {column : Coordinate} {c : Int}
    {chars : Text} (hstart : (lineStarts cs)[row]? = some start)
    (hchars : (Text.lines cs)[row]? = some chars) (hline : line.value? = some ((row : Int) + 1))
    (hcolumn : column.value? = some c) :
    indexOf cs line column =
      if c < 1 ∨ (chars.length : Int) < c - 1 then .error (.columnOutOfRange column)
      else .ok (start + c - 1) := by
  have hrow : row < (lineStarts cs).length := (List.getElem?_eq_some_iff.mp hstart).1
  have hnumbers : numbersOf line column = .ok ((row : Int) + 1, c) := by
    simp only [numbersOf, hline, hcolumn]
  have hrowOf : rowOf (lineStarts cs) line ((row : Int) + 1) = .ok row := by
    rw [rowOf, if_neg (by omega)]
    congr 1
  simp only [indexOf, hnumbers, hrowOf, columnIn, hstart, hchars, Option.getD_some,
    Option.map_some]

/-- Only places in rows have an index. -/
theorem exists_row_of_indexOf {line column : Coordinate} {n : Int}
    (h : indexOf cs line column = .ok n) :
    ∃ (row start k : Nat) (chars : Text), (lineStarts cs)[row]? = some start ∧
      (Text.lines cs)[row]? = some chars ∧ k ≤ chars.length ∧ line.value? = some ((row : Int) + 1) ∧
      column.value? = some ((k : Int) + 1) ∧ n = (start + k : Nat) := by
  cases hl : line.value? with
  | none => simp [indexOf, numbersOf, hl] at h
  | some l =>
      cases hc : column.value? with
      | none => simp [indexOf, numbersOf, hl, hc] at h
      | some c =>
          have hrange : ¬ (l < 1 ∨ (lineStarts cs).length < l) := by
            intro hout
            simp [indexOf, numbersOf, hl, hc, rowOf, hout] at h
          obtain ⟨row, rfl⟩ : ∃ row : Nat, l = row + 1 := ⟨l.toNat - 1, by omega⟩
          have hrow : row < (lineStarts cs).length := by omega
          have hstart : (lineStarts cs)[row]? = some (lineStarts cs)[row] :=
            List.getElem?_eq_getElem hrow
          have hlength := (rows_lines 0 cs).length_eq
          have hrow' : row < (Text.lines cs).length := by rw [hlength]; exact hrow
          have hchars : (Text.lines cs)[row]? = some (Text.lines cs)[row] :=
            List.getElem?_eq_getElem hrow'
          rw [indexOf_of_row hstart hchars hl hc] at h
          split at h
          · cases h
          · rename_i hcolumn
            refine ⟨row, _, (c - 1).toNat, _, hstart, hchars, by omega, rfl, ?_, ?_⟩
            · congr 1
              omega
            · have hn := Except.ok.inj h
              omega

/-- The index of the place of an offset is the offset; between the two characters of a line end
the place is behind the end of its row. -/
theorem indexOf_placeIn (hi : i ≤ cs.length) :
    (¬ SplitsPair cs i → indexOf cs (.int (placeIn (lineStarts cs) i).line)
      (.int (placeIn (lineStarts cs) i).column) = .ok i) ∧
    (SplitsPair cs i → indexOf cs (.int (placeIn (lineStarts cs) i).line)
      (.int (placeIn (lineStarts cs) i).column) =
        .error (.columnOutOfRange (.int (placeIn (lineStarts cs) i).column))) := by
  have hrows : Rows 0 cs (lineStarts cs) (Text.lines cs) := rows_lines 0 cs
  obtain ⟨row, start, chars, hstart, hchars, hplace, hbehind, hinside, houtside⟩ :=
    hrows.exists_row hi
  rw [Nat.zero_add] at hplace hbehind hinside houtside
  have hindex (c : Int) := @indexOf_of_row cs row start (.int (row + 1)) (.int c) c chars hstart
    hchars rfl rfl
  simp only [hplace, hindex]
  constructor
  · intro hsplits
    have := houtside hsplits
    rw [if_neg (by omega)]
    congr 1
    omega
  · intro hsplits
    have := hinside hsplits
    rw [if_pos (by omega)]

/-- A line and a column that have an index are those of the place of the index. -/
theorem exists_placeIn_of_indexOf {line column : Coordinate} {n : Int}
    (h : indexOf cs line column = .ok n) :
    ∃ i : Nat, n = i ∧ i ≤ cs.length ∧ ¬ SplitsPair cs i ∧
      line.value? = some (placeIn (lineStarts cs) i).line ∧
      column.value? = some (placeIn (lineStarts cs) i).column := by
  have hrows : Rows 0 cs (lineStarts cs) (Text.lines cs) := rows_lines 0 cs
  obtain ⟨row, start, k, chars, hstart, hchars, hk, hline, hcolumn, rfl⟩ := exists_row_of_indexOf h
  obtain ⟨i, hi, hle, hsplits, hplace⟩ := hrows.placeIn_row hstart hchars hk
  rw [Nat.zero_add] at hi hplace
  exact ⟨i, by rw [hi], hle, hsplits, by rw [hline, hplace], by rw [hcolumn, hplace]⟩

end Text

/-- One place is in front of another, in the order of reading. -/
def Position.Before (p q : Position) : Prop :=
  p.line < q.line ∨ p.line = q.line ∧ p.column < q.column

/-- Places are in the order of their offsets. -/
theorem Text.before_placeIn (starts : List Nat) {i j : Nat} (h : i < j) :
    (placeIn starts i).Before (placeIn starts j) := by
  have hfilter : (starts.filter (· ≤ j)).filter (· ≤ i) = starts.filter (· ≤ i) := by
    rw [List.filter_filter]
    refine List.filter_congr fun start _ => ?_
    simp only [Bool.and_eq_left_iff_imp, decide_eq_true_eq]
    omega
  have hsub : (starts.filter (· ≤ i)).Sublist (starts.filter (· ≤ j)) :=
    hfilter ▸ List.filter_sublist
  rcases Nat.lt_or_eq_of_le hsub.length_le with hlt | heq
  · exact .inl (by simpa [placeIn] using hlt)
  · refine .inr ⟨congrArg Int.ofNat heq, ?_⟩
    simp only [placeIn, hsub.eq_of_length heq]
    omega

open Text in
/-- In every session the offsets of the text and the places that have an index correspond one to
one, offsets between the two characters of a line end apart. Exactly the offsets from the start to
the end of the text have a place. Its index is the offset, and between the two characters of a line
end there is none. Every line and column that have an index are those of the place of the index,
which is such an offset. Places are in the order of their offsets. -/
theorem Session.place_index (file : SourceFile) (earlier : List Query) :
    let s := ({ file := file } : Session).askAll earlier
    (∀ n : Int, (∃ p, (s.place (.int n)).1 = .ok p) ↔ 0 ≤ n ∧ n ≤ file.text.length) ∧
    (∀ (i : Nat) (p : Position), (s.place (.int i)).1 = .ok p →
      (¬ SplitsPair file.text i → (s.index (.int p.line) (.int p.column)).1 = .ok i) ∧
      (SplitsPair file.text i → (s.index (.int p.line) (.int p.column)).1 =
        .error (.columnOutOfRange (.int p.column)))) ∧
    (∀ (line column : Coordinate) (n : Int), (s.index line column).1 = .ok n →
      ∃ (i : Nat) (p : Position), n = i ∧ ¬ SplitsPair file.text i ∧
        (s.place (.int i)).1 = .ok p ∧ line.value? = some p.line ∧
        column.value? = some p.column) ∧
    ∀ (i j : Nat) (p q : Position), i < j → (s.place (.int i)).1 = .ok p →
      (s.place (.int j)).1 = .ok q → p.Before q := by
  intro s
  have hremembers : Remembers file earlier s := (Remembers.fresh file).run earlier
  simp only [hremembers.place_fst, hremembers.index_fst, locate_eq_ok_iff]
  refine ⟨fun n => ⟨?_, fun hn => ?_⟩, ?_, ?_, ?_⟩
  · rintro ⟨p, i, rfl, hi, -⟩
    omega
  · exact ⟨_, n.toNat, by omega, by omega, rfl⟩
  · rintro i p ⟨k, hk, hle, rfl⟩
    obtain rfl : k = i := by omega
    exact indexOf_placeIn hle
  · intro line column n hn
    obtain ⟨i, hi, hle, hsplits, hline, hcolumn⟩ := exists_placeIn_of_indexOf hn
    exact ⟨i, _, hi, hsplits, ⟨i, rfl, hle, rfl⟩, hline, hcolumn⟩
  · rintro i j p q hij ⟨i', hi', -, rfl⟩ ⟨j', hj', -, rfl⟩
    exact before_placeIn _ (by omega)

open Text in
/-- A text with a line end of two characters: the offset between them has a place without an index,
and the one behind them is the start of the second line. -/
theorem Session.place_index_between :
    let file : SourceFile := ⟨"a\r\nb".toList, ⟨[]⟩, []⟩
    let s := ({ file := file } : Session).askAll [.place (.int 0)]
    (s.place (.int 2)).1 = .ok ⟨1, 3, 2⟩ ∧ (s.place (.int 3)).1 = .ok ⟨2, 1, 3⟩ ∧
    (s.index (.int 1) (.int 3)).1 = .error (.columnOutOfRange (.int 3)) ∧
    (s.index (.int 2) (.int 1)).1 = .ok 3 ∧
    (⟨1, 3, 2⟩ : Position).Before ⟨2, 1, 3⟩ := by
  intro file s
  obtain ⟨-, hindex, -, hbefore⟩ := Session.place_index file [.place (.int 0)]
  have hinside : SplitsPair file.text 2 := ⟨1, rfl, rfl, rfl⟩
  have hbehind : ¬ SplitsPair file.text 3 := by
    rintro ⟨k, hk, hreturn, -⟩
    obtain rfl : k = 2 := by omega
    cases hreturn
  have htwo : (s.place (.int 2)).1 = .ok ⟨1, 3, 2⟩ := rfl
  have hthree : (s.place (.int 3)).1 = .ok ⟨2, 1, 3⟩ := rfl
  exact ⟨htwo, hthree, (hindex 2 _ htwo).2 hinside, (hindex 3 _ hthree).1 hbehind,
    hbefore 2 3 _ _ (by omega) htwo hthree⟩

end LocatedJson
