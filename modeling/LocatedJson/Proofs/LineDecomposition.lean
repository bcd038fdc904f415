import LocatedJson.Proofs.LineTable
import LocatedJson.Proofs.Places
import LocatedJson.Proofs.Tiling

/-!
# Lines and line ends make up the text

The lines of a text, the offsets where they start and the place where a cursor
comes to a stop are three computations, and they describe one decomposition of
the text: each line stands where the table says, one line end stands between
each two, the lines with these line ends between them are the text again, and
the cursor stops behind the last line (`Session.lines_decompose`).

`Rows` is that decomposition from an offset on. What it says about offsets is
about the whole text, so the text in front of the rows goes through every
induction: a row is passed by adding it, with its line end, to the front.
-/

namespace LocatedJson

namespace Text

variable {cs front line stop rest : Text} {starts : List Nat} {lines : List Text}
variable {offset row start next : Nat}

/-- What stands between the end of each line and the start of the next one. -/
def lineBreaks (cs : Text) (starts : List Nat) (lines : List Text) : List Text :=
  List.zipWith (fun stop next : Nat => slice cs stop next)
    (List.zipWith (fun start line => start + line.length) starts lines) starts.tail

/-- Lines and the offsets where they start describe one decomposition of a text: each line has no
line end in it and stands where it starts, exactly one line end stands between it and the next
one, and the lines and what stands between them are the text. -/
structure Decomposes (cs : Text) (starts : List Nat) (lines : List Text) : Prop where
  length_eq : lines.length = starts.length
  line_eq : ∀ (row start : Nat) (line : Text), starts[row]? = some start →
    lines[row]? = some line → slice cs start (start + line.length : Nat) = line
  plain : ∀ line ∈ lines, ∀ c ∈ line, isLineEnd c = false
  lineBreak : ∀ (row start next : Nat) (line : Text), starts[row]? = some start →
    lines[row]? = some line → starts[row + 1]? = some next →
    LineBreak (slice cs (start + line.length : Nat) next) (cs.drop next)
  rebuilt : (List.zipWith (· ++ ·) lines (lineBreaks cs starts lines ++ [[]])).flatten = cs

/-- The part of a text between two others. -/
theorem slice_middle (front middle rest : Text) :
    slice (front ++ (middle ++ rest)) front.length (front.length + middle.length : Nat) =
      middle := by
  rw [slice_natCast (by simp) (by simp), Nat.add_sub_cancel_left, List.drop_left, List.take_left]

theorem lineBreaks_cons (cs line : Text) (start next : Nat) (later : List Nat)
    (lines : List Text) :
    lineBreaks cs (start :: next :: later) (line :: lines) =
      slice cs (start + line.length : Nat) next :: lineBreaks cs (next :: later) lines := rfl

/-- The front with one more row in it. -/
theorem length_passed (hfront : front.length = offset) (line stop : Text) :
    (front ++ (line ++ stop)).length = offset + line.length + stop.length := by
  rw [List.length_append, List.length_append, hfront, Nat.add_assoc]

namespace Rows

theorem plain (h : Rows offset cs starts lines) :
    ∀ line ∈ lines, ∀ c ∈ line, isLineEnd c = false := by
  induction h with
  | last hline => exact List.forall_mem_singleton.mpr hline
  | cons hline hstop hrest ih => exact List.forall_mem_cons.mpr ⟨hline, ih⟩

/-- The whole text around a row, and the line end behind it if another row follows. -/
theorem exists_split (h : Rows offset cs starts lines) (hfront : front.length = offset)
    (hstart : starts[row]? = some start) (hline : lines[row]? = some line) :
    ∃ before after, front ++ cs = before ++ (line ++ after) ∧ before.length = start ∧
      ∀ next, starts[row + 1]? = some next → ∃ stop rest, after = stop ++ rest ∧
        LineBreak stop rest ∧ next = start + line.length + stop.length := by
  induction h generalizing front row with
  | last hplain =>
      cases row with
      | succ row => cases hstart
      | zero =>
          cases hstart
          cases hline
          refine ⟨front, [], by rw [List.append_nil], hfront, ?_⟩
          intro next hnext
          cases hnext
  | @cons offset first stop rest starts lines hfirst hstop hrest ih =>
      cases row with
      | zero =>
          cases hstart
          cases hline
          refine ⟨front, stop ++ rest, by rw [List.append_assoc], hfront, ?_⟩
          intro next hnext
          obtain ⟨later, rfl⟩ := hrest.exists_starts
          cases hnext
          exact ⟨stop, rest, rfl, hstop, rfl⟩
      | succ row =>
          obtain ⟨before, after, hsplit, hbefore, hnext⟩ :=
            ih (length_passed hfront first stop) hstart hline
          exact ⟨before, after, (List.append_assoc _ _ _).symm.trans hsplit, hbefore, hnext⟩

/-- The rows and the line ends between them are what comes behind the front. -/
theorem rebuilt (h : Rows offset cs starts lines) (hfront : front.length = offset) :
    (List.zipWith (· ++ ·) lines (lineBreaks (front ++ cs) starts lines ++ [[]])).flatten =
      cs := by
  induction h generalizing front with
  | last hplain => simp [lineBreaks]
  | @cons offset first stop rest starts lines hfirst hstop hrest ih =>
      have hbreak : slice (front ++ (first ++ stop ++ rest)) (offset + first.length : Nat)
          (offset + first.length + stop.length : Nat) = stop := by
        have hmiddle := slice_middle (front ++ first) stop rest
        simpa only [List.length_append, hfront, List.append_assoc] using hmiddle
      have hlater := ih (length_passed hfront first stop)
      obtain ⟨later, rfl⟩ := hrest.exists_starts
      rw [List.append_assoc] at hlater
      rw [lineBreaks_cons, hbreak, List.cons_append, List.zipWith_cons_cons, List.flatten_cons,
        hlater]

/-- Behind the last line a place is on the last row. -/
theorem placeIn_end (h : Rows offset cs starts lines) :
    ∃ last, lines.getLast? = some last ∧ placeIn starts (offset + cs.length) =
      ⟨lines.length, last.length + 1, (offset + cs.length : Nat)⟩ := by
  induction h with
  | @last offset line hplain => exact ⟨line, rfl, placeIn_front (by simp)⟩
  | @cons offset first stop rest starts lines hfirst hstop hrest ih =>
      obtain ⟨last, hlast, hplace⟩ := ih
      have hend : offset + (first ++ stop ++ rest).length =
          offset + first.length + stop.length + rest.length := by
        simp only [List.length_append, Nat.add_assoc]
      refine ⟨last, by rw [List.getLast?_cons, hlast]; rfl, ?_⟩
      rw [hend, hrest.placeIn_later (Nat.le_add_right _ _), hplace]
      rfl

theorem decomposes (h : Rows 0 cs starts lines) : Decomposes cs starts lines where
  length_eq := h.length_eq
  plain := h.plain
  line_eq row start line hstart hline := by
    obtain ⟨before, after, hsplit, rfl, -⟩ := h.exists_split List.length_nil hstart hline
    rw [List.nil_append] at hsplit
    rw [hsplit, slice_middle]
  lineBreak row start next line hstart hline hnext := by
    obtain ⟨before, after, hsplit, rfl, hbehind⟩ := h.exists_split List.length_nil hstart hline
    obtain ⟨stop, rest, rfl, hstop, rfl⟩ := hbehind next hnext
    have hcs : cs = (before ++ line) ++ (stop ++ rest) := by
      rw [List.append_assoc]
      exact hsplit
    have hslice : slice cs (before.length + line.length : Nat)
        (before.length + line.length + stop.length : Nat) = stop := by
      rw [hcs, ← List.length_append, slice_middle]
    have hdrop : cs.drop (before.length + line.length + stop.length) = rest := by
      rw [hcs, ← List.append_assoc, ← List.length_append, ← List.length_append, List.drop_left]
    rw [hslice, hdrop]
    exact hstop
  rebuilt := h.rebuilt List.length_nil

end Rows

end Text

open Text in
/-- Whatever was asked before, the lines of a session and the offsets where they start are one
decomposition of its text, and they are what it answers. A cursor that goes over the whole text
stops on the last line, behind its last character. -/
theorem Session.lines_decompose (file : SourceFile) (earlier : List Query) :
    let s := ({ file := file } : Session).askAll earlier
    Decomposes file.text s.findLineStarts.1 s.findLines.1 ∧
    (s.ask .lines).1.result = .ok (.texts s.findLines.1) ∧
    ∃ last, s.findLines.1.getLast? = some last ∧
      (Cursor.advanceBy file.text.length (.ofText file.text)).position =
        ⟨s.findLines.1.length, last.length + 1, file.text.length⟩ := by
  intro s
  have hremembers : Remembers file earlier s := (Remembers.fresh file).run earlier
  have hrows : Rows 0 file.text (lineStarts file.text) (lines file.text) := rows_lines 0 file.text
  obtain ⟨last, hlast, hplace⟩ := hrows.placeIn_end
  rw [Nat.zero_add] at hplace
  rw [hremembers.findLines_fst, hremembers.findLineStarts_fst]
  refine ⟨hrows.decomposes, ?_, last, hlast, ?_⟩
  · rw [← hremembers.findLines_fst]
    rfl
  · exact (Cursor.position_atOffset (Nat.le_refl _)).trans hplace

/-- A lone carriage return and a line end of two characters next to each other, then a line end at
the end of the text. -/
example : Text.lines "a\r\r\n\u2028".toList = [['a'], [], [], []] ∧
    Text.lineStarts "a\r\r\n\u2028".toList = [0, 2, 4, 5] := ⟨rfl, rfl⟩

end LocatedJson
