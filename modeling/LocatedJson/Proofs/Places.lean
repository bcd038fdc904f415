import LocatedJson.Lines
import LocatedJson.Proofs.Derivation
import LocatedJson.Proofs.Lexing
import LocatedJson.Proofs.Phrases

/-!
# Places are offsets

The place of an offset is computed in two ways: by a cursor that counts
lines and columns on its way there, and from the table of line starts. The
two agree at every offset of every text (`Cursor.locate_atOffset`), so what a
token says about its two ends is what the table says about its range
(`Lexed.agrees_of_mem_tokens`).

The invariant of the count is the start of the line that the cursor is on:
the last entry of the table at or before its offset.
-/

namespace LocatedJson

open LocatedJson.Text

theorem Text.lt_of_mem_lineStartsFrom {offset x : Nat} {cs : Text}
    (h : x ∈ lineStartsFrom offset cs) : offset < x := by
  fun_induction lineStartsFrom offset cs with
  | case1 => cases h
  | case2 offset c rest hline ih =>
      rcases List.mem_cons.mp h with rfl | h
      · omega
      · have := ih h
        omega
  | case3 offset c rest hline ih =>
      have := ih h
      omega

namespace Cursor

/-- The lines counted on the way over `k` characters are the entries of the table that were
passed, and the last of them is what the column is counted from. -/
theorem position_advanceBy {k : Nat} {c : Cursor} (hk : k ≤ c.rest.length) {lineStart : Nat}
    (hstart : (c.column : Int) = c.offset - lineStart + 1) :
    (advanceBy k c).position =
      let passed := (lineStartsFrom c.offset c.rest).filter (· ≤ c.offset + k)
      ⟨c.line + passed.length, (c.offset + k : Nat) - passed.getLastD lineStart + 1,
        (c.offset + k : Nat)⟩ := by
  induction k generalizing c lineStart with
  | zero =>
      have hnone : (lineStartsFrom c.offset c.rest).filter (· ≤ c.offset + 0) = [] := by
        rw [List.filter_eq_nil_iff]
        intro x hx
        have := lt_of_mem_lineStartsFrom hx
        simp only [decide_eq_true_eq]
        omega
      simp only [hnone, advanceBy, position, hstart, List.length_nil, List.getLastD_nil]
      simp
  | succ k ih =>
      obtain ⟨line, column, offset, rest⟩ := c
      cases rest with
      | nil => simp at hk
      | cons ch rest =>
          have hshift : offset + (k + 1) = offset + 1 + k := by omega
          rw [List.length_cons] at hk
          dsimp only at hstart ⊢
          rw [advanceBy_succ, lineStartsFrom, hshift]
          by_cases hline : (isLineEnd ch && !(ch == '\r' && rest.head? == some '\n')) = true
          · -- the line that starts here is the first entry of the table, and it is passed
            have hadvance : advance ⟨line, column, offset, ch :: rest⟩ =
                ⟨line + 1, 1, offset + 1, rest⟩ := if_pos hline
            rw [hadvance, if_pos hline, @ih ⟨line + 1, 1, offset + 1, rest⟩ (by simpa using hk)
              (offset + 1) (by simp), List.filter_cons_of_pos (by simp)]
            simp only [List.length_cons, List.getLastD_cons]
            congr 1
            omega
          · have hadvance : advance ⟨line, column, offset, ch :: rest⟩ =
                ⟨line, column + 1, offset + 1, rest⟩ := if_neg hline
            rw [hadvance, if_neg hline]
            exact @ih ⟨line, column + 1, offset + 1, rest⟩ (by simpa using hk) lineStart
              (by simp only; omega)

/-- The cursor at an offset is at the place of the offset. -/
theorem position_atOffset {text : Text} {k : Nat} (hk : k ≤ text.length) :
    (atOffset text k).position = placeOf text k := by
  have hcount := @position_advanceBy k (ofText text) hk 0 (by simp [ofText])
  rw [atOffset, hcount]
  simp only [ofText, placeOf, placeIn, lineStarts, Nat.zero_add, List.filter_cons, Nat.zero_le,
    decide_true, if_true, List.length_cons, List.getLastD_cons]
  congr 1
  omega

theorem locate_atOffset {text : Text} {k : Nat} (hk : k ≤ text.length) :
    locate text (.int k) = .ok (atOffset text k).position := by
  rw [position_atOffset hk, locate, offsetOf, if_neg (by omega), Int.toNat_natCast]
  rfl

end Cursor

/-! ## Extents -/

/-- The two ends of an extent are the places of the two ends of its range. -/
structure Extent.Agrees (text : Text) (e : Extent) : Prop where
  start : locate text (.int e.range.start) = .ok e.span.start
  stop : locate text (.int e.range.stop) = .ok e.span.stop

/-- A place of a text is the one that its offset has. -/
structure Position.Agrees (text : Text) (p : Position) : Prop where
  nonneg : 0 ≤ p.offset
  le_length : p.offset ≤ text.length
  located : locate text (.int p.offset) = .ok p

variable {d : Dialect} {text : Text}

theorem Extent.Agrees.join {first last : Extent} (hfirst : first.Agrees text)
    (hlast : last.Agrees text) : (first.join last).Agrees text :=
  ⟨hfirst.start, hlast.stop⟩

theorem Cursor.agrees_atOffset {k : Nat} (hk : k ≤ text.length) :
    (atOffset text k).position.Agrees text := by
  have hoffset : (atOffset text k).position.offset = k := by
    rw [position, offset_atOffset hk]
  exact ⟨by omega, by omega, by rw [hoffset, locate_atOffset hk]⟩

theorem Extent.agrees_between {start stop : Position} (hstart : start.Agrees text)
    (hstop : stop.Agrees text) : (Extent.between start stop).Agrees text :=
  ⟨hstart.located, hstop.located⟩

theorem Run.agrees {k n : Nat} {ts : List Token} (h : Run d text k ts n) :
    ∀ t ∈ ts, t.start.Agrees text ∧ t.extent.Agrees text := by
  induction h with
  | nil => simp
  | @cons k m n size ch rest kind ts hgap hrest hscan hrun ih =>
      have hlength := add_le_length_of_scan hrest hscan
      have hstart := @Cursor.agrees_atOffset text m (by omega)
      have hstop := Cursor.agrees_atOffset hlength
      refine List.forall_mem_cons.mpr ⟨⟨hstart, ?_⟩, ih⟩
      rw [Cursor.tokenOf, Cursor.advanceBy_atOffset]
      exact Extent.agrees_between hstart hstop

theorem Lexed.agrees_of_mem_tokens {t : Token} (h : t ∈ (Lexed.ofText d text).tokens) :
    t.start.Agrees text ∧ t.extent.Agrees text := by
  obtain ⟨n, m, hrun, -, -⟩ := Lexed.exists_run d (Nat.zero_le text.length)
  exact hrun.agrees t h

theorem Lexed.agrees_of_fault {cause : Malformation} {position : Position}
    (h : (Lexed.ofText d text).fault? = some (cause, position)) : position.Agrees text := by
  obtain ⟨n, m, -, hgap, ⟨hnone, -⟩ | ⟨cause', consumed, ch, rest, -, -, hfault⟩⟩ :=
    Lexed.exists_run d (Nat.zero_le text.length)
  · cases hnone.symm.trans h
  · cases hfault.symm.trans h
    exact Cursor.agrees_atOffset hgap.le_length

/-! ## Nodes

The extent of a node reaches from one token to another one or the same. -/

/-- All nodes of a document that was read from the tokens of a text, and the document itself,
stand where the text says. -/
theorem Document.agrees_of_ofTokens {profile : Profile} {tokens : List Token} {doc : Document}
    (h : Document.ofTokens profile text tokens = .ok doc)
    (htokens : ∀ t ∈ tokens, t.extent.Agrees text) :
    ∀ e ∈ (Outline.ofDocument doc).entries, e.extent.Agrees text := by
  obtain ⟨v, hv, -, rfl⟩ := Document.ofTokens_eq_ok_iff.mp h
  have hwhole : Extent.Agrees text ⟨⟨0, text.length⟩, ⟨.origin, Cursor.endOf text⟩⟩ :=
    ⟨Cursor.locate_atOffset (Nat.zero_le _), Cursor.locate_atOffset (Nat.le_refl _)⟩
  have hcode : ∀ t ∈ v.tokens, t.extent.Agrees text := by
    intro t ht
    rw [hv] at ht
    exact htokens t (List.mem_filter.mp ht).1
  intro e he
  obtain ⟨id, hid⟩ := List.mem_iff_getElem?.mp he
  rcases Outline.exists_phrase (v := v) rfl hid with ⟨-, -, hextent⟩ | ⟨p, -, hpart, -, hextent⟩
  · rw [hextent]
    exact hwhole
  · obtain ⟨first, last, hfirst, hlast, hjoin⟩ := p.spans
    rw [hextent, hjoin]
    exact (hcode first (hpart.subset (List.mem_of_head? hfirst))).join
      (hcode last (hpart.subset (List.mem_of_getLast? hlast)))

end LocatedJson
