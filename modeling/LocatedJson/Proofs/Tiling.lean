import LocatedJson.Proofs.Lexing

/-!
# Tokens tile their text

The tokens of a text cover it without overlap, and what they do not cover
is white space. When a lexeme fails, this holds of the text in front of it,
and that text on its own has the same tokens and no fault
(`Lexed.ofText_tiles`): a fault says nothing about what came before it.
-/

namespace LocatedJson

open LocatedJson.Text

/-- A text that is nothing but white space and, in between, the characters of tokens. -/
inductive Alternates (d : Dialect) : Text → List Token → Prop
  | last {gap : Text} (hgap : ∀ ch ∈ gap, d.isSpace ch = true) : Alternates d gap []
  | token {gap rest : Text} {t : Token} {ts : List Token} (hgap : ∀ ch ∈ gap, d.isSpace ch = true)
      (hrest : Alternates d rest ts) : Alternates d (gap ++ t.text ++ rest) (t :: ts)

/-- Whether an offset lies in the range of a token. -/
def Token.Covers (t : Token) (i : Nat) : Prop :=
  t.extent.range.start ≤ i ∧ (i : Int) < t.extent.range.stop

/-- The tokens tile a text between two offsets. -/
structure Tiles (d : Dialect) (text : Text) (start stop : Nat) (tokens : List Token) : Prop where
  stop_le : stop ≤ text.length
  within : ∀ t ∈ tokens, (start : Int) ≤ t.extent.range.start ∧ t.extent.range.stop ≤ stop
  nonempty : ∀ t ∈ tokens, t.text ≠ [] ∧ t.extent.range.start < t.extent.range.stop
  ordered : tokens.Pairwise fun a b => a.extent.range.stop ≤ b.extent.range.start
  text_eq : ∀ t ∈ tokens, t.text = slice text t.extent.range.start t.extent.range.stop
  blank : ∀ i ch, start ≤ i → i < stop → text[i]? = some ch → (∀ t ∈ tokens, ¬ t.Covers i) →
    d.isSpace ch = true
  alternates : Alternates d (slice text start stop) tokens

variable {d : Dialect} {text : Text}

theorem slice_natCast {m n : Nat} (hm : m ≤ text.length) (hn : n ≤ text.length) :
    slice text m n = (text.drop m).take (n - m) := by
  rw [slice, place_natCast hm, place_natCast hn]

theorem slice_append_slice {k m n : Nat} (hkm : k ≤ m) (hmn : m ≤ n) (hn : n ≤ text.length) :
    slice text k m ++ slice text m n = slice text k n := by
  rw [slice_natCast (by omega) (by omega), slice_natCast (by omega) hn,
    slice_natCast (by omega) hn, show n - k = (m - k) + (n - m) by omega, List.take_add,
    List.drop_drop, Nat.add_sub_cancel' hkm]

theorem Gap.isSpace_of_mem_slice {k m : Nat} (h : Gap d text k m) {ch : Char}
    (hch : ch ∈ slice text k m) : d.isSpace ch = true := by
  rw [slice_natCast (Nat.le_trans h.le h.le_length) h.le_length] at hch
  exact h.isSpace_of_mem hch

/-- Nothing but white space is tiled by no tokens. -/
theorem Gap.tiles {k m : Nat} (h : Gap d text k m) : Tiles d text k m [] where
  stop_le := h.le_length
  within := by simp
  nonempty := by simp
  ordered := .nil
  text_eq := by simp
  blank i ch hki him hch _ := h.blank i ch hki him hch
  alternates := .last fun _ => h.isSpace_of_mem_slice

/-! ## One token in front of a tiling -/

section Front

variable {m size : Nat} {kind : Token.Kind}

theorem range_tokenOf (h : m + size ≤ text.length) :
    ((Cursor.atOffset text m).tokenOf kind size).extent.range = ⟨m, (m + size : Nat)⟩ := by
  simp only [Cursor.tokenOf, Cursor.advanceBy_atOffset, Extent.between, Cursor.position]
  rw [Cursor.offset_atOffset h, Cursor.offset_atOffset (by omega)]

theorem text_tokenOf (h : m + size ≤ text.length) :
    ((Cursor.atOffset text m).tokenOf kind size).text = slice text m (m + size : Nat) := by
  rw [slice_natCast (by omega) h, Nat.add_sub_cancel_left, Cursor.tokenOf, Cursor.rest_atOffset]

theorem Tiles.cons {k stop : Nat} {ts : List Token} (hgap : Gap d text k m) (hsize : 0 < size)
    (hle : m + size ≤ stop) (hts : Tiles d text (m + size) stop ts) :
    Tiles d text k stop ((Cursor.atOffset text m).tokenOf kind size :: ts) := by
  have hstop := hts.stop_le
  have hkm := hgap.le
  have hlength : m + size ≤ text.length := by omega
  have hrange := @range_tokenOf text m size kind hlength
  have htext := @text_tokenOf text m size kind hlength
  generalize (Cursor.atOffset text m).tokenOf kind size = t at hrange htext
  obtain ⟨hfirst, hlast⟩ : t.extent.range.start = m ∧ t.extent.range.stop = (m + size : Nat) := by
    simp [hrange]
  refine ⟨hstop, ?_, ?_, ?_, ?_, ?_, ?_⟩
  · refine List.forall_mem_cons.mpr ⟨by omega, fun t' ht' => ?_⟩
    have := hts.within t' ht'
    omega
  · refine List.forall_mem_cons.mpr ⟨⟨fun hnil => ?_, by omega⟩, hts.nonempty⟩
    have := congrArg List.length (htext.symm.trans hnil)
    rw [slice_natCast (by omega) hlength, List.length_take, List.length_drop,
      List.length_nil] at this
    omega
  · refine List.pairwise_cons.mpr ⟨fun t' ht' => ?_, hts.ordered⟩
    rw [hlast]
    exact (hts.within t' ht').1
  · exact List.forall_mem_cons.mpr ⟨by rw [hfirst, hlast, htext], hts.text_eq⟩
  · intro i ch hki his hch hfree
    have hnot := hfree t List.mem_cons_self
    rw [Token.Covers, hfirst, hlast] at hnot
    -- what no token covers stands in front of the first one or behind it
    by_cases him : i < m
    · exact hgap.blank i ch hki him hch
    · exact hts.blank i ch (by omega) his hch fun t' ht' => hfree t' (List.mem_cons_of_mem _ ht')
  · have hslice : slice text k stop =
        slice text k m ++ t.text ++ slice text (m + size : Nat) stop := by
      rw [htext, slice_append_slice hkm (by omega) hlength,
        slice_append_slice (by omega) hle hstop]
    rw [hslice]
    exact .token (fun _ => hgap.isSpace_of_mem_slice) hts.alternates

end Front

theorem Run.tiles {k n m : Nat} {ts : List Token} (h : Run d text k ts n) (hgap : Gap d text n m) :
    Tiles d text k m ts := by
  induction h with
  | nil k => exact hgap.tiles
  | cons hgap' hrest hscan hrun ih =>
      have hle := hrun.le
      have hnm := hgap.le
      exact .cons hgap' (Lexeme.size_pos_of_scan hscan) (by omega) (ih hgap)

/-- The tokens of a text tile it up to its end or up to the fault that was found, and the
text in front of the fault has the same tokens and no fault. -/
theorem Lexed.ofText_tiles (d : Dialect) (text : Text) :
    match (Lexed.ofText d text).fault? with
    | none => Tiles d text 0 text.length (Lexed.ofText d text).tokens
    | some (_, position) =>
      ∃ p : Nat, position.offset = p ∧ Tiles d text 0 p (Lexed.ofText d text).tokens ∧
        (Lexed.ofText d (text.take p)).tokens = (Lexed.ofText d text).tokens ∧
        (Lexed.ofText d (text.take p)).fault? = none := by
  obtain ⟨n, m, hrun, hgap, hend⟩ := Lexed.exists_run d (Nat.zero_le text.length)
  change Run d text 0 (Lexed.ofText d text).tokens n at hrun
  rcases hend with ⟨hnone, rfl⟩ | ⟨cause, consumed, ch, rest, -, -, hfault⟩
  · change (Lexed.ofText d text).fault? = none at hnone
    rw [hnone]
    exact hrun.tiles hgap
  · change (Lexed.ofText d text).fault? = _ at hfault
    rw [hfault]
    refine ⟨m, ?_, hrun.tiles hgap, hrun.ofText_take hgap⟩
    rw [Cursor.position, Cursor.offset_atOffset hgap.le_length]

end LocatedJson
