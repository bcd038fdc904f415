import LocatedJson.StringBody
import Mathlib.Data.Nat.Digits.Defs

/-!
# Where the decoding of a string stops

The decoding of a body goes from piece to piece. `Reaches d body rest` says
that it comes to a place with `rest` in front of it, and decoding fails exactly
if it comes to a piece that fails (`decode_eq_error_iff`).

One fault needs arithmetic: an escape by four digits is read as an integer,
and an integer of four digits is less than `16^4`, so it names a code point
unless it is negative (`piece_eq_outOfRange_iff`).
-/

namespace LocatedJson

open LocatedJson.Text

/-! ## The size of integers -/

namespace Numeral

/-- Digits in the order of writing, as digits from the least significant one on. -/
theorem ofDigits_eq (base : Nat) (vs : List Nat) :
    ofDigits base vs = Nat.ofDigits base vs.reverse := by
  rw [Nat.ofDigits_eq_foldr, List.foldr_reverse, ofDigits]
  simp only [Nat.cast_id, Nat.add_comm, Nat.mul_comm]

theorem hexValue?_lt {c : Char} {v : Nat} (h : hexValue? c = some v) : v < 16 := by
  rw [hexValue?, Option.or_eq_some_iff] at h
  rcases h with h | ⟨-, h⟩
  · unfold decimalValue? at h
    split at h
    · split at h
      · rename_i hdigit
        have hhigh : c.toNat ≤ 57 := hdigit.2
        cases h
        omega
      · cases h
    · obtain ⟨z, hz, rfl⟩ := Option.map_eq_some_iff.mp h
      have hbounds := List.find?_some hz
      simp only [Bool.and_eq_true, decide_eq_true_eq] at hbounds
      omega
  · unfold hexLetterValue? at h
    split at h
    · rename_i hlower
      have hhigh : c.toNat ≤ 102 := hlower.2
      cases h
      omega
    · split at h
      · rename_i hupper
        have hhigh : c.toNat ≤ 70 := hupper.2
        cases h
        omega
      · cases h

/-- A run of digits has at most as many digits as characters. -/
theorem bounds_of_digitRun {cs after : Text} {vs : List Nat}
    (h : digitRun .sixteen cs = some (vs, after)) :
    vs.length ≤ cs.length ∧ ∀ v ∈ vs, v < 16 := by
  induction cs generalizing vs with
  | nil =>
      cases h
      simp
  | cons c cs ih =>
      rw [digitRun] at h
      split at h
      · rename_i v hv
        obtain ⟨⟨vs', after'⟩, hrun, hpair⟩ := Option.map_eq_some_iff.mp h
        cases hpair
        obtain ⟨hlength, hlt⟩ := ih hrun
        exact ⟨Nat.succ_le_succ hlength, List.forall_mem_cons.mpr ⟨hexValue?_lt hv, hlt⟩⟩
      · split at h
        · split at h
          · obtain ⟨hlength, hlt⟩ := ih h
            exact ⟨Nat.le_succ_of_le hlength, hlt⟩
          · cases h
        · cases h
          simp

theorem length_splitSign_le (cs : Text) : (splitSign cs).2.length ≤ cs.length := by
  unfold splitSign
  split <;> simp

theorem length_dropMark_le (base : Base) (cs : Text) : (dropMark base cs).length ≤ cs.length := by
  unfold dropMark
  split
  · split
    · split <;> simp <;> omega
    · exact Nat.le_refl _
  · exact Nat.le_refl _

/-- An integer of base sixteen is bounded by the characters that it is read from. -/
theorem natAbs_lt_of_readInteger {cs : Text} {n : Int} (h : readInteger .sixteen cs = .ok n) :
    n.natAbs < 16 ^ cs.length := by
  have hblanks : (cs.dropWhile isNumberBlank).length ≤ cs.length :=
    (List.dropWhile_sublist isNumberBlank).length_le
  have hsign := length_splitSign_le (cs.dropWhile isNumberBlank)
  have hmark := length_dropMark_le .sixteen (splitSign (cs.dropWhile isNumberBlank)).2
  unfold readInteger at h
  dsimp only at h
  split at h
  · cases h
  · split at h
    · cases h
    · rename_i vs after hrun
      obtain ⟨hlength, hlt⟩ := bounds_of_digitRun hrun
      split at h
      · cases h
      · split at h
        · cases h
        · cases h
          have habs : ∀ negative k, (signed negative k).natAbs = k := by
            intro negative k
            cases negative <;> simp [signed]
          rw [habs, ofDigits_eq]
          refine Nat.lt_of_lt_of_le (Nat.ofDigits_lt_base_pow_length (b := 16) (by decide)
            fun v hv => hlt v (List.mem_reverse.mp hv)) ?_
          rw [List.length_reverse]
          exact Nat.pow_le_pow_right (by decide) (by omega)

end Numeral

/-! ## Pieces that fail -/

namespace StringBody

variable {d : Dialect} {c : Char} {body rest : Text} {fault : EscapeFault}

/-- The decoding of a body comes to the place with the rest in front of it. -/
inductive Reaches (d : Dialect) : Text → Text → Prop
  | here (rest : Text) : Reaches d rest rest
  | piece {c : Char} {ahead rest : Text} {p : Piece} (hpiece : piece d c ahead = .ok p)
      (hrest : Reaches d (ahead.drop (p.size - 1)) rest) : Reaches d (c :: ahead) rest

theorem decode_eq_error_iff :
    decode d body = .error fault ↔
      ∃ c rest, Reaches d body (c :: rest) ∧ piece d c rest = .error fault := by
  constructor
  · intro h
    fun_induction decode d body with
    | case1 => cases h
    | case2 c rest fault' hpiece =>
        cases h
        exact ⟨c, rest, .here (c :: rest), hpiece⟩
    | case3 c rest p hpiece fault' hlater ih =>
        cases h
        obtain ⟨c', rest', hreaches, hfault⟩ := ih hlater
        exact ⟨c', rest', .piece hpiece hreaches, hfault⟩
    | case4 => cases h
  · rintro ⟨c, rest, hreaches, hfault⟩
    generalize hplace : c :: rest = place at hreaches
    induction hreaches with
    | here =>
        subst hplace
        rw [decode, hfault]
    | piece hpiece hrest ih =>
        rw [decode, hpiece]
        simp only [ih hplace]

/-- Four characters behind a backslash and its letter that are read as a negative number. -/
def SpellsNegative (rest : Text) : Prop :=
  ∃ digits after n, rest = 'u' :: (digits ++ after) ∧ digits.length = 4 ∧
    hexNumber? digits = some n ∧ n < 0

/-- The number of hexadecimal digits is bounded by how many characters they are. -/
theorem natAbs_lt_of_hexNumber? {digits : Text} {n : Int} {count : Nat}
    (h : hexNumber? digits = some n) (hlength : digits.length ≤ count) :
    n.natAbs < 16 ^ count := by
  have hread : Numeral.readInteger .sixteen digits = .ok n := by
    unfold hexNumber? at h
    cases hread : Numeral.readInteger .sixteen digits with
    | ok m =>
        rw [hread] at h
        cases h
        rfl
    | error fault =>
        rw [hread] at h
        cases h
  exact Nat.lt_of_lt_of_le (Numeral.natAbs_lt_of_readInteger hread)
    (Nat.pow_le_pow_right (by decide) hlength)

/-- The code point of four digits or fewer is missing only if their number is negative. -/
theorem pointOfInt?_eq_none_iff {digits : Text} {n : Int} (h : hexNumber? digits = some n)
    (hlength : digits.length ≤ 4) : pointOfInt? n = none ↔ n < 0 := by
  have hlt : n.natAbs < 16 ^ 4 := natAbs_lt_of_hexNumber? h hlength
  unfold pointOfInt?
  split
  · simp_all
  · rw [CodePoint.ofNat?, dif_pos (by omega)]
    simp_all

theorem unicodePiece_eq_outOfRange_iff {digits after : Text} (hlength : digits.length = 4) :
    unicodePiece digits after = .error .outOfRange ↔ ∃ n, hexNumber? digits = some n ∧ n < 0 := by
  unfold unicodePiece
  cases hnumber : hexNumber? digits with
  | none => simp
  | some n =>
      have hpoint := pointOfInt?_eq_none_iff hnumber hlength.le
      dsimp only
      cases hn : pointOfInt? n with
      | none => simpa using hpoint.mp hn
      | some p =>
          have hnot : ¬ n < 0 := fun h => by cases hn.symm.trans (hpoint.mpr h)
          simp only [Option.some.injEq, exists_eq_left', hnot, iff_false]
          split <;> exact fun h => nomatch h

theorem json5Piece_ne_outOfRange : json5Piece c rest ≠ .error .outOfRange := by
  unfold json5Piece hexPiece
  intro h
  split at h
  · split at h <;> cases h
  · split at h
    · cases h
    · split at h <;> cases h

/-- A piece names no code point exactly if it is an escape by a negative number. -/
theorem piece_eq_outOfRange_iff :
    piece d c rest = .error .outOfRange ↔ c = '\\' ∧ SpellsNegative rest := by
  unfold piece
  cases rest with
  | nil => simp [SpellsNegative]
  | cons e after =>
      dsimp only
      by_cases hc : c = '\\'
      · rw [if_pos hc, escapePiece]
        simp only [hc, true_and]
        split
        · rename_i p hshort
          have hu : e ≠ 'u' := by
            rintro rfl
            cases hshort
          constructor
          · intro h
            split at h <;> cases h
          · rintro ⟨digits, later, n, ⟨⟩, -⟩
            exact absurd rfl hu
        · split
          · rename_i hunicode
            obtain ⟨rfl, hlength⟩ := hunicode
            have htake : (after.take 4).length = 4 := by rw [List.length_take]; omega
            rw [unicodePiece_eq_outOfRange_iff htake]
            constructor
            · rintro ⟨n, hnumber, hneg⟩
              exact ⟨after.take 4, after.drop 4, n, by rw [List.take_append_drop], htake, hnumber,
                hneg⟩
            · rintro ⟨digits, later, n, ⟨⟩, hdigits, hnumber, hneg⟩
              rw [← hdigits, List.take_left]
              exact ⟨n, hnumber, hneg⟩
          · rename_i hunicode
            have hnot : ¬ SpellsNegative (e :: after) := by
              rintro ⟨digits, later, n, ⟨⟩, hdigits, -⟩
              refine hunicode ⟨rfl, ?_⟩
              rw [List.length_append]
              omega
            simp only [hnot, iff_false]
            split
            · exact json5Piece_ne_outOfRange
            · exact fun h => nomatch h
      · rw [if_neg hc]
        simp [hc]

end StringBody

end LocatedJson
