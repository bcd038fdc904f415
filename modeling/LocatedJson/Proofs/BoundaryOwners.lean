import LocatedJson.Pairs
import LocatedJson.Proofs.Neighbours
import Mathlib.Data.List.Basic
import Mathlib.Data.List.Induction

/-!
# Owners of boundaries

Tokens can be supplied by hand, so nothing is known about their ranges: they
may overlap, be empty or stand in any order, and several tokens may start or end
at one offset. The last of these in the list owns the offset, and the neighbours
of a range are found by going back from the owner of its start and on from the
owner of its end (`neighbours_of_owners`).

There are three views of the owners. A look-up goes through the tokens. The
table lists all of them by offset. And a map that is filled in one pass, token
by token, has them because a later entry replaces an earlier one; the step of
that pass is `lastIndex?_concat`.
-/

namespace LocatedJson.Neighbour

variable {ts : List Token} {range : Range} {k : Nat}

/-! ## One pass -/

/-- The boundaries of one side with their owners, entered token by token. -/
def owners (side : Token → Int) (ts : List Token) : List (Int × Nat) :=
  Pairs.ofList (ts.zipIdx.map fun (t, i) => (side t, i))

/-- A map that is filled in one pass has the owners that the look-ups find. -/
theorem get?_owners (side : Token → Int) (ts : List Token) (offset : Int) :
    Pairs.get? (owners side ts) offset = lastIndex? (fun t => side t == offset) ts := by
  induction ts using List.reverseRecOn with
  | nil => rfl
  | append_singleton ts t ih =>
      have hpass : owners side (ts ++ [t]) = Pairs.put (owners side ts) (side t) ts.length := by
        rw [owners, owners, List.zipIdx_append, List.map_append, ← Pairs.ofList_concat]
        simp
      rw [hpass, Pairs.get?_put, ih, lastIndex?_concat]
      simp only [beq_iff_eq]

/-! ## Tables -/

/-- Sorted offsets without their repetitions are strictly sorted. -/
theorem pairwise_eraseDups {xs : List Int} (h : xs.Pairwise (· ≤ ·)) :
    xs.eraseDups.Pairwise (· < ·) := by
  -- an offset at the end is new only if it is greater than all before it
  induction xs using List.reverseRecOn with
  | nil => exact .nil
  | append_singleton xs x ih =>
      obtain ⟨hxs, -, hle⟩ := List.pairwise_append.mp h
      rw [Pairs.eraseDups_concat]
      split
      · exact ih hxs
      · rename_i hnew
        refine List.pairwise_append.mpr ⟨ih hxs, List.pairwise_singleton _ x, ?_⟩
        intro y hy z hz
        obtain rfl : z = x := List.mem_singleton.mp hz
        have hmem : y ∈ xs := List.mem_eraseDups.mp hy
        have hne : y ≠ z := by
          rintro rfl
          exact hnew hmem
        exact Int.lt_iff_le_and_ne.mpr ⟨hle y hmem z List.mem_cons_self, hne⟩

/-- An entry of the table is an offset with its owner. -/
theorem mem_boundaryTable_iff (side : Token → Int) (ts : List Token) (offset : Int) (i : Nat) :
    (offset, i) ∈ boundaryTable ts side ↔
      lastIndex? (fun t => side t == offset) ts = some i := by
  have howner := isLast_lastIndex? (fun t => side t == offset) ts
  simp only [boundaryTable, List.mem_filterMap, List.mem_eraseDups, List.mem_mergeSort,
    List.mem_map, Option.map_eq_some_iff, Prod.mk.injEq]
  constructor
  · rintro ⟨_, -, i', hi', rfl, rfl⟩
    exact hi'
  · intro hi
    rw [hi] at howner
    obtain ⟨t, ht, hside⟩ := howner.1
    exact ⟨offset, ⟨t, List.mem_of_getElem? ht, beq_iff_eq.mp hside⟩, i, hi, rfl, rfl⟩

theorem pairwise_boundaryTable (side : Token → Int) (ts : List Token) :
    (boundaryTable ts side).Pairwise fun a b => a.1 < b.1 := by
  have hsorted : ((ts.map side).mergeSort (· ≤ ·)).Pairwise (· ≤ ·) := by
    have htrans (a b c : Int) : decide (a ≤ b) = true → decide (b ≤ c) = true →
        decide (a ≤ c) = true := by
      simp only [decide_eq_true_eq]
      omega
    have htotal (a b : Int) : (decide (a ≤ b) || decide (b ≤ a)) = true := by
      simp only [Bool.or_eq_true, decide_eq_true_eq]
      omega
    have hdecided := List.pairwise_mergeSort htrans htotal (ts.map side)
    exact hdecided.imp fun hle => of_decide_eq_true hle
  refine (pairwise_eraseDups hsorted).filterMap _ ?_
  intro x y hlt a ha b hb
  obtain ⟨_, -, rfl⟩ := Option.map_eq_some_iff.mp ha
  obtain ⟨_, -, rfl⟩ := Option.map_eq_some_iff.mp hb
  exact hlt

/-! ## Comments -/

theorem mem_comments_iff {i : Nat} :
    i ∈ comments ts ↔ ∃ t, ts[i]? = some t ∧ t.isComment = true := by
  simp only [comments, List.mem_map, List.mem_filter]
  constructor
  · rintro ⟨⟨t, _⟩, ⟨hmem, hcomment⟩, rfl⟩
    exact ⟨t, List.mem_zipIdx_iff_getElem?.mp hmem, hcomment⟩
  · rintro ⟨t, ht, hcomment⟩
    exact ⟨(t, i), ⟨List.mem_zipIdx_iff_getElem?.mpr ht, hcomment⟩, rfl⟩

theorem pairwise_comments (ts : List Token) : (comments ts).Pairwise (· < ·) := by
  have hnumbers : (ts.zipIdx.map Prod.snd).Pairwise (· < ·) := by
    rw [List.zipIdx_map_snd]
    exact List.pairwise_lt_range'
  rw [List.pairwise_map] at hnumbers
  exact List.pairwise_map.mpr (hnumbers.filter _)

/-- The numbers of the comments lead to the comments, in their order. -/
theorem filterMap_comments (ts : List Token) :
    (comments ts).filterMap (ts[·]?) = ts.filter Token.isComment := by
  have hfound : ∀ p ∈ ts.zipIdx.filter fun (t, _) => t.isComment, ts[p.2]? = some p.1 := by
    rintro ⟨t, i⟩ hmem
    exact List.mem_zipIdx_iff_getElem?.mp (List.mem_of_mem_filter hmem)
  rw [comments, List.filterMap_map]
  calc (ts.zipIdx.filter fun (t, _) => t.isComment).filterMap ((ts[·]?) ∘ Prod.snd)
      = (ts.zipIdx.filter fun (t, _) => t.isComment).filterMap (some ∘ Prod.fst) :=
        List.filterMap_congr hfound
    _ = (ts.zipIdx.map Prod.fst).filter Token.isComment := by
        rw [List.filter_map, List.filterMap_eq_map]
        rfl
    _ = ts.filter Token.isComment := by rw [List.zipIdx_map_fst]

/-! ## Neighbours -/

/-- The owner of an offset is the last token with a boundary there. -/
theorem isLast_owner (side : Token → Int) (ts : List Token) (offset : Int) :
    IsLast (fun i => ∃ t, ts[i]? = some t ∧ side t = offset)
      (lastIndex? (fun t => side t == offset) ts) :=
  (isLast_lastIndex? _ ts).congr fun i => by simp only [beq_iff_eq]

/-- With comments the token before a range is next to the owner of its start. -/
theorem before?_withComments (hk : indexOfStart? ts range.start = some k) :
    before? ts range true = if k = 0 then none else some (k - 1) := by
  rw [before?, hk]
  cases k <;> rfl

/-- With comments the token after a range is next to the owner of its end. -/
theorem after?_withComments (hk : indexOfEnd? ts range.stop = some k) :
    after? ts range true = if k + 1 < ts.length then some (k + 1) else none := by
  rw [after?, hk, Option.bind_some, if_pos rfl]
  by_cases hmore : k + 1 < ts.length
  · rw [if_pos hmore, if_neg (Nat.not_le_of_lt hmore)]
  · rw [if_neg hmore, if_pos (Nat.le_of_not_lt hmore)]

theorem isCode_iff {t : Token} : (false || t.isCode) = true ↔ t.isComment = false := by
  rw [Bool.false_or, Token.isCode, Bool.not_eq_true']

/-- For all tokens, whatever their ranges. A start and an end are owned by the last token with it,
in the look-ups, in a map filled in one pass and in the tables, which are sorted. The comments are
those tokens that are comments, in their order. The token before a range is the last one in front
of the owner of its start that is no comment, the token after it the first one behind the owner of
its end; with comments these are the ones next to the owners. There is none if the range starts or
ends where no token does. -/
theorem neighbours_of_owners (ts : List Token) :
    (∀ offset, IsLast (fun i => ∃ t, ts[i]? = some t ∧ t.extent.range.start = offset)
        (indexOfStart? ts offset) ∧
      Pairs.get? (owners (fun t => t.extent.range.start) ts) offset = indexOfStart? ts offset ∧
      ∀ i, (offset, i) ∈ starts ts ↔ indexOfStart? ts offset = some i) ∧
    (∀ offset, IsLast (fun i => ∃ t, ts[i]? = some t ∧ t.extent.range.stop = offset)
        (indexOfEnd? ts offset) ∧
      Pairs.get? (owners (fun t => t.extent.range.stop) ts) offset = indexOfEnd? ts offset ∧
      ∀ i, (offset, i) ∈ ends ts ↔ indexOfEnd? ts offset = some i) ∧
    ((starts ts).Pairwise (fun a b => a.1 < b.1) ∧ (ends ts).Pairwise fun a b => a.1 < b.1) ∧
    ((∀ i, i ∈ comments ts ↔ ∃ t, ts[i]? = some t ∧ t.isComment = true) ∧
      (comments ts).Pairwise (· < ·) ∧
      (comments ts).filterMap (ts[·]?) = ts.filter Token.isComment) ∧
    ∀ range : Range,
      (indexOfStart? ts range.start = none →
        ∀ withComments, before? ts range withComments = none) ∧
      (indexOfEnd? ts range.stop = none → ∀ withComments, after? ts range withComments = none) ∧
      (∀ k, indexOfStart? ts range.start = some k →
        IsLast (fun i => ∃ t, ts[i]? = some t ∧ t.isComment = false ∧ i < k)
          (before? ts range false) ∧
        before? ts range true = if k = 0 then none else some (k - 1)) ∧
      ∀ k, indexOfEnd? ts range.stop = some k →
        IsFirst (fun i => ∃ t, ts[i]? = some t ∧ t.isComment = false ∧ k < i)
          (after? ts range false) ∧
        after? ts range true = if k + 1 < ts.length then some (k + 1) else none := by
  refine ⟨fun offset => ⟨isLast_owner _ ts offset, get?_owners _ ts offset, fun i => ?_⟩,
    fun offset => ⟨isLast_owner _ ts offset, get?_owners _ ts offset, fun i => ?_⟩,
    ⟨pairwise_boundaryTable _ ts, pairwise_boundaryTable _ ts⟩,
    ⟨fun i => mem_comments_iff, pairwise_comments ts, filterMap_comments ts⟩,
    fun range => ⟨fun hnone withComments => ?_, fun hnone withComments => ?_,
      fun k hk => ⟨?_, before?_withComments hk⟩, fun k hk => ⟨?_, after?_withComments hk⟩⟩⟩
  · exact mem_boundaryTable_iff (fun t => t.extent.range.start) ts offset i
  · exact mem_boundaryTable_iff (fun t => t.extent.range.stop) ts offset i
  · rw [before?, hnone, Option.bind_none]
  · rw [after?, hnone, Option.bind_none]
  · exact (isLast_before?_of_owner hk).congr fun i => by simp only [isCode_iff]
  · exact (isFirst_after?_of_owner hk).congr fun i => by simp only [isCode_iff]

/-- Six tokens out of order: an empty one starts where a number does, a string ends where the empty
one does, and comments stand in between and at both ends. -/
theorem neighbours_of_owners_unordered :
    let token (kind : Token.Kind) (start stop : Int) : Token :=
      ⟨kind, [], .between ⟨1, start + 1, start⟩ ⟨1, stop + 1, stop⟩⟩
    let ts := [token .blockComment 0 2, token .number 3 4, token .lineComment 7 9,
      token .comma 3 3, token .string 1 3, token .blockComment 4 6]
    (indexOfStart? ts 3 = some 3 ∧ before? ts ⟨3, 3⟩ false = some 1 ∧
      before? ts ⟨3, 3⟩ true = some 2) ∧
    (indexOfEnd? ts 3 = some 4 ∧ after? ts ⟨3, 3⟩ false = none ∧
      after? ts ⟨3, 3⟩ true = some 5) ∧
    indexOfStart? ts 8 = none ∧ before? ts ⟨8, 9⟩ false = none := by
  intro token ts
  obtain ⟨-, -, -, -, hranges⟩ := neighbours_of_owners ts
  have hstart : indexOfStart? ts 3 = some 3 := rfl
  have hstop : indexOfEnd? ts 3 = some 4 := rfl
  have hunknown : indexOfStart? ts 8 = none := rfl
  obtain ⟨-, -, hbefore, hafter⟩ := hranges ⟨3, 3⟩
  obtain ⟨hlast, hnext⟩ := hbefore 3 hstart
  obtain ⟨hfirst, hnext'⟩ := hafter 4 hstop
  refine ⟨⟨hstart, hlast.eq_some ⟨_, rfl, rfl, by omega⟩ ?_, hnext⟩, ⟨hstop, ?_, hnext'⟩, hunknown,
    (hranges ⟨8, 9⟩).1 hunknown false⟩
  · rintro j ⟨t, ht, hcode, hlt⟩
    obtain rfl | hle : j = 2 ∨ j ≤ 1 := by omega
    · cases ht
      cases hcode
    · exact hle
  · cases hfound : after? ts ⟨3, 3⟩ false with
    | none => rfl
    | some i =>
        obtain ⟨⟨t, ht, hcode, hlt⟩, -⟩ := hfound ▸ hfirst
        have hlength : i < 6 := (List.getElem?_eq_some_iff.mp ht).1
        obtain rfl : i = 5 := by omega
        cases ht
        cases hcode

end LocatedJson.Neighbour
