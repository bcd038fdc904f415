import LocatedJson.Proofs.Alignment
import LocatedJson.Session

/-!
# Neighbours by offsets

The token before an element is found through the token that starts where the
element starts, and the token after it through the one that ends where it
ends. From there on the comments are passed over one by one, which comes to a
search among the tokens on that side (`before?_eq`, `after?_eq`).

For the tokens and nodes of a document these are the last token that ends
before the element and the first one that starts after it
(`Session.ask_neighbours`). Offsets say so only because the tokens of a
document stand in a row: a token ends before another starts if and only if
it comes earlier in the list (`Ordered.lt_iff`).
-/

namespace LocatedJson

open LocatedJson.Text

/-! ## First and last numbers -/

/-- The greatest number with a property, or nothing if no number has it. -/
def IsLast (P : Nat → Prop) : Option Nat → Prop
  | none => ∀ i, ¬ P i
  | some i => P i ∧ ∀ j, P j → j ≤ i

/-- The least number with a property, or nothing if no number has it. -/
def IsFirst (P : Nat → Prop) : Option Nat → Prop
  | none => ∀ i, ¬ P i
  | some i => P i ∧ ∀ j, P j → i ≤ j

section Extremes

variable {P Q : Nat → Prop} {r : Option Nat} {i : Nat}

theorem IsLast.congr (h : IsLast P r) (hPQ : ∀ i, P i ↔ Q i) : IsLast Q r := by
  obtain rfl : P = Q := funext fun i => propext (hPQ i)
  exact h

theorem IsFirst.congr (h : IsFirst P r) (hPQ : ∀ i, P i ↔ Q i) : IsFirst Q r := by
  obtain rfl : P = Q := funext fun i => propext (hPQ i)
  exact h

theorem IsLast.eq_some (h : IsLast P r) (hi : P i) (hle : ∀ j, P j → j ≤ i) : r = some i := by
  cases r with
  | none => exact absurd hi (h i)
  | some k => rw [Nat.le_antisymm (hle k h.1) (h.2 i hi)]

theorem IsFirst.eq_some (h : IsFirst P r) (hi : P i) (hle : ∀ j, P j → i ≤ j) : r = some i := by
  cases r with
  | none => exact absurd hi (h i)
  | some k => rw [Nat.le_antisymm (h.2 i hi) (hle k h.1)]

theorem IsFirst.map_add (h : IsFirst P r) (n : Nat) :
    IsFirst (fun i => ∃ j, P j ∧ i = n + j) (r.map (n + ·)) := by
  cases r with
  | none =>
      rintro i ⟨j, hj, -⟩
      exact h j hj
  | some i =>
      refine ⟨⟨i, h.1, rfl⟩, ?_⟩
      rintro k ⟨j, hj, rfl⟩
      exact Nat.add_le_add_left (h.2 j hj) n

end Extremes

/-! ## Lookups in lists -/

namespace Neighbour

section Lists

variable {α : Type} (test : α → Bool)

theorem isLast_lastIndex? (xs : List α) :
    IsLast (fun i => ∃ x, xs[i]? = some x ∧ test x = true) (lastIndex? test xs) := by
  induction xs with
  | nil => simp [lastIndex?, IsLast]
  | cons x xs ih =>
      rw [lastIndex?]
      cases hlater : lastIndex? test xs with
      | some i =>
          rw [hlater] at ih
          refine ⟨ih.1, fun j hj => ?_⟩
          cases j with
          | zero => exact Nat.zero_le _
          | succ j => exact Nat.succ_le_succ (ih.2 j hj)
      | none =>
          rw [hlater] at ih
          by_cases hx : test x = true
          · rw [if_pos hx]
            refine ⟨⟨x, rfl, hx⟩, fun j hj => ?_⟩
            cases j with
            | zero => exact Nat.le_refl _
            | succ j => exact absurd hj (ih j)
          · rw [if_neg hx]
            intro j hj
            cases j with
            | zero =>
                obtain ⟨y, hy, htest⟩ := hj
                cases hy
                exact hx htest
            | succ j => exact ih j hj

theorem isFirst_findIdx? (xs : List α) :
    IsFirst (fun i => ∃ x, xs[i]? = some x ∧ test x = true) (xs.findIdx? test) := by
  cases hfound : xs.findIdx? test with
  | none =>
      rintro i ⟨x, hx, htest⟩
      have hnot := List.findIdx?_eq_none_iff.mp hfound x (List.mem_of_getElem? hx)
      rw [htest] at hnot
      cases hnot
  | some i =>
      obtain ⟨hi, htest, hbefore⟩ := List.findIdx?_eq_some_iff_getElem.mp hfound
      refine ⟨⟨xs[i], List.getElem?_eq_getElem hi, htest⟩, ?_⟩
      rintro j ⟨x, hx, htest'⟩
      obtain ⟨hj, rfl⟩ := List.getElem?_eq_some_iff.mp hx
      by_cases hji : j < i
      · exact absurd htest' (hbefore j hji)
      · omega

/-- One more element is the last with a property, or it changes nothing. -/
theorem lastIndex?_concat (xs : List α) (x : α) :
    lastIndex? test (xs ++ [x]) = if test x then some xs.length else lastIndex? test xs := by
  induction xs with
  | nil => rfl
  | cons y xs ih =>
      rw [List.cons_append, lastIndex?, ih]
      by_cases hx : test x = true
      · rw [if_pos hx, if_pos hx]
        rfl
      · rw [if_neg hx, if_neg hx]
        rfl

variable {xs : List α} {i : Nat} (hi : i < xs.length)
include hi

/-- One step of a search from the end. -/
theorem lastIndex?_take_succ :
    lastIndex? test (xs.take (i + 1)) =
      if test xs[i] then some i else lastIndex? test (xs.take i) := by
  rw [← List.take_append_getElem hi, lastIndex?_concat, List.length_take_of_le (Nat.le_of_lt hi)]

/-- One step of a search from a place on. -/
theorem findIdx?_drop :
    ((xs.drop i).findIdx? test).map (i + ·) =
      if test xs[i] then some i else ((xs.drop (i + 1)).findIdx? test).map (i + 1 + ·) := by
  rw [List.drop_eq_getElem_cons hi, List.findIdx?_cons]
  split
  · rfl
  · rw [Option.map_map]
    exact Option.map_congr fun j _ => show i + (j + 1) = i + 1 + j by omega

end Lists

variable {ts : List Token} {range : Range} {withComments : Bool} {k : Nat} {t : Token}

/-! ## Loops and searches -/

/-- Going back over comments is a search from the end of what was gone through. -/
theorem skipBack_eq (hk : k < ts.length) :
    skipBack ts k = lastIndex? Token.isCode (ts.take (k + 1)) := by
  rw [lastIndex?_take_succ _ hk, Token.isCode]
  fun_induction skipBack ts k with
  | case1 hcomment =>
      rw [List.getElem?_eq_getElem hk, Option.any_some] at hcomment
      rw [hcomment]
      rfl
  | case2 k hcomment ih =>
      rw [List.getElem?_eq_getElem hk, Option.any_some] at hcomment
      rw [ih (Nat.lt_of_succ_lt hk), hcomment, ← Token.isCode, ← lastIndex?_take_succ]
      rfl
  | case3 k hcode =>
      rw [List.getElem?_eq_getElem hk, Option.any_some, Bool.not_eq_true] at hcode
      rw [hcode]
      rfl

/-- Going on over comments is a search in what is left. -/
theorem skipOn_eq (ts : List Token) (k : Nat) :
    skipOn ts k = ((ts.drop k).findIdx? Token.isCode).map (k + ·) := by
  fun_induction skipOn ts k with
  | case1 k hk hcomment ih =>
      rw [findIdx?_drop _ hk, Token.isCode, hcomment, ih]
      rfl
  | case2 k hk hcode =>
      rw [Bool.not_eq_true] at hcode
      rw [findIdx?_drop _ hk, Token.isCode, hcode]
      rfl
  | case3 k hk =>
      rw [List.drop_eq_nil_of_le (Nat.le_of_not_lt hk)]
      rfl

theorem before?_eq (ts : List Token) (range : Range) (withComments : Bool) :
    before? ts range withComments = (indexOfStart? ts range.start).bind fun k =>
      lastIndex? (fun t => withComments || t.isCode) (ts.take k) := by
  have howner := isLast_lastIndex? (fun t => t.extent.range.start == range.start) ts
  rw [before?]
  cases hindex : indexOfStart? ts range.start with
  | none => rfl
  | some k =>
      rw [show lastIndex? _ ts = some k from hindex] at howner
      obtain ⟨t, ht, -⟩ := howner.1
      cases k with
      | zero => rfl
      | succ k =>
          have hk : k < ts.length := Nat.lt_of_succ_lt (List.getElem?_eq_some_iff.mp ht).1
          cases withComments with
          | false => exact skipBack_eq hk
          | true => exact (lastIndex?_take_succ (fun t => true || t.isCode) hk).symm

theorem after?_eq (ts : List Token) (range : Range) (withComments : Bool) :
    after? ts range withComments = (indexOfEnd? ts range.stop).bind fun k =>
      ((ts.drop (k + 1)).findIdx? fun t => withComments || t.isCode).map (k + 1 + ·) := by
  rw [after?]
  congr 1
  funext k
  by_cases hend : ts.length ≤ k + 1
  · rw [if_pos hend, List.drop_eq_nil_of_le hend]
    rfl
  · rw [if_neg hend]
    cases withComments with
    | false => exact skipOn_eq ts (k + 1)
    | true => exact (findIdx?_drop (fun t => true || t.isCode) (Nat.lt_of_not_le hend)).symm

/-! ## Tokens around a token -/

/-- A token with the number ends before the range; comments count if they are asked for. -/
def EndsBefore (ts : List Token) (withComments : Bool) (range : Range) (i : Nat) : Prop :=
  ∃ t, ts[i]? = some t ∧ (withComments || t.isCode) = true ∧ t.extent.range.stop ≤ range.start

/-- A token with the number starts after the range; comments count if they are asked for. -/
def StartsAfter (ts : List Token) (withComments : Bool) (range : Range) (i : Nat) : Prop :=
  ∃ t, ts[i]? = some t ∧ (withComments || t.isCode) = true ∧ range.stop ≤ t.extent.range.start

theorem endsBefore_iff (h : Ordered ts) (hk : ts[k]? = some t)
    (hstart : t.extent.range.start = range.start) {i : Nat} :
    EndsBefore ts withComments range i ↔
      ∃ u, ts[i]? = some u ∧ (withComments || u.isCode) = true ∧ i < k := by
  constructor
  · rintro ⟨u, hu, hwanted, hle⟩
    exact ⟨u, hu, hwanted, (h.lt_iff hu hk).mpr (hstart ▸ hle)⟩
  · rintro ⟨u, hu, hwanted, hlt⟩
    exact ⟨u, hu, hwanted, hstart ▸ (h.lt_iff hu hk).mp hlt⟩

theorem startsAfter_iff (h : Ordered ts) (hk : ts[k]? = some t)
    (hstop : t.extent.range.stop = range.stop) {i : Nat} :
    StartsAfter ts withComments range i ↔
      ∃ u, ts[i]? = some u ∧ (withComments || u.isCode) = true ∧ k < i := by
  constructor
  · rintro ⟨u, hu, hwanted, hle⟩
    exact ⟨u, hu, hwanted, (h.lt_iff hk hu).mpr (hstop ▸ hle)⟩
  · rintro ⟨u, hu, hwanted, hlt⟩
    exact ⟨u, hu, hwanted, hstop ▸ (h.lt_iff hk hu).mp hlt⟩

/-- Where no two tokens share a boundary, each owns its own. -/
theorem lastIndex?_eq_of_injective (side : Token → Int)
    (hside : ∀ (i j : Nat) (a b : Token), ts[i]? = some a → ts[j]? = some b →
      side a = side b → i = j) (hk : ts[k]? = some t) :
    lastIndex? (fun u => side u == side t) ts = some k := by
  refine (isLast_lastIndex? _ ts).eq_some ⟨t, hk, beq_self_eq_true _⟩ ?_
  rintro j ⟨u, hu, hsame⟩
  exact Nat.le_of_eq (hside j k u t hu hk (beq_iff_eq.mp hsame))

theorem indexOfStart?_eq (h : Ordered ts) (hk : ts[k]? = some t) :
    indexOfStart? ts t.extent.range.start = some k := by
  refine lastIndex?_eq_of_injective (fun u => u.extent.range.start) ?_ hk
  intro i j a b ha hb hsame
  have hpos := h.nonempty a (List.mem_of_getElem? ha)
  have hpos' := h.nonempty b (List.mem_of_getElem? hb)
  exact h.eq_of_overlap ha hb (by omega) (by omega)

theorem indexOfEnd?_eq (h : Ordered ts) (hk : ts[k]? = some t) :
    indexOfEnd? ts t.extent.range.stop = some k := by
  refine lastIndex?_eq_of_injective (fun u => u.extent.range.stop) ?_ hk
  intro i j a b ha hb hsame
  have hpos := h.nonempty a (List.mem_of_getElem? ha)
  have hpos' := h.nonempty b (List.mem_of_getElem? hb)
  exact h.eq_of_overlap ha hb (by omega) (by omega)

/-- Back from the token that owns the start of a range, the first token that counts. -/
theorem isLast_before?_of_owner (hk : indexOfStart? ts range.start = some k) :
    IsLast (fun i => ∃ u, ts[i]? = some u ∧ (withComments || u.isCode) = true ∧ i < k)
      (before? ts range withComments) := by
  rw [before?_eq, hk, Option.bind_some]
  refine (isLast_lastIndex? _ (ts.take k)).congr fun i => ?_
  constructor
  · rintro ⟨u, hu, hwanted⟩
    rw [List.getElem?_take] at hu
    split at hu
    · exact ⟨u, hu, hwanted, by assumption⟩
    · cases hu
  · rintro ⟨u, hu, hwanted, hlt⟩
    exact ⟨u, by rw [List.getElem?_take, if_pos hlt, hu], hwanted⟩

/-- On from the token that owns the end of a range, the first token that counts. -/
theorem isFirst_after?_of_owner (hk : indexOfEnd? ts range.stop = some k) :
    IsFirst (fun i => ∃ u, ts[i]? = some u ∧ (withComments || u.isCode) = true ∧ k < i)
      (after? ts range withComments) := by
  rw [after?_eq, hk, Option.bind_some]
  refine ((isFirst_findIdx? _ (ts.drop (k + 1))).map_add (k + 1)).congr fun i => ?_
  constructor
  · rintro ⟨j, ⟨u, hu, hwanted⟩, rfl⟩
    rw [List.getElem?_drop] at hu
    exact ⟨u, hu, hwanted, by omega⟩
  · rintro ⟨u, hu, hwanted, hlt⟩
    refine ⟨i - (k + 1), ⟨u, ?_, hwanted⟩, by omega⟩
    rw [List.getElem?_drop, Nat.add_sub_cancel' hlt, hu]

theorem isLast_before? (h : Ordered ts) (hk : ts[k]? = some t)
    (hstart : t.extent.range.start = range.start) :
    IsLast (EndsBefore ts withComments range) (before? ts range withComments) := by
  have howner : indexOfStart? ts range.start = some k := hstart ▸ indexOfStart?_eq h hk
  exact (isLast_before?_of_owner howner).congr fun i => (endsBefore_iff h hk hstart).symm

theorem isFirst_after? (h : Ordered ts) (hk : ts[k]? = some t)
    (hstop : t.extent.range.stop = range.stop) :
    IsFirst (StartsAfter ts withComments range) (after? ts range withComments) := by
  have howner : indexOfEnd? ts range.stop = some k := hstop ▸ indexOfEnd?_eq h hk
  exact (isFirst_after?_of_owner howner).congr fun i => (startsAfter_iff h hk hstop).symm

/-! ## Tokens around a range -/

/-- The range starts where a token does, or no token stands before it; it ends where a token
does, or no token stands after it. -/
def Bounded (ts : List Token) (range : Range) : Prop :=
  ((∃ t ∈ ts, t.extent.range.start = range.start) ∨
      ∀ t ∈ ts, range.start < t.extent.range.stop) ∧
    ((∃ t ∈ ts, t.extent.range.stop = range.stop) ∨ ∀ t ∈ ts, t.extent.range.start < range.stop)

theorem isLast_before?_of_bounded (h : Ordered ts) (hrange : Bounded ts range) :
    IsLast (EndsBefore ts withComments range) (before? ts range withComments) := by
  rcases hrange.1 with ⟨t, ht, hstart⟩ | hfree
  · obtain ⟨k, hk⟩ := List.mem_iff_getElem?.mp ht
    exact isLast_before? h hk hstart
  · have howner := isLast_lastIndex? (fun t => t.extent.range.start == range.start) ts
    cases hindex : indexOfStart? ts range.start with
    | some k =>
        rw [show lastIndex? _ ts = some k from hindex] at howner
        obtain ⟨t, hk, hstart⟩ := howner.1
        exact isLast_before? h hk (beq_iff_eq.mp hstart)
    | none =>
        rw [before?, hindex]
        rintro i ⟨t, ht, -, hle⟩
        have := hfree t (List.mem_of_getElem? ht)
        omega

theorem isFirst_after?_of_bounded (h : Ordered ts) (hrange : Bounded ts range) :
    IsFirst (StartsAfter ts withComments range) (after? ts range withComments) := by
  rcases hrange.2 with ⟨t, ht, hstop⟩ | hfree
  · obtain ⟨k, hk⟩ := List.mem_iff_getElem?.mp ht
    exact isFirst_after? h hk hstop
  · have howner := isLast_lastIndex? (fun t => t.extent.range.stop == range.stop) ts
    cases hindex : indexOfEnd? ts range.stop with
    | some k =>
        rw [show lastIndex? _ ts = some k from hindex] at howner
        obtain ⟨t, hk, hstop⟩ := howner.1
        exact isFirst_after? h hk (beq_iff_eq.mp hstop)
    | none =>
        rw [after?, hindex]
        rintro i ⟨t, ht, -, hle⟩
        have := hfree t (List.mem_of_getElem? ht)
        omega

/-! ## Back and forth -/

/-- The token after the one before a token is the token itself. -/
theorem after?_before? {i j : Nat} {a : Token} (h : Ordered ts) (ha : ts[i]? = some a)
    (hwanted : (withComments || a.isCode) = true)
    (hbefore : before? ts a.extent.range withComments = some j) :
    ∃ b, ts[j]? = some b ∧ after? ts b.extent.range withComments = some i := by
  obtain ⟨hj, hgreatest⟩ := hbefore ▸ isLast_before? h ha rfl
  obtain ⟨b, hb, -, hji⟩ := (endsBefore_iff h ha rfl).mp hj
  refine ⟨b, hb, (isFirst_after? h hb rfl).eq_some ?_ fun k hk => ?_⟩
  · exact (startsAfter_iff h hb rfl).mpr ⟨a, ha, hwanted, hji⟩
  · obtain ⟨u, hu, hwanted', hjk⟩ := (startsAfter_iff h hb rfl).mp hk
    -- a token between the two would be a later one before the given token
    by_cases hki : k < i
    · have := hgreatest k ((endsBefore_iff h ha rfl).mpr ⟨u, hu, hwanted', hki⟩)
      omega
    · omega

/-- The token before the one after a token is the token itself. -/
theorem before?_after? {i j : Nat} {a : Token} (h : Ordered ts) (ha : ts[i]? = some a)
    (hwanted : (withComments || a.isCode) = true)
    (hafter : after? ts a.extent.range withComments = some j) :
    ∃ b, ts[j]? = some b ∧ before? ts b.extent.range withComments = some i := by
  obtain ⟨hj, hleast⟩ := hafter ▸ isFirst_after? h ha rfl
  obtain ⟨b, hb, -, hij⟩ := (startsAfter_iff h ha rfl).mp hj
  refine ⟨b, hb, (isLast_before? h hb rfl).eq_some ?_ fun k hk => ?_⟩
  · exact (endsBefore_iff h hb rfl).mpr ⟨a, ha, hwanted, hij⟩
  · obtain ⟨u, hu, hwanted', hkj⟩ := (endsBefore_iff h hb rfl).mp hk
    by_cases hik : i < k
    · have := hleast k ((startsAfter_iff h ha rfl).mpr ⟨u, hu, hwanted', hik⟩)
      omega
    · omega

end Neighbour

/-! ## Elements of a document -/

open Neighbour

/-- Whether a reference is to a node or a token of the file. -/
def Ref.isOwn : Ref → Bool
  | .node _ | .token _ => true
  | .stray _ _ | .absent => false

section Documents

variable {profile : Profile} {text : Text} {doc : Document} {ref : Ref} {x : Element}
variable {s : Session} {withComments : Bool}

/-- Nodes and tokens start and end where tokens do; only the document itself may reach further,
and it has nothing before it or after it. -/
theorem SourceFile.bounded_of_element? (h : Document.ofText profile text = .ok doc)
    (hown : ref.isOwn = true) (hx : (SourceFile.ofDocument text doc).element? ref = some x) :
    Bounded doc.tokens x.extent.range := by
  obtain ⟨v, hv, hbody, hrange, htiles⟩ := Document.exists_sentence h
  cases ref with
  | node id =>
      obtain ⟨e, he, rfl⟩ := Option.map_eq_some_iff.mp hx
      rcases Outline.exists_phrase hbody he with ⟨-, -, hextent⟩ | ⟨p, -, hpart, -, hextent⟩
      · rw [hextent, hrange]
        refine ⟨.inr fun t ht => ?_, .inr fun t ht => ?_⟩
        · have := htiles.within t ht
          have := htiles.isOrdered.nonempty t ht
          dsimp only
          omega
        · have := htiles.within t ht
          have := htiles.isOrdered.nonempty t ht
          dsimp only
          omega
      · obtain ⟨⟨first, hfirst, -, hstart⟩, last, hlast, -, hstop⟩ :=
          Grammar.Phrase.exists_boundary (hv ▸ hpart)
        rw [hextent]
        exact ⟨.inl ⟨first, hfirst, hstart⟩, .inl ⟨last, hlast, hstop⟩⟩
  | token i =>
      obtain ⟨t, ht, rfl⟩ := Option.map_eq_some_iff.mp hx
      have hmem := List.mem_of_getElem? ht
      exact ⟨.inl ⟨t, hmem, rfl⟩, .inl ⟨t, hmem, rfl⟩⟩
  | stray typeName extent => cases hown
  | absent => cases hown

theorem SourceFile.element?_token (hfile : s.file = .ofDocument text doc) {i : Nat} {t : Token}
    (ht : doc.tokens[i]? = some t) :
    s.file.element? (.token i) = some ⟨t.kind.name, t.kind.commentForm?, t.extent⟩ := by
  rw [hfile, SourceFile.element?, SourceFile.ofDocument, ht]
  rfl

theorem Session.ask_before (hfile : s.file = .ofDocument text doc)
    (hx : s.file.element? ref = some x) :
    (s.ask (.before ref withComments)).1.result =
      .ok (.number (before? doc.tokens x.extent.range withComments)) := by
  simp only [Session.ask, Session.about, hx]
  rw [hfile]
  rfl

theorem Session.ask_after (hfile : s.file = .ofDocument text doc)
    (hx : s.file.element? ref = some x) :
    (s.ask (.after ref withComments)).1.result =
      .ok (.number (after? doc.tokens x.extent.range withComments)) := by
  simp only [Session.ask, Session.about, hx]
  rw [hfile]
  rfl

/-- The token before a node or a token of a document is the last one that ends before it, and the
token after it is the first one that starts after it, among the code tokens or, if asked for,
among all tokens. So the two undo each other on the tokens that count. -/
theorem Session.ask_neighbours (profile : Profile) (text : Text) (doc : Document)
    (h : Document.ofText profile text = .ok doc) (s : Session)
    (hfile : s.file = .ofDocument text doc) (withComments : Bool) :
    (∀ (ref : Ref) (x : Element), ref.isOwn = true → s.file.element? ref = some x →
      (∃ r, (s.ask (.before ref withComments)).1.result = .ok (.number r) ∧
        IsLast (EndsBefore doc.tokens withComments x.extent.range) r) ∧
      ∃ r, (s.ask (.after ref withComments)).1.result = .ok (.number r) ∧
        IsFirst (StartsAfter doc.tokens withComments x.extent.range) r) ∧
    ∀ (i j : Nat) (t : Token), doc.tokens[i]? = some t → (withComments || t.isCode) = true →
      ((s.ask (.before (.token i) withComments)).1.result = .ok (.number (some j)) →
        (s.ask (.after (.token j) withComments)).1.result = .ok (.number (some i))) ∧
      ((s.ask (.after (.token i) withComments)).1.result = .ok (.number (some j)) →
        (s.ask (.before (.token j) withComments)).1.result = .ok (.number (some i))) := by
  obtain ⟨v, -, -, -, htiles⟩ := Document.exists_sentence h
  have hordered := htiles.isOrdered
  refine ⟨fun ref x hown hx => ?_, fun i j t ht hwanted => ⟨fun hbefore => ?_, fun hafter => ?_⟩⟩
  · have hbounded := SourceFile.bounded_of_element? h hown (hfile ▸ hx)
    exact ⟨⟨_, Session.ask_before hfile hx, isLast_before?_of_bounded hordered hbounded⟩,
      _, Session.ask_after hfile hx, isFirst_after?_of_bounded hordered hbounded⟩
  · rw [Session.ask_before hfile (SourceFile.element?_token hfile ht)] at hbefore
    obtain ⟨b, hb, hafter⟩ := after?_before? hordered ht hwanted (by simpa using hbefore)
    rw [Session.ask_after hfile (SourceFile.element?_token hfile hb), hafter]
  · rw [Session.ask_after hfile (SourceFile.element?_token hfile ht)] at hafter
    obtain ⟨b, hb, hbefore⟩ := before?_after? hordered ht hwanted (by simpa using hafter)
    rw [Session.ask_before hfile (SourceFile.element?_token hfile hb), hbefore]

/-- The bracket that closes `[1/*]*/]` comes right after the number, for the number comes right
before it: the comment between them does not count. -/
theorem Session.ask_neighbours_comment :
    ∃ doc, Document.ofText ⟨.jsonc, {}, false⟩ "[1/*]*/]".toList = .ok doc ∧
      let s : Session := { file := .ofDocument "[1/*]*/]".toList doc }
      (s.ask (.before (.token 3) false)).1.result = .ok (.number (some 1)) ∧
        (s.ask (.after (.token 1) false)).1.result = .ok (.number (some 3)) := by
  have hread : (Document.ofText ⟨.jsonc, {}, false⟩ "[1/*]*/]".toList).toBool = true := by
    decide +kernel
  have hlexed : ((Lexed.ofText .jsonc "[1/*]*/]".toList).tokens[3]?).map (fun t => (t.isCode,
      before? (Lexed.ofText .jsonc "[1/*]*/]".toList).tokens t.extent.range false)) =
      some (true, some 1) := by
    decide +kernel
  generalize "[1/*]*/]".toList = text at hread hlexed ⊢
  obtain ⟨doc, hdoc⟩ := Document.exists_of_toBool hread
  rw [← Document.tokens_of_ofText hdoc] at hlexed
  obtain ⟨t, ht, hfound⟩ := Option.map_eq_some_iff.mp hlexed
  obtain ⟨hcode, hbefore⟩ := Prod.mk.inj hfound
  let s : Session := { file := .ofDocument text doc }
  have hask : (s.ask (.before (.token 3) false)).1.result = .ok (.number (some 1)) := by
    rw [Session.ask_before rfl (SourceFile.element?_token rfl ht), hbefore]
  obtain ⟨-, hround⟩ := Session.ask_neighbours ⟨.jsonc, {}, false⟩ text doc hdoc s rfl false
  exact ⟨doc, hdoc, hask, (hround 3 1 t ht hcode).1 hask⟩

end Documents

end LocatedJson
