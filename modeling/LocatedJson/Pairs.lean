/-!
# Ordered pairs

A map that remembers the order in which its keys first came: a list of
pairs with distinct keys. Writing to a key that is already there changes
its value and not its place, so the last value of a key wins and the
first occurrence fixes the order.
-/

namespace LocatedJson.Pairs

variable {κ β : Type} [DecidableEq κ]

/-- Writes a value under a key, in place if the key is there, at the end otherwise. -/
def put : List (κ × β) → κ → β → List (κ × β)
  | [], k, v => [(k, v)]
  | (k', v') :: rest, k, v => if k' = k then (k, v) :: rest else (k', v') :: put rest k v

def get? : List (κ × β) → κ → Option β
  | [], _ => none
  | (k', v) :: rest, k => if k' = k then some v else get? rest k

/-- The pairs of a list written one after the other. -/
def ofList (pairs : List (κ × β)) : List (κ × β) :=
  pairs.foldl (fun acc (k, v) => put acc k v) []

theorem get?_put (ps : List (κ × β)) (k k' : κ) (v : β) :
    get? (put ps k v) k' = if k = k' then some v else get? ps k' := by
  induction ps with
  | nil => simp [put, get?]
  | cons p ps ih =>
      obtain ⟨j, w⟩ := p
      by_cases hj : j = k
      · subst hj
        by_cases h : j = k' <;> simp [put, get?, h]
      · by_cases h : j = k'
        · subst h
          simp [put, get?, hj, Ne.symm hj]
        · simp [put, get?, hj, h, ih]

theorem get?_eq_none {ps : List (κ × β)} {k : κ} (h : k ∉ ps.map Prod.fst) : get? ps k = none := by
  induction ps with
  | nil => rfl
  | cons p ps ih =>
      obtain ⟨j, w⟩ := p
      simp only [List.map_cons, List.mem_cons, not_or] at h
      rw [get?, if_neg (Ne.symm h.1), ih h.2]

/-- Writing keeps the keys that are there, in their order, and adds a new one at the end. -/
theorem keys_put (ps : List (κ × β)) (k : κ) (v : β) :
    (put ps k v).map Prod.fst =
      if k ∈ ps.map Prod.fst then ps.map Prod.fst else ps.map Prod.fst ++ [k] := by
  induction ps with
  | nil => simp [put]
  | cons p ps ih =>
      obtain ⟨j, w⟩ := p
      by_cases hj : j = k
      · simp [put, hj]
      · simp only [put, if_neg hj, List.map_cons, ih, List.mem_cons]
        by_cases h : k ∈ ps.map Prod.fst
        · simp [h]
        · simp [h, Ne.symm hj]

theorem put_of_notMem {ps : List (κ × β)} {k : κ} (h : k ∉ ps.map Prod.fst) (v : β) :
    put ps k v = ps ++ [(k, v)] := by
  induction ps with
  | nil => rfl
  | cons p ps ih =>
      obtain ⟨j, w⟩ := p
      simp only [List.map_cons, List.mem_cons, not_or] at h
      rw [put, if_neg (Ne.symm h.1), ih h.2]
      rfl

/-- Pairs with distinct keys are added one behind the other. -/
theorem foldl_put_of_nodup {ps : List (κ × β)} (acc : List (κ × β))
    (h : ((acc ++ ps).map Prod.fst).Nodup) :
    ps.foldl (fun acc (k, v) => put acc k v) acc = acc ++ ps := by
  induction ps generalizing acc with
  | nil => exact (List.append_nil acc).symm
  | cons p ps ih =>
      obtain ⟨k, v⟩ := p
      have hk : k ∉ acc.map Prod.fst := by
        rw [List.map_append, List.nodup_append] at h
        exact fun hmem => h.2.2 k hmem k List.mem_cons_self rfl
      have hrest := ih (acc ++ [(k, v)]) (by simpa using h)
      simp only [List.foldl_cons, put_of_notMem hk, hrest, List.append_assoc, List.singleton_append]

theorem ofList_of_nodup {ps : List (κ × β)} (h : (ps.map Prod.fst).Nodup) : ofList ps = ps :=
  foldl_put_of_nodup [] h

/-! ## What a list of pairs collects to -/

/-- The entries have the keys of the pairs in the order of their first occurrence, and under each
key the value of its last one. -/
structure Collects (ps entries : List (κ × β)) : Prop where
  keys : entries.map Prod.fst = (ps.map Prod.fst).eraseDups
  values : ∀ k, get? entries k = get? ps.reverse k

theorem ofList_concat (ps : List (κ × β)) (k : κ) (v : β) :
    ofList (ps ++ [(k, v)]) = put (ofList ps) k v := by
  simp [ofList]

/-- A key at the end is a new one only if it did not come before. -/
theorem eraseDups_concat {α : Type} [BEq α] [LawfulBEq α] (ks : List α) (k : α) :
    (ks ++ [k]).eraseDups = if k ∈ ks then ks.eraseDups else ks.eraseDups ++ [k] := by
  rw [List.eraseDups_append]
  by_cases hk : k ∈ ks
  · simp [List.removeAll, hk]
  · simp [List.removeAll, hk, List.eraseDups_cons]

theorem collects_ofList (ps : List (κ × β)) : Collects ps (ofList ps) := by
  -- pairs are written from the first to the last one, so the induction is on the reversed list
  obtain ⟨qs, rfl⟩ : ∃ qs, ps = List.reverse qs := ⟨ps.reverse, ps.reverse_reverse.symm⟩
  induction qs with
  | nil => exact ⟨rfl, fun k => rfl⟩
  | cons q qs ih =>
      obtain ⟨k, v⟩ := q
      rw [List.reverse_cons]
      constructor
      · rw [ofList_concat, keys_put, ih.keys, List.map_append, List.map_singleton,
          eraseDups_concat]
        simp only [List.mem_eraseDups]
      · intro k'
        rw [ofList_concat, get?_put, ih.values, List.reverse_concat]
        rfl

theorem nodup_eraseDups (ks : List κ) : ks.eraseDups.Nodup := by
  obtain ⟨js, rfl⟩ : ∃ js, ks = List.reverse js := ⟨ks.reverse, ks.reverse_reverse.symm⟩
  induction js with
  | nil => exact .nil
  | cons j js ih =>
      rw [List.reverse_cons, eraseDups_concat]
      split
      · exact ih
      · rename_i hj
        refine List.nodup_append.mpr ⟨ih, by simp, ?_⟩
        rintro a ha b hb rfl
        rw [List.mem_singleton] at hb
        exact hj (hb ▸ List.mem_eraseDups.mp ha)

/-- Entries with distinct keys are known from their keys in order and the value under each. -/
theorem eq_of_keys_eq {as bs : List (κ × β)} (hkeys : as.map Prod.fst = bs.map Prod.fst)
    (hnodup : (as.map Prod.fst).Nodup) (hvalues : ∀ k, get? as k = get? bs k) : as = bs := by
  induction as generalizing bs with
  | nil => exact (List.map_eq_nil_iff.mp hkeys.symm).symm
  | cons a as ih =>
      obtain ⟨k, v⟩ := a
      obtain ⟨⟨k', w⟩, bs', rfl, hfirst, hrest⟩ := List.map_eq_cons_iff.mp hkeys.symm
      obtain rfl : k' = k := hfirst
      obtain ⟨hfresh, hnodup⟩ := List.nodup_cons.mp hnodup
      have hvalue : v = w := by simpa [get?] using hvalues k'
      rw [hvalue, ih hrest.symm hnodup]
      intro j
      by_cases hj : k' = j
      · -- the first key does not come again in either list
        subst hj
        rw [get?_eq_none hfresh, get?_eq_none (hrest ▸ hfresh)]
      · simpa [get?, hj] using hvalues j

theorem collects_iff {ps entries : List (κ × β)} : Collects ps entries ↔ entries = ofList ps := by
  have hcollects := collects_ofList ps
  constructor
  · intro h
    refine eq_of_keys_eq (h.keys.trans hcollects.keys.symm) ?_ fun k => ?_
    · rw [h.keys]
      exact nodup_eraseDups _
    · rw [h.values, hcollects.values]
  · rintro rfl
    exact hcollects

end LocatedJson.Pairs
