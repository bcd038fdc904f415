import LocatedJson.Directive
import LocatedJson.Proofs.DirectiveNotation
import Mathlib.Data.List.Induction
import Mathlib.Data.List.Nodup

/-!
# Writing rule lists

A rule list is written as rule ids between commas. An id may stand between
quotes and must do so if it would be read as something else: if it has blanks
at its ends, or quotes around it that belong to it. Blanks around an item do
not matter, and neither do items without an id (`Lists`).

Whatever way a list is written, the ids are read from it again, each at the
place of its first occurrence (`ruleIds_listed`). One fact about an item is
enough (`Item.read`): quotes are taken off only when both are there, and then
only one pair of them.
-/

namespace LocatedJson.Directive

open LocatedJson.Text

/-! ## The notation -/

def listQuotes : List Char := ['\'', '"']

/-- A text of at least two characters between one pair of equal quotes. -/
def Wrapped (cs : Text) : Prop := ∃ quote ∈ listQuotes, ∃ inside, cs = quote :: (inside ++ [quote])

/-- The ways to write a rule id: as it is, where that is not read as something else, or between
quotes of either kind. -/
inductive Spells (id : Text) : Text → Prop
  | bare (htrimmed : Trimmed id) (hbare : ¬ Wrapped id) : Spells id id
  | quoted {quote : Char} (hquote : quote ∈ listQuotes) : Spells id (quote :: (id ++ [quote]))

/-- The ways to write an item with blanks around it: a rule id, or an item without one, which is
blank or has nothing between its quotes. -/
inductive Item : List Text → Text → Prop
  | named {id name before after : Text} (hname : Spells id name)
      (hbefore : ∀ c ∈ before, isBlank c = true) (hafter : ∀ c ∈ after, isBlank c = true) :
      Item [id] (before ++ (name ++ after))
  | blank {gap : Text} (hgap : ∀ c ∈ gap, isBlank c = true) : Item [] gap
  | empty {quote : Char} {before after : Text} (hquote : quote ∈ listQuotes)
      (hbefore : ∀ c ∈ before, isBlank c = true) (hafter : ∀ c ∈ after, isBlank c = true) :
      Item [] (before ++ ([quote, quote] ++ after))

/-- The ways to write rule ids as a list: items with commas between them. -/
inductive Lists : List Text → Text → Prop
  | last {ids : List Text} {item : Text} (hitem : Item ids item) : Lists ids item
  | more {ids later : List Text} {item rest : Text} (hitem : Item ids item)
      (hrest : Lists later rest) : Lists (ids ++ later) (item ++ ',' :: rest)

/-- The same elements without repetitions, in the order of their first occurrence. -/
structure FirstOccurrences {α : Type} [BEq α] (xs firsts : List α) : Prop where
  mem_iff : ∀ x, x ∈ firsts ↔ x ∈ xs
  ordered : firsts.Pairwise fun x y => xs.idxOf x < xs.idxOf y

/-! ## First occurrences -/

section FirstOccurrences

variable {α : Type} [BEq α] [LawfulBEq α] {xs firsts : List α}

theorem firstOccurrences_eraseDups (xs : List α) : FirstOccurrences xs xs.eraseDups := by
  refine ⟨fun x => List.mem_eraseDups, ?_⟩
  -- an element at the end does not move those before it, so the induction is from the end
  induction xs using List.reverseRecOn with
  | nil => exact .nil
  | append_singleton xs x ih =>
      have hmoved : xs.eraseDups.Pairwise fun y z =>
          (xs ++ [x]).idxOf y < (xs ++ [x]).idxOf z := by
        refine ih.imp_of_mem fun {y z} hy hz hlt => ?_
        rwa [List.idxOf_append_of_mem (List.mem_eraseDups.mp hy),
          List.idxOf_append_of_mem (List.mem_eraseDups.mp hz)]
      rw [Pairs.eraseDups_concat]
      split
      · exact hmoved
      · rename_i hx
        refine List.pairwise_append.mpr ⟨hmoved, List.pairwise_singleton _ x, fun y hy z hz => ?_⟩
        obtain rfl : z = x := List.mem_singleton.mp hz
        have hy : y ∈ xs := List.mem_eraseDups.mp hy
        rw [List.idxOf_append_of_mem hy, List.idxOf_append_of_notMem hx]
        exact Nat.lt_add_right _ (List.idxOf_lt_length_of_mem hy)

/-- Elements and order leave no choice. -/
theorem FirstOccurrences.eq (h : FirstOccurrences xs firsts) : firsts = xs.eraseDups := by
  have h' := firstOccurrences_eraseDups xs
  have hnodup {ys : List α} (hys : ys.Pairwise fun x y => xs.idxOf x < xs.idxOf y) : ys.Nodup := by
    refine hys.imp fun {x y} hlt => ?_
    rintro rfl
    exact Nat.lt_irrefl _ hlt
  refine List.Perm.eq_of_pairwise (fun x y _ _ hlt hlt' => absurd hlt (Nat.lt_asymm hlt'))
    h.ordered h'.ordered ?_
  exact (List.perm_ext_iff_of_nodup (hnodup h.ordered) (hnodup h'.ordered)).mpr fun x =>
    (h.mem_iff x).trans (h'.mem_iff x).symm

theorem firstOccurrences_iff : FirstOccurrences xs firsts ↔ xs.eraseDups = firsts :=
  ⟨fun h => h.eq.symm, fun h => h ▸ firstOccurrences_eraseDups xs⟩

end FirstOccurrences

/-! ## Items -/

variable {quote : Char} {id cs : Text}

theorem isBlank_of_mem_listQuotes (h : quote ∈ listQuotes) :
    isBlank quote = false ∧ quote ≠ ',' := by
  have hquote : quote = '\'' ∨ quote = '"' := by simpa [listQuotes] using h
  rcases hquote with rfl | rfl
  · decide
  · decide

theorem unquote_quoted (hquote : quote ∈ listQuotes) (cs : Text) :
    unquote (quote :: (cs ++ [quote])) = cs := by
  have hquote : quote = '\'' ∨ quote = '"' := by simpa [listQuotes] using hquote
  simp [unquote, hquote]

/-- Quotes are taken off only in pairs. -/
theorem unquote_of_not_wrapped (h : ¬ Wrapped cs) : unquote cs = cs := by
  cases cs with
  | nil => rfl
  | cons quote rest =>
      refine if_neg fun hquotes => h ⟨quote, ?_, rest.dropLast, ?_⟩
      · simpa [listQuotes] using hquotes.1
      · rw [List.dropLast_append_getLast? quote hquotes.2]

/-- A text is between quotes exactly if taking them off changes it. -/
theorem wrapped_iff : Wrapped cs ↔ unquote cs ≠ cs := by
  constructor
  · rintro ⟨quote, hquote, inside, rfl⟩ heq
    rw [unquote_quoted hquote] at heq
    have hlength := congrArg List.length heq
    simp only [List.length_cons, List.length_append, List.length_nil] at hlength
    omega
  · intro hne
    by_contra h
    exact hne (unquote_of_not_wrapped h)

instance (cs : Text) : Decidable (Wrapped cs) := decidable_of_iff _ wrapped_iff.symm

theorem trimmed_quoted (hquote : quote ∈ listQuotes) (cs : Text) :
    Trimmed (quote :: (cs ++ [quote])) := by
  have hblank := (isBlank_of_mem_listQuotes hquote).1
  refine ⟨fun c hc => ?_, fun c hc => ?_⟩
  · obtain rfl : quote = c := by simpa using hc
    exact hblank
  · obtain rfl : quote = c := by simpa [List.getLast?_cons] using hc
    exact hblank

theorem Spells.trimmed {name : Text} (h : Spells id name) : Trimmed name := by
  cases h with
  | bare htrimmed hbare => exact htrimmed
  | quoted hquote => exact trimmed_quoted hquote id

theorem Spells.unquote_eq {name : Text} (h : Spells id name) : unquote name = id := by
  cases h with
  | bare htrimmed hbare => exact unquote_of_not_wrapped hbare
  | quoted hquote => exact unquote_quoted hquote id

theorem comma_notMem_of_isBlank (h : ∀ c ∈ cs, isBlank c = true) : ',' ∉ cs :=
  fun hcomma => absurd (h ',' hcomma) (by decide)

theorem Item.comma_notMem {ids : List Text} {item : Text} (h : Item ids item)
    (hids : ∀ id ∈ ids, ',' ∉ id) : ',' ∉ item := by
  cases h with
  | @named id name before after hname hbefore hafter =>
      have hid := hids id List.mem_cons_self
      have hname : ',' ∉ name := by
        cases hname with
        | bare htrimmed hbare => exact hid
        | quoted hquote => simp [hid, (isBlank_of_mem_listQuotes hquote).2.symm]
      simp [hname, comma_notMem_of_isBlank hbefore, comma_notMem_of_isBlank hafter]
  | blank hgap => exact comma_notMem_of_isBlank hgap
  | empty hquote hbefore hafter =>
      simp [(isBlank_of_mem_listQuotes hquote).2.symm, comma_notMem_of_isBlank hbefore,
        comma_notMem_of_isBlank hafter]

/-- An item without its blanks and quotes is its id, or empty if it has none. -/
theorem Item.read {ids : List Text} {item : Text} (h : Item ids item) (hids : ∀ id ∈ ids, id ≠ []) :
    [unquote (trim item)].filter (· ≠ []) = ids := by
  cases h with
  | @named id name before after hname hbefore hafter =>
      rw [hname.trimmed.trim_append hbefore hafter, hname.unquote_eq,
        List.filter_singleton, decide_eq_true (hids id List.mem_cons_self)]
      rfl
  | blank hgap =>
      have htrim : trim item = [] := by
        simpa using Field.nil.trim_append (List.forall_mem_nil _) hgap
      rw [htrim]
      rfl
  | @empty quote before after hquote hbefore hafter =>
      have htrimmed : Trimmed [quote, quote] := trimmed_quoted hquote []
      have hunquote : unquote [quote, quote] = [] := unquote_quoted hquote []
      rw [htrimmed.trim_append hbefore hafter, hunquote]
      rfl

/-! ## Lists -/

/-- The items of a list are read one by one. -/
theorem Lists.read {ids : List Text} {text : Text} (h : Lists ids text)
    (hids : ∀ id ∈ ids, id ≠ [] ∧ ',' ∉ id) :
    (((text.splitOnP (· == ',')).map fun item => unquote (trim item)).filter (· ≠ [])) = ids := by
  have hplain {item : Text} (hitem : ',' ∉ item) : ∀ c ∈ item, (c == ',') = false := by
    intro c hc
    exact beq_eq_false_iff_ne.mpr fun hcomma => hitem (hcomma ▸ hc)
  induction h with
  | last hitem =>
      have hcomma := hitem.comma_notMem fun id hid => (hids id hid).2
      rw [List.splitOnP_eq_singleton (hplain hcomma)]
      exact hitem.read fun id hid => (hids id hid).1
  | more hitem hrest ih =>
      obtain ⟨hfirst, hlater⟩ := List.forall_mem_append.mp hids
      have hcomma := hitem.comma_notMem fun id hid => (hfirst id hid).2
      rw [List.splitOnP_append_cons_of_forall_mem (hplain hcomma) ',' rfl, List.map_cons,
        ← List.singleton_append, List.filter_append, hitem.read fun id hid => (hfirst id hid).1,
        ih hlater]

/-- Whatever way rule ids without commas are written as a list, they are read from it again without
repetitions, in the order of their first occurrence, and a directive with this value names them. -/
theorem ruleIds_listed {ids : List Text} {text : Text} (hids : ∀ id ∈ ids, id ≠ [] ∧ ',' ∉ id)
    (h : Lists ids text) (names : List Text) :
    (ruleNames text = names ↔ FirstOccurrences ids names) ∧
      ∀ directive : Directive, directive.value = text →
        (directive.ruleIds = names ↔ FirstOccurrences ids names) := by
  have hnames : ruleNames text = names ↔ FirstOccurrences ids names := by
    rw [ruleNames, h.read hids, firstOccurrences_iff]
  refine ⟨hnames, ?_⟩
  rintro directive rfl
  exact hnames

/-- An id in both spellings, one with a blank of its own, one with quotes of its own, and a quote
that is an id by itself, with items between them that have no id. -/
theorem ruleIds_listed_quotes :
    let text := " \"no-eval\"\t,'',no-eval,' a' ,, \"'x'\",'".toList
    Lists ["no-eval".toList, "no-eval".toList, " a".toList, "'x'".toList, "'".toList] text ∧
      ∀ directive : Directive, directive.value = text →
        directive.ruleIds = ["no-eval".toList, " a".toList, "'x'".toList, "'".toList] := by
  intro text
  have hblank {cs : Text} (h : cs.all isBlank = true) : ∀ c ∈ cs, isBlank c = true :=
    List.all_eq_true.mp h
  have hquoted {quote : Char} (hquote : quote ∈ listQuotes) (id before after : Text)
      (hbefore : before.all isBlank = true) (hafter : after.all isBlank = true) :
      Item [id] (before ++ (quote :: (id ++ [quote]) ++ after)) :=
    .named (.quoted hquote) (hblank hbefore) (hblank hafter)
  have hbare (id : Text) (htrimmed : trim id = id) (hwrapped : ¬ Wrapped id) :
      Item [id] ([] ++ (id ++ [])) :=
    .named (.bare (trimmed_iff.mpr htrimmed) hwrapped) (by simp) (by simp)
  have hempty : Item [] ([] ++ (['\'', '\''] ++ [])) := .empty (by decide) (by simp) (by simp)
  have hlists :=
    Lists.more (@hquoted '"' (by decide) "no-eval".toList [' '] ['\t'] rfl rfl) <|
    .more hempty <|
    .more (hbare "no-eval".toList (by decide) (by decide)) <|
    .more (@hquoted '\'' (by decide) " a".toList [] [' '] rfl rfl) <|
    .more (@Item.blank [] (by simp)) <|
    .more (@hquoted '"' (by decide) "'x'".toList [' '] [] rfl rfl) <|
    .last (hbare ['\''] (by decide) (by decide))
  have htext : Lists ["no-eval".toList, "no-eval".toList, " a".toList, "'x'".toList, "'".toList]
      text := by
    convert hlists using 1 <;> decide
  refine ⟨htext, fun directive hvalue => ?_⟩
  have hids : ∀ id ∈ ["no-eval".toList, "no-eval".toList, " a".toList, "'x'".toList, "'".toList],
      id ≠ [] ∧ ',' ∉ id := by decide
  refine ((ruleIds_listed hids htext _).2 directive hvalue).mpr ⟨?_, by decide⟩
  intro id
  simp

end LocatedJson.Directive
