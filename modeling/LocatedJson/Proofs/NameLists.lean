import LocatedJson.Directive.Lists
import LocatedJson.Proofs.DirectiveNotation

/-!
# Writing name lists

A name list is written as names with optional values behind a colon. Blanks may
stand around a colon, and what stands between two names is any mixture of blanks
and commas, as long as there is something (`Series`).

The reading takes away blanks around colons and commas from left to right and
splits what is left. It does not get rid of all of them: blanks in front of a
comma stay if the comma before it has taken the blanks between the two. What
matters is that nothing else happens to a mixture, so that it stays one and
does not become empty (`exists_closed_gap`), and that the blanks around a colon
all go, because a name stands in front of them (`Entry.closeDividers_append`).
-/

namespace LocatedJson.Directive

open LocatedJson.Text

/-! ## The notation -/

/-- A name or a value: at least one character, and no blank, comma or colon among them. -/
structure Word (cs : Text) : Prop where
  nonempty : cs ≠ []
  plain : ∀ c ∈ cs, isBlank c = false ∧ c ≠ ',' ∧ c ≠ ':'

/-- The ways to write a name with its value, if it has one. -/
inductive Entry : Text × Option Text → Text → Prop
  | name {name : Text} (hname : Word name) : Entry (name, none) name
  | value {name value before after : Text} (hname : Word name)
      (hbefore : ∀ c ∈ before, isBlank c = true) (hafter : ∀ c ∈ after, isBlank c = true)
      (hvalue : Word value) :
      Entry (name, some value) (name ++ (before ++ ':' :: (after ++ value)))

def Mixture (gap : Text) : Prop := ∀ c ∈ gap, isBlank c = true ∨ c = ','

/-- The ways to write names with their values one after the other. -/
inductive Series : List (Text × Option Text) → Text → Prop
  | nil : Series [] []
  | last {pair : Text × Option Text} {entry : Text} (hentry : Entry pair entry) :
      Series [pair] entry
  | more {pair next : Text × Option Text} {later : List (Text × Option Text)}
      {entry gap rest : Text} (hentry : Entry pair entry) (hne : gap ≠ []) (hgap : Mixture gap)
      (hrest : Series (next :: later) rest) :
      Series (pair :: next :: later) (entry ++ (gap ++ rest))

/-- The ways to write a name list: with blanks around the whole. -/
inductive NameList (pairs : List (Text × Option Text)) : Text → Prop
  | intro {front inside back : Text} (hfront : ∀ c ∈ front, isBlank c = true)
      (hinside : Series pairs inside) (hback : ∀ c ∈ back, isBlank c = true) :
      NameList pairs (front ++ (inside ++ back))

variable {pair : Text × Option Text} {pairs : List (Text × Option Text)}
  {entry gap post rest word : Text} {c : Char}

/-- If a text has a first character, it is one that words have. -/
def StartsPlain (cs : Text) : Prop :=
  ∀ c, cs.head? = some c → isBlank c = false ∧ isDivider c = false

theorem Word.plain_of_mem (h : Word word) :
    ∀ c ∈ word, isBlank c = false ∧ isDivider c = false := by
  intro c hc
  obtain ⟨hblank, hcomma, hcolon⟩ := h.plain c hc
  exact ⟨hblank, by simp [isDivider, hcomma, hcolon]⟩

theorem Word.startsPlain (h : Word word) (post : Text) : StartsPlain (word ++ post) := by
  obtain ⟨first, rest, rfl⟩ := List.exists_cons_of_ne_nil h.nonempty
  intro c hc
  cases hc
  exact h.plain_of_mem first List.mem_cons_self

theorem Entry.startsPlain (h : Entry pair entry) (post : Text) : StartsPlain (entry ++ post) := by
  cases h with
  | name hname => exact hname.startsPlain post
  | value hname =>
      rw [List.append_assoc]
      exact hname.startsPlain _

theorem Series.startsPlain (h : Series pairs rest) : StartsPlain rest := by
  cases h with
  | nil => exact fun c hc => nomatch hc
  | last hentry =>
      have hstart := hentry.startsPlain []
      rwa [List.append_nil] at hstart
  | more hentry => exact hentry.startsPlain _

/-! ## Taking blanks away -/

theorem isBlank_of_isDivider (h : isDivider c = true) : isBlank c = false := by
  have hdivider : c = ':' ∨ c = ',' := by simpa [isDivider] using h
  rcases hdivider with rfl | rfl <;> rfl

theorem trimStart_append (hpost : StartsPlain post) (cs : Text) :
    trimStart (cs ++ post) = trimStart cs ++ post := by
  have hstop : trimStart post = post := by
    cases post with
    | nil => rfl
    | cons c post => rw [trimStart, List.dropWhile_cons, (hpost c rfl).1]; rfl
  unfold trimStart at hstop ⊢
  rw [List.dropWhile_append]
  split
  · rename_i hempty
    rw [List.isEmpty_iff.mp hempty, hstop, List.nil_append]
  · rfl

/-- Where a word starts there is no divider, blanks or not. -/
theorem dividerAt?_eq_none (hpost : StartsPlain post) : dividerAt? post = none := by
  have hstop : trimStart post = post := by
    have htrim := trimStart_append hpost []
    rwa [List.nil_append] at htrim
  unfold dividerAt?
  rw [hstop]
  cases post with
  | nil => rfl
  | cons c post => simp [(hpost c rfl).2]

/-- Words stay as they are. -/
theorem closeDividers_word (h : Word word) (afterBlank : Bool) (post : Text) :
    closeDividers afterBlank (word ++ post) = word ++ closeDividers false post := by
  have hne := h.nonempty
  have hplain := h.plain_of_mem
  clear h
  induction word generalizing afterBlank with
  | nil => exact absurd rfl hne
  | cons c word ih =>
      obtain ⟨hc, hword⟩ := List.forall_mem_cons.mp hplain
      have hnone : dividerAt? (c :: (word ++ post)) = none := by
        refine dividerAt?_eq_none ?_
        rintro _ ⟨⟩
        exact hc
      have hstep : closeDividers afterBlank (c :: (word ++ post)) =
          c :: closeDividers false (word ++ post) := by
        rw [closeDividers]
        split
        · rename_i divider blanks after hsome
          rw [hnone, ite_self] at hsome
          cases hsome
        · rw [hc.1]
      rw [List.cons_append, hstep, List.cons_append]
      by_cases hend : word = []
      · rw [hend]
        rfl
      · rw [ih false hend hword]

/-- A divider behind a word takes all blanks around it with it. -/
theorem exists_closeDividers {before : Text} (hbefore : ∀ c ∈ before, isBlank c = true)
    (hc : isDivider c = true) (rest : Text) :
    ∃ afterBlank, closeDividers false (before ++ c :: rest) =
      c :: closeDividers afterBlank (trimStart rest) := by
  have htrim : trimStart (before ++ c :: rest) = c :: rest := by
    rw [trimStart, List.dropWhile_append_of_pos hbefore, List.dropWhile_cons,
      isBlank_of_isDivider hc]
    rfl
  have hsome : dividerAt? (before ++ c :: rest) =
      some (c, (rest.head?.map isBlank).getD false, trimStart rest) := by
    unfold dividerAt?
    rw [htrim]
    simp [hc]
  refine ⟨(rest.head?.map isBlank).getD false, ?_⟩
  cases hcs : before ++ c :: rest with
  | nil => simp at hcs
  | cons first others =>
      rw [hcs] at hsome
      rw [closeDividers]
      split
      · rename_i divider blanks after hfound
        rw [if_neg Bool.false_ne_true, hsome] at hfound
        cases hfound
        rfl
      · rename_i hfound
        rw [if_neg Bool.false_ne_true, hsome] at hfound
        cases hfound

/-- A divider in a mixture is a comma, and a shorter mixture is left behind it. -/
theorem exists_of_dividerAt? {blanks : Bool} {after : Text} (hgap : Mixture gap)
    (hrest : StartsPlain rest) (h : dividerAt? (gap ++ rest) = some (c, blanks, after)) :
    c = ',' ∧ ∃ later, Mixture later ∧ later.length < gap.length ∧ after = later ++ rest := by
  unfold dividerAt? at h
  rw [trimStart_append hrest] at h
  have hsuffix : trimStart gap <:+ gap := List.dropWhile_suffix isBlank
  cases hfirst : trimStart gap with
  | nil =>
      -- what stands behind the mixture is no divider
      rw [hfirst, List.nil_append] at h
      cases rest with
      | nil => cases h
      | cons first rest => simp [(hrest first rfl).2] at h
  | cons first others =>
      rw [hfirst] at h hsuffix
      have hcomma : first = ',' := by
        refine (hgap first (hsuffix.subset List.mem_cons_self)).resolve_left fun hblank => ?_
        have hnot := head?_trimStart_not_blank gap first (by rw [hfirst]; rfl)
        cases hblank.symm.trans hnot
      rw [List.cons_append, hcomma] at h
      obtain ⟨rfl, -, rfl⟩ : ',' = c ∧ _ ∧ trimStart (others ++ rest) = after := by
        simpa [isDivider] using h
      have hothers : trimStart others <:+ others := List.dropWhile_suffix isBlank
      refine ⟨rfl, trimStart others, fun c hc => ?_, ?_, trimStart_append hrest others⟩
      · exact hgap c (hsuffix.subset (List.mem_cons_of_mem first (hothers.subset hc)))
      · have hle := hothers.length_le
        have hle' := hsuffix.length_le
        rw [List.length_cons] at hle'
        omega

/-- A mixture stays one, and something of it is left. -/
theorem exists_closed_gap (hgap : Mixture gap) (hrest : StartsPlain rest) (afterBlank : Bool) :
    ∃ closed afterBlank', Mixture closed ∧ (gap ≠ [] → closed ≠ []) ∧
      closeDividers afterBlank (gap ++ rest) = closed ++ closeDividers afterBlank' rest := by
  -- a divider takes blanks with it, so the recursion is on what is left of the mixture
  induction hlength : gap.length using Nat.strong_induction_on generalizing gap afterBlank with
  | _ n ih =>
    subst hlength
    cases gap with
    | nil => exact ⟨[], afterBlank, hgap, fun h => absurd rfl h, rfl⟩
    | cons first others =>
        obtain ⟨hfirst, hothers⟩ := List.forall_mem_cons.mp hgap
        rw [List.cons_append, closeDividers]
        split
        · rename_i divider blanks after hfound
          have hsome : dividerAt? (first :: others ++ rest) = some (divider, blanks, after) := by
            split at hfound
            · cases hfound
            · exact hfound
          obtain ⟨rfl, later, hlater, hlt, rfl⟩ := exists_of_dividerAt? hgap hrest hsome
          obtain ⟨closed, afterBlank', hclosed, -, heq⟩ := ih _ hlt hlater blanks rfl
          refine ⟨',' :: closed, afterBlank', ?_, fun _ => List.cons_ne_nil _ _, by rw [heq]; rfl⟩
          exact List.forall_mem_cons.mpr ⟨.inr rfl, hclosed⟩
        · obtain ⟨closed, afterBlank', hclosed, -, heq⟩ :=
            ih _ (Nat.lt_succ_self _) hothers (isBlank first) rfl
          refine ⟨first :: closed, afterBlank', ?_, fun _ => List.cons_ne_nil _ _, by rw [heq]; rfl⟩
          exact List.forall_mem_cons.mpr ⟨hfirst, hclosed⟩

/-! ## Entries -/

/-- A name with its value behind a colon. -/
def joined : Text × Option Text → Text
  | (name, none) => name
  | (name, some value) => name ++ ':' :: value

theorem Entry.closeDividers_append (h : Entry pair entry) (afterBlank : Bool) (post : Text) :
    closeDividers afterBlank (entry ++ post) = joined pair ++ closeDividers false post := by
  cases h with
  | name hname => exact closeDividers_word hname afterBlank post
  | @value name value before after hname hbefore hafter hvalue =>
      obtain ⟨afterBlank', hclose⟩ :=
        @exists_closeDividers ':' before hbefore rfl (after ++ (value ++ post))
      have htrim : trimStart (after ++ (value ++ post)) = value ++ post := by
        rw [trimStart_append (hvalue.startsPlain post), trimStart,
          List.dropWhile_eq_nil_iff.mpr hafter, List.nil_append]
      simp only [joined, List.append_assoc, List.cons_append]
      rw [closeDividers_word hname, hclose, htrim, closeDividers_word hvalue]

theorem nameValue_joined (h : Entry pair entry) : nameValue (joined pair) = pair := by
  have htake {name : Text} (hname : Word name) (post : Text) :
      (name ++ post).takeWhile (· != ':') = name ++ post.takeWhile (· != ':') :=
    List.takeWhile_append_of_pos fun c hc => bne_iff_ne.mpr (hname.plain c hc).2.2
  cases h with
  | name hname =>
      have hcolon : ':' ∉ entry := fun hmem => (hname.plain ':' hmem).2.2 rfl
      have hall := htake hname []
      rw [List.append_nil, List.takeWhile_nil, List.append_nil] at hall
      simp only [nameValue, joined, hall]
      rw [if_neg (by simpa using hcolon)]
  | @value name value before after hname hbefore hafter hvalue =>
      have hname := htake hname (':' :: value)
      simp only [List.takeWhile_cons, bne_self_eq_false, Bool.false_eq_true, if_false,
        List.append_nil] at hname
      simp [nameValue, joined, hname]

/-! ## Splitting -/

/-- Whether a character divides a name list into its entries. -/
def isGap (c : Char) : Bool := isBlank c || c == ','

def items (cs : Text) : List Text := (cs.splitOnP isGap).filter (· ≠ [])

theorem mixture_iff : Mixture gap ↔ ∀ c ∈ gap, isGap c = true := by
  simp [Mixture, isGap]

theorem Word.isGap_of_mem (h : Word word) : ∀ c ∈ word, isGap c = false := by
  intro c hc
  obtain ⟨hblank, hcomma, -⟩ := h.plain c hc
  rw [isGap, hblank, Bool.false_or]
  exact beq_false_of_ne hcomma

theorem items_gap_append (hgap : ∀ c ∈ gap, isGap c = true) (rest : Text) :
    items (gap ++ rest) = items rest := by
  induction gap with
  | nil => rfl
  | cons c gap ih =>
      obtain ⟨hc, hgap⟩ := List.forall_mem_cons.mp hgap
      rw [← ih hgap]
      simp [items, List.splitOnP_cons_eq_if_modifyHead, hc]

theorem items_word (hne : word ≠ []) (hword : ∀ c ∈ word, isGap c = false) :
    items word = [word] := by
  have hsplit : word.splitOnP isGap = [word] :=
    List.splitOnP_eq_singleton fun c hc => by rw [hword c hc]
  simp [items, hsplit, hne]

theorem items_word_append (hne : word ≠ []) (hword : ∀ c ∈ word, isGap c = false)
    (hgap : ∀ c ∈ gap, isGap c = true) (hgap_ne : gap ≠ []) (rest : Text) :
    items (word ++ (gap ++ rest)) = word :: items rest := by
  obtain ⟨c, gap, rfl⟩ := List.exists_cons_of_ne_nil hgap_ne
  obtain ⟨hc, hgap⟩ := List.forall_mem_cons.mp hgap
  have hsplit : (word ++ c :: (gap ++ rest)).splitOnP isGap =
      word :: (gap ++ rest).splitOnP isGap :=
    List.splitOnP_append_cons_of_forall_mem
      (fun c hc => by rw [hword c hc]) c hc _
  rw [← items_gap_append hgap rest]
  simp [items, hsplit, hne]

theorem Entry.joined_ne_nil (h : Entry pair entry) : joined pair ≠ [] := by
  cases h with
  | name hname => exact hname.nonempty
  | value hname => simp [joined]

theorem Entry.isGap_of_mem (h : Entry pair entry) : ∀ c ∈ joined pair, isGap c = false := by
  cases h with
  | name hname => exact hname.isGap_of_mem
  | value hname _ _ hvalue =>
      refine List.forall_mem_append.mpr ⟨hname.isGap_of_mem, ?_⟩
      exact List.forall_mem_cons.mpr ⟨rfl, hvalue.isGap_of_mem⟩

/-- One by one, the entries are taken from the text without blanks around its dividers. -/
theorem Series.map_nameValue (h : Series pairs rest) (afterBlank : Bool) :
    (items (closeDividers afterBlank rest)).map nameValue = pairs := by
  induction h generalizing afterBlank with
  | nil =>
      rw [closeDividers]
      rfl
  | @last pair entry hentry =>
      have hclose := hentry.closeDividers_append afterBlank []
      rw [closeDividers, List.append_nil, List.append_nil] at hclose
      rw [hclose, items_word hentry.joined_ne_nil hentry.isGap_of_mem, List.map_singleton,
        nameValue_joined hentry]
  | @more pair next later entry gap rest hentry hne hgap hrest ih =>
      obtain ⟨closed, afterBlank', hclosed, hclosed_ne, hclose⟩ :=
        exists_closed_gap hgap hrest.startsPlain false
      rw [hentry.closeDividers_append, hclose,
        items_word_append hentry.joined_ne_nil hentry.isGap_of_mem (mixture_iff.mp hclosed)
          (hclosed_ne hne),
        List.map_cons, nameValue_joined hentry, ih]

/-! ## Reading -/

theorem Entry.exists_suffix (h : Entry pair entry) : ∃ word, Word word ∧ word <:+ entry := by
  cases h with
  | name hname => exact ⟨entry, hname, List.suffix_rfl⟩
  | @value name value before after hname hbefore hafter hvalue =>
      refine ⟨value, hvalue, name ++ (before ++ ':' :: after), ?_⟩
      simp

theorem Series.exists_suffix (h : Series pairs rest) (hne : pairs ≠ []) :
    ∃ word, Word word ∧ word <:+ rest := by
  induction h with
  | nil => exact absurd rfl hne
  | last hentry => exact hentry.exists_suffix
  | @more pair next later entry gap rest hentry _ _ hrest ih =>
      obtain ⟨word, hword, hsuffix⟩ := ih (List.cons_ne_nil next later)
      refine ⟨word, hword, hsuffix.trans ?_⟩
      rw [← List.append_assoc]
      exact List.suffix_append _ rest

theorem Series.trimmed (h : Series pairs rest) : Trimmed rest := by
  refine ⟨fun c hc => (h.startsPlain c hc).1, fun c hc => ?_⟩
  by_cases hne : pairs = []
  · subst hne
    cases h
    cases hc
  · obtain ⟨word, hword, front, rfl⟩ := h.exists_suffix hne
    obtain ⟨last, hlast⟩ := List.getLast?_isSome.mpr hword.nonempty |> Option.isSome_iff_exists.mp
    rw [List.getLast?_append, hlast] at hc
    cases hc
    exact (hword.plain c (List.mem_of_getLast? hlast)).1

/-- A name list is read back: names in the order of their first occurrence, each with its last
value. -/
theorem nameValues_listed {text : Text} (h : NameList pairs text) :
    Pairs.Collects pairs (nameValues text) := by
  obtain ⟨hfront, hinside, hback⟩ := h
  have hpairs := hinside.map_nameValue false
  rw [Pairs.collects_iff, nameValues, hinside.trimmed.trim_append hfront hback]
  exact congrArg Pairs.ofList hpairs

/-- A name that comes twice, blanks around colons, and commas that keep blanks in front of them. -/
theorem nameValues_listed_mixtures :
    let pairs : List (Text × Option Text) := [(['a'], some ['b']), (['c'], none),
      (['d'], some ['1']), (['a'], some ['e']), (['f'], none)]
    let text := " a : b ,\tc , ,\n,d:1\n a: e,f ".toList
    NameList pairs text ∧
      nameValues text =
        [(['a'], some ['e']), (['c'], none), (['d'], some ['1']), (['f'], none)] := by
  intro pairs text
  have hblank {cs : Text} (h : cs.all isBlank = true) : ∀ c ∈ cs, isBlank c = true :=
    List.all_eq_true.mp h
  have hword (c : Char) (h : isBlank c = false ∧ c ≠ ',' ∧ c ≠ ':') : Word [c] :=
    ⟨List.cons_ne_nil c [], List.forall_mem_singleton.mpr h⟩
  have hmore {pair next : Text × Option Text} {later : List (Text × Option Text)}
      {entry rest : Text} (hentry : Entry pair entry) (gap : String) (hne : gap.toList ≠ [])
      (hgap : gap.toList.all isGap = true) (hrest : Series (next :: later) rest) :=
    Series.more hentry hne (mixture_iff.mpr (List.all_eq_true.mp hgap)) hrest
  have ha := hword 'a' (by decide)
  have hab : Entry (['a'], some ['b']) "a : b".toList :=
    @Entry.value ['a'] ['b'] [' '] [' '] ha (hblank rfl) (hblank rfl) (hword 'b' (by decide))
  have hd1 : Entry (['d'], some ['1']) "d:1".toList :=
    @Entry.value ['d'] ['1'] [] [] (hword 'd' (by decide)) (hblank rfl) (hblank rfl)
      (hword '1' (by decide))
  have hae : Entry (['a'], some ['e']) "a: e".toList :=
    @Entry.value ['a'] ['e'] [] [' '] ha (hblank rfl) (hblank rfl) (hword 'e' (by decide))
  have hseries : Series pairs "a : b ,\tc , ,\n,d:1\n a: e,f".toList :=
    hmore hab " ,\t" (by decide) rfl <|
    hmore (.name (hword 'c' (by decide))) " , ,\n," (by decide) rfl <|
    hmore hd1 "\n " (by decide) rfl <|
    hmore hae "," (by decide) rfl <|
    .last (.name (hword 'f' (by decide)))
  have htext : NameList pairs text :=
    @NameList.intro pairs [' '] _ [' '] (hblank rfl) hseries (hblank rfl)
  exact ⟨htext, Pairs.collects_iff.mp (nameValues_listed htext)⟩

end LocatedJson.Directive
