import LocatedJson.Proofs.Labels

/-!
# Writing directive comments

A directive comment is written as a label, a value and a justification, with
blanks around and between them and dashes in front of the justification. How
many blanks and dashes there are does not matter: whatever is written is split
into the same three parts again (`Comment.ofText?_written`).

A value or a justification may have dashes and blanks in it, but it must not
be taken apart, and it must not make up a separator together with what stands
next to it. What stands next to it is a blank or the end of the text, so it is
enough to look at the part between two blanks (`Field`). The lemma that the
file rests on is that no separator starts in such a part or in the blanks in
front of it (`Field.splitAtSeparator_append`).
-/

namespace LocatedJson.Directive

open LocatedJson.Text

/-! ## The notation -/

/-- A blank, two or more dashes and a blank. -/
inductive Separator : Text → Prop
  | intro {first last : Char} {dashes : Text} (hfirst : isBlank first = true)
      (hdashes : ∀ c ∈ dashes, c = '-') (hlong : 2 ≤ dashes.length) (hlast : isBlank last = true) :
      Separator (first :: (dashes ++ [last]))

/-- A text without blanks at its ends. -/
structure Trimmed (cs : Text) : Prop where
  head : ∀ c, cs.head? = some c → isBlank c = false
  last : ∀ c, cs.getLast? = some c → isBlank c = false

/-- A text without blanks at its ends, and without a separator in it also when a space stands on
both sides of it. -/
structure Field (cs : Text) : Prop extends Trimmed cs where
  unseparated : ∀ sep, Separator sep → ¬ sep <:+: ' ' :: (cs ++ [' '])

/-- A value behind a label, with blanks in front of it if there is one. -/
inductive Attached (value : Text) : Text → Prop
  | absent (hvalue : value = []) : Attached value []
  | present {gap : Text} (hvalue : value ≠ []) (hne : gap ≠ [])
      (hgap : ∀ c ∈ gap, isBlank c = true) : Attached value (gap ++ value)

/-- A justification with dashes between blanks in front of it if there is one. -/
inductive Appended (justification : Text) : Text → Prop
  | absent (hjustification : justification = []) : Appended justification []
  | present {before dashes after : Text} (hjustification : justification ≠ [])
      (hne : before ≠ []) (hbefore : ∀ c ∈ before, isBlank c = true)
      (hdashes : ∀ c ∈ dashes, c = '-') (hlong : 2 ≤ dashes.length)
      (hne' : after ≠ []) (hafter : ∀ c ∈ after, isBlank c = true) :
      Appended justification (before ++ (dashes ++ (after ++ justification)))

/-- The ways to write a directive comment. -/
inductive Written (comment : Comment) : Text → Prop
  | intro {front value justification back : Text} (hfront : ∀ c ∈ front, isBlank c = true)
      (hvalue : Attached comment.value value)
      (hjustification : Appended comment.justification justification)
      (hback : ∀ c ∈ back, isBlank c = true) :
      Written comment
        (front ++ (comment.label.text.toList ++ (value ++ (justification ++ back))))

variable {cs post : Text} {c : Char}

/-! ## Trimming -/

theorem trimEnd_append {after : Text} (hlast : ∀ c, cs.getLast? = some c → isBlank c = false)
    (hafter : ∀ c ∈ after, isBlank c = true) : trimEnd (cs ++ after) = cs := by
  have hkeep : cs.reverse.dropWhile isBlank = cs.reverse := by
    cases hcs : cs.reverse with
    | nil => rfl
    | cons c rest =>
        have hc : cs.getLast? = some c := by rw [List.getLast?_eq_head?_reverse, hcs]; rfl
        rw [List.dropWhile_cons, hlast c hc]
        rfl
  rw [trimEnd, List.reverse_append,
    List.dropWhile_append_of_pos fun c hc => hafter c (List.mem_reverse.mp hc), hkeep,
    List.reverse_reverse]

/-- Trimming takes off the blanks around a text and nothing else. -/
theorem Trimmed.trim_append (h : Trimmed cs) {before after : Text}
    (hbefore : ∀ c ∈ before, isBlank c = true) (hafter : ∀ c ∈ after, isBlank c = true) :
    trim (before ++ (cs ++ after)) = cs := by
  rw [trim, trimStart, List.dropWhile_append_of_pos hbefore]
  cases cs with
  | nil =>
      rw [List.nil_append, List.dropWhile_eq_nil_iff.mpr hafter]
      rfl
  | cons c rest =>
      rw [List.cons_append, List.dropWhile_cons, h.head c rfl, if_neg Bool.false_ne_true,
        ← List.cons_append]
      exact trimEnd_append h.last hafter

/-- A text has no blanks at its ends exactly if trimming leaves it as it is. -/
theorem trimmed_iff : Trimmed cs ↔ trim cs = cs := by
  constructor
  · intro h
    have htrim := h.trim_append (List.forall_mem_nil _) (List.forall_mem_nil _)
    rwa [List.nil_append, List.append_nil] at htrim
  · intro h
    have hstart : trimStart cs = cs := by
      refine (List.dropWhile_suffix isBlank).eq_of_length_le ?_
      calc cs.length = (trim cs).length := by rw [h]
        _ ≤ (trimStart cs).length := by
          have hle := (List.dropWhile_suffix isBlank (l := (trimStart cs).reverse)).length_le
          rw [List.length_reverse] at hle
          rwa [trim, trimEnd, List.length_reverse]
    rw [trim, hstart] at h
    refine ⟨fun c hc => ?_, fun c hc => ?_⟩
    · exact head?_trimStart_not_blank cs c (by rw [hstart, hc])
    · rw [← h, trimEnd, List.getLast?_reverse] at hc
      exact head?_trimStart_not_blank cs.reverse c hc

/-! ## Where separators are -/

/-- What is taken for a separator at the front of a text is one. -/
theorem afterSeparator?_eq_some_iff {after : Text} :
    afterSeparator? cs = some after ↔ ∃ sep, Separator sep ∧ cs = sep ++ after := by
  constructor
  · intro h
    cases cs with
    | nil => cases h
    | cons first rest =>
        simp only [afterSeparator?] at h
        split at h
        · rename_i last later hrest
          split at h
          · rename_i hsep
            obtain ⟨⟨hfirst, hlong⟩, hlast⟩ : (isBlank first = true ∧
                2 ≤ (rest.takeWhile (· == '-')).length) ∧ isBlank last = true := by
              simpa using hsep
            cases h
            refine ⟨_, .intro hfirst (fun c hc => ?_) hlong hlast, ?_⟩
            · simpa using List.mem_takeWhile_imp hc
            · rw [List.cons_append, List.append_assoc, List.singleton_append, ← hrest,
                List.takeWhile_append_dropWhile]
          · cases h
        · cases h
  · rintro ⟨_, ⟨hfirst, hdashes, hlong, hlast⟩, rfl⟩
    rename_i first last dashes
    have hdashes' : ∀ c ∈ dashes, (c == '-') = true := fun c hc => by simp [hdashes c hc]
    have hstop : (last == '-') = false := beq_eq_false_iff_ne.mpr (ne_dash_of_isBlank hlast)
    simp only [List.cons_append, List.append_assoc, List.nil_append, afterSeparator?]
    rw [List.takeWhile_append_of_pos hdashes', List.dropWhile_append_of_pos hdashes']
    simp [hstop, hfirst, hlong, hlast]

theorem afterSeparator?_eq_none_iff :
    afterSeparator? cs = none ↔ ∀ sep, Separator sep → ¬ sep <+: cs := by
  rw [Option.eq_none_iff_forall_ne_some]
  constructor
  · rintro h sep hsep ⟨after, hafter⟩
    exact h after (afterSeparator?_eq_some_iff.mpr ⟨sep, hsep, hafter.symm⟩)
  · intro h after hafter
    obtain ⟨sep, hsep, hcs⟩ := afterSeparator?_eq_some_iff.mp hafter
    exact h sep hsep ⟨after, hcs.symm⟩

/-- A text is not split exactly if no separator stands in it. -/
theorem splitAtSeparator_eq_none_iff :
    (splitAtSeparator cs).2 = none ↔ ∀ sep, Separator sep → ¬ sep <:+: cs := by
  induction cs with
  | nil =>
      simp only [splitAtSeparator, true_iff, List.infix_nil]
      rintro _ ⟨hfirst, hdashes, hlong, hlast⟩
      exact List.cons_ne_nil _ _
  | cons c rest ih =>
      simp only [List.infix_cons_iff, not_or, imp_and, forall_and, ← ih,
        ← afterSeparator?_eq_none_iff]
      cases hafter : afterSeparator? (c :: rest) with
      | some after => simp [splitAtSeparator, hafter]
      | none => simp [splitAtSeparator_cons hafter]

theorem field_iff :
    Field cs ↔ trim cs = cs ∧ (splitAtSeparator (' ' :: (cs ++ [' ']))).2 = none := by
  rw [splitAtSeparator_eq_none_iff, ← trimmed_iff]
  exact ⟨fun h => ⟨h.toTrimmed, h.unseparated⟩, fun h => ⟨h.1, h.2⟩⟩

instance (cs : Text) : Decidable (Field cs) := decidable_of_iff _ field_iff.symm

/-- A blank behind a text and another one are alike: a separator in front of the first has its
like in front of the second. -/
theorem Separator.exists_start {sep : Text} (hsep : Separator sep)
    (hstart : sep <+: c :: (cs ++ post)) (hpost : ∀ c, post.head? = some c → isBlank c = true)
    (blank : Char) (hblank : isBlank blank = true) :
    ∃ sep', Separator sep' ∧ sep' <+: blank :: (cs ++ [' ']) := by
  obtain @⟨first, last, dashes, hfirst, hdashes, hlong, hlast⟩ := hsep
  obtain ⟨-, after, hafter⟩ := List.cons_prefix_cons.mp hstart
  have hinside : ∀ tail, cs = dashes ++ [last] ++ tail →
      ∃ sep', Separator sep' ∧ sep' <+: blank :: (cs ++ [' ']) := by
    intro tail hcs
    refine ⟨blank :: (dashes ++ [last]), .intro hblank hdashes hlong hlast, ?_⟩
    rw [hcs, List.append_assoc]
    exact List.cons_prefix_cons.mpr ⟨rfl, List.prefix_append _ _⟩
  rcases List.append_eq_append_iff.mp hafter with ⟨tail, hcs, -⟩ | ⟨tail, hcs, hpost'⟩
  · exact hinside tail hcs
  · cases tail with
    | nil => exact hinside [] (by rw [List.append_nil, hcs, List.append_nil])
    | cons b tail =>
        have hb := hpost b (by rw [hpost']; rfl)
        rcases List.eq_nil_or_concat tail with rfl | ⟨tail, last', rfl⟩
        · obtain ⟨rfl, -⟩ := List.append_inj' hcs rfl
          exact ⟨blank :: (dashes ++ [' ']), .intro hblank hdashes hlong (by decide),
            List.prefix_refl _⟩
        · rw [List.concat_eq_append, ← List.cons_append, ← List.append_assoc] at hcs
          obtain ⟨rfl, -⟩ := List.append_inj' hcs rfl
          -- the blank would be one of the dashes
          exact absurd (hdashes b (by simp)) (ne_dash_of_isBlank hb)

theorem Separator.isBlank_of_start {sep : Text} (hsep : Separator sep) (hstart : sep <+: c :: cs) :
    isBlank c = true := by
  obtain ⟨hfirst, hdashes, hlong, hlast⟩ := hsep
  obtain ⟨rfl, -⟩ := List.cons_prefix_cons.mp hstart
  exact hfirst

/-- A separator is found behind the blanks in front of it. -/
theorem Separator.splitAtSeparator_append {sep before : Text} (hsep : Separator sep)
    (hbefore : ∀ c ∈ before, isBlank c = true) (rest : Text) :
    splitAtSeparator (before ++ (sep ++ rest)) = (before, some rest) := by
  have hafter : afterSeparator? (sep ++ rest) = some rest :=
    afterSeparator?_eq_some_iff.mpr ⟨sep, hsep, rfl⟩
  obtain ⟨hfirst, hdashes, hlong, hlast⟩ := hsep
  rw [splitAtSeparator_blanks_append hbefore, List.cons_append, splitAtSeparator,
    ← List.cons_append, hafter, List.append_nil]
  intro c
  exact afterSeparator?_eq_none fun hdash => ne_dash_of_isBlank hfirst (Option.some.inj hdash)

namespace Field

variable (h : Field cs) (hpost : ∀ c, post.head? = some c → isBlank c = true)
include h hpost

/-- The character in front of a field does not start a separator. -/
theorem afterSeparator?_append (c : Char) : afterSeparator? (c :: (cs ++ post)) = none := by
  refine afterSeparator?_eq_none_iff.mpr fun sep hsep hstart => ?_
  obtain ⟨sep', hsep', hstart'⟩ := hsep.exists_start hstart hpost ' ' (by decide)
  exact h.unseparated sep' hsep' hstart'.isInfix

/-- No separator starts in a field or in the blanks in front of it. -/
theorem splitAtSeparator_append {gap : Text} (hgap : ∀ c ∈ gap, isBlank c = true) :
    splitAtSeparator (gap ++ (cs ++ post)) =
      (gap ++ (cs ++ (splitAtSeparator post).1), (splitAtSeparator post).2) := by
  have hfield : splitAtSeparator (cs ++ post) =
      (cs ++ (splitAtSeparator post).1, (splitAtSeparator post).2) := by
    refine Directive.splitAtSeparator_append fun c later hlater => ?_
    refine afterSeparator?_eq_none_iff.mpr fun sep hsep hstart => ?_
    obtain ⟨sep', hsep', hstart'⟩ :=
      hsep.exists_start hstart hpost c (hsep.isBlank_of_start hstart)
    obtain ⟨front, rfl⟩ := hlater
    exact h.unseparated sep' hsep' (hstart'.isInfix.trans ⟨' ' :: front, [], by simp⟩)
  rw [splitAtSeparator_blanks_append hgap (h.afterSeparator?_append hpost), hfield]

end Field

/-! ## Reading what is written -/

theorem Field.nil : Field [] := field_iff.mpr ⟨rfl, rfl⟩

/-- Blanks are not split. -/
theorem splitAtSeparator_blanks {blanks : Text} (hblanks : ∀ c ∈ blanks, isBlank c = true) :
    splitAtSeparator blanks = (blanks, none) := by
  have hend : ∀ c, ([] : Text).head? = some c → isBlank c = true := fun c hc => nomatch hc
  have h := Field.nil.splitAtSeparator_append hend hblanks
  simpa only [List.append_nil, splitAtSeparator] using h

namespace Attached

variable {value text : Text}

/-- The value behind a label starts with a blank if there is one. -/
theorem head? (h : Attached value text) (hc : text.head? = some c) : isBlank c = true := by
  cases h with
  | absent => cases hc
  | @present gap _ hne hgap =>
      obtain ⟨first, gap', rfl⟩ := List.exists_cons_of_ne_nil hne
      cases hc
      exact hgap _ List.mem_cons_self

theorem splitAtSeparator_append (h : Attached value text) (hvalue : Field value)
    (hpost : ∀ c, post.head? = some c → isBlank c = true) :
    splitAtSeparator (text ++ post) =
      (text ++ (splitAtSeparator post).1, (splitAtSeparator post).2) := by
  cases h with
  | absent => rfl
  | present _ _ hgap =>
      rw [List.append_assoc, hvalue.splitAtSeparator_append hpost hgap, List.append_assoc]

/-- A label with its value has no blanks around it. -/
theorem trimmed_append (h : Attached value text) (hvalue : Trimmed value) (label : Label) :
    Trimmed (label.text.toList ++ text) := by
  refine ⟨fun c hc => ?_, fun c hc => ?_⟩
  · obtain ⟨first, word, hword⟩ := List.exists_cons_of_ne_nil label.toList_text_ne_nil
    refine label.isBlank_of_mem_text c ?_
    rw [hword] at hc ⊢
    cases hc
    exact List.mem_cons_self
  · cases h with
    | absent =>
        rw [List.append_nil] at hc
        exact label.isBlank_of_mem_text c (List.mem_of_getLast? hc)
    | present hne =>
        refine hvalue.last c ?_
        rwa [← List.append_assoc, List.getLast?_append, List.getLast?_eq_some_getLast hne,
          Option.some_or, ← List.getLast?_eq_some_getLast hne] at hc

theorem trim_eq (h : Attached value text) (hvalue : Trimmed value) : trim text = value := by
  cases h with
  | absent hnil => exact hnil.symm
  | present _ _ hgap =>
      have htrim := hvalue.trim_append hgap (List.forall_mem_nil _)
      rwa [List.append_nil] at htrim

end Attached

namespace Appended

variable {justification text back : Text}

theorem head? (h : Appended justification text) (hback : ∀ c ∈ back, isBlank c = true)
    (hc : (text ++ back).head? = some c) : isBlank c = true := by
  cases h with
  | absent => exact hback c (List.mem_of_mem_head? hc)
  | @present before _ _ _ hne hbefore =>
      obtain ⟨first, before', rfl⟩ := List.exists_cons_of_ne_nil hne
      cases hc
      exact hbefore _ List.mem_cons_self

/-- The justification is split off at the dashes in front of it: only blanks are left in front of
them, and only blanks stand around it. -/
theorem splitAtSeparator_append (h : Appended justification text)
    (hjustification : Field justification) (hback : ∀ c ∈ back, isBlank c = true) :
    (∀ c ∈ (splitAtSeparator (text ++ back)).1, isBlank c = true) ∧
      trim (((splitAtSeparator (text ++ back)).2.map fun rest => (splitAtSeparator rest).1).getD
        []) = justification := by
  cases h with
  | absent hnil =>
      rw [List.nil_append, splitAtSeparator_blanks hback]
      exact ⟨hback, hnil.symm⟩
  | @present before dashes after _ hne hbefore hdashes hlong hne' hafter =>
      obtain ⟨before, first, rfl⟩ := (List.eq_nil_or_concat before).resolve_left hne
      obtain ⟨last, after, rfl⟩ := List.exists_cons_of_ne_nil hne'
      rw [List.concat_eq_append] at hbefore
      obtain ⟨hbefore, hfirst⟩ := List.forall_mem_append.mp hbefore
      obtain ⟨hlast, hafter⟩ := List.forall_mem_cons.mp hafter
      have hsep : Separator (first :: (dashes ++ [last])) :=
        .intro (hfirst first List.mem_cons_self) hdashes hlong hlast
      have hcs : before.concat first ++ (dashes ++ (last :: after ++ justification)) ++ back =
          before ++ (first :: (dashes ++ [last]) ++ (after ++ (justification ++ back))) := by
        simp
      have hrest : splitAtSeparator (after ++ (justification ++ back)) =
          (after ++ (justification ++ back), none) := by
        rw [hjustification.splitAtSeparator_append (fun c hc => hback c (List.mem_of_mem_head? hc))
          hafter, splitAtSeparator_blanks hback]
      rw [hcs, hsep.splitAtSeparator_append hbefore, Option.map_some, hrest]
      exact ⟨hbefore, hjustification.trim_append hafter hback⟩

end Appended

/-- Whatever way a directive comment is written, its three parts are read from it again. -/
theorem Comment.ofText?_written {comment : Comment} {text : Text} (hvalue : Field comment.value)
    (hjustification : Field comment.justification) (h : Written comment text) :
    Comment.ofText? text = some comment := by
  obtain @⟨front, value, justification, back, hfront, hattached, happended, hback⟩ := h
  have hpost : ∀ c, (justification ++ back).head? = some c → isBlank c = true :=
    fun c hc => happended.head? hback hc
  have hlabel : ∀ rest c, afterSeparator? (c :: (comment.label.text.toList ++ rest)) = none := by
    intro rest c
    exact afterSeparator?_eq_none
      (head?_append_ne comment.label.toList_text_ne_nil comment.label.head?_text_ne rest)
  obtain ⟨hblanks, hjust⟩ := happended.splitAtSeparator_append hjustification hback
  have hparts : splitAtSeparator (front ++ (comment.label.text.toList ++ (value ++
      (justification ++ back)))) =
      (front ++ (comment.label.text.toList ++ value ++
        (splitAtSeparator (justification ++ back)).1),
        (splitAtSeparator (justification ++ back)).2) := by
    rw [splitAtSeparator_blanks_append hfront (hlabel _),
      splitAtSeparator_word_append comment.label.isBlank_of_mem_text,
      hattached.splitAtSeparator_append hvalue hpost, List.append_assoc]
  have hsplit : splitJustification (front ++ (comment.label.text.toList ++ (value ++
      (justification ++ back)))) =
      (comment.label.text.toList ++ value, comment.justification) := by
    have htrimmed := hattached.trimmed_append hvalue.toTrimmed comment.label
    simp only [splitJustification, hparts, htrimmed.trim_append hfront hblanks, hjust]
  have hword := firstWord_append comment.label.isBlank_of_mem_text fun c hc => hattached.head? hc
  simp only [Comment.ofText?, hsplit, hword, Label.ofText?_eq_some_iff.mpr rfl, Option.map_some,
    List.drop_left, hattached.trim_eq hvalue.toTrimmed]

/-- A value and a justification with dashes in them, behind blanks of several kinds. -/
theorem Comment.ofText?_written_dashes :
    let comment : Comment := ⟨.disableLine, "a -b".toList, "--c -d".toList⟩
    let text := "\n\u00a0eslint-disable-line \ta -b \u3000--- --c -d ".toList
    Written comment text ∧ Comment.ofText? text = some comment := by
  intro comment text
  have hvalue : Field comment.value := by decide
  have hjustification : Field comment.justification := by decide
  have hblank {cs : Text} (h : cs.all isBlank = true) : ∀ c ∈ cs, isBlank c = true :=
    List.all_eq_true.mp h
  have hattached := @Attached.present comment.value [' ', '\t'] nofun nofun (hblank rfl)
  have happended := @Appended.present comment.justification [' ', '\u3000'] ['-', '-', '-'] [' ']
    nofun nofun (hblank rfl) (by simp) (by simp) nofun (hblank rfl)
  have hwritten : Written comment text := by
    convert @Written.intro comment ['\n', '\u00a0'] _ _ [' '] (hblank rfl) hattached happended
      (hblank rfl) using 1
    decide
  exact ⟨hwritten, Comment.ofText?_written hvalue hjustification hwritten⟩

end LocatedJson.Directive
