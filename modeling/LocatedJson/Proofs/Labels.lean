import LocatedJson.Directive.Comment
import Mathlib.Data.List.TakeWhile

/-!
# The labels of comments

Two questions are asked about the text of a comment, by two functions that
treat it differently. Whether it bears a directive is seen from its first word
as it stands; the directive itself is read from the part in front of the
justification, without the blanks around that part. `Opens` is what both come
down to: blanks, a label, and then a blank or the end. The part in front of
the justification opens with a label exactly if the whole text does
(`opens_splitAtSeparator_iff`), because a separator starts with a blank, so it
can neither stand before the label nor cut it off.
-/

namespace LocatedJson.Directive

open LocatedJson.Text

/-- The text is blanks, the word, and then a blank or the end. -/
def Opens (word cs : Text) : Prop :=
  ∃ blanks rest, cs = blanks ++ (word ++ rest) ∧ (∀ c ∈ blanks, isBlank c = true) ∧
    ∀ c, rest.head? = some c → isBlank c = true

/-- The labels that change the checks of the file that they stand in. -/
def inlineLabels : List String :=
  ["eslint", "eslint-enable", "eslint-disable", "eslint-disable-line", "eslint-disable-next-line"]

variable {word cs rest : Text} {label : Label}

/-! ## First words -/

theorem firstWord_append (hword : ∀ c ∈ word, isBlank c = false)
    (hrest : ∀ c, rest.head? = some c → isBlank c = true) : firstWord (word ++ rest) = word := by
  have hstop : rest.takeWhile (fun c => !isBlank c) = [] := by
    cases rest with
    | nil => rfl
    | cons c rest => simp [hrest c rfl]
  rw [firstWord, List.takeWhile_append_of_pos (by simpa using hword), hstop, List.append_nil]

/-- The first word of a text is a given one exactly if the text opens with it. -/
theorem firstWord_trimStart_eq_iff (hne : word ≠ []) (hword : ∀ c ∈ word, isBlank c = false) :
    firstWord (trimStart cs) = word ↔ Opens word cs := by
  constructor
  · rintro rfl
    refine ⟨cs.takeWhile isBlank, (trimStart cs).dropWhile fun c => !isBlank c, ?_, ?_, ?_⟩
    · rw [firstWord, List.takeWhile_append_dropWhile, trimStart, List.takeWhile_append_dropWhile]
    · exact fun c hc => List.mem_takeWhile_imp hc
    · intro c hc
      have hnot := List.head?_dropWhile_not (fun c => !isBlank c) (trimStart cs)
      rw [hc] at hnot
      simpa using hnot
  · rintro ⟨blanks, rest, rfl, hblanks, hrest⟩
    obtain ⟨first, word', rfl⟩ := List.exists_cons_of_ne_nil hne
    have htrim : trimStart (blanks ++ (first :: word' ++ rest)) = first :: word' ++ rest := by
      rw [trimStart, List.dropWhile_append_of_pos hblanks, List.cons_append, List.dropWhile_cons,
        hword first List.mem_cons_self]
      rfl
    rw [htrim, firstWord_append hword hrest]

/-- Blanks at the end of a text are not part of its first word. -/
theorem firstWord_trimEnd (cs : Text) : firstWord (trimEnd cs) = firstWord cs := by
  obtain ⟨blanks, hcs, hblanks⟩ : ∃ blanks, cs = trimEnd cs ++ blanks ∧
      ∀ c ∈ blanks, isBlank c = true := by
    refine ⟨(cs.reverse.takeWhile isBlank).reverse, ?_, fun c hc => ?_⟩
    · rw [trimEnd, ← List.reverse_append, List.takeWhile_append_dropWhile, List.reverse_reverse]
    · exact List.mem_takeWhile_imp (List.mem_reverse.mp hc)
  have hstop : blanks.takeWhile (fun c => !isBlank c) = [] := by
    cases blanks with
    | nil => rfl
    | cons c blanks => simp [hblanks c List.mem_cons_self]
  have happend : firstWord (trimEnd cs ++ blanks) = firstWord (trimEnd cs) := by
    rw [firstWord, firstWord, List.takeWhile_append, hstop, List.append_nil]
    split
    · rename_i hall
      exact ((List.takeWhile_prefix _).eq_of_length hall).symm
    · rfl
  rw [← happend, ← hcs]

/-! ## Separators -/

theorem ne_dash_of_isBlank {c : Char} (h : isBlank c = true) : c ≠ '-' := by
  rintro rfl
  revert h
  decide

/-- A separator starts with a blank. -/
theorem isBlank_of_afterSeparator? {c : Char} {after : Text}
    (h : afterSeparator? (c :: cs) = some after) : isBlank c = true := by
  rw [afterSeparator?] at h
  grind

/-- Dashes stand behind the blank that a separator starts with. -/
theorem afterSeparator?_eq_none {c : Char} (h : cs.head? ≠ some '-') :
    afterSeparator? (c :: cs) = none := by
  have hdashes : cs.takeWhile (· == '-') = [] := by
    cases cs with
    | nil => rfl
    | cons d cs => simpa [List.takeWhile_cons] using h
  rw [afterSeparator?, hdashes]
  grind

theorem splitAtSeparator_cons {c : Char} (h : afterSeparator? (c :: cs) = none) :
    splitAtSeparator (c :: cs) = (c :: (splitAtSeparator cs).1, (splitAtSeparator cs).2) := by
  rw [splitAtSeparator, h]

/-- What stands before the first separator is a front part of the text, and the text goes on
behind it with a blank if at all. -/
theorem exists_eq_splitAtSeparator_append (cs : Text) :
    ∃ tail, cs = (splitAtSeparator cs).1 ++ tail ∧
      ∀ c, tail.head? = some c → isBlank c = true := by
  induction cs with
  | nil => exact ⟨[], rfl, fun c hc => nomatch hc⟩
  | cons c cs ih =>
      cases hsep : afterSeparator? (c :: cs) with
      | some after =>
          refine ⟨c :: cs, ?_, ?_⟩
          · rw [splitAtSeparator, hsep]
            rfl
          · rintro c' ⟨⟩
            exact isBlank_of_afterSeparator? hsep
      | none =>
          obtain ⟨tail, hcs, htail⟩ := ih
          refine ⟨tail, ?_, htail⟩
          rw [splitAtSeparator_cons hsep, List.cons_append, ← hcs]

/-- A part that no separator starts in is in front of the first separator. -/
theorem splitAtSeparator_append {front : Text}
    (h : ∀ c cs, c :: cs <:+ front → afterSeparator? (c :: (cs ++ rest)) = none) :
    splitAtSeparator (front ++ rest) =
      (front ++ (splitAtSeparator rest).1, (splitAtSeparator rest).2) := by
  induction front with
  | nil => rfl
  | cons c front ih =>
      rw [List.cons_append, splitAtSeparator_cons (h c front (List.suffix_refl _)),
        ih fun c' cs hcs => h c' cs (hcs.trans (List.suffix_cons c front))]
      rfl

/-- No separator starts in a word. -/
theorem splitAtSeparator_word_append (hword : ∀ c ∈ word, isBlank c = false) (rest : Text) :
    splitAtSeparator (word ++ rest) =
      (word ++ (splitAtSeparator rest).1, (splitAtSeparator rest).2) := by
  refine splitAtSeparator_append fun c cs hcs => ?_
  cases hsep : afterSeparator? (c :: (cs ++ rest)) with
  | none => rfl
  | some after =>
      have hblank := isBlank_of_afterSeparator? hsep
      rw [hword c (hcs.subset List.mem_cons_self)] at hblank
      cases hblank

/-- No separator starts in blanks if the last of them does not start one. -/
theorem splitAtSeparator_blanks_append {blanks : Text} (hblanks : ∀ c ∈ blanks, isBlank c = true)
    (hcs : ∀ c, afterSeparator? (c :: cs) = none) :
    splitAtSeparator (blanks ++ cs) =
      (blanks ++ (splitAtSeparator cs).1, (splitAtSeparator cs).2) := by
  refine splitAtSeparator_append fun c later hlater => ?_
  cases later with
  | nil => exact hcs c
  | cons d later =>
      have hd := hblanks d (hlater.subset (List.mem_cons_of_mem _ List.mem_cons_self))
      exact afterSeparator?_eq_none fun hdash => ne_dash_of_isBlank hd (Option.some.inj hdash)

theorem head?_splitAtSeparator {c : Char} (h : (splitAtSeparator cs).1.head? = some c) :
    cs.head? = some c := by
  obtain ⟨tail, hcs, -⟩ := exists_eq_splitAtSeparator_append cs
  rw [hcs, List.head?_append, h]
  rfl

theorem head?_append_ne (hne : word ≠ []) (hdash : word.head? ≠ some '-') (rest : Text) :
    (word ++ rest).head? ≠ some '-' := by
  obtain ⟨first, word', rfl⟩ := List.exists_cons_of_ne_nil hne
  exact hdash

/-- The part before the justification opens with a word exactly if the whole text does. -/
theorem opens_splitAtSeparator_iff (hne : word ≠ []) (hword : ∀ c ∈ word, isBlank c = false)
    (hdash : word.head? ≠ some '-') : Opens word (splitAtSeparator cs).1 ↔ Opens word cs := by
  constructor
  · rintro ⟨blanks, rest, hfront, hblanks, hrest⟩
    obtain ⟨tail, hcs, htail⟩ := exists_eq_splitAtSeparator_append cs
    refine ⟨blanks, rest ++ tail, ?_, hblanks, fun c hc => ?_⟩
    · rw [hcs, hfront]
      simp only [List.append_assoc]
    · cases rest with
      | nil => exact htail c hc
      | cons d rest => exact hrest c hc
  · rintro ⟨blanks, rest, rfl, hblanks, hrest⟩
    have hhead := head?_append_ne hne hdash rest
    refine ⟨blanks, (splitAtSeparator rest).1, ?_, hblanks,
      fun c hc => hrest c (head?_splitAtSeparator hc)⟩
    rw [splitAtSeparator_blanks_append hblanks fun _ => afterSeparator?_eq_none hhead,
      splitAtSeparator_word_append hword]

/-! ## Labels -/

namespace Label

theorem toList_text_ne_nil (label : Label) : label.text.toList ≠ [] := by
  cases label <;> decide

theorem isBlank_of_mem_text (label : Label) :
    ∀ c ∈ label.text.toList, isBlank c = false := by
  have hall : (label.text.toList.all fun c => !isBlank c) = true := by
    cases label <;> decide
  simpa using hall

theorem head?_text_ne (label : Label) : label.text.toList.head? ≠ some '-' := by
  cases label <;> decide

theorem ofText?_eq_some_iff : ofText? cs = some label ↔ cs = label.text.toList := by
  constructor
  · intro h
    have htext := List.find?_some h
    exact (beq_iff_eq.mp htext).symm
  · rintro rfl
    cases label <;> decide

theorem isInline_iff (label : Label) : label.isInline = true ↔ label.text ∈ inlineLabels := by
  cases label <;> decide

theorem exists_text_eq {name : String} (h : name ∈ inlineLabels) :
    ∃ label : Label, label.text = name := by
  simp only [inlineLabels, List.mem_cons, List.not_mem_nil, or_false] at h
  rcases h with rfl | rfl | rfl | rfl | rfl
  exacts [⟨settings, rfl⟩, ⟨enable, rfl⟩, ⟨disable, rfl⟩, ⟨disableLine, rfl⟩,
    ⟨disableNextLine, rfl⟩]

end Label

/-- The comment is read with the label that it opens with. -/
theorem label_ofText?_eq_iff :
    (Comment.ofText? cs).map Comment.label = some label ↔ Opens label.text.toList cs := by
  have hlabel : (Comment.ofText? cs).map Comment.label =
      Label.ofText? (firstWord (trim (splitAtSeparator cs).1)) := by
    rw [Comment.ofText?, Option.map_map]
    exact congrFun Option.map_id _
  rw [hlabel, Label.ofText?_eq_some_iff, trim, firstWord_trimEnd,
    firstWord_trimStart_eq_iff label.toList_text_ne_nil label.isBlank_of_mem_text,
    opens_splitAtSeparator_iff label.toList_text_ne_nil label.isBlank_of_mem_text
      label.head?_text_ne]

theorem isInline_iff_opens :
    isInline cs = true ↔ ∃ label : Label, label.isInline = true ∧ Opens label.text.toList cs := by
  rw [isInline]
  simp only [← firstWord_trimStart_eq_iff (Label.toList_text_ne_nil _)
    (Label.isBlank_of_mem_text _), ← Label.ofText?_eq_some_iff]
  cases Label.ofText? (firstWord (trimStart cs)) with
  | none => simp
  | some label => simp

/-- The label that a comment is read with tells whether it is taken for an inline one. -/
theorem isInline_iff_label :
    isInline cs = true ↔
      ∃ comment, Comment.ofText? cs = some comment ∧ comment.label.text ∈ inlineLabels := by
  rw [isInline_iff_opens]
  constructor
  · rintro ⟨label, hinline, hopens⟩
    obtain ⟨comment, hcomment, rfl⟩ :=
      Option.map_eq_some_iff.mp (label_ofText?_eq_iff.mpr hopens)
    exact ⟨comment, hcomment, comment.label.isInline_iff.mp hinline⟩
  · rintro ⟨comment, hcomment, hlabel⟩
    refine ⟨comment.label, comment.label.isInline_iff.mpr hlabel, ?_⟩
    exact label_ofText?_eq_iff.mp (by rw [hcomment]; rfl)

/-- A comment is taken for one that bears a directive exactly if it is read as a directive with
one of the five labels that change the checks of their file, and that is so exactly if its text
is blanks, one of these labels, and a blank or the end. -/
theorem isInline_iff_directive (cs : Text) :
    (isInline cs = true ↔
      ∃ comment, Comment.ofText? cs = some comment ∧ comment.label.text ∈ inlineLabels) ∧
    (isInline cs = true ↔ ∃ name ∈ inlineLabels, Opens name.toList cs) := by
  refine ⟨isInline_iff_label, ?_⟩
  rw [isInline_iff_opens]
  constructor
  · rintro ⟨label, hinline, hopens⟩
    exact ⟨label.text, label.isInline_iff.mp hinline, hopens⟩
  · rintro ⟨name, hname, hopens⟩
    obtain ⟨label, rfl⟩ := Label.exists_text_eq hname
    exact ⟨label, label.isInline_iff.mpr hname, hopens⟩

end LocatedJson.Directive
