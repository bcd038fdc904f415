import LocatedJson.Rules

/-!
# The grammar of rule settings

The lenient reading of rule settings has two stages: the text is split into
parts, and the parts are read by descent. For each part there is one equation
that takes it off the front of a text. The grammar of the parts,

    settings = members | "{" members "}"
    members  = ","* (name ":" value ","*)*
    name     = word | string
    value    = word | string | "[" ","* (value ","*)* "]" | "{" members "}"

is a relation between parts and what they spell (`Derives`), and the descent
reads whatever the grammar derives (`Derives.reads`). The bound that it runs
under is never met: each part costs at most two steps, one to take it and one
to find the end of the list that it stands in.
-/

namespace LocatedJson.Rules

open LocatedJson.Text

/-! ## Parts of a text -/

/-- Whether a text does not go on with a word. -/
def Breaks (post : Text) : Prop := ∀ c ∈ post.head?, isWordPart c = false

theorem breaks_nil : Breaks [] := by simp [Breaks]

theorem breaks_cons {c : Char} {post : Text} (hc : isWordPart c = false) : Breaks (c :: post) := by
  intro c' hc'
  obtain rfl := Option.some.inj hc'
  exact hc

theorem parts?_blanks {gap : Text} (hgap : ∀ c ∈ gap, isBlank c = true) (post : Text) :
    parts? (gap ++ post) = parts? post := by
  induction gap with
  | nil => rfl
  | cons c gap ih =>
      obtain ⟨hc, hrest⟩ := List.forall_mem_cons.mp hgap
      rw [List.cons_append, parts?, if_pos hc]
      exact ih hrest

theorem isBlank_of_isMark {c : Char} (hc : isMark c = true) : isBlank c = false := by
  have hall : (['\x7b', '\x7d', '[', ']', ':', ','].all fun c => !isBlank c) = true := by decide
  simpa using List.all_eq_true.mp hall c (List.contains_iff_mem.mp hc)

theorem parts?_mark_cons {c : Char} (hc : isMark c = true) (post : Text) :
    parts? (c :: post) = (parts? post).map (.mark c :: ·) := by
  rw [parts?, isBlank_of_isMark hc, if_neg Bool.false_ne_true, if_pos hc]

theorem parts?_quote_cons {quote : Char} {cs body post : Text} (hquote : isQuote quote = true)
    (hbody : quotedBody? quote cs = some (body, post)) :
    parts? (quote :: cs) = (parts? post).map (.quoted body :: ·) := by
  obtain ⟨hblank, hmark⟩ : isBlank quote = false ∧ isMark quote = false := by
    simp only [isQuote, Bool.or_eq_true, beq_iff_eq] at hquote
    rcases hquote with rfl | rfl <;> decide
  rw [parts?, hblank, if_neg Bool.false_ne_true, hmark, if_neg Bool.false_ne_true, if_pos hquote]
  split
  · rename_i hnone
    cases hnone.symm.trans hbody
  · rename_i hsome
    cases hsome.symm.trans hbody
    rfl

theorem parts?_word_append {word post : Text} (hne : word ≠ [])
    (hword : ∀ c ∈ word, isWordPart c = true) (hpost : Breaks post) :
    parts? (word ++ post) = (parts? post).map (.word word :: ·) := by
  obtain ⟨c, rest, rfl⟩ := List.exists_cons_of_ne_nil hne
  obtain ⟨hc, hrest⟩ := List.forall_mem_cons.mp hword
  obtain ⟨hblank, hmark, hquote⟩ :
      isBlank c = false ∧ isMark c = false ∧ isQuote c = false := by
    simpa [isWordPart, and_assoc] using hc
  have hstop : post.takeWhile isWordPart = [] ∧ post.dropWhile isWordPart = post := by
    cases post with
    | nil => exact ⟨rfl, rfl⟩
    | cons e post =>
        have he : isWordPart e = false := hpost e rfl
        simp [he]
  have htake : (rest ++ post).takeWhile isWordPart = rest := by
    rw [List.takeWhile_append_of_pos hrest, hstop.1, List.append_nil]
  have hdrop : (rest ++ post).dropWhile isWordPart = post := by
    rw [List.dropWhile_append_of_pos hrest, hstop.2]
  rw [List.cons_append, parts?, hblank, if_neg Bool.false_ne_true, hmark,
    if_neg Bool.false_ne_true, hquote, if_neg Bool.false_ne_true, htake, hdrop]

theorem quotedBody?_quote (quote : Char) (post : Text) :
    quotedBody? quote (quote :: post) = some ([], post) := by
  rw [quotedBody?.eq_def]
  simp

theorem quotedBody?_plain {quote c : Char} (hquote : c ≠ quote) (hescape : c ≠ '\\') (cs : Text) :
    quotedBody? quote (c :: cs) =
      (quotedBody? quote cs).map fun (body, later) => (c :: body, later) := by
  rw [quotedBody?.eq_def]
  simp only [if_neg hquote, if_neg hescape]

theorem quotedBody?_escape {quote : Char} (hquote : quote ≠ '\\') (c : Char) (cs : Text) :
    quotedBody? quote ('\\' :: c :: cs) =
      (quotedBody? quote cs).map fun (body, later) => (c :: body, later) := by
  rw [quotedBody?.eq_def]
  simp [hquote.symm]

/-- No keyword is numeric, so a numeric word stands for a number or for nothing. -/
theorem wordValue?_of_isNumeric {word : Text} (h : isNumeric word = true) :
    wordValue? word = (Numeral.literalValue word).toOption.map .number := by
  have hkeyword {keyword : Text} (hword : isNumeric keyword = false) : word ≠ keyword := by
    rintro rfl
    cases h.symm.trans hword
  rw [wordValue?, if_neg (hkeyword (by decide)), if_neg (hkeyword (by decide)),
    if_neg (not_or.mpr ⟨hkeyword (by decide), hkeyword (by decide)⟩), if_pos h]

/-! ## The grammar -/

/-- What parts can spell. Members are kept in the order in which they are written, also those
that a later one overwrites. -/
inductive Phrase where
  | value (v : Datum)
  | items (vs : List Datum)
  | members (es : Settings)

/-- The parts that spell a phrase, with so many brackets still allowed. -/
inductive Derives : Nat → Phrase → List Part → Prop
  | quoted {depth : Nat} (body : Text) :
      Derives depth (.value (.text (CodePoint.ofText body))) [.quoted body]
  | word {depth : Nat} {chars : Text} {v : Datum} (hv : wordValue? chars = some v) :
      Derives depth (.value v) [.word chars]
  | list {depth : Nat} {vs : List Datum} {ps : List Part} (hitems : Derives depth (.items vs) ps) :
      Derives (depth + 1) (.value (.list vs)) (.mark '[' :: (ps ++ [.mark ']']))
  | map {depth : Nat} {es : Settings} {ps : List Part} (hmembers : Derives depth (.members es) ps) :
      Derives (depth + 1) (.value (.map (Pairs.ofList es)))
        (.mark '\x7b' :: (ps ++ [.mark '\x7d']))
  | noItems {depth : Nat} : Derives depth (.items []) []
  | itemComma {depth : Nat} {vs : List Datum} {ps : List Part}
      (hrest : Derives depth (.items vs) ps) : Derives depth (.items vs) (.mark ',' :: ps)
  | item {depth : Nat} {v : Datum} {vs : List Datum} {ps rest : List Part}
      (hvalue : Derives depth (.value v) ps) (hrest : Derives depth (.items vs) rest) :
      Derives depth (.items (v :: vs)) (ps ++ rest)
  | noMembers {depth : Nat} : Derives depth (.members []) []
  | memberComma {depth : Nat} {es : Settings} {ps : List Part}
      (hrest : Derives depth (.members es) ps) : Derives depth (.members es) (.mark ',' :: ps)
  | member {depth : Nat} {part : Part} {name : List CodePoint} {v : Datum} {es : Settings}
      {ps rest : List Part} (hname : name? part = some name) (hvalue : Derives depth (.value v) ps)
      (hrest : Derives depth (.members es) rest) :
      Derives depth (.members ((name, v) :: es)) (part :: .mark ':' :: (ps ++ rest))

variable {depth : Nat} {phrase : Phrase} {v : Datum} {es : Settings} {ps : List Part}

theorem Derives.length_pos (h : Derives depth (.value v) ps) : 0 < ps.length := by
  cases h <;> exact Nat.succ_pos _

/-- Members do not start with a brace. -/
theorem Derives.head?_ne_opening (h : Derives depth (.members es) ps) :
    ps.head? ≠ some (.mark '\x7b') := by
  cases h with
  | noMembers => simp
  | memberComma hrest => simp
  | member hname hvalue hrest =>
      intro hhead
      obtain rfl := Option.some.inj hhead
      cases hname

/-! ## The descent -/

/-- Parts in front of which the members of an object end. -/
def Closes (post : List Part) : Prop := ∀ part ∈ post.head?, part = .mark '\x7d'

theorem membersWithin_closes {bound : Nat} {entries : Settings} {post : List Part}
    (h : Closes post) : membersWithin (bound + 1) depth entries post = some (entries, post) := by
  cases post with
  | nil => rfl
  | cons part post =>
      obtain rfl := h part rfl
      rfl

/-- An item in front of others; no value begins with a mark that separates or closes items. -/
theorem itemsWithin_cons {bound : Nat} {list after : List Part}
    (h : valueWithin bound depth list = some (v, after)) :
    itemsWithin (bound + 1) depth list =
      (itemsWithin bound depth after).map fun (items, after) => (v :: items, after) := by
  have hmark {c : Char} {rest : List Part} (hc : c ≠ '[' ∧ c ≠ '\x7b') :
      list ≠ .mark c :: rest := by
    rintro rfl
    cases bound with
    | zero => cases h
    | succ bound =>
        cases depth with
        | zero => cases h
        | succ depth =>
            simp only [valueWithin, if_neg hc.1, if_neg hc.2] at h
            cases h
  rw [itemsWithin.eq_def]
  dsimp only
  split
  · exact absurd rfl (hmark (by decide))
  · exact absurd rfl (hmark (by decide))
  · rw [h]

/-- A member in front of others. -/
theorem membersWithin_cons {bound : Nat} {part : Part} {name : List CodePoint} {entries : Settings}
    {list after : List Part} (hname : name? part = some name)
    (h : valueWithin bound depth list = some (v, after)) :
    membersWithin (bound + 1) depth entries (part :: .mark ':' :: list) =
      membersWithin bound depth (Pairs.put entries name v) after := by
  cases part with
  | mark c => cases hname
  | quoted body | word chars => simp only [membersWithin, hname, h]

/-- The descent reads parts as a phrase, whatever may follow them. -/
def Reads (depth : Nat) (ps : List Part) : Phrase → Prop
  | .value v => ∀ (bound : Nat) (post : List Part), 2 * ps.length ≤ bound →
      valueWithin bound depth (ps ++ post) = some (v, post)
  | .items vs => ∀ (bound : Nat) (post : List Part), 2 * ps.length + 1 ≤ bound →
      itemsWithin bound depth (ps ++ .mark ']' :: post) = some (vs, post)
  | .members es => ∀ (bound : Nat) (entries : Settings) (post : List Part), Closes post →
      2 * ps.length + 1 ≤ bound → membersWithin bound depth entries (ps ++ post) =
        some (es.foldl (fun acc (k, v) => Pairs.put acc k v) entries, post)

/-- The descent reads whatever the grammar derives. -/
theorem Derives.reads (h : Derives depth phrase ps) : Reads depth ps phrase := by
  induction h with
  | quoted body =>
      intro bound post hbound
      obtain ⟨bound, rfl⟩ : ∃ b, bound = b + 1 := ⟨bound - 1, by simp at hbound; omega⟩
      rfl
  | word hv =>
      intro bound post hbound
      obtain ⟨bound, rfl⟩ : ∃ b, bound = b + 1 := ⟨bound - 1, by simp at hbound; omega⟩
      simp only [List.singleton_append, valueWithin, hv, Option.map_some]
  | list hitems ih =>
      intro bound post hbound
      simp only [List.length_cons, List.length_append] at hbound
      obtain ⟨bound, rfl⟩ : ∃ b, bound = b + 1 := ⟨bound - 1, by omega⟩
      have hread := ih bound post (by omega)
      simp only [List.cons_append, List.append_assoc, List.nil_append, valueWithin, if_true, hread,
        Option.map_some]
  | map hmembers ih =>
      intro bound post hbound
      simp only [List.length_cons, List.length_append] at hbound
      obtain ⟨bound, rfl⟩ : ∃ b, bound = b + 1 := ⟨bound - 1, by omega⟩
      have hcloses : Closes (.mark '\x7d' :: post) := fun part hpart => (Option.some.inj hpart).symm
      have hread := ih bound [] (.mark '\x7d' :: post) hcloses (by omega)
      simp only [List.cons_append, List.append_assoc, List.nil_append, valueWithin, hread]
      rfl
  | noItems =>
      intro bound post hbound
      obtain ⟨bound, rfl⟩ : ∃ b, bound = b + 1 := ⟨bound - 1, by omega⟩
      rfl
  | itemComma hrest ih =>
      intro bound post hbound
      simp only [List.length_cons] at hbound
      obtain ⟨bound, rfl⟩ : ∃ b, bound = b + 1 := ⟨bound - 1, by omega⟩
      exact ih bound post (by omega)
  | item hvalue hrest ih ih' =>
      intro bound post hbound
      -- a value has at least one part, so its two steps leave one for going on behind it
      have hpos := hvalue.length_pos
      simp only [List.length_append] at hbound
      obtain ⟨bound, rfl⟩ : ∃ b, bound = b + 1 := ⟨bound - 1, by omega⟩
      rw [List.append_assoc, itemsWithin_cons (ih bound _ (by omega)), ih' bound post (by omega)]
      rfl
  | noMembers =>
      intro bound entries post hcloses hbound
      obtain ⟨bound, rfl⟩ : ∃ b, bound = b + 1 := ⟨bound - 1, by omega⟩
      exact membersWithin_closes hcloses
  | memberComma hrest ih =>
      intro bound entries post hcloses hbound
      simp only [List.length_cons] at hbound
      obtain ⟨bound, rfl⟩ : ∃ b, bound = b + 1 := ⟨bound - 1, by omega⟩
      exact ih bound entries post hcloses (by omega)
  | member hname hvalue hrest ih ih' =>
      intro bound entries post hcloses hbound
      simp only [List.length_cons, List.length_append] at hbound
      obtain ⟨bound, rfl⟩ : ∃ b, bound = b + 1 := ⟨bound - 1, by omega⟩
      simp only [List.cons_append, List.append_assoc]
      rw [membersWithin_cons hname (ih bound _ (by omega)), ih' bound _ post hcloses (by omega)]
      rfl

theorem members?_of_derives (h : Derives maxDepth (.members es) ps) :
    members? ps = some (Pairs.ofList es) := by
  have hread := h.reads (boundFor ps.length) [] [] (by simp [Closes]) (by simp [boundFor])
  rw [List.append_nil] at hread
  rw [members?, hread]
  rfl

/-- The settings of members, with braces around them or not. -/
theorem ofParts?_of_derives (h : Derives maxDepth (.members es) ps) :
    ofParts? ps = some (Pairs.ofList es) ∧
      ofParts? (.mark '\x7b' :: (ps ++ [.mark '\x7d'])) = some (Pairs.ofList es) := by
  constructor
  · rw [ofParts?, if_neg fun hbraces => h.head?_ne_opening hbraces.1, members?_of_derives h]
  · have hlast : (.mark '\x7b' :: (ps ++ [Part.mark '\x7d'])).getLast? = some (.mark '\x7d') := by
      rw [← List.cons_append, List.getLast?_concat]
    rw [ofParts?, if_pos ⟨rfl, hlast⟩, List.drop_one, List.tail_cons, List.dropLast_concat,
      members?_of_derives h]

end LocatedJson.Rules
