import LocatedJson.Proofs.RuleGrammar
import LocatedJson.Proofs.Settings

/-!
# Writing rule settings

Rule settings can be written in many ways that all mean the same: names bare or
between quotes, blanks around every mark, blanks and commas in any mixture
between items, and braces around the whole or not. The ways of writing are
described without the reading of them (`Writes`, `Written`), and whatever is
written is read back as it was, in the same order (`Rules.read_written`).

A written text splits into parts that the grammar derives (`Writes.exists_parts`).
What a word ends at has to be carried along: no part that may stand behind a word
goes on with it, because marks, blanks and commas are no parts of words.
-/

namespace LocatedJson.Rules

open LocatedJson.Text LocatedJson.Numeral

/-! ## The notation -/

def Blanks (gap : Text) : Prop := ∀ c ∈ gap, isBlank c = true

instance (gap : Text) : Decidable (Blanks gap) :=
  decidable_of_iff (gap.all isBlank = true) List.all_eq_true

/-- What stands between two items: blanks and commas, at least one of them. -/
structure Separator (gap : Text) : Prop where
  nonempty : gap ≠ []
  mixture : ∀ c ∈ gap, isBlank c = true ∨ c = ','

instance (gap : Text) : Decidable (Separator gap) :=
  decidable_of_iff (gap ≠ [] ∧ (gap.all fun c => isBlank c || c == ',') = true) <| by
    simp only [List.all_eq_true, Bool.or_eq_true, beq_iff_eq]
    exact ⟨fun h => ⟨h.1, h.2⟩, fun h => ⟨h.nonempty, h.mixture⟩⟩

/-- A name that needs no quotes. -/
structure Bare (name : Text) : Prop where
  nonempty : name ≠ []
  plain : ∀ c ∈ name, isBlank c = false ∧ c ∉ ['"', '\'', '\x7b', '\x7d', '[', ']', ':', ',']

/-- A text with a backslash in front of each backslash and each quote of one kind. -/
def escaped (quote : Char) (cs : Text) : Text :=
  cs.flatMap fun c => if c = quote ∨ c = '\\' then ['\\', c] else [c]

def quoted (quote : Char) (cs : Text) : Text := quote :: (escaped quote cs ++ [quote])

def integerText (minus : Bool) (ds : Interchange.Digits) : Text :=
  (if minus then ['-'] else []) ++ ds.val.map Interchange.Digit.char

/-- The name of a member with the colon behind it. -/
inductive Labels (name : Text) : Text → Prop
  | bare {before after : Text} (hname : Bare name) (hbefore : Blanks before)
      (hafter : Blanks after) : Labels name (name ++ (before ++ ':' :: after))
  | quoted {quote : Char} {before after : Text} (hquote : quote ∈ ['"', '\''])
      (hbefore : Blanks before) (hafter : Blanks after) :
      Labels name (quoted quote name ++ (before ++ ':' :: after))

/-- The ways to write a value, the items of a list or the members of a map, with so many brackets
still allowed. Keys of maps are distinct. -/
inductive Writes : Nat → Phrase → Text → Prop
  | null {depth : Nat} : Writes depth (.value .null) "null".toList
  | boolean {depth : Nat} (b : Bool) : Writes depth (.value (.bool b)) (toString b).toList
  | integer {depth : Nat} (minus : Bool) (ds : Interchange.Digits) (hds : ds.val.length ≤ 4300) :
      Writes depth (.value (.number (.int (signed minus (Interchange.decimal ds.val)))))
        (integerText minus ds)
  | string {depth : Nat} {quote : Char} (hquote : quote ∈ ['"', '\'']) (cs : Text) :
      Writes depth (.value (.text (CodePoint.ofText cs))) (quoted quote cs)
  | severity {depth : Nat} {name : String} (hname : name ∈ ["off", "warn", "error"]) :
      Writes depth (.value (.text (CodePoint.ofText name.toList))) name.toList
  | list {depth : Nat} {vs : List Datum} {before inside after : Text} (hbefore : Blanks before)
      (hinside : Writes depth (.items vs) inside) (hafter : Blanks after) :
      Writes (depth + 1) (.value (.list vs)) ('[' :: (before ++ (inside ++ (after ++ [']']))))
  | map {depth : Nat} {es : Settings} {before inside after : Text} (hbefore : Blanks before)
      (hinside : Writes depth (.members es) inside) (hafter : Blanks after)
      (hkeys : (es.map Prod.fst).Nodup) :
      Writes (depth + 1) (.value (.map es))
        ('\x7b' :: (before ++ (inside ++ (after ++ ['\x7d']))))
  | noItems {depth : Nat} : Writes depth (.items []) []
  | lastItem {depth : Nat} {v : Datum} {value : Text} (hvalue : Writes depth (.value v) value) :
      Writes depth (.items [v]) value
  | item {depth : Nat} {v w : Datum} {vs : List Datum} {value gap rest : Text}
      (hvalue : Writes depth (.value v) value) (hgap : Separator gap)
      (hrest : Writes depth (.items (w :: vs)) rest) :
      Writes depth (.items (v :: w :: vs)) (value ++ (gap ++ rest))
  | noMembers {depth : Nat} : Writes depth (.members []) []
  | lastMember {depth : Nat} {name label value : Text} {v : Datum} (hlabel : Labels name label)
      (hvalue : Writes depth (.value v) value) :
      Writes depth (.members [(CodePoint.ofText name, v)]) (label ++ value)
  | member {depth : Nat} {name label value gap rest : Text} {v : Datum}
      {e : List CodePoint × Datum} {es : Settings} (hlabel : Labels name label)
      (hvalue : Writes depth (.value v) value) (hgap : Separator gap)
      (hrest : Writes depth (.members (e :: es)) rest) :
      Writes depth (.members ((CodePoint.ofText name, v) :: e :: es))
        (label ++ (value ++ (gap ++ rest)))

/-- The ways to write the settings of rules, with braces around them or not. Inside, a hundred
lists and maps may be open at once. -/
inductive Written (settings : Settings) : Text → Prop
  | bare {before inside after : Text} (hbefore : Blanks before)
      (hinside : Writes 100 (.members settings) inside) (hafter : Blanks after) :
      Written settings (before ++ (inside ++ after))
  | braced {front before inside after back : Text} (hfront : Blanks front)
      (hbefore : Blanks before) (hinside : Writes 100 (.members settings) inside)
      (hafter : Blanks after) (hback : Blanks back) :
      Written settings (front ++ '\x7b' :: (before ++ (inside ++ (after ++ '\x7d' :: back))))

def severities : List Datum :=
  [.number (.int 0), .number (.int 1), .number (.int 2)] ++
    ["off", "warn", "error"].map fun name => .text (CodePoint.ofText name.toList)

/-- What a rule is set to: a severity, or a list of a severity and options. -/
inductive Entry : Datum → Prop
  | severity {v : Datum} (hv : v ∈ severities) : Entry v
  | options {v : Datum} (hv : v ∈ severities) (vs : List Datum) : Entry (.list (v :: vs))

/-! ## Words and strings -/

/-- The names that need no quotes are the words. -/
theorem bare_iff {name : Text} : Bare name ↔ name ≠ [] ∧ name.all isWordPart = true := by
  have hpart (c : Char) : isWordPart c = true ↔ isBlank c = false ∧
      c ∉ ['"', '\'', '\x7b', '\x7d', '[', ']', ':', ','] := by
    simp [isWordPart, isMark, isQuote, and_comm, and_assoc]
  simp only [List.all_eq_true, hpart]
  exact ⟨fun h => ⟨h.nonempty, h.plain⟩, fun h => ⟨h.1, h.2⟩⟩

instance (name : Text) : Decidable (Bare name) := decidable_of_iff' _ bare_iff

theorem escaped_cons (quote c : Char) (cs : Text) :
    escaped quote (c :: cs) =
      (if c = quote ∨ c = '\\' then ['\\', c] else [c]) ++ escaped quote cs :=
  List.flatMap_cons

theorem quotedBody?_escaped {quote : Char} (hquote : quote ≠ '\\') (cs post : Text) :
    quotedBody? quote (escaped quote cs ++ quote :: post) = some (cs, post) := by
  induction cs with
  | nil => exact quotedBody?_quote quote post
  | cons c cs ih =>
      rw [escaped_cons, List.append_assoc]
      by_cases hc : c = quote ∨ c = '\\'
      · rw [if_pos hc, List.cons_append, List.singleton_append, quotedBody?_escape hquote, ih]
        rfl
      · rw [if_neg hc, List.singleton_append, quotedBody?_plain (not_or.mp hc).1 (not_or.mp hc).2,
          ih]
        rfl

theorem parts?_quoted {quote : Char} (hquote : quote ∈ ['"', '\'']) (cs post : Text) :
    parts? (quoted quote cs ++ post) = (parts? post).map (.quoted cs :: ·) := by
  obtain ⟨hescape, his⟩ : quote ≠ '\\' ∧ isQuote quote = true := by
    simp only [List.mem_cons, List.not_mem_nil, or_false] at hquote
    rcases hquote with rfl | rfl <;> decide
  rw [quoted, List.cons_append, List.append_assoc]
  exact parts?_quote_cons his (quotedBody?_escaped hescape cs post)

/-- Decimal digits with an optional minus are read as the integer that they stand for. -/
theorem literalValue_integer (minus : Bool) (ds : Interchange.Digits)
    (hds : ds.val.length ≤ maxDecimalDigits) :
    literalValue (integerText minus ds) =
      .ok (.int (signed minus (Interchange.decimal ds.val))) := by
  have hread := Interchange.Number.readInteger_digits ds hds
  obtain ⟨d, rest, hcons⟩ := List.exists_cons_of_ne_nil ds.property
  have hsign : d.char ≠ '+' ∧ d.char ≠ '-' := ⟨d.char_ne (by decide), d.char_ne (by decide)⟩
  have hdecimal := @Interchange.isDecimal_of_mem ds.val
  have hwhole : Numeral.Decimal isDecimal (ds.val.map Interchange.Digit.char) := by
    have hwhole := Numeral.Decimal.whole (by simp [hcons]) hdecimal .none
    rwa [List.append_nil] at hwhole
  have hhex := hasHexMark_of_decimal hwhole
  have hfraction := (hasFractionMark_of_decimal digitClass_isDecimal hwhole).mpr hdecimal
  have hunsigned : unsigned (integerText minus ds) = ds.val.map Interchange.Digit.char := by
    rw [integerText, hcons, List.map_cons]
    exact unsigned_append (by cases minus <;> simp) hsign
  have hhead : (integerText minus ds).head? = some '-' ↔ minus = true := by
    cases minus <;> simp [integerText, hcons, hsign]
  simp only [literalValue, hunsigned, hhex, hfraction, hhead, integerValue, hread,
    Bool.false_eq_true, if_false]
  rfl

theorem isNumeric_integer (minus : Bool) (ds : Interchange.Digits) :
    isNumeric (integerText minus ds) = true := by
  refine isNumeric_digits ?_ Interchange.isDecimal_of_mem (by simpa using ds.property)
  cases minus with
  | false => exact .inl rfl
  | true => exact .inr rfl

theorem wordValue?_integer (minus : Bool) (ds : Interchange.Digits)
    (hds : ds.val.length ≤ maxDecimalDigits) :
    wordValue? (integerText minus ds) =
      some (.number (.int (signed minus (Interchange.decimal ds.val)))) := by
  rw [wordValue?_of_isNumeric (isNumeric_integer minus ds), literalValue_integer minus ds hds]
  rfl

theorem isWordPart_of_mem_integerText {minus : Bool} {ds : Interchange.Digits} :
    ∀ c ∈ integerText minus ds, isWordPart c = true := by
  refine List.forall_mem_append.mpr ⟨fun c hc => ?_, fun c hc => ?_⟩
  · cases minus with
    | false => cases hc
    | true =>
        obtain rfl : c = '-' := by simpa using hc
        rfl
  · obtain ⟨d, -, rfl⟩ := List.mem_map.mp hc
    exact of_digit (by decide) (Interchange.separates_isAsciiDigit.digits d)

/-! ## The parts of a written text -/

theorem breaks_blanks {gap post : Text} (hgap : Blanks gap) (hpost : Breaks post) :
    Breaks (gap ++ post) := by
  cases gap with
  | nil => exact hpost
  | cons c gap =>
      have hblank : isBlank c = true := hgap c List.mem_cons_self
      exact breaks_cons (by simp [isWordPart, hblank])

theorem Separator.breaks {gap : Text} (h : Separator gap) (post : Text) : Breaks (gap ++ post) := by
  obtain ⟨c, rest, rfl⟩ := List.exists_cons_of_ne_nil h.nonempty
  refine breaks_cons ?_
  rcases h.mixture c List.mem_cons_self with hblank | rfl
  · simp [isWordPart, hblank]
  · decide

/-- Of what stands between two items, the commas are parts. -/
theorem Separator.parts? {gap : Text} (h : Separator gap) (post : Text) :
    parts? (gap ++ post) =
      (parts? post).map (List.replicate (gap.count ',') (.mark ',') ++ ·) := by
  obtain ⟨-, hmixture⟩ := h
  induction gap with
  | nil => simp
  | cons c gap ih =>
      obtain ⟨hc, hrest⟩ := List.forall_mem_cons.mp hmixture
      rcases hc with hblank | rfl
      · have hcomma : c ≠ ',' := by
          rintro rfl
          cases hblank
        rw [List.cons_append, Rules.parts?, if_pos hblank, ih hrest, List.count_cons_of_ne hcomma]
      · rw [List.cons_append, parts?_mark_cons rfl, ih hrest, List.count_cons_self,
          List.replicate_succ, Option.map_map]
        rfl

theorem Derives.itemCommas {depth : Nat} {vs : List Datum} {ps : List Part} (n : Nat)
    (h : Derives depth (.items vs) ps) :
    Derives depth (.items vs) (List.replicate n (.mark ',') ++ ps) := by
  induction n with
  | zero => exact h
  | succ n ih => exact .itemComma ih

theorem Derives.memberCommas {depth : Nat} {es : Settings} {ps : List Part} (n : Nat)
    (h : Derives depth (.members es) ps) :
    Derives depth (.members es) (List.replicate n (.mark ',') ++ ps) := by
  induction n with
  | zero => exact h
  | succ n ih => exact .memberComma ih

theorem Labels.exists_part {name label : Text} (h : Labels name label) :
    ∃ part, name? part = some (CodePoint.ofText name) ∧
      ∀ post, parts? (label ++ post) = (parts? post).map (part :: .mark ':' :: ·) := by
  have hcolon {before after : Text} (hbefore : Blanks before) (hafter : Blanks after)
      (post : Text) : parts? (before ++ ':' :: after ++ post) =
        (parts? post).map (.mark ':' :: ·) := by
    rw [List.append_assoc, parts?_blanks hbefore, List.cons_append, parts?_mark_cons rfl,
      parts?_blanks hafter]
  cases h with
  | @bare before after hname hbefore hafter =>
      refine ⟨.word name, rfl, fun post => ?_⟩
      have hbreaks : Breaks (before ++ ':' :: after ++ post) := by
        rw [List.append_assoc]
        exact breaks_blanks hbefore (breaks_cons (by decide))
      obtain ⟨hne, hword⟩ := bare_iff.mp hname
      rw [List.append_assoc, parts?_word_append hne (List.all_eq_true.mp hword) hbreaks,
        hcolon hbefore hafter, Option.map_map]
      rfl
  | @quoted quote before after hquote hbefore hafter =>
      refine ⟨.quoted name, rfl, fun post => ?_⟩
      rw [List.append_assoc, parts?_quoted hquote, hcolon hbefore hafter, Option.map_map]
      rfl

/-- A text splits into parts, if nothing that goes on with its last word follows it. -/
def Splits (cs : Text) (ps : List Part) : Prop :=
  ∀ post, Breaks post → parts? (cs ++ post) = (parts? post).map (ps ++ ·)

theorem splits_word {word : Text} (hne : word ≠ []) (hword : word.all isWordPart = true) :
    Splits word [.word word] :=
  fun _ hpost => parts?_word_append hne (List.all_eq_true.mp hword) hpost

/-- What stands between two brackets. -/
theorem Splits.bracket {opening closing : Char} {before inside after : Text} {ps : List Part}
    (h : Splits inside ps) (hopening : isMark opening = true) (hclosing : isMark closing = true)
    (hbefore : Blanks before) (hafter : Blanks after) :
    Splits (opening :: (before ++ (inside ++ (after ++ [closing]))))
      (.mark opening :: (ps ++ [.mark closing])) := by
  intro post hpost
  have hbreaks : Breaks (after ++ (closing :: post)) :=
    breaks_blanks hafter (breaks_cons (by simp [isWordPart, hclosing]))
  simp only [List.cons_append, List.append_assoc, List.nil_append]
  rw [parts?_mark_cons hopening, parts?_blanks hbefore, h _ hbreaks, parts?_blanks hafter,
    parts?_mark_cons hclosing]
  simp [Function.comp_def]

theorem Splits.separated {front gap back : Text} {ps qs : List Part} (h : Splits front ps)
    (hgap : Separator gap) (h' : Splits back qs) :
    Splits (front ++ (gap ++ back))
      (ps ++ (List.replicate (gap.count ',') (.mark ',') ++ qs)) := by
  intro post hpost
  rw [List.append_assoc, List.append_assoc, h _ (hgap.breaks _), hgap.parts?, h' post hpost]
  simp [Function.comp_def]

theorem Splits.labelled {label text : Text} {part : Part} {ps : List Part}
    (hlabel : ∀ post, parts? (label ++ post) = (parts? post).map (part :: .mark ':' :: ·))
    (h : Splits text ps) : Splits (label ++ text) (part :: .mark ':' :: ps) := by
  intro post hpost
  rw [List.append_assoc, hlabel, h post hpost, Option.map_map]
  rfl

/-- A written text splits into parts that the grammar derives. -/
theorem Writes.exists_parts {depth : Nat} {phrase : Phrase} {text : Text}
    (h : Writes depth phrase text) : ∃ ps, Derives depth phrase ps ∧ Splits text ps := by
  induction h with
  | null => exact ⟨_, .word rfl, splits_word (by decide) (by decide)⟩
  | boolean b => cases b <;> exact ⟨_, .word rfl, splits_word (by decide) (by decide)⟩
  | integer minus ds hds =>
      have hne : integerText minus ds ≠ [] := by simp [integerText, ds.property]
      exact ⟨_, .word (wordValue?_integer minus ds hds),
        splits_word hne (List.all_eq_true.mpr isWordPart_of_mem_integerText)⟩
  | string hquote cs => exact ⟨_, .quoted cs, fun post _ => parts?_quoted hquote cs post⟩
  | severity hname =>
      simp only [List.mem_cons, List.not_mem_nil, or_false] at hname
      rcases hname with rfl | rfl | rfl <;>
        exact ⟨_, .word rfl, splits_word (by decide) (by decide)⟩
  | list hbefore hinside hafter ih =>
      obtain ⟨ps, hderives, hsplits⟩ := ih
      exact ⟨_, .list hderives, hsplits.bracket rfl rfl hbefore hafter⟩
  | map hbefore hinside hafter hkeys ih =>
      obtain ⟨ps, hderives, hsplits⟩ := ih
      -- no key is overwritten, so the map has its members as they are written
      have hmap := Derives.map hderives
      rw [Pairs.ofList_of_nodup hkeys] at hmap
      exact ⟨_, hmap, hsplits.bracket rfl rfl hbefore hafter⟩
  | noItems => exact ⟨_, .noItems, fun post _ => by simp⟩
  | lastItem hvalue ih =>
      obtain ⟨ps, hderives, hsplits⟩ := ih
      have hitem := Derives.item hderives .noItems
      rw [List.append_nil] at hitem
      exact ⟨ps, hitem, hsplits⟩
  | item hvalue hgap hrest ih ih' =>
      obtain ⟨ps, hderives, hsplits⟩ := ih
      obtain ⟨qs, hothers, hsplits'⟩ := ih'
      have hparts := hsplits.separated hgap hsplits'
      exact ⟨_, .item hderives (hothers.itemCommas _), hparts⟩
  | noMembers => exact ⟨_, .noMembers, fun post _ => by simp⟩
  | lastMember hlabel hvalue ih =>
      obtain ⟨ps, hderives, hsplits⟩ := ih
      obtain ⟨part, hname, hparts⟩ := hlabel.exists_part
      have hmember := Derives.member hname hderives .noMembers
      rw [List.append_nil] at hmember
      exact ⟨_, hmember, hsplits.labelled hparts⟩
  | member hlabel hvalue hgap hrest ih ih' =>
      obtain ⟨ps, hderives, hsplits⟩ := ih
      obtain ⟨qs, hothers, hsplits'⟩ := ih'
      obtain ⟨part, hname, hparts⟩ := hlabel.exists_part
      have hall := (hsplits.separated hgap hsplits').labelled hparts
      exact ⟨_, .member hname hderives (hothers.memberCommas _), hall⟩

/-! ## Reading back -/

theorem isSeverity_of_mem {v : Datum} (h : v ∈ severities) : isSeverity v = true := by
  simp only [severities, List.map_cons, List.map_nil, List.cons_append, List.nil_append,
    List.mem_cons, List.not_mem_nil, or_false] at h
  rcases h with rfl | rfl | rfl | rfl | rfl | rfl <;> rfl

theorem Entry.isSetting {v : Datum} (h : Entry v) : isSetting v = true := by
  cases h with
  | options hv vs => exact isSeverity_of_mem hv
  | severity hv =>
      have hseverity := isSeverity_of_mem hv
      cases v with
      | list items => cases hseverity
      | null | bool | number | text | map => exact hseverity

/-- The blanks around what is written are no parts of it. -/
theorem Splits.parts?_eq {text before after : Text} {ps : List Part} (h : Splits text ps)
    (hbefore : Blanks before) (hafter : Blanks after) :
    parts? (before ++ (text ++ after)) = some ps := by
  have hnone : parts? after = some [] := by
    rw [← List.append_nil after, parts?_blanks hafter, parts?]
  have hbreaks : Breaks after := by
    rw [← List.append_nil after]
    exact breaks_blanks hafter breaks_nil
  rw [parts?_blanks hbefore, h after hbreaks, hnone, Option.map_some, List.append_nil]

theorem Written.lenient?_eq {settings : Settings} {text : Text} (h : Written settings text)
    (hkeys : (settings.map Prod.fst).Nodup) : lenient? text = some settings := by
  cases h with
  | bare hbefore hinside hafter =>
      obtain ⟨ps, hderives, hsplits⟩ := hinside.exists_parts
      rw [lenient?, hsplits.parts?_eq hbefore hafter, Option.bind_some,
        (ofParts?_of_derives hderives).1, Pairs.ofList_of_nodup hkeys]
  | @braced front before inside after back hfront hbefore hinside hafter hback =>
      obtain ⟨ps, hderives, hsplits⟩ := hinside.exists_parts
      have hbraces : Splits ('\x7b' :: (before ++ (inside ++ (after ++ ['\x7d'])))) _ :=
        hsplits.bracket rfl rfl hbefore hafter
      have hparts := hbraces.parts?_eq hfront hback
      simp only [List.cons_append, List.append_assoc, List.nil_append] at hparts
      rw [lenient?, hparts, Option.bind_some, (ofParts?_of_derives hderives).2,
        Pairs.ofList_of_nodup hkeys]

/-- Every way of writing settings of rules is read back as exactly these settings, in their
order; the lenient reading finds them, so the strict one needs no room. -/
theorem read_written {settings : Settings} {text : Text}
    (hkeys : (settings.map Prod.fst).Nodup) (hentries : ∀ e ∈ settings, Entry e.2)
    (h : Written settings text) (depth : Nat) : read text depth = .ok (.ok settings) := by
  have hset : allSet settings = true :=
    List.all_eq_true.mpr fun e he => (hentries e he).isSetting
  rw [read, h.lenient?_eq hkeys, Option.filter_some, if_pos hset]

/-- Two rules between braces: one with a bare severity, and one with a name in quotes, a number and
a map with a quote in it. -/
theorem read_written_braced :
    let settings : Settings :=
      [(CodePoint.ofText ['a'], .text (CodePoint.ofText "warn".toList)),
       (CodePoint.ofText ['b', ' '],
        .list [.number (.int 2),
          .map [(CodePoint.ofText ['k'], .text (CodePoint.ofText ['\'']))]])]
    let text := "\x7ba:warn ,'b ': [02\n\x7bk:'\\''\x7d]\x7d".toList
    Written settings text ∧ read text 0 = .ok (.ok settings) := by
  intro settings text
  have hblank : Blanks [] := by decide
  have hquote := @Writes.string 98 '\'' (by decide) ['\'']
  have hoption := Writes.lastMember (@Labels.bare ['k'] [] [] (by decide) hblank hblank) hquote
  have hmap := @Writes.map _ _ [] _ [] hblank hoption hblank (by simp)
  have hnumber : Writes 99 (.value (.number (.int 2))) ['0', '2'] :=
    .integer false ⟨[⟨'0', by decide⟩, ⟨'2', by decide⟩], by simp⟩ (by simp)
  have hitems := Writes.item hnumber (show Separator ['\n'] by decide) (.lastItem hmap)
  have hlist := @Writes.list _ _ [] _ [] hblank hitems hblank
  have hwarn : Writes 100 (.value (.text (CodePoint.ofText "warn".toList))) "warn".toList :=
    .severity (by simp)
  have hmembers := Writes.member (@Labels.bare ['a'] [] [] (by decide) hblank hblank) hwarn
    (show Separator [' ', ','] by decide)
    (.lastMember (@Labels.quoted ['b', ' '] '\'' [] [' '] (by decide) hblank (by decide)) hlist)
  have hwritten : Written settings text :=
    @Written.braced settings [] [] _ [] [] hblank hblank hmembers hblank hblank
  refine ⟨hwritten, read_written (by decide) ?_ hwritten 0⟩
  simp only [settings, List.forall_mem_cons]
  exact ⟨.severity (by simp [severities]), .options (by simp [severities]) _, by simp⟩

end LocatedJson.Rules
