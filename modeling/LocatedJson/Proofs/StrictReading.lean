import LocatedJson.Datum.Json
import LocatedJson.Proofs.Literals

/-!
# What strict readers leave

A reader of strict JSON takes the front of a text and hands on the rest. The
rest is always the end of what the reader was given (`Reads`). So where one
stops for a number without a value, the digits of that number stand in the
text that all readers together were given, in a row and too many of them
(`stops_read`).
-/

namespace LocatedJson

open LocatedJson.Text LocatedJson.Numeral

/-- A run of so many digits in a text, and these are too many for an integer. -/
def DigitRun (cs : Text) (count : Nat) : Prop :=
  maxDecimalDigits < count ∧
    ∃ run, run <:+: cs ∧ run.length = count ∧ ∀ c ∈ run, isAsciiDigit c = true

theorem DigitRun.of_infix {cs cs' : Text} {count : Nat} (h : DigitRun cs count)
    (hcs : cs <:+: cs') : DigitRun cs' count := by
  obtain ⟨hlong, run, hrun, hlength, hdigits⟩ := h
  exact ⟨hlong, run, hrun.trans hcs, hlength, hdigits⟩

/-! ## Strict readers -/

namespace Json

variable {α β : Type} {cs cs' : Text}

/-- A reader stops for the value of a number only if that has too many digits. -/
def Stops (cs : Text) (failure : Failure) : Prop :=
  ∀ cause, failure = .unconvertible cause →
    ∃ count, cause = .tooManyDigits count ∧ DigitRun cs count

/-- What a reader leaves is the end of what it was given. -/
def Reads (cs : Text) : Except Failure (α × Text) → Prop
  | .ok (_, after) => after <:+ cs
  | .error failure => Stops cs failure

theorem stops_malformed (cause : Cause) (rest : Text) : Stops cs (.malformed cause rest) :=
  fun _ h => nomatch h

theorem stops_tooDeep (form : Form) : Stops cs (.tooDeep form) := fun _ h => nomatch h

theorem Stops.mono {failure : Failure} (h : Stops cs failure) (hcs : cs <:+ cs') :
    Stops cs' failure := by
  intro cause hcause
  obtain ⟨count, hcount, hrun⟩ := h cause hcause
  exact ⟨count, hcount, hrun.of_infix hcs.isInfix⟩

theorem Reads.mono {x : Except Failure (α × Text)} (h : Reads cs x) (hcs : cs <:+ cs') :
    Reads cs' x := by
  cases x with
  | ok found => exact List.IsSuffix.trans h hcs
  | error failure => exact Stops.mono h hcs

theorem Reads.map {x : Except Failure (α × Text)} (h : Reads cs x) (f : α → β) :
    Reads cs (x.map fun (a, after) => (f a, after)) := by
  cases x with
  | ok found => exact h
  | error failure => exact h

theorem skipSpace_suffix (cs : Text) : skipSpace cs <:+ cs := List.dropWhile_suffix isSpace

theorem suffix_of_skipSpace {c : Char} {after : Text} (h : skipSpace cs = c :: after) :
    after <:+ cs :=
  (List.suffix_cons c after).trans (h ▸ skipSpace_suffix cs)

/-- A piece of a string is malformed or has a value. -/
theorem stops_piece {opened rest : Text} {c : Char} {failure : Failure}
    (h : piece opened c rest = .error failure) : Stops cs failure := by
  rintro cause rfl
  unfold piece unicodePiece at h
  repeat' split at h
  all_goals cases h

theorem reads_stringTail (opened cs : Text) : Reads cs (stringTail opened cs) := by
  fun_induction stringTail opened cs with
  | case1 => exact stops_malformed _ _
  | case2 rest => exact List.suffix_cons '"' rest
  | case3 c rest hquote failure hpiece => exact stops_piece hpiece
  | case4 c rest hquote p hpiece failure htail ih =>
      rw [htail] at ih
      exact Stops.mono ih ((List.drop_suffix _ rest).trans (List.suffix_cons c rest))
  | case5 c rest hquote p hpiece later after htail ih =>
      rw [htail] at ih
      exact List.IsSuffix.trans ih ((List.drop_suffix _ rest).trans (List.suffix_cons c rest))

/-- The digits of a literal that is too long stand in the text. -/
theorem digitRun_of_overlong {size count : Nat} (h : Overlong isAsciiDigit (cs.take size) count) :
    DigitRun cs count := by
  obtain ⟨hlong, hlength, hdigits⟩ := h
  refine ⟨hlong, _, ?_, hlength, hdigits⟩
  exact (List.dropWhile_suffix _).isInfix.trans (List.take_prefix size cs).isInfix

theorem reads_scalar (cs : Text) : Reads cs (scalar cs) := by
  unfold scalar
  split
  · rename_i found hword
    obtain ⟨⟨w, value⟩, -, rfl⟩ := Option.map_eq_some_iff.mp hword
    exact List.drop_suffix _ cs
  · dsimp only
    split
    · exact stops_malformed _ _
    · rename_i hsize
      split
      · exact List.drop_suffix _ cs
      · rename_i cause hvalue
        have hliteral := literal_strictSize digitClass_isAsciiDigit hsize
        rw [literalValue_eq_error_iff digitClass_isAsciiDigit hliteral] at hvalue
        obtain ⟨count, rfl, hlong⟩ := hvalue
        rintro _ ⟨⟩
        exact ⟨count, rfl, digitRun_of_overlong hlong⟩

mutual

theorem reads_valueWithin (bound depth : Nat) (cs : Text) :
    Reads cs (valueWithin bound depth cs) := by
  match bound, cs with
  | 0, cs => exact stops_malformed _ _
  | bound + 1, [] => exact stops_malformed _ _
  | bound + 1, c :: rest =>
      have hrest := List.suffix_cons c rest
      unfold valueWithin
      split
      · exact ((reads_stringTail _ rest).map _).mono hrest
      · split
        · split
          · exact stops_tooDeep _
          · split
            · rename_i hskip
              exact (suffix_of_skipSpace hskip).trans hrest
            · refine ((reads_membersWithin bound _ [] _).map _).mono ?_
              exact (skipSpace_suffix rest).trans hrest
        · split
          · split
            · exact stops_tooDeep _
            · split
              · rename_i hskip
                exact (suffix_of_skipSpace hskip).trans hrest
              · refine ((reads_itemsWithin bound _ _).map _).mono ?_
                exact (skipSpace_suffix rest).trans hrest
          · exact reads_scalar (c :: rest)

theorem reads_membersWithin (bound depth : Nat) (entries : List (List CodePoint × Datum))
    (cs : Text) : Reads cs (membersWithin bound depth entries cs) := by
  match bound with
  | 0 => exact stops_malformed _ _
  | bound + 1 =>
      unfold membersWithin
      split
      · rename_i rest
        have hname := (reads_stringTail ('"' :: rest) rest).mono (List.suffix_cons '"' rest)
        split
        · rename_i failure htail
          rw [htail] at hname
          exact hname
        · rename_i name after htail
          rw [htail] at hname
          split
          · rename_i after' hskip
            have hvalue := (reads_valueWithin bound depth (skipSpace after')).mono
              ((skipSpace_suffix after').trans ((suffix_of_skipSpace hskip).trans hname))
            split
            · rename_i failure hfailure
              rw [hfailure] at hvalue
              exact hvalue
            · rename_i value after'' hfound
              rw [hfound] at hvalue
              split
              · rename_i hskip'
                exact (suffix_of_skipSpace hskip').trans hvalue
              · rename_i hskip'
                refine (reads_membersWithin bound depth _ _).mono ?_
                exact (skipSpace_suffix _).trans ((suffix_of_skipSpace hskip').trans hvalue)
              · exact stops_malformed _ _
          · exact stops_malformed _ _
      · exact stops_malformed _ _

theorem reads_itemsWithin (bound depth : Nat) (cs : Text) :
    Reads cs (itemsWithin bound depth cs) := by
  match bound with
  | 0 => exact stops_malformed _ _
  | bound + 1 =>
      unfold itemsWithin
      have hvalue := reads_valueWithin bound depth cs
      split
      · rename_i failure hfailure
        rw [hfailure] at hvalue
        exact hvalue
      · rename_i value after hfound
        rw [hfound] at hvalue
        split
        · rename_i hskip
          exact (suffix_of_skipSpace hskip).trans hvalue
        · rename_i hskip
          refine ((reads_itemsWithin bound depth _).map _).mono ?_
          exact (skipSpace_suffix _).trans ((suffix_of_skipSpace hskip).trans hvalue)
        · exact stops_malformed _ _

end

/-- A text without too many digits in a row is read, or found not to be strict JSON. -/
theorem stops_read {maxDepth : Nat} {failure : Failure} (h : read maxDepth cs = .error failure) :
    Stops cs failure := by
  have hvalue := (reads_valueWithin (boundFor cs.length) maxDepth (skipSpace cs)).mono
    (skipSpace_suffix cs)
  unfold read at h
  split at h
  · rename_i failure' hfailure
    rw [hfailure] at hvalue
    cases h
    exact hvalue
  · split at h
    · cases h
    · cases h
      exact stops_malformed _ _

end Json

end LocatedJson
