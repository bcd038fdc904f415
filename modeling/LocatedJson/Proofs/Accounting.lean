import LocatedJson.Proofs.Comments
import LocatedJson.Proofs.History

/-!
# Every inline comment counts once

Two questions of a lint engine are answered from the inline comments: what
switches rules, and what sets them. Each answer passes over the comments that
it has no use for. `Accounts` says for each comment alone what it contributes:
a setting or a problem with one, a directive or a problem with one. The four
lists of the two answers are these contributions in the order of the comments
(`Session.ask_accounts`), so no comment is lost or counted twice, and what one
of them contributes does not depend on the others.
-/

namespace LocatedJson

open LocatedJson.Text LocatedJson.Directive

/-- What a comment contributes to the answers about a file. -/
inductive Yield where
  | directive (d : Directive)
  | directiveProblem (p : Problem)
  | setting (s : RuleSetting)
  | settingProblem (p : Problem)

namespace Yield

def directive? : Yield → Option Directive
  | directive d => some d
  | _ => none

def directiveProblem? : Yield → Option Problem
  | directiveProblem p => some p
  | _ => none

def setting? : Yield → Option RuleSetting
  | setting s => some s
  | _ => none

def settingProblem? : Yield → Option Problem
  | settingProblem p => some p
  | _ => none

end Yield

/-- What an inline comment contributes if its settings are read with some room for brackets. A
directive for its own line must not have a line end in its comment. -/
inductive Accounts (depth : Nat) (e : InlineComment) : Yield → Prop
  | setting {rules : Rules.Settings} (hlabel : e.comment.label.text = "eslint")
      (hread : Rules.read e.comment.value depth = .ok (.ok rules)) :
      Accounts depth e (.setting ⟨rules, e.token.extent.span⟩)
  | settingProblem {rejection : Rules.Rejection} (hlabel : e.comment.label.text = "eslint")
      (hread : Rules.read e.comment.value depth = .ok (.error rejection)) :
      Accounts depth e (.settingProblem ⟨rejection.message, e.token.extent.span⟩)
  | lineProblem (hlabel : e.comment.label.text = "eslint-disable-line")
      (hlines : ∃ c ∈ e.token.text, isLineEnd c = true) :
      Accounts depth e (.directiveProblem
        ⟨"eslint-disable-line comment should not span multiple lines.", e.token.extent.span⟩)
  | directive {scope : Scope} (hlabel : e.comment.label.text = "eslint-" ++ scope.name)
      (hlines : scope = .disableLine → ∀ c ∈ e.token.text, isLineEnd c = false) :
      Accounts depth e
        (.directive ⟨scope, e.index, e.comment.value, e.comment.justification⟩)

/-! ## One comment -/

namespace Directive.Scope

theorem label_ne (scope : Scope) : "eslint" ≠ "eslint-" ++ scope.name := by
  cases scope <;> decide

theorem label_inj {scope scope' : Scope} (h : "eslint-" ++ scope.name = "eslint-" ++ scope'.name) :
    scope = scope' := by
  revert h
  cases scope <;> cases scope' <;> decide

end Directive.Scope

variable {depth : Nat} {b : Bearer} {e : InlineComment} {y y' : Yield}

/-- A comment contributes one thing: its label decides between settings and directives, its value
between a setting and a problem, and its line ends between a directive and a problem. -/
theorem Accounts.unique (h : Accounts depth e y) (h' : Accounts depth e y') : y = y' := by
  cases h with
  | setting hlabel hread | settingProblem hlabel hread =>
      cases h' with
      | setting hlabel' hread' | settingProblem hlabel' hread' =>
          cases hread.symm.trans hread' <;> rfl
      | lineProblem hlabel' hlines' => exact absurd (hlabel.symm.trans hlabel') (by decide)
      | directive hlabel' hlines' => exact absurd (hlabel.symm.trans hlabel') (Scope.label_ne _)
  | lineProblem hlabel hlines =>
      cases h' with
      | setting hlabel' hread' | settingProblem hlabel' hread' =>
          exact absurd (hlabel.symm.trans hlabel') (by decide)
      | lineProblem hlabel' hlines' => rfl
      | directive hlabel' hlines' =>
          obtain ⟨c, hc, hend⟩ := hlines
          have hscope := @Scope.label_inj _ .disableLine (hlabel'.symm.trans hlabel)
          cases hend.symm.trans (hlines' hscope c hc)
  | directive hlabel hlines =>
      cases h' with
      | setting hlabel' hread' | settingProblem hlabel' hread' =>
          exact absurd (hlabel'.symm.trans hlabel) (Scope.label_ne _)
      | lineProblem hlabel' hlines' =>
          obtain ⟨c, hc, hend⟩ := hlines'
          have hscope := @Scope.label_inj _ .disableLine (hlabel.symm.trans hlabel')
          cases hend.symm.trans (hlines hscope c hc)
      | directive hlabel' hlines' =>
          cases Scope.label_inj (hlabel.symm.trans hlabel')
          rfl

/-- What the two answers have of a comment is what it contributes. -/
structure Shares (b : Bearer) (found : RuleSetting.Found) (y : Yield) : Prop where
  directives : (Directive.ofBearer b).directives = y.directive?.toList
  directiveProblems : (Directive.ofBearer b).problems = y.directiveProblem?.toList
  settings : found.settings = y.setting?.toList
  settingProblems : found.problems = y.settingProblem?.toList

/-- A comment for settings contributes to the settings alone. -/
theorem Bears.exists_setting (h : Bears b e) (hlabel : e.comment.label = .settings)
    {found : RuleSetting.Found} (hset : RuleSetting.ofBearer depth b = .ok found) :
    ∃ y, Accounts depth e y ∧ Shares b found y := by
  have hnothing : Directive.ofBearer b = {} := by
    simp [Directive.ofBearer, h.comment, hlabel, Label.scope?]
  have htext : e.comment.label.text = "eslint" := by rw [hlabel]; rfl
  simp only [RuleSetting.ofBearer, h.comment, hlabel, if_true, h.span] at hset
  cases hread : Rules.read e.comment.value depth with
  | error cause =>
      rw [hread] at hset
      cases hset
  | ok outcome =>
      rw [hread] at hset
      cases outcome with
      | ok rules =>
          cases hset
          exact ⟨_, .setting htext hread, by rw [hnothing]; rfl, by rw [hnothing]; rfl, rfl, rfl⟩
      | error rejection =>
          cases hset
          exact ⟨_, .settingProblem htext hread, by rw [hnothing]; rfl, by rw [hnothing]; rfl, rfl,
            rfl⟩

/-- A comment that switches rules contributes to the directives alone. -/
theorem Bears.exists_directive (h : Bears b e) {scope : Scope}
    (hscope : e.comment.label.scope? = some scope) {found : RuleSetting.Found}
    (hset : RuleSetting.ofBearer depth b = .ok found) :
    ∃ y, Accounts depth e y ∧ Shares b found y := by
  obtain ⟨hname, hne, hline⟩ : e.comment.label.text = "eslint-" ++ scope.name ∧
      e.comment.label ≠ .settings ∧ (e.comment.label = .disableLine ↔ scope = .disableLine) := by
    revert hscope
    cases e.comment.label <;> cases scope <;> decide
  obtain rfl : found = {} := by
    simp only [RuleSetting.ofBearer, h.comment, if_neg hne] at hset
    cases hset
    rfl
  by_cases hlines : e.comment.label = .disableLine ∧ b.span.isMultiline = true
  · have hproblem : (Directive.ofBearer b).directives = [] ∧ (Directive.ofBearer b).problems =
        [⟨e.comment.label.text ++ " comment should not span multiple lines.", b.span⟩] := by
      simp only [Directive.ofBearer, h.comment, if_pos hlines, and_self]
    obtain ⟨hlabel, hmultiline⟩ := hlines
    rw [hlabel, h.span] at hproblem
    refine ⟨_, .lineProblem (by rw [hlabel]; rfl) (h.multiline.mp hmultiline), hproblem.1, ?_, rfl,
      rfl⟩
    exact hproblem.2
  · have hdirective : (Directive.ofBearer b).problems = [] ∧ (Directive.ofBearer b).directives =
        [⟨scope, e.index, e.comment.value, e.comment.justification⟩] := by
      simp only [Directive.ofBearer, h.comment, if_neg hlines, hscope, h.index, and_self]
    refine ⟨_, .directive hname fun hdisable c hc => ?_, hdirective.2, hdirective.1, rfl, rfl⟩
    rw [← hline] at hdisable
    by_contra hend
    rw [Bool.not_eq_false] at hend
    exact hlines ⟨hdisable, h.multiline.mpr ⟨c, hc, hend⟩⟩

/-- Each comment contributes one thing, if its settings can be read. -/
theorem Bears.exists_accounts (h : Bears b e) {found : RuleSetting.Found}
    (hset : RuleSetting.ofBearer depth b = .ok found) :
    ∃ y, Accounts depth e y ∧ Shares b found y := by
  obtain hlabel | ⟨scope, hscope⟩ :
      e.comment.label = .settings ∨ ∃ scope, e.comment.label.scope? = some scope := by
    have hlabel := h.label
    revert hlabel
    cases e.comment.label <;> simp [Label.scope?] <;> decide
  · exact h.exists_setting hlabel hset
  · exact h.exists_directive hscope hset

/-! ## All comments -/

variable {bs : List Bearer} {es : List InlineComment}

theorem RuleSetting.ofBearers_cons {found : Found}
    (h : RuleSetting.ofBearers (b :: bs) depth = .ok found) :
    ∃ first rest, RuleSetting.ofBearer depth b = .ok first ∧
      RuleSetting.ofBearers bs depth = .ok rest ∧ found = first.append rest := by
  rw [RuleSetting.ofBearers] at h
  split at h
  · cases h
  · rename_i first hfirst
    split at h
    · cases h
    · rename_i rest hrest
      cases h
      exact ⟨first, rest, hfirst, hrest, rfl⟩

/-- The four lists of the two answers are what the comments contribute, in their order. -/
theorem exists_yields (h : List.Forall₂ Bears bs es) {found : RuleSetting.Found}
    (hset : RuleSetting.ofBearers bs depth = .ok found) :
    ∃ yields, List.Forall₂ (Accounts depth) es yields ∧
      (Directive.ofBearers bs).directives = yields.filterMap Yield.directive? ∧
      (Directive.ofBearers bs).problems = yields.filterMap Yield.directiveProblem? ∧
      found.settings = yields.filterMap Yield.setting? ∧
      found.problems = yields.filterMap Yield.settingProblem? := by
  induction h generalizing found with
  | nil =>
      cases hset
      exact ⟨[], .nil, rfl, rfl, rfl, rfl⟩
  | @cons b e bs es hb hbs ih =>
      obtain ⟨first, rest, hfirst, hrest, rfl⟩ := RuleSetting.ofBearers_cons hset
      obtain ⟨y, hy, hshares⟩ := hb.exists_accounts hfirst
      obtain ⟨yields, hyields, hdirectives, hproblems, hsettings, hsettingProblems⟩ := ih hrest
      have hsplit : ∀ {α : Type} (f : Yield → Option α),
          (y :: yields).filterMap f = (f y).toList ++ yields.filterMap f := by
        intro α f
        cases hf : f y <;> simp [hf]
      simp only [Directive.ofBearers, List.map_cons, List.flatMap_cons] at hdirectives hproblems ⊢
      refine ⟨y :: yields, .cons hy hyields, ?_, ?_, ?_, ?_⟩
      · rw [hsplit, hshares.directives, hdirectives]
      · rw [hsplit, hshares.directiveProblems, hproblems]
      · rw [hsplit, ← hshares.settings, ← hsettings]
        rfl
      · rw [hsplit, ← hshares.settingProblems, ← hsettingProblems]
        rfl

/-- The rule settings that a session answers with are those of the comments of its file. -/
theorem Session.Remembers.ruleSettings_result {file : SourceFile} {earlier : List Query}
    {s : Session} (h : Remembers file earlier s) :
    (s.ask (.ruleSettings depth)).1.result =
      match RuleSetting.ofBearers file.bearers depth with
      | .ok found => .ok (.ruleSettings found)
      | .error (cause, _) => .error (.unconvertible cause) := by
  simp only [ask, h.findBearers_fst]
  cases RuleSetting.ofBearers file.bearers depth <;> rfl

/-- Of a document whose rule settings can be read, after any questions: the inline comments are
those that are asked for, in the order of the text, each of them contributes exactly one thing, and
the directives, the settings and the problems of either are what they contribute, in the same
order. -/
theorem Session.ask_accounts (profile : Profile) (text : Text) (doc : Document)
    (earlier : List Query) (depth : Nat) (found : RuleSetting.Found)
    (hdoc : Document.ofText profile text = .ok doc)
    (hset : ((({ file := .ofDocument text doc } : Session).askAll earlier).ask
      (.ruleSettings depth)).1.result = .ok (.ruleSettings found)) :
    let s := ({ file := .ofDocument text doc } : Session).askAll earlier
    (s.ask .inlineComments).1.result =
      .ok (.numbers (doc.inlineComments.map InlineComment.index)) ∧
    (∀ e ∈ doc.inlineComments, doc.tokens[e.index]? = some e.token) ∧
    (doc.inlineComments.Pairwise fun e e' =>
      e.token.extent.range.stop ≤ e'.token.extent.range.start) ∧
    ∃ directives yields, (s.ask .directives).1.result = .ok (.directives directives) ∧
      List.Forall₂ (fun e y => ∀ y', Accounts depth e y' ↔ y' = y) doc.inlineComments yields ∧
      directives.directives = yields.filterMap Yield.directive? ∧
      directives.problems = yields.filterMap Yield.directiveProblem? ∧
      found.settings = yields.filterMap Yield.setting? ∧
      found.problems = yields.filterMap Yield.settingProblem? := by
  intro s
  have hremembers : Remembers (.ofDocument text doc) earlier s := (Remembers.fresh _).run earlier
  have hbears := Document.bears hdoc
  have hfound : RuleSetting.ofBearers (SourceFile.ofDocument text doc).bearers depth =
      .ok found := by
    change (s.ask (.ruleSettings depth)).1.result = _ at hset
    rw [hremembers.ruleSettings_result] at hset
    split at hset
    · rename_i heq
      cases hset
      exact heq
    · cases hset
  have hindex : (SourceFile.ofDocument text doc).bearers.map Bearer.index =
      doc.inlineComments.map InlineComment.index := by
    rw [← List.forall₂_eq_eq_eq, List.forall₂_map_left_iff, List.forall₂_map_right_iff]
    exact hbears.imp fun b e h => h.index
  obtain ⟨yields, hyields, hlists⟩ := exists_yields hbears hfound
  refine ⟨?_, fun e he => Document.getElem?_of_mem_inlineComments he,
    Document.pairwise_inlineComments hdoc, _, yields, ?_, ?_, hlists⟩
  · simp only [ask, hremembers.findBearers_fst, hindex]
  · simp only [ask, hremembers.findBearers_fst]
  · exact hyields.imp fun e y hy y' => ⟨fun hy' => hy'.unique hy, fun heq => heq ▸ hy⟩

/-- A comment that sets a rule, a directive for its own line that goes on to the next one, and a
directive with a justification: three comments, and each of them counts once. -/
theorem Session.ask_accounts_comments :
    ∃ (doc : Document) (found : RuleSetting.Found) (directives : Directive.Found)
      (yields : List Yield),
      Document.ofText ⟨.jsonc, {}, false⟩
        "/* eslint a: 2 */ /* eslint-disable-line\n*/ 1 // eslint-enable b -- c".toList = .ok doc ∧
      doc.inlineComments.map InlineComment.index = [0, 1, 3] ∧
      List.Forall₂ (fun e y => ∀ y', Accounts 1 e y' ↔ y' = y) doc.inlineComments yields ∧
      directives.directives = yields.filterMap Yield.directive? ∧
      directives.problems = yields.filterMap Yield.directiveProblem? ∧
      found.settings = yields.filterMap Yield.setting? ∧
      found.problems = yields.filterMap Yield.settingProblem? := by
  generalize htext :
    "/* eslint a: 2 */ /* eslint-disable-line\n*/ 1 // eslint-enable b -- c".toList = text
  have hcheck : (Document.ofText ⟨.jsonc, {}, false⟩ text).toOption.any (fun doc =>
      doc.inlineComments.map InlineComment.index == [0, 1, 3] &&
        (RuleSetting.ofBearers (SourceFile.ofDocument text doc).bearers 1).toBool) = true := by
    rw [← htext]
    decide +kernel
  obtain ⟨doc, hdoc, hdoc'⟩ := Document.exists_of_any hcheck
  obtain ⟨hindex, hread⟩ := Bool.and_eq_true_iff.mp hdoc'
  cases hset : RuleSetting.ofBearers (SourceFile.ofDocument text doc).bearers 1 with
  | error fault =>
      rw [hset] at hread
      cases hread
  | ok found =>
      have hresult : ((({ file := .ofDocument text doc } : Session).askAll []).ask
          (.ruleSettings 1)).1.result = .ok (.ruleSettings found) := by
        rw [((Remembers.fresh (.ofDocument text doc)).run []).ruleSettings_result, hset]
      obtain ⟨-, -, -, directives, yields, -, hyields, hlists⟩ :=
        Session.ask_accounts _ text doc [] 1 found hdoc hresult
      exact ⟨doc, found, directives, yields, hdoc, by simpa using hindex, hyields, hlists⟩

end LocatedJson
