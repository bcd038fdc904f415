import LocatedJson.Session

/-!
# Answers do not depend on the history

A session keeps what it has found, but nothing of that shows: after any
questions it answers the next one as it would have done at once. The
exceptions are meant to be exceptions: parents and ancestors are known once
the walk was asked for, a replay goes on where it was left, and what was found
before is not logged again (`Session.ask_askAll`).

The invariant is that whatever a session keeps is what its file determines,
and that it keeps the walk and the comments that bear directives if and only
if they were asked for (`Session.Remembers`).
-/

namespace LocatedJson

namespace Query

/-- Whether the walk has to be taken for the answer. -/
def needsWalk : Query → Bool
  | .walk | .startReplay _ => true
  | _ => false

/-- Whether the comments that bear directives have to be found for the answer. -/
def needsBearers : Query → Bool
  | .inlineComments | .directives | .ruleSettings _ => true
  | _ => false

/-- Whether the answer shows if the walk was taken before. -/
def showsWalk : Query → Bool
  | .cached | .parent _ | .ancestors _ => true
  | _ => false

end Query

/-- How many steps of a replay are behind it after one more question; nothing if it was not
started. -/
def countPlayed (name : String) (count : Option Nat) : Query → Option Nat
  | .startReplay other => if other = name then some 0 else count
  | .nextStep other => if other = name then count.map (· + 1) else count
  | _ => count

/-- How many steps of a replay were asked for since it was last started, if it was. -/
def played (name : String) (queries : List Query) : Option Nat :=
  queries.foldl (countPlayed name) none

/-- What is logged about the comments of a file whenever a question is asked. -/
def SourceFile.rejections (f : SourceFile) : Query → List String
  | .directives => (Directive.ofBearers f.bearers).log
  | .ruleSettings depth =>
    match RuleSetting.ofBearers f.bearers depth with
    | .ok found => found.log
    | .error (_, log) => log
  | _ => []

namespace Session

def askAll (s : Session) (queries : List Query) : Session :=
  queries.foldl (fun s q => (s.ask q).2) s

/-! ## What a question changes -/

/-- What is left of a replay after a question, if the walk has the given steps. -/
def leftAfter (name : String) (steps : List WalkStep) (left : Option (List WalkStep)) :
    Query → Option (List WalkStep)
  | .startReplay other => if other = name then some steps else left
  | .nextStep other => if other = name then left.map List.tail else left
  | _ => left

/-- What a session is like after a question. The lines and where they start may or may not be
found on the way. -/
structure Changes (s : Session) (q : Query) (s' : Session) : Prop where
  file : s'.file = s.file
  walk : s'.walk? = if q.needsWalk then some s.findWalk.1 else s.walk?
  bearers : s'.bearers? = if q.needsBearers then some s.findBearers.1 else s.bearers?
  lines : s'.lines? = s.lines? ∨ s'.lines? = some s.findLines.1
  lineStarts : s'.lineStarts? = s.lineStarts? ∨ s'.lineStarts? = some s.findLineStarts.1
  replays : ∀ name, Pairs.get? s'.replays name =
    leftAfter name s.findWalk.1.steps (Pairs.get? s.replays name) q

section Changes

variable (s : Session)

theorem changes_self {q : Query} (hwalk : q.needsWalk = false) (hbearers : q.needsBearers = false)
    (hreplays : ∀ name steps left, leftAfter name steps left q = left) : Changes s q s :=
  ⟨rfl, by rw [hwalk]; rfl, by rw [hbearers]; rfl, .inl rfl, .inl rfl,
    fun name => (hreplays name _ _).symm⟩

theorem findWalk_session : s.findWalk.2.2 = { s with walk? := some s.findWalk.1 } := by
  obtain ⟨file, walk?, bearers?, lines?, lineStarts?, replays⟩ := s
  cases walk? <;> rfl

theorem findBearers_session : s.findBearers.2.2 = { s with bearers? := some s.findBearers.1 } := by
  obtain ⟨file, walk?, bearers?, lines?, lineStarts?, replays⟩ := s
  cases bearers? <;> rfl

theorem findLines_session : s.findLines.2 = { s with lines? := some s.findLines.1 } := by
  obtain ⟨file, walk?, bearers?, lines?, lineStarts?, replays⟩ := s
  cases lines? <;> rfl

theorem findLineStarts_session :
    s.findLineStarts.2 = { s with lineStarts? := some s.findLineStarts.1 } := by
  obtain ⟨file, walk?, bearers?, lines?, lineStarts?, replays⟩ := s
  cases lineStarts? <;> rfl

theorem changes_findBearers {q : Query} (hwalk : q.needsWalk = false)
    (hbearers : q.needsBearers = true)
    (hreplays : ∀ name steps left, leftAfter name steps left q = left) :
    Changes s q s.findBearers.2.2 := by
  rw [findBearers_session]
  exact ⟨rfl, by rw [hwalk]; rfl, by rw [hbearers]; rfl, .inl rfl, .inl rfl,
    fun name => (hreplays name _ _).symm⟩

theorem changes_place (index : Coordinate) : Changes s (.place index) (s.place index).2 := by
  rw [place]
  split
  · exact changes_self s rfl rfl fun _ _ _ => rfl
  · rw [findLineStarts_session]
    exact ⟨rfl, rfl, rfl, .inl rfl, .inr rfl, fun _ => rfl⟩

theorem findLines_findLineStarts : s.findLineStarts.2.findLines.1 = s.findLines.1 := by
  rw [findLineStarts_session, findLines, findLines]
  cases s.lines? <;> rfl

theorem changes_index (line column : Coordinate) :
    Changes s (.index line column) (s.index line column).2 := by
  rw [index]
  split
  · exact changes_self s rfl rfl fun _ _ _ => rfl
  · have hstarts : Changes s (.index line column) s.findLineStarts.2 := by
      rw [findLineStarts_session]
      exact ⟨rfl, rfl, rfl, .inl rfl, .inr rfl, fun _ => rfl⟩
    dsimp only
    split
    · exact hstarts
    · rw [findLines_session, findLines_findLineStarts, findLineStarts_session]
      exact ⟨rfl, rfl, rfl, .inr rfl, .inr rfl, fun _ => rfl⟩

theorem ask_nextStep (name : String) :
    s.ask (.nextStep name) =
      (⟨.ok (.step ((Pairs.get? s.replays name).bind List.head?)), []⟩,
        match Pairs.get? s.replays name with
        | some (_ :: rest) => { s with replays := Pairs.put s.replays name rest }
        | _ => s) := by
  rw [ask]
  cases Pairs.get? s.replays name with
  | none => rfl
  | some left => cases left <;> rfl

theorem changes_nextStep (name : String) :
    Changes s (.nextStep name) (s.ask (.nextStep name)).2 := by
  have hafter : ∀ other, leftAfter other s.findWalk.1.steps (Pairs.get? s.replays other)
      (.nextStep name) = if name = other then (Pairs.get? s.replays name).map List.tail
        else Pairs.get? s.replays other := by
    intro other
    rw [leftAfter]
    split
    · subst_vars
      rfl
    · rfl
  -- a replay that was not started or is over stays as it is
  have hstays : (Pairs.get? s.replays name).map List.tail = Pairs.get? s.replays name →
      Changes s (.nextStep name) s := by
    intro hleft
    refine ⟨rfl, rfl, rfl, .inl rfl, .inl rfl, fun other => ?_⟩
    rw [hafter, hleft]
    split
    · subst_vars
      rfl
    · rfl
  rw [ask_nextStep]
  cases hleft : Pairs.get? s.replays name with
  | none => exact hstays (by rw [hleft]; rfl)
  | some left =>
      cases left with
      | nil => exact hstays (by rw [hleft]; rfl)
      | cons step rest =>
          refine ⟨rfl, rfl, rfl, .inl rfl, .inl rfl, fun other => ?_⟩
          rw [hafter, hleft, Pairs.get?_put]
          rfl

/-- What a question changes. -/
theorem changes_ask (q : Query) : Changes s q (s.ask q).2 := by
  cases q with
  | tokens | comments | commentText ref | before ref withComments | after ref withComments
  | cached | parent ref | ancestors ref | children ref | text ref before after | span ref
  | range ref | multiline ref => exact changes_self s rfl rfl fun _ _ _ => rfl
  | inlineComments | directives => exact changes_findBearers s rfl rfl fun _ _ _ => rfl
  | ruleSettings depth =>
      have hsession : (s.ask (.ruleSettings depth)).2 = s.findBearers.2.2 := by
        simp only [ask]
        split <;> rfl
      rw [hsession]
      exact changes_findBearers s rfl rfl fun _ _ _ => rfl
  | walk =>
      simp only [ask, findWalk_session]
      exact ⟨rfl, rfl, rfl, .inl rfl, .inl rfl, fun _ => rfl⟩
  | startReplay name =>
      simp only [ask, findWalk_session]
      exact ⟨rfl, rfl, rfl, .inl rfl, .inl rfl, fun other => Pairs.get?_put _ _ _ _⟩
  | nextStep name => exact changes_nextStep s name
  | lines =>
      simp only [ask, findLines_session]
      exact ⟨rfl, rfl, rfl, .inr rfl, .inl rfl, fun _ => rfl⟩
  | place index => exact changes_place s index
  | index line column => exact changes_index s line column

end Changes

/-! ## What a session remembers -/

/-- The session is about the file, and what it keeps after the questions is what the file
determines. -/
structure Remembers (file : SourceFile) (earlier : List Query) (s : Session) : Prop where
  file_eq : s.file = file
  walk : s.walk? =
    if earlier.any Query.needsWalk then some (Walk.ofOutline file.outline) else none
  bearers : s.bearers? = if earlier.any Query.needsBearers then some file.bearers else none
  lines : s.lines? = none ∨ s.lines? = some (Text.lines file.text)
  lineStarts : s.lineStarts? = none ∨ s.lineStarts? = some (Text.lineStarts file.text)
  replays : ∀ name, Pairs.get? s.replays name =
    (played name earlier).map fun count => (Walk.ofOutline file.outline).steps.drop count

namespace Remembers

variable {file : SourceFile} {earlier : List Query} {s : Session}

theorem fresh (file : SourceFile) : Remembers file [] { file := file } :=
  ⟨rfl, rfl, rfl, .inl rfl, .inl rfl, fun _ => rfl⟩

/-! ### What is found -/

theorem findWalk_fst (h : Remembers file earlier s) :
    s.findWalk.1 = Walk.ofOutline file.outline := by
  rw [findWalk, h.walk, h.file_eq]
  cases earlier.any Query.needsWalk <;> rfl

theorem findWalk_log (h : Remembers file earlier s) :
    s.findWalk.2.1 = if earlier.any Query.needsWalk then []
      else [walkMessage (Walk.ofOutline file.outline).steps.length] := by
  rw [findWalk, h.walk, h.file_eq]
  cases earlier.any Query.needsWalk <;> rfl

theorem findBearers_fst (h : Remembers file earlier s) : s.findBearers.1 = file.bearers := by
  rw [findBearers, h.bearers, h.file_eq]
  cases earlier.any Query.needsBearers <;> rfl

theorem findBearers_log (h : Remembers file earlier s) :
    s.findBearers.2.1 = if earlier.any Query.needsBearers then []
      else [bearersMessage file.bearers.length] := by
  rw [findBearers, h.bearers, h.file_eq]
  cases earlier.any Query.needsBearers <;> rfl

theorem findLines_fst (h : Remembers file earlier s) : s.findLines.1 = Text.lines file.text := by
  rw [findLines, h.file_eq]
  rcases h.lines with hlines | hlines <;> rw [hlines]

theorem findLineStarts_fst (h : Remembers file earlier s) :
    s.findLineStarts.1 = Text.lineStarts file.text := by
  rw [findLineStarts, h.file_eq]
  rcases h.lineStarts with hstarts | hstarts <;> rw [hstarts]

/-! ### One more question -/

theorem leftAfter_eq (name : String) (steps : List WalkStep) (count : Option Nat) (q : Query) :
    leftAfter name steps (count.map fun n => steps.drop n) q =
      (countPlayed name count q).map fun n => steps.drop n := by
  cases q with
  | startReplay other =>
      by_cases hname : other = name <;> simp [leftAfter, countPlayed, hname]
  | nextStep other =>
      by_cases hname : other = name
      · cases count <;> simp [leftAfter, countPlayed, hname]
      · simp [leftAfter, countPlayed, hname]
  | _ => rfl

theorem step (h : Remembers file earlier s) (q : Query) :
    Remembers file (earlier ++ [q]) (s.ask q).2 := by
  have hchanges := changes_ask s q
  refine ⟨hchanges.file.trans h.file_eq, ?_, ?_, ?_, ?_, fun name => ?_⟩
  · rw [hchanges.walk, h.findWalk_fst, h.walk, List.any_append]
    cases earlier.any Query.needsWalk <;> cases hq : q.needsWalk <;> simp [hq]
  · rw [hchanges.bearers, h.findBearers_fst, h.bearers, List.any_append]
    cases earlier.any Query.needsBearers <;> cases hq : q.needsBearers <;> simp [hq]
  · rcases hchanges.lines with hlines | hlines
    · rw [hlines]
      exact h.lines
    · exact .inr (h.findLines_fst ▸ hlines)
  · rcases hchanges.lineStarts with hstarts | hstarts
    · rw [hstarts]
      exact h.lineStarts
    · exact .inr (h.findLineStarts_fst ▸ hstarts)
  · rw [hchanges.replays, h.replays, h.findWalk_fst, leftAfter_eq, played, played,
      List.foldl_append]
    rfl

theorem run (h : Remembers file earlier s) (queries : List Query) :
    Remembers file (earlier ++ queries) (s.askAll queries) := by
  induction queries generalizing earlier s with
  | nil =>
      rw [List.append_nil]
      exact h
  | cons q queries ih =>
      have hrest := ih (h.step q)
      rw [List.append_assoc] at hrest
      exact hrest

/-! ### Answers -/

theorem parent?_node (h : Remembers file earlier s) (id : Nat) :
    s.parent? (.node id) = if earlier.any Query.needsWalk
      then (Walk.ofOutline file.outline).parent? id else none := by
  rw [parent?, h.walk]
  cases earlier.any Query.needsWalk <;> rfl

theorem ancestors_node (h : Remembers file earlier s) (id : Nat) :
    s.ancestors (.node id) = if earlier.any Query.needsWalk
      then (Walk.ofOutline file.outline).ancestors id else [] := by
  rw [ancestors, h.walk]
  cases earlier.any Query.needsWalk <;> rfl

theorem place_fst (h : Remembers file earlier s) (index : Coordinate) :
    (s.place index).1 = Text.locate file.text index := by
  rw [place, Text.locate, h.file_eq]
  cases Text.offsetOf (List.length file.text) index with
  | error fault => rfl
  | ok offset =>
      dsimp only
      rw [h.findLineStarts_fst]
      rfl

theorem index_fst (h : Remembers file earlier s) (line column : Coordinate) :
    (s.index line column).1 = Text.indexOf file.text line column := by
  rw [index, Text.indexOf]
  cases Text.numbersOf line column with
  | error fault => rfl
  | ok numbers =>
      obtain ⟨l, c⟩ := numbers
      dsimp only
      rw [h.findLineStarts_fst, findLines_findLineStarts, h.findLines_fst]
      cases Text.rowOf (Text.lineStarts file.text) line l <;> rfl

/-- Two sessions about the same file give the same answers, unless these show what was asked
before. -/
theorem result_eq {earlier' : List Query} {s' : Session} {q : Query}
    (h : Remembers file earlier s) (h' : Remembers file earlier' s')
    (hreplay : ∀ name, q ≠ .nextStep name) (hwalk : q.showsWalk = true → s.walk? = s'.walk?) :
    (s.ask q).1.result = (s'.ask q).1.result := by
  cases q with
  | tokens | comments => simp only [ask, h.file_eq, h'.file_eq]
  | commentText ref =>
      have hcomment : s.commentText = s'.commentText := by
        funext e
        simp only [commentText, h.file_eq, h'.file_eq]
      simp only [ask, about, h.file_eq, h'.file_eq, hcomment]
  | before ref withComments | after ref withComments | span ref | range ref | multiline ref =>
      simp only [ask, about, h.file_eq, h'.file_eq]
  | inlineComments | directives => simp only [ask, h.findBearers_fst, h'.findBearers_fst]
  | ruleSettings depth =>
      simp only [ask, h.findBearers_fst, h'.findBearers_fst]
      split <;> rfl
  | walk => simp only [ask, h.findWalk_fst, h'.findWalk_fst]
  | startReplay name => rfl
  | nextStep name => exact absurd rfl (hreplay name)
  | cached => simp only [ask, hwalk rfl]
  | parent ref =>
      have hparent : s.parent? ref = s'.parent? ref := by
        cases ref <;> simp only [parent?, hwalk rfl]
      simp only [ask, hparent]
  | ancestors ref =>
      have hancestors : s.ancestors ref = s'.ancestors ref := by
        cases ref <;> simp only [ancestors, hwalk rfl]
      simp only [ask, hancestors]
  | children ref =>
      have hchildren : s.children ref = s'.children ref := by
        cases ref <;> simp only [children, h.file_eq, h'.file_eq]
      simp only [ask, hchildren]
  | lines => simp only [ask, h.findLines_fst, h'.findLines_fst]
  | text ref before after => simp only [ask, text, h.file_eq, h'.file_eq]
  | place index => simp only [ask, h.place_fst, h'.place_fst]
  | index line column => simp only [ask, h.index_fst, h'.index_fst]

theorem nextStep_result (h : Remembers file earlier s) (name : String) :
    (s.ask (.nextStep name)).1.result =
      .ok (.step ((played name earlier).bind fun count =>
        (Walk.ofOutline file.outline).steps[count]?)) := by
  simp only [ask_nextStep, h.replays, Option.bind_map]
  congr 3
  funext count
  exact List.head?_drop

theorem log_eq (h : Remembers file earlier s) (q : Query) :
    (s.ask q).1.log =
      (if q.needsBearers && !earlier.any Query.needsBearers then
        [bearersMessage file.bearers.length] else []) ++
      (if q.needsWalk && !earlier.any Query.needsWalk then
        [walkMessage (Walk.ofOutline file.outline).steps.length] else []) ++
      file.rejections q := by
  cases q with
  | inlineComments =>
      simp only [ask, h.findBearers_log]
      cases earlier.any Query.needsBearers <;> rfl
  | directives =>
      simp only [ask, h.findBearers_log, h.findBearers_fst]
      cases earlier.any Query.needsBearers <;> rfl
  | ruleSettings depth =>
      simp only [ask, h.findBearers_log, h.findBearers_fst, SourceFile.rejections]
      cases RuleSetting.ofBearers file.bearers depth <;>
        cases earlier.any Query.needsBearers <;> rfl
  | walk | startReplay name =>
      simp only [ask, h.findWalk_log]
      cases earlier.any Query.needsWalk <;> rfl
  | nextStep name =>
      rw [ask_nextStep]
      rfl
  | _ => rfl

end Remembers

/-- After any questions a session answers the next one as a fresh session would. What shows
whether the walk was taken is answered as by a session that was asked for the walk, if it was
asked for before. The steps of a replay are those of the walk, from the first one on. The comments
that bear directives and the walk are logged when they are first asked for, and what is wrong with
the comments is logged each time. -/
theorem ask_askAll (file : SourceFile) (earlier : List Query) :
    let fresh : Session := { file := file }
    let s := fresh.askAll earlier
    let walk := Walk.ofOutline file.outline
    let walked := earlier.any Query.needsWalk
    (∀ q, (∀ name, q ≠ .nextStep name) → (s.ask q).1.result =
      ((if q.showsWalk && walked then (fresh.ask .walk).2 else fresh).ask q).1.result) ∧
    (∀ id, (s.ask (.parent (.node id))).1.result =
      .ok (.number (if walked then walk.parent? id else none))) ∧
    (∀ id, (s.ask (.ancestors (.node id))).1.result =
      .ok (.numbers (if walked then walk.ancestors id else []))) ∧
    (∀ name, (s.ask (.nextStep name)).1.result =
      .ok (.step ((played name earlier).bind fun count => walk.steps[count]?))) ∧
    ∀ q, (s.ask q).1.log =
      (if q.needsBearers && !earlier.any Query.needsBearers then
        [bearersMessage file.bearers.length] else []) ++
      (if q.needsWalk && !walked then [walkMessage walk.steps.length] else []) ++
      file.rejections q := by
  intro fresh s walk walked
  have h : Remembers file earlier s := (Remembers.fresh file).run earlier
  refine ⟨fun q hreplay => ?_, fun id => ?_, fun id => ?_, h.nextStep_result, h.log_eq⟩
  · have hwalked : Remembers file [.walk] (fresh.ask .walk).2 := (Remembers.fresh file).step .walk
    cases hback : q.showsWalk && walked with
    | true =>
        obtain ⟨-, hasked⟩ := Bool.and_eq_true_iff.mp hback
        rw [if_pos rfl]
        refine h.result_eq hwalked hreplay fun _ => ?_
        rw [h.walk, hwalked.walk, if_pos hasked]
        rfl
    | false =>
        rw [if_neg Bool.false_ne_true]
        refine h.result_eq (Remembers.fresh file) hreplay fun hshows => ?_
        rw [hshows, Bool.true_and] at hback
        rw [h.walk, if_neg (by rw [Bool.not_eq_true]; exact hback)]
  · simp only [ask, h.parent?_node, walked, walk]
  · simp only [ask, h.ancestors_node, walked, walk]

end Session

end LocatedJson
