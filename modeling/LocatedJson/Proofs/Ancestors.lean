import Mathlib.Data.List.Chain
import Mathlib.Data.List.Sort
import LocatedJson.Proofs.Alignment
import LocatedJson.Proofs.History
import LocatedJson.Proofs.Unfolding

/-!
# Ancestors

The ancestors of a node are found by going from parent to parent. In a tree
they are the nodes that the walk has entered and not yet left when it enters
the node (`Session.ask_ancestors`). Both sides follow the way from the root
to the node: one step further down adds one ancestor
(`Walk.ancestors_of_holds`), and the steps at a node, from the one that
enters it to the one that leaves it, are those at the nodes below it
(`Outline.IsTree.sublist_events_iff`).

The outline of a document is a tree because the entries below a node are
numbered one after the other (`Outline.isTree_ofDocument`).
-/

namespace LocatedJson

open Relation
open scoped List

/-! ## The way up -/

namespace Walk

variable {o : Outline} {p id m : Nat}

/-- In a tree the walk finds the parent of every node that it meets. -/
theorem parent?_of_holds (h : o.IsTree) (hp : ReflTransGen o.Holds 0 p) (hid : o.Holds p id) :
    (ofOutline o).parent? id = some p := by
  cases hparent : (ofOutline o).parent? id with
  | some q =>
      rw [h.unshared.eq_of_holds (holds_of_parent? h.acyclic hparent).1 hid]
  | none =>
      rw [parent?_ofOutline h.acyclic, Option.bind_eq_none_iff] at hparent
      have hevent : (.enter, id) ∈ (o.visit h.acyclic none 0).map WalkStep.event :=
        (Outline.event_mem_visit_iff h.acyclic).mpr (hp.tail hid)
      obtain ⟨s, hs, hsevent⟩ := List.mem_map.mp hevent
      cases hfound : (o.visit h.acyclic none 0).find? (·.event = (.enter, id)) with
      | none => exact absurd (decide_eq_true hsevent) (List.find?_eq_none.mp hfound s hs)
      | some t =>
          have htevent : t.event = (.enter, id) := by simpa using List.find?_some hfound
          rcases Outline.mem_visit h.acyclic (List.mem_of_find?_eq_some hfound) with
            ⟨htarget, -⟩ | ⟨q, hq, -⟩
          · -- only the step into the root names no parent, and the root is not held
            rw [(Prod.mk.inj htevent).2] at htarget
            subst htarget
            exact absurd (TransGen.tail' hp hid) (h.acyclic 0)
          · cases hq.symm.trans (hparent t hfound)

theorem climb_eq_append (h : o.IsTree) (hid : ReflTransGen o.Holds 0 id) (met : List Nat) :
    (ofOutline o).climb met id = (ofOutline o).ancestors id ++ met := by
  induction hid generalizing met with
  | refl =>
      rw [ancestors, climb_eq _ met, climb_eq _ [], parent?_ofOutline_root h.acyclic]
      rfl
  | tail hp hid ih =>
      rw [ancestors, climb_eq _ met, climb_eq _ [], parent?_of_holds h hp hid]
      simp only [ih]
      rw [List.append_assoc]
      rfl

theorem ancestors_root (h : o.IsTree) : (ofOutline o).ancestors 0 = [] := by
  rw [ancestors, climb_eq, parent?_ofOutline_root h.acyclic]

theorem ancestors_of_holds (h : o.IsTree) (hp : ReflTransGen o.Holds 0 p) (hid : o.Holds p id) :
    (ofOutline o).ancestors id = (ofOutline o).ancestors p ++ [p] := by
  rw [ancestors, climb_eq, parent?_of_holds h hp hid]
  exact climb_eq_append h hp [p]

/-- The way up from a node ends after its ancestors. -/
theorem iterate_parent? (h : o.IsTree) (hid : ReflTransGen o.Holds 0 id) :
    (Option.bind · (ofOutline o).parent?)^[((ofOutline o).ancestors id).length + 1] (some id) =
      none := by
  induction hid with
  | refl => rw [ancestors_root h]; exact parent?_ofOutline_root h.acyclic
  | tail hp hid ih =>
      rw [ancestors_of_holds h hp hid, List.length_append, Function.iterate_succ_apply,
        Option.bind_some, parent?_of_holds h hp hid]
      exact ih

theorem mem_ancestors_iff (h : o.IsTree) (hid : ReflTransGen o.Holds 0 id) :
    m ∈ (ofOutline o).ancestors id ↔ ReflTransGen o.Holds 0 m ∧ TransGen o.Holds m id := by
  induction hid with
  | refl =>
      rw [ancestors_root h]
      refine ⟨nofun, fun ⟨hm, hbelow⟩ => ?_⟩
      exact absurd (TransGen.trans_right hm hbelow) (h.acyclic 0)
  | @tail p id hp hid ih =>
      rw [ancestors_of_holds h hp hid, List.mem_append, List.mem_singleton, ih]
      constructor
      · rintro (⟨hm, hbelow⟩ | rfl)
        · exact ⟨hm, hbelow.tail hid⟩
        · exact ⟨hp, .single hid⟩
      · rintro ⟨hm, hbelow⟩
        obtain ⟨q, hbelow, hq⟩ := TransGen.tail'_iff.mp hbelow
        obtain rfl := h.unshared.eq_of_holds hq hid
        rcases reflTransGen_iff_eq_or_transGen.mp hbelow with rfl | hbelow
        · exact .inr rfl
        · exact .inl ⟨hm, hbelow⟩

theorem getLast?_ancestors (h : o.IsTree) (hid : ReflTransGen o.Holds 0 id) :
    ((ofOutline o).ancestors id).getLast? = (ofOutline o).parent? id := by
  rcases hid.cases_tail with rfl | ⟨p, hp, hid⟩
  · rw [ancestors_root h, parent?_ofOutline_root h.acyclic]; rfl
  · rw [ancestors_of_holds h hp hid, parent?_of_holds h hp hid, List.getLast?_concat]

theorem head?_ancestors (h : o.IsTree) (hid : ReflTransGen o.Holds 0 id) (hne : id ≠ 0) :
    ((ofOutline o).ancestors id).head? = some 0 := by
  induction hid with
  | refl => exact absurd rfl hne
  | @tail p id hp hid ih =>
      rw [ancestors_of_holds h hp hid, List.head?_append]
      by_cases hroot : p = 0
      · subst hroot
        rw [ancestors_root h]
        rfl
      · rw [ih hroot]
        rfl

theorem isChain_ancestors (h : o.IsTree) (hid : ReflTransGen o.Holds 0 id) :
    ((ofOutline o).ancestors id).IsChain fun a b =>
      (ofOutline o).parent? b = some a ∧ o.Holds a b := by
  induction hid with
  | refl => rw [ancestors_root h]; exact .nil
  | @tail p id hp hid ih =>
      rw [ancestors_of_holds h hp hid, List.isChain_append]
      refine ⟨ih, .singleton p, fun a ha b hb => ?_⟩
      obtain rfl : p = b := by simpa using hb
      rw [getLast?_ancestors h hp] at ha
      exact ⟨ha, (holds_of_parent? h.acyclic ha).1⟩

/-- An ancestor stands above those that come after it. -/
theorem pairwise_ancestors (h : o.IsTree) (hid : ReflTransGen o.Holds 0 id) :
    ((ofOutline o).ancestors id).Pairwise (TransGen o.Holds) := by
  induction hid with
  | refl => rw [ancestors_root h]; exact .nil
  | @tail p id hp hid ih =>
      rw [ancestors_of_holds h hp hid]
      refine List.pairwise_append.mpr ⟨ih, List.pairwise_singleton _ _, fun a ha b hb => ?_⟩
      obtain rfl := List.mem_singleton.mp hb
      exact ((mem_ancestors_iff h hp).mp ha).2

end Walk

/-! ## Nodes that are entered and not yet left -/

section Brackets

variable {α : Type} {front middle back : List α} {a b x : α}

/-- What comes after one element of a list and before another one stands between them, if there
are no repetitions. -/
theorem sublist_brackets_iff (h : (front ++ a :: (middle ++ b :: back)).Nodup) :
    [a, x, b] <+ front ++ a :: (middle ++ b :: back) ↔ x ∈ middle := by
  obtain ⟨-, hrest, hfront⟩ := List.nodup_append.mp h
  obtain ⟨ha, hrest⟩ := List.nodup_cons.mp hrest
  obtain ⟨-, hback, hmiddle⟩ := List.nodup_append.mp hrest
  constructor
  · intro hsub
    have hafter : [x, b] <+ middle ++ b :: back := by
      obtain ⟨l, r, hsplit, hl, hr⟩ := List.sublist_append_iff.mp hsub
      cases l with
      | cons y l =>
          obtain rfl : a = y := (List.cons.inj hsplit).1
          exact absurd rfl (hfront a (hl.subset List.mem_cons_self) a List.mem_cons_self)
      | nil =>
          rw [List.nil_append] at hsplit
          subst hsplit
          rcases List.sublist_cons_iff.mp hr with hlater | ⟨r, hhere, hlater⟩
          · exact absurd (hlater.subset List.mem_cons_self) ha
          · rwa [(List.cons.inj hhere).2]
    obtain ⟨l, r, hsplit, hl, hr⟩ := List.sublist_append_iff.mp hafter
    cases l with
    | cons y l =>
        obtain rfl : x = y := (List.cons.inj hsplit).1
        exact hl.subset List.mem_cons_self
    | nil =>
        -- otherwise both stand behind the middle, where the second one is not repeated
        rw [List.nil_append] at hsplit
        subst hsplit
        have hb : b ∈ back := by
          rcases List.sublist_cons_iff.mp hr with hlater | ⟨r, hhere, hlater⟩
          · exact hlater.subset (by simp)
          · rw [← (List.cons.inj hhere).2] at hlater
            exact hlater.subset List.mem_cons_self
        exact absurd hb (List.nodup_cons.mp hback).1
  · intro hx
    have hpair : [x] ++ [b] <+ middle ++ b :: back :=
      (List.singleton_sublist.mpr hx).append (List.singleton_sublist.mpr List.mem_cons_self)
    exact (hpair.cons_cons a).trans (List.sublist_append_right front _)

end Brackets

namespace Outline.IsTree

variable {o : Outline} {m id : Nat}

/-- The visit of a node that the root leads to is a part of the walk. -/
theorem exists_visit_infix (h : o.IsTree) (hm : ReflTransGen o.Holds 0 m) :
    ∃ parent, o.visit h.acyclic parent m <:+: o.visit h.acyclic none 0 := by
  induction hm with
  | refl => exact ⟨none, List.infix_rfl⟩
  | @tail p m hp hm ih =>
      obtain ⟨parent, hinfix⟩ := ih
      refine ⟨some p, List.IsInfix.trans ?_ hinfix⟩
      obtain ⟨before, after, hchildren⟩ := List.append_of_mem hm
      rw [visit_eq h.acyclic parent p, hchildren, List.flatMap_append, List.flatMap_cons]
      exact ⟨⟨.enter, p, parent⟩ :: before.flatMap (o.visit h.acyclic (some p)),
        after.flatMap (o.visit h.acyclic (some p)) ++ [⟨.exit, p, parent⟩], by simp⟩

/-- A node is entered between the entering and the leaving of the nodes above it, and of no
others. -/
theorem sublist_events_iff (h : o.IsTree) (hm : ReflTransGen o.Holds 0 m) :
    [(.enter, m), (.enter, id), (.exit, m)] <+ (o.visit h.acyclic none 0).map WalkStep.event ↔
      TransGen o.Holds m id := by
  obtain ⟨parent, front, back, hsplit⟩ := h.exists_visit_infix hm
  have hnodup := h.nodup_events none 0
  have hevents : (o.visit h.acyclic none 0).map WalkStep.event =
      front.map WalkStep.event ++ (.enter, m) ::
        (((o.children m).flatMap (o.visit h.acyclic (some m))).map WalkStep.event ++
          (.exit, m) :: back.map WalkStep.event) := by
    rw [← hsplit, visit_eq]
    simp [WalkStep.event]
  rw [hevents] at hnodup ⊢
  rw [sublist_brackets_iff hnodup, List.map_flatMap, List.mem_flatMap, TransGen.head'_iff]
  exact exists_congr fun child => and_congr_right fun _ => event_mem_visit_iff h.acyclic

end Outline.IsTree

namespace Walk

/-- The nodes other than the given one that steps enter before it and leave after it was entered,
in the order in which they are entered. -/
def enclosing (steps : List WalkStep) (id : Nat) : List Nat :=
  let events := steps.map WalkStep.event
  ((events.filter (·.1 = .enter)).map Prod.snd).filter fun m =>
    m ≠ id ∧ [(.enter, m), (.enter, id), (.exit, m)] <+ events

variable {o : Outline} {id : Nat}

theorem mem_enclosing_iff {steps : List WalkStep} {m : Nat} :
    m ∈ enclosing steps id ↔ (.enter, m) ∈ steps.map WalkStep.event ∧ m ≠ id ∧
      [(.enter, m), (.enter, id), (.exit, m)] <+ steps.map WalkStep.event := by
  simp [enclosing]

/-- The nodes that enclose a node are in the order in which they are entered. -/
theorem pairwise_enclosing (steps : List WalkStep) (id : Nat) :
    (enclosing steps id).Pairwise fun a b =>
      [(Phase.enter, a), (Phase.enter, b)] <+ steps.map WalkStep.event := by
  refine List.Pairwise.filter _ (List.pairwise_map.mpr ?_)
  rw [List.pairwise_iff_forall_sublist]
  rintro ⟨phase, a⟩ ⟨phase', b⟩ hsub
  obtain ⟨rfl, rfl⟩ : phase = .enter ∧ phase' = .enter :=
    ⟨by simpa using List.of_mem_filter (hsub.subset List.mem_cons_self),
      by simpa using List.of_mem_filter (hsub.subset (List.mem_cons_of_mem _ List.mem_cons_self))⟩
  exact hsub.trans List.filter_sublist

/-- In a tree the ancestors of a node are the nodes that enclose it. -/
theorem ancestors_eq_enclosing (h : o.IsTree) (hid : ReflTransGen o.Holds 0 id) :
    (ofOutline o).ancestors id = enclosing (ofOutline o).steps id := by
  rw [show (ofOutline o).steps = o.visit h.acyclic none 0 by rw [ofOutline_eq h.acyclic]]
  have hnodup := h.nodup_events none 0
  -- both lists are in the order in which nodes are entered, and that order has no ties
  let Before (a b : Nat) : Prop :=
    [(Phase.enter, a), (Phase.enter, b)] <+ (o.visit h.acyclic none 0).map WalkStep.event
  have hirrefl : Std.Irrefl Before := ⟨fun a => List.nodup_iff_sublist.mp hnodup _⟩
  have hantisymm : Std.Antisymm Before := by
    refine ⟨fun a b hab hba => ?_⟩
    have heq := (hnodup.perm_iff_eq_of_sublist hab hba).mp (.swap _ _ _)
    exact (Prod.mk.inj (List.cons.inj heq).1).2
  have hancestors : ((ofOutline o).ancestors id).Pairwise Before := by
    refine (pairwise_ancestors h hid).imp_of_mem fun {a b} ha _ hbelow => ?_
    have htriple := (h.sublist_events_iff ((mem_ancestors_iff h hid).mp ha).1).mpr hbelow
    exact List.Sublist.trans (List.prefix_append [_, _] [_]).sublist htriple
  refine hancestors.eq_of_mem_iff (pairwise_enclosing _ id) fun m => ?_
  rw [mem_ancestors_iff h hid, mem_enclosing_iff, Outline.event_mem_visit_iff]
  refine and_congr_right fun hm => ?_
  rw [h.sublist_events_iff hm, iff_and_self]
  rintro hbelow rfl
  exact h.acyclic m hbelow

end Walk

/-! ## Outlines of documents -/

namespace Grammar.Phrase

open Outline (Entry)

variable {d : Dialect} {trailing : Bool}

theorem le_of_mem_numbersFrom {id : Nat} {ps : List (Phrase d trailing)} {n : Nat}
    (h : n ∈ numbersFrom id ps) : id ≤ n := by
  induction ps generalizing id with
  | nil => cases h
  | cons p ps ih =>
      rcases List.mem_cons.mp h with rfl | h
      · exact Nat.le_refl n
      · exact Nat.le_trans (Nat.le_add_right _ _) (ih h)

/-- The numbers that phrases and their entries hold, if those of each phrase are known. -/
theorem perm_numbersFrom {bound : Nat}
    (hbelow : ∀ (p : Phrase d trailing) (id : Nat), (p.entries id).length ≤ bound →
      id :: (p.entries id).flatMap Entry.children ~ List.range' id (p.entries id).length)
    (ps : List (Phrase d trailing)) (id : Nat) (hbound : (entriesFrom id ps).length ≤ bound) :
    numbersFrom id ps ++ (entriesFrom id ps).flatMap Entry.children ~
      List.range' id (entriesFrom id ps).length := by
  induction ps generalizing id with
  | nil => exact .refl _
  | cons p ps ih =>
      rw [entriesFrom, List.length_append] at hbound ⊢
      have hrest := ih (id + (p.entries id).length) (by omega)
      have hown := hbelow p id (by omega)
      rw [numbersFrom, List.flatMap_append, ← List.range'_append_1]
      refine List.Perm.trans ?_ (hown.append hrest)
      rw [List.cons_append, List.cons_append]
      exact (List.perm_append_comm_assoc _ _ _).cons id

/-- The entries of a phrase hold the numbers of all but the first of them, each once. -/
theorem perm_children (p : Phrase d trailing) (id : Nat) :
    id :: (p.entries id).flatMap Entry.children ~ List.range' id (p.entries id).length := by
  obtain ⟨e, hentries, -, -, hchildren⟩ := p.exists_entries_eq id
  have hlength := congrArg List.length hentries
  rw [List.length_cons] at hlength
  have hparts := perm_numbersFrom (fun q k hk =>
    have hshorter : (q.entries k).length < (p.entries id).length := by omega
    perm_children q k) p.parts (id + 1) (Nat.le_refl _)
  rw [hentries, List.flatMap_cons, hchildren, List.length_cons, List.range'_succ]
  exact hparts.cons id
termination_by (p.entries id).length
decreasing_by exact hshorter

end Grammar.Phrase

namespace Outline

open LocatedJson.Grammar

variable {o : Outline} {d : Dialect} {trailing : Bool} {doc : Document} {v : Value d trailing}

theorem exists_holds {child : Nat} (h : child ∈ o.entries.flatMap Entry.children) :
    ∃ id, o.Holds id child := by
  obtain ⟨e, he, hchild⟩ := List.mem_flatMap.mp h
  obtain ⟨id, hid⟩ := List.mem_iff_getElem?.mp he
  refine ⟨id, ?_⟩
  rwa [Holds, children, hid, Option.map_some, Option.getD_some]

theorem perm_children_ofDocument (hbody : doc.body = v.node) :
    (ofDocument doc).entries.flatMap Entry.children ~
      List.range' 1 ((ofDocument doc).entries.length - 1) := by
  have hvalue := (Phrase.value v).perm_children 1
  rw [Phrase.entries, ← hbody] at hvalue
  exact hvalue

theorem ascending_ofDocument (hbody : doc.body = v.node) : (ofDocument doc).Ascending := by
  rintro ⟨e, id⟩ hx child hchild
  have he := List.mem_zipIdx_iff_getElem?.mp hx
  rcases exists_phrase hbody he with ⟨rfl, -⟩ | ⟨p, hat, -⟩
  · cases he
    obtain rfl := List.mem_singleton.mp hchild
    exact Nat.one_pos
  · obtain ⟨e', he', -, -, hchildren, -⟩ := hat.exists_entry
    cases he.symm.trans he'
    rw [hchildren] at hchild
    exact Phrase.le_of_mem_numbersFrom hchild

/-- The outline of a document is a tree. -/
theorem isTree_ofDocument (hbody : doc.body = v.node) : (ofDocument doc).IsTree :=
  ⟨(ascending_ofDocument hbody).acyclic,
    (perm_children_ofDocument hbody).nodup_iff.mpr List.nodup_range'⟩

/-- The document leads to all nodes of its outline. -/
theorem reaches_ofDocument (hbody : doc.body = v.node) {id : Nat}
    (hid : id < (ofDocument doc).entries.length) :
    ReflTransGen (ofDocument doc).Holds 0 id := by
  induction id using Nat.strongRecOn with
  | _ id ih =>
      by_cases hroot : id = 0
      · rw [hroot]
      · have hmem : id ∈ (ofDocument doc).entries.flatMap Entry.children := by
          rw [(perm_children_ofDocument hbody).mem_iff, List.mem_range'_1]
          omega
        obtain ⟨p, hp⟩ := exists_holds hmem
        exact (ih p ((ascending_ofDocument hbody).lt hp) hp.lt_length).tail hp

end Outline

/-! ## Questions about ancestors -/

namespace Session

/-- What a session answers about the nodes above a node: the steps of its walk, and the nodes that
enclose the given one in these. The way up ends after them. If there are any, the root is the
first and the parent the last, and each is the parent of the next. -/
structure Enclosed (s : Session) (id : Nat) (steps : List WalkStep) (found : List Nat) : Prop where
  walk : (s.ask .walk).1.result = .ok (.steps steps)
  ancestors : (s.ask (.ancestors (.node id))).1.result = .ok (.numbers found)
  eq_enclosing : found = Walk.enclosing steps id
  ends : (Option.bind · fun n => s.parent? (.node n))^[found.length + 1] (some id) = none
  first : id ≠ 0 → found.head? = some 0
  last : (s.ask (.parent (.node id))).1.result = .ok (.number found.getLast?)
  chain : found.IsChain fun a b =>
    (s.ask (.parent (.node b))).1.result = .ok (.number (some a)) ∧ s.file.outline.Holds a b

section Sessions

variable {file : SourceFile} {earlier : List Query} {s : Session} {id : Nat}

theorem Remembers.enclosed (h : Remembers file earlier s)
    (hwalked : earlier.any Query.needsWalk = true) (htree : file.outline.IsTree)
    (hid : ReflTransGen file.outline.Holds 0 id) :
    Enclosed s id (Walk.ofOutline file.outline).steps
      ((Walk.ofOutline file.outline).ancestors id) := by
  have hparent : ∀ n, s.parent? (.node n) = (Walk.ofOutline file.outline).parent? n := by
    intro n
    rw [h.parent?_node, if_pos hwalked]
  constructor
  case walk => simp only [ask, h.findWalk_fst]
  case ancestors => simp only [ask, h.ancestors_node, if_pos hwalked]
  case eq_enclosing => exact Walk.ancestors_eq_enclosing htree hid
  case ends =>
    simp only [hparent]
    exact Walk.iterate_parent? htree hid
  case first => exact Walk.head?_ancestors htree hid
  case last => simp only [ask, hparent, Walk.getLast?_ancestors htree hid]
  case chain =>
    simp only [ask, hparent, h.file_eq, Except.ok.injEq, Answer.number.injEq]
    exact Walk.isChain_ancestors htree hid

/-- Once the walk of a tree was asked for, the ancestors of a node are the nodes that the walk
enters before it and leaves after it has entered it. Every parsed document is a tree, and all its
nodes are met. Before the walk is asked for, nothing has ancestors. -/
theorem ask_ancestors (file : SourceFile) (earlier : List Query) :
    let s := Session.askAll { file := file } earlier
    (earlier.any Query.needsWalk = true →
      (file.outline.IsTree → ∀ id, ReflTransGen file.outline.Holds 0 id →
        ∃ steps found, Enclosed s id steps found) ∧
      ∀ (profile : Profile) (text : Text) (doc : Document),
        Document.ofText profile text = .ok doc → file = .ofDocument text doc →
        ∀ id < file.outline.entries.length, ∃ steps found, Enclosed s id steps found) ∧
    (earlier.any Query.needsWalk = false →
      ∀ ref, (s.ask (.ancestors ref)).1.result = .ok (.numbers [])) := by
  intro s
  have h : Remembers file earlier s := (Remembers.fresh file).run earlier
  refine ⟨fun hwalked => ⟨fun htree id hid => ⟨_, _, h.enclosed hwalked htree hid⟩, ?_⟩, ?_⟩
  · rintro profile text doc hdoc rfl id hid
    obtain ⟨v, -, hbody, -⟩ := Document.exists_sentence hdoc
    exact ⟨_, _, h.enclosed hwalked (Outline.isTree_ofDocument hbody)
      (Outline.reaches_ofDocument hbody hid)⟩
  · intro hunwalked ref
    have hnone : s.walk? = none := by rw [h.walk, hunwalked]; rfl
    cases ref <;> simp only [ask, Session.ancestors, hnone, Option.map_none, Option.getD_none]

/-- In `[1]` the number stands below the document, the array and the element, but that is not
known at once. -/
theorem ask_ancestors_element :
    ∃ doc, Document.ofText {} "[1]".toList = .ok doc ∧
      let fresh : Session := { file := .ofDocument "[1]".toList doc }
      (fresh.ask (.ancestors (.node 3))).1.result = .ok (.numbers []) ∧
        ((fresh.ask .walk).2.ask (.ancestors (.node 3))).1.result = .ok (.numbers [0, 1, 2]) := by
  have hread : ((Document.ofText {} "[1]".toList).toOption.map fun doc =>
      (Outline.ofDocument doc).entries.map Outline.Entry.children) =
        some [[1], [2], [3], []] := by
    decide +kernel
  generalize "[1]".toList = text at hread ⊢
  cases hdoc : Document.ofText {} text with
  | error fault =>
      rw [hdoc] at hread
      cases hread
  | ok doc =>
      rw [hdoc] at hread
      have hentries := Option.some.inj hread
      let file : SourceFile := .ofDocument text doc
      have hchildren : ∀ id, file.outline.children id = ([[1], [2], [3], []][id]?).getD [] := by
        intro id
        rw [← hentries, List.getElem?_map]
        rfl
      obtain ⟨-, hunwalked⟩ := ask_ancestors file []
      obtain ⟨hwalked, -⟩ := ask_ancestors file [.walk]
      obtain ⟨steps, found, henclosed⟩ := (hwalked rfl).2 {} text doc hdoc rfl 3 (by
        have hlength := congrArg List.length hentries
        rw [List.length_map] at hlength
        exact Nat.lt_of_lt_of_eq (by decide) hlength.symm)
      obtain ⟨v, -, hbody, -⟩ := Document.exists_sentence hdoc
      have hacyclic : file.outline.Acyclic := (Outline.isTree_ofDocument hbody).acyclic
      have hsteps : (Walk.ofOutline file.outline).steps = steps := by
        have hwalk := henclosed.walk
        simp only [ask, ((Remembers.fresh file).run [.walk]).findWalk_fst, Except.ok.injEq,
          Answer.steps.injEq] at hwalk
        exact hwalk
      have hevents : steps.map WalkStep.event = [(.enter, 0), (.enter, 1), (.enter, 2),
          (.enter, 3), (.exit, 3), (.exit, 2), (.exit, 1), (.exit, 0)] := by
        rw [← hsteps, Walk.ofOutline_eq hacyclic]
        simp [Outline.visit_eq, hchildren, WalkStep.event]
      have hfound : found = [0, 1, 2] := by
        rw [henclosed.eq_enclosing, Walk.enclosing, hevents]
        decide
      exact ⟨doc, rfl, hunwalked rfl _, hfound ▸ henclosed.ancestors⟩

end Sessions

end Session

end LocatedJson
