import Mathlib.Order.WellFoundedSet
import LocatedJson.Walk

/-!
# Walks unfold outlines

In an outline without cycles the nodes below a node can be visited
recursively: the node is entered, its children are visited in order, and the
node is left (`Outline.visit`). The walk keeps a stack instead. Its invariant
is about the whole stack: from a stack with the step into a node on top it
takes the steps of the visit of that node, notes the parents that these steps
name, and is left with the rest of the stack (`Walker.iterate_visit`). So the
walk is the visit of the root (`Walk.ofOutline_unfolds`).
-/

namespace LocatedJson

open Relation

/-! ## Outlines as graphs -/

namespace Outline

variable {o : Outline} {id child : Nat}

def Holds (o : Outline) (id child : Nat) : Prop := child ∈ o.children id

def Acyclic (o : Outline) : Prop := ∀ id, ¬ TransGen o.Holds id id

theorem Holds.lt_length (h : o.Holds id child) : id < o.entries.length := by
  by_contra hid
  rw [Holds, children, List.getElem?_eq_none (by omega)] at h
  cases h

theorem Acyclic.wellFounded (h : o.Acyclic) : WellFounded fun child id => o.Holds id child := by
  let Below (child id : Nat) : Prop := TransGen o.Holds id child
  have hstrict : IsStrictOrder Nat Below :=
    { irrefl := h
      trans := fun a b c hab hbc => hbc.trans hab }
  have htable : {id | id < o.entries.length}.WellFoundedOn Below :=
    (Set.finite_lt_nat _).wellFoundedOn
  -- a number outside of the table has nothing below it
  have houtside : ∀ id, ¬ id < o.entries.length → Acc (fun child id => o.Holds id child) id :=
    fun id hid => ⟨id, fun child hchild => absurd hchild.lt_length hid⟩
  refine ⟨fun id => ?_⟩
  by_cases hid : id < o.entries.length
  · refine htable.induction hid fun id _ ih => ⟨id, fun child hchild => ?_⟩
    by_cases hc : child < o.entries.length
    · exact ih child hc (.single hchild)
    · exact houtside child hc
  · exact houtside id hid

def Ascending (o : Outline) : Prop := ∀ x ∈ o.entries.zipIdx, ∀ child ∈ x.1.children, x.2 < child

instance (o : Outline) : Decidable o.Ascending :=
  inferInstanceAs (Decidable (∀ x ∈ o.entries.zipIdx, ∀ child ∈ x.1.children, x.2 < child))

theorem Ascending.lt (h : o.Ascending) (hchild : o.Holds id child) : id < child := by
  obtain ⟨e, he⟩ : ∃ e, o.entries[id]? = some e :=
    ⟨_, List.getElem?_eq_getElem hchild.lt_length⟩
  rw [Holds, children, he, Option.map_some, Option.getD_some] at hchild
  exact h (e, id) (List.mem_zipIdx_iff_getElem?.mpr he) child hchild

theorem Ascending.acyclic (h : o.Ascending) : o.Acyclic := by
  have hlt : o.Holds ≤ (· < ·) := fun _ _ hchild => h.lt hchild
  intro id hid
  exact Nat.lt_irrefl id (transGen_minimal hlt id id hid)

/-- The steps at a node that was reached from a parent: into the node, those at its children in
their order, and out of the node. -/
def visit (o : Outline) (h : o.Acyclic) (parent : Option Nat) (id : Nat) : List WalkStep :=
  ⟨.enter, id, parent⟩ ::
    ((o.children id).attach.flatMap fun child => visit o h (some id) child.1) ++
    [⟨.exit, id, parent⟩]
termination_by h.wellFounded.wrap id
decreasing_by exact child.2

theorem visit_eq (h : o.Acyclic) (parent : Option Nat) (id : Nat) :
    o.visit h parent id =
      ⟨.enter, id, parent⟩ :: (o.children id).flatMap (o.visit h (some id)) ++
        [⟨.exit, id, parent⟩] := by
  rw [visit, List.flatMap_subtype (g := o.visit h (some id)) (by simp), List.unattach_attach]

end Outline

/-! ## The stack -/

namespace Walker

variable {o : Outline} {w : Walker} {steps rest : List WalkStep} {id : Nat}

theorem push_eq (id : Nat) (children : List Nat) (pending : List WalkStep) :
    push id children pending = children.map (⟨.enter, ·, some id⟩) ++ pending := by
  rw [push, List.foldl_reverse]
  exact List.foldr_cons_eq_append

/-- The walk after more steps, with what is then left to do. -/
def took (w : Walker) (steps pending : List WalkStep) : Walker :=
  ⟨pending, steps.reverse ++ w.taken, steps.foldl noteParent w.parents⟩

theorem took_took (w : Walker) (steps more : List WalkStep) (pending pending' : List WalkStep) :
    (w.took steps pending).took more pending' = w.took (steps ++ more) pending' := by
  simp [took]

theorem advance_eq {step : WalkStep} (hw : w.pending = step :: rest) :
    w.advance o = w.took [step] (following o step rest) := by
  rw [advance, hw]
  rfl

/-- Whole visits one after the other. -/
theorem iterate_visits {parent : Option Nat} {visit : Nat → List WalkStep} {children : List Nat}
    (hvisit : ∀ child ∈ children, ∀ (w : Walker) (rest : List WalkStep),
      w.pending = ⟨.enter, child, parent⟩ :: rest →
        (advance o)^[(visit child).length] w = w.took (visit child) rest)
    (hw : w.pending = children.map (⟨.enter, ·, parent⟩) ++ rest) :
    (advance o)^[(children.flatMap visit).length] w = w.took (children.flatMap visit) rest := by
  induction children generalizing w with
  | nil =>
      rw [List.map_nil, List.nil_append] at hw
      subst hw
      rfl
  | cons child children ih =>
      rw [List.flatMap_cons, List.length_append, Nat.add_comm, Function.iterate_add_apply,
        hvisit child List.mem_cons_self w _ hw,
        ih (fun c hc => hvisit c (List.mem_cons_of_mem child hc)) rfl, took_took]

/-- With the step into a node on top of the stack the walk takes the steps of the visit of that
node, whatever lies below. -/
theorem iterate_visit (h : o.Acyclic) {parent : Option Nat}
    (hw : w.pending = ⟨.enter, id, parent⟩ :: rest) :
    (advance o)^[(o.visit h parent id).length] w = w.took (o.visit h parent id) rest := by
  induction id using h.wellFounded.induction generalizing w parent rest with
  | _ id ih =>
      have hchildren := @iterate_visits o (w.advance o) (⟨.exit, id, parent⟩ :: rest) (some id)
        (o.visit h (some id)) (o.children id) (fun child hchild w rest => ih child hchild)
        (by rw [advance_eq hw, took, following, push_eq])
      rw [Outline.visit_eq, List.length_append, List.length_cons, Nat.add_comm,
        Function.iterate_add_apply, Function.iterate_succ_apply, hchildren,
        List.length_singleton, Function.iterate_one, advance_eq rfl, advance_eq hw, took_took,
        took_took]
      rfl

theorem finish_advance (o : Outline) (w : Walker) : (w.advance o).finish o = w.finish o := by
  conv_rhs => rw [finish_eq]
  split
  · rename_i hdone
    rw [advance, hdone]
    rw [finish_eq, hdone]
  · rfl

theorem finish_iterate (o : Outline) (n : Nat) (w : Walker) :
    ((advance o)^[n] w).finish o = w.finish o := by
  induction n generalizing w with
  | zero => rfl
  | succ n ih => rw [Function.iterate_succ_apply, ih, finish_advance]

end Walker

/-! ## Steps of a visit -/

/-- What a step does, and to which node. -/
def WalkStep.event (s : WalkStep) : Phase × Nat := (s.phase, s.target)

namespace Outline

variable {o : Outline} {parent : Option Nat} {id : Nat}

/-- A step of a visit is at the node itself, or it is at a node below it and names a parent of
that node. -/
theorem mem_visit (h : o.Acyclic) {s : WalkStep} (hs : s ∈ o.visit h parent id) :
    s.target = id ∧ s.parent = parent ∨
      ∃ q, s.parent = some q ∧ o.Holds q s.target ∧ ReflTransGen o.Holds id q := by
  induction id using h.wellFounded.induction generalizing parent with
  | _ id ih =>
      rw [visit_eq] at hs
      simp only [List.cons_append, List.mem_cons, List.mem_append, List.mem_flatMap,
        List.not_mem_nil, or_false] at hs
      rcases hs with rfl | ⟨child, hchild, hs⟩ | rfl
      · exact .inl ⟨rfl, rfl⟩
      · rcases ih child hchild hs with ⟨htarget, hparent⟩ | ⟨q, hparent, hholds, hreach⟩
        · exact .inr ⟨id, hparent, htarget ▸ hchild, .refl⟩
        · exact .inr ⟨q, hparent, hholds, .head hchild hreach⟩
      · exact .inl ⟨rfl, rfl⟩

/-- A visit enters and leaves the nodes that can be reached from where it starts. -/
theorem event_mem_visit_iff (h : o.Acyclic) {phase : Phase} {target : Nat} :
    (phase, target) ∈ (o.visit h parent id).map WalkStep.event ↔
      ReflTransGen o.Holds id target := by
  induction id using h.wellFounded.induction generalizing parent with
  | _ id ih =>
      rw [visit_eq, ReflTransGen.cases_head_iff]
      simp only [List.cons_append, List.map_cons, List.map_append, List.map_flatMap, List.map_nil,
        List.mem_cons, List.mem_append, List.mem_flatMap, List.not_mem_nil, or_false,
        WalkStep.event, Prod.mk.injEq]
      constructor
      · rintro (⟨-, rfl⟩ | ⟨child, hchild, hevent⟩ | ⟨-, rfl⟩)
        · exact .inl rfl
        · exact .inr ⟨child, hchild, (ih child hchild).mp hevent⟩
        · exact .inl rfl
      · rintro (rfl | ⟨child, hchild, hreach⟩)
        · cases phase with
          | enter => exact .inl ⟨rfl, rfl⟩
          | exit => exact .inr (.inr ⟨rfl, rfl⟩)
        · exact .inr (.inl ⟨child, hchild, (ih child hchild).mpr hreach⟩)

end Outline

/-! ## Parents -/

theorem get?_noteParent (table : List (Nat × Nat)) (s : WalkStep) (id : Nat) :
    Pairs.get? (noteParent table s) id =
      (Pairs.get? table id).or (if s.event = (.enter, id) then s.parent else none) := by
  obtain ⟨phase, target, parent⟩ := s
  cases phase with
  | exit => simp [noteParent, WalkStep.event]
  | enter =>
      cases parent with
      | none => simp [noteParent, WalkStep.event]
      | some parent =>
          by_cases htarget : target = id
          · subst htarget
            cases hknown : Pairs.get? table target with
            | none => simp [noteParent, WalkStep.event, hknown, Pairs.get?]
            | some known => simp [noteParent, WalkStep.event, hknown]
          · simp only [noteParent, WalkStep.event, Prod.mk.injEq, htarget, and_false, if_false,
              Option.or_none]
            split
            · rfl
            · rw [Pairs.get?, if_neg htarget]

/-- The table of parents holds the first parent that a step into a node names. -/
theorem get?_foldl_noteParent (steps : List WalkStep) (table : List (Nat × Nat)) (id : Nat) :
    Pairs.get? (steps.foldl noteParent table) id =
      (Pairs.get? table id).or
        (steps.findSome? fun s => if s.event = (.enter, id) then s.parent else none) := by
  induction steps generalizing table with
  | nil => simp
  | cons s steps ih =>
      rw [List.foldl_cons, ih, get?_noteParent, Option.or_assoc, List.findSome?_cons]
      congr 1
      cases (if s.event = (.enter, id) then s.parent else none) <;> rfl

theorem findSome?_eq_bind_find? {steps : List WalkStep} {e : Phase × Nat}
    (h : ∀ s ∈ steps, s.event = e → s.parent ≠ none) :
    (steps.findSome? fun s => if s.event = e then s.parent else none) =
      (steps.find? (·.event = e)).bind WalkStep.parent := by
  induction steps with
  | nil => rfl
  | cons s steps ih =>
      rw [List.findSome?_cons, List.find?_cons]
      by_cases he : s.event = e
      · obtain ⟨parent, hparent⟩ := Option.ne_none_iff_exists'.mp (h s List.mem_cons_self he)
        simp [he, hparent]
      · simp only [he, if_false, decide_false]
        exact ih fun s hs => h s (List.mem_cons_of_mem _ hs)

namespace Walk

variable {o : Outline}

theorem ofOutline_eq (h : o.Acyclic) :
    ofOutline o = ⟨o.visit h none 0, (o.visit h none 0).foldl noteParent []⟩ := by
  rw [ofOutline, ← Walker.finish_iterate o (o.visit h none 0).length, Walker.iterate_visit h rfl,
    Walker.finish_eq]
  simp [Walker.took, Walker.start]

/-- The parent of a node is the one that the first step into it names. -/
theorem parent?_ofOutline (h : o.Acyclic) (id : Nat) :
    (ofOutline o).parent? id =
      ((o.visit h none 0).find? (·.event = (.enter, id))).bind WalkStep.parent := by
  rw [parent?, ofOutline_eq h, get?_foldl_noteParent, Pairs.get?, Option.none_or]
  by_cases hid : id = 0
  · -- no step into the root names a parent, for the root would stand below itself
    subst hid
    have hroot : ∀ s ∈ o.visit h none 0, s.event = (.enter, 0) → s.parent = none := by
      intro s hs hevent
      rcases Outline.mem_visit h hs with ⟨-, hparent⟩ | ⟨q, -, hholds, hreach⟩
      · exact hparent
      · rw [(Prod.mk.inj hevent).2] at hholds
        exact absurd (TransGen.tail' hreach hholds) (h 0)
    have hnone : ((o.visit h none 0).findSome? fun s =>
        if s.event = (.enter, 0) then s.parent else none) = none := by
      rw [List.findSome?_eq_none_iff]
      intro s hs
      split
      · exact hroot s hs (by assumption)
      · rfl
    rw [hnone, eq_comm, Option.bind_eq_none_iff]
    intro s hs
    exact hroot s (List.mem_of_find?_eq_some hs) (by simpa using List.find?_some hs)
  · refine findSome?_eq_bind_find? fun s hs hevent => ?_
    rcases Outline.mem_visit h hs with ⟨htarget, -⟩ | ⟨q, hparent, -⟩
    · exact absurd ((Prod.mk.inj hevent).2.symm.trans htarget) hid
    · simp [hparent]

theorem parent?_ofOutline_root (h : o.Acyclic) : (ofOutline o).parent? 0 = none := by
  rw [parent?_ofOutline h, Outline.visit_eq]
  simp [WalkStep.event]

/-- What the walk names as a parent holds the node, and the root leads to it. -/
theorem holds_of_parent? (h : o.Acyclic) {id q : Nat}
    (hparent : (ofOutline o).parent? id = some q) :
    o.Holds q id ∧ ReflTransGen o.Holds 0 q := by
  rw [parent?_ofOutline h, Option.bind_eq_some_iff] at hparent
  obtain ⟨s, hfound, hq⟩ := hparent
  have hevent : s.event = (.enter, id) := by simpa using List.find?_some hfound
  rcases Outline.mem_visit h (List.mem_of_find?_eq_some hfound) with
    ⟨-, hnone⟩ | ⟨q', hq', hholds, hreach⟩
  · cases hnone.symm.trans hq
  · cases hq'.symm.trans hq
    exact ⟨(Prod.mk.inj hevent).2 ▸ hholds, hreach⟩

end Walk

/-! ## Trees -/

namespace Outline

variable {o : Outline} {p q a b id : Nat}

/-- No node is held twice. -/
def Unshared (o : Outline) : Prop := (o.entries.flatMap Entry.children).Nodup

theorem Unshared.nodup_children (h : o.Unshared) (id : Nat) : (o.children id).Nodup := by
  rw [children]
  cases he : o.entries[id]? with
  | none => exact List.nodup_nil
  | some e => exact (List.nodup_flatMap.mp h).1 e (List.mem_of_getElem? he)

/-- A node has at most one parent. -/
theorem Unshared.eq_of_holds (h : o.Unshared) (hp : o.Holds p id) (hq : o.Holds q id) :
    p = q := by
  have hdisjoint := List.pairwise_iff_getElem.mp (List.nodup_flatMap.mp h).2
  have hmem : ∀ {n : Nat} (hn : n < o.entries.length), o.Holds n id →
      id ∈ (o.entries[n]).children := by
    intro n hn hholds
    rwa [Holds, children, List.getElem?_eq_getElem hn, Option.map_some, Option.getD_some] at hholds
  rcases Nat.lt_trichotomy p q with hlt | heq | hlt
  · exact absurd (hmem hq.lt_length hq)
      (hdisjoint p q hp.lt_length hq.lt_length hlt (hmem hp.lt_length hp))
  · exact heq
  · exact absurd (hmem hp.lt_length hp)
      (hdisjoint q p hq.lt_length hp.lt_length hlt (hmem hq.lt_length hq))

/-- A tree: no node stands below itself, and none is held twice. -/
structure IsTree (o : Outline) : Prop where
  acyclic : o.Acyclic
  unshared : o.Unshared

/-- Two children of a node do not lead to the same node. -/
theorem IsTree.eq_of_reaches (h : o.IsTree) (ha : o.Holds id a) (hb : o.Holds id b) {x : Nat}
    (hax : ReflTransGen o.Holds a x) (hbx : ReflTransGen o.Holds b x) : a = b := by
  -- the way up from a node is unique, so one of the two stands above the other
  have hchain : ∀ {a b : Nat}, o.Holds id a → o.Holds id b → ReflTransGen o.Holds a b → a = b := by
    intro a b ha hb hab
    rcases hab.cases_tail with rfl | ⟨m, ham, hmb⟩
    · rfl
    · obtain rfl := h.unshared.eq_of_holds hmb hb
      exact absurd (TransGen.head' ha ham) (h.acyclic m)
  have hup : Relator.RightUnique (Function.swap o.Holds) :=
    fun _ _ _ hp hq => h.unshared.eq_of_holds hp hq
  rcases ReflTransGen.total_of_right_unique hup hax.swap hbx.swap with hab | hba
  · exact (hchain hb ha hab.swap).symm
  · exact hchain ha hb hba.swap

/-- In a tree no node is entered twice or left twice. -/
theorem IsTree.nodup_events (h : o.IsTree) (parent : Option Nat) (id : Nat) :
    ((o.visit h.acyclic parent id).map WalkStep.event).Nodup := by
  induction id using h.acyclic.wellFounded.induction generalizing parent with
  | _ id ih =>
      rw [visit_eq, List.cons_append, List.map_cons, List.map_append, List.map_flatMap]
      have hbelow : ∀ (phase : Phase), (phase, id) ∉ (o.children id).flatMap fun child =>
          (o.visit h.acyclic (some id) child).map WalkStep.event := by
        intro phase hmem
        obtain ⟨child, hchild, hevent⟩ := List.mem_flatMap.mp hmem
        exact h.acyclic id (.head' hchild ((event_mem_visit_iff h.acyclic).mp hevent))
      have hnodup : ((o.children id).flatMap fun child =>
          (o.visit h.acyclic (some id) child).map WalkStep.event).Nodup := by
        refine List.nodup_flatMap.mpr ⟨fun child hchild => ih child hchild _, ?_⟩
        refine (h.unshared.nodup_children id).imp_of_mem ?_
        rintro a b ha hb hne ⟨phase, x⟩ hax hbx
        exact hne (h.eq_of_reaches ha hb ((event_mem_visit_iff h.acyclic).mp hax)
          ((event_mem_visit_iff h.acyclic).mp hbx))
      refine List.nodup_cons.mpr ⟨?_, List.nodup_append.mpr ⟨hnodup, List.nodup_singleton _, ?_⟩⟩
      · simpa [WalkStep.event] using hbelow .enter
      · rintro e he e' he' rfl
        obtain rfl : e = (.exit, id) := by simpa [WalkStep.event] using he'
        exact hbelow .exit he

end Outline

namespace Walk

/-- The walk of an outline without cycles ends after as many steps as the visit of its root has,
and these are its steps. The parent of a node is the one that the first step into it names: the
root has none, and neither has a node that is not met. In a tree every node that the root leads
to is entered once and left once. -/
theorem ofOutline_unfolds (o : Outline) (h : o.Acyclic) :
    ((Walker.advance o)^[(o.visit h none 0).length] Walker.start).pending = [] ∧
    (ofOutline o).steps = o.visit h none 0 ∧
    (∀ id, (ofOutline o).parent? id =
      ((o.visit h none 0).find? (·.event = (.enter, id))).bind WalkStep.parent) ∧
    (∀ id, id = 0 ∨ (∀ s ∈ o.visit h none 0, s.target ≠ id) → (ofOutline o).parent? id = none) ∧
    (o.Unshared → ∀ (phase : Phase) (id : Nat), ReflTransGen o.Holds 0 id →
      ((ofOutline o).steps.map WalkStep.event).count (phase, id) = 1) := by
  have hsteps : (ofOutline o).steps = o.visit h none 0 := by rw [ofOutline_eq h]
  refine ⟨?_, hsteps, parent?_ofOutline h, ?_, ?_⟩
  · rw [Walker.iterate_visit h rfl]
    rfl
  · rintro id (rfl | hnever)
    · exact parent?_ofOutline_root h
    · rw [parent?_ofOutline h, Option.bind_eq_none_iff]
      intro s hs
      have hevent : s.event = (.enter, id) := by simpa using List.find?_some hs
      exact absurd (Prod.mk.inj hevent).2 (hnever s (List.mem_of_find?_eq_some hs))
  · intro hunshared phase id hreach
    rw [hsteps]
    exact List.count_eq_one_of_mem (Outline.IsTree.nodup_events ⟨h, hunshared⟩ none 0)
      ((Outline.event_mem_visit_iff h).mpr hreach)

/-- An array of three elements with a gap among them: the first two hold the same value, and the
last is of a type that is not known, so that what it holds does not count. -/
def sharedValue : Outline :=
  let extent : Extent := .between .origin .origin
  ⟨[⟨.array, extent, [(.elements, .many [some 1, none, some 2, some 3])], .nothing⟩,
    ⟨.element, extent, [(.value, .one (some 4))], .nothing⟩,
    ⟨.element, extent, [(.value, .one (some 4))], .nothing⟩,
    ⟨.unknown "Comment", extent, [(.value, .one (some 0))], .nothing⟩,
    ⟨.null, extent, [], .nothing⟩]⟩

/-- The shared value is walked once for each element, and its parent is the first of them. -/
theorem ofOutline_unfolds_sharedValue :
    sharedValue.Acyclic ∧
      (ofOutline sharedValue).steps.map (fun s => (s.phase, s.target, s.parent)) =
        [(.enter, 0, none), (.enter, 1, some 0), (.enter, 4, some 1), (.exit, 4, some 1),
          (.exit, 1, some 0), (.enter, 2, some 0), (.enter, 4, some 2), (.exit, 4, some 2),
          (.exit, 2, some 0), (.enter, 3, some 0), (.exit, 3, some 0), (.exit, 0, none)] ∧
      (ofOutline sharedValue).parent? 4 = some 1 := by
  have hacyclic : sharedValue.Acyclic := Outline.Ascending.acyclic (by decide)
  obtain ⟨-, hsteps, hparent, -⟩ := ofOutline_unfolds sharedValue hacyclic
  have hchildren : sharedValue.children 0 = [1, 2, 3] ∧ sharedValue.children 1 = [4] ∧
      sharedValue.children 2 = [4] ∧ sharedValue.children 3 = [] ∧
      sharedValue.children 4 = [] := by decide
  refine ⟨hacyclic, ?_⟩
  rw [hsteps, hparent]
  simp [Outline.visit_eq, hchildren, WalkStep.event]

end Walk

end LocatedJson
