import LocatedJson.Outline
import LocatedJson.Pairs

/-!
# Walks

A walk goes through an outline from its root: a node is entered, its
children are walked in order, and the node is left. A child with several
parents is walked once for each.

What a walk still has to do is a stack of steps. A step into a node puts
the step out of it on the stack and on top of that the steps into its
children, so that the first child comes next. The walk is over when
nothing is left. If a node stands below itself that never happens, and
nothing is said about the outcome.

The parent of a node is the one from which it was first entered.
-/

namespace LocatedJson

/-- Whether a step goes into a node or out of it. -/
inductive Phase where
  | enter
  | exit
  deriving DecidableEq, Repr

structure WalkStep where
  phase : Phase
  target : Nat
  parent : Option Nat
  deriving DecidableEq, Repr

/-- Notes the parent of a node that is entered for the first time. -/
def noteParent (table : List (Nat × Nat)) (step : WalkStep) : List (Nat × Nat) :=
  match step.phase, step.parent with
  | .enter, some parent =>
    if (Pairs.get? table step.target).isSome then table else (step.target, parent) :: table
  | _, _ => table

/-- A walk that was taken: its steps, and the parents that it met. -/
structure Walk where
  steps : List WalkStep
  parents : List (Nat × Nat)
  deriving DecidableEq, Inhabited, Repr

/-- A walk under way: the steps to be taken, the next one first, the steps that were taken, the
last one first, and the parents met so far. -/
structure Walker where
  pending : List WalkStep
  taken : List WalkStep := []
  parents : List (Nat × Nat) := []
  deriving DecidableEq, Repr

namespace Walker

/-- The walk that is about to enter the root. -/
def start : Walker := { pending := [⟨.enter, 0, none⟩] }

/-- Puts the steps into the children of a node on the stack, the last child first. -/
def push (id : Nat) (children : List Nat) (pending : List WalkStep) : List WalkStep :=
  children.reverse.foldl (fun pending child => ⟨.enter, child, some id⟩ :: pending) pending

/-- The stack after a step: who enters a node has to walk its children and to leave it. -/
def following (o : Outline) (step : WalkStep) (rest : List WalkStep) : List WalkStep :=
  match step.phase with
  | .exit => rest
  | .enter => push step.target (o.children step.target) ({ step with phase := .exit } :: rest)

def advance (o : Outline) (w : Walker) : Walker :=
  match w.pending with
  | [] => w
  | step :: rest => ⟨following o step rest, step :: w.taken, noteParent w.parents step⟩

/-- Takes steps until none is left. -/
def finish (o : Outline) (w : Walker) : Walk := Id.run <|
  repeatM (fun w : Walker =>
    match w.pending with
    | [] => pure (.inr ⟨w.taken.reverse, w.parents⟩)
    | _ :: _ => pure (.inl (w.advance o))) w

theorem finish_eq (o : Outline) (w : Walker) :
    w.finish o =
      match w.pending with
      | [] => ⟨w.taken.reverse, w.parents⟩
      | _ :: _ => (w.advance o).finish o := by
  rw [finish, repeatM_eq_of_monadTail]
  cases hw : w.pending <;> simp [finish, repeatM.body, hw]

end Walker

namespace Walk

def ofOutline (o : Outline) : Walk := Walker.start.finish o

/-- The parent of a node, if the walk met one. -/
def parent? (w : Walk) (id : Nat) : Option Nat := Pairs.get? w.parents id

/-- Goes from a node to its parent, on to the parent of that, and so on, and puts each before
the nodes that were met earlier. -/
def climb (w : Walk) (met : List Nat) (id : Nat) : List Nat := Id.run <|
  repeatM (fun (met, id) =>
    match w.parent? id with
    | none => pure (.inr met)
    | some parent => pure (.inl (parent :: met, parent))) (met, id)

theorem climb_eq (w : Walk) (met : List Nat) (id : Nat) :
    w.climb met id =
      match w.parent? id with
      | none => met
      | some parent => w.climb (parent :: met) parent := by
  rw [climb, repeatM_eq_of_monadTail]
  cases hparent : w.parent? id <;> simp [climb, repeatM.body, hparent]

/-- The nodes above a node, the root first. -/
def ancestors (w : Walk) (id : Nat) : List Nat := w.climb [] id

end Walk

end LocatedJson
