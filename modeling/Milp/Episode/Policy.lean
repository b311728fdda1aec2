import Milp.Episode.Branching
import Milp.Episode.Environment
import Milp.Episode.PrimalSearch
import Milp.Episode.SumBranching

/-!
# Policies

A policy chooses an action from what the solver shows and from the actions offered. Playing a
policy steps an environment on as long as it awaits actions.
-/

namespace Milp

/-- Chooses an action; there is a snapshot, and the actions if the dynamics offers a set. -/
abbrev Policy (α action β : Type) : Type := Snapshot α → Option β → action

/-! ### Choosing an action -/

/-- A place in a list. -/
inductive Place where
  | first
  | middle
  | last
  deriving DecidableEq, Repr

/-- The variable at a place, for an empty list the first of the problem. -/
def Place.of (p : Place) (vs : List Var) : Var :=
  match p with
  | .first => vs.getD 0 0
  | .middle => vs.getD (vs.length / 2) 0
  | .last => vs.getD (vs.length - 1) 0

/-- Branches on the variable at a place among the candidates. -/
def Place.branching {α : Type} (p : Place) : Policy α BranchAction (List Var) :=
  fun _ actions => .onVariable (p.of (actions.getD []))

/-- Leaves the branching to the solver. -/
def Policy.bySolver {α : Type} : Policy α BranchAction (List Var) := fun _ _ => .bySolver

/-- Branches on the sum of the one variable at a place among the candidates. -/
def Place.sum {α : Type} (p : Place) : Policy α (List Var) (List Var) :=
  fun _ actions => [p.of (actions.getD [])]

section

variable {α : Type} [Scalar α]

/-- The length of the longest prefix of `vs` whose values, added to `sum`, end farther than `margin`
from a whole number; `count` variables stand before `vs`, and `best` is the length found there. -/
def fractionalLength (margin : α) (values : Array α) : List Var → α → Nat → Nat → Nat
  | [], _, _, best => best
  | v :: vs, sum, count, best =>
    let sum := sum + values.getD v 0
    let isFractional := margin < Scalar.abs (sum - Scalar.round sum)
    fractionalLength margin values vs sum (count + 1) (if isFractional then count + 1 else best)

/-- How far from whole numbers a sum is kept. -/
def sumMargin : α := Scalar.ofDouble 1e-4

/-- Branches on the longest sum of first candidates that is not nearly whole, of one at least. -/
def Policy.longestSum : Policy α (List Var) (List Var) := fun s actions =>
  let vs := actions.getD []
  vs.take (max 1 (fractionalLength sumMargin s.values vs 0 0 0))

/-- Tries nothing. -/
def Policy.idle : Policy α (PartialAssignment α) (List Var) := fun _ _ => ⟨[], []⟩

/-- Tries the values of all offered variables, each made whole. -/
def Policy.assigning (whole : α → α) : Policy α (PartialAssignment α) (List Var) :=
  fun s actions =>
    let vs := actions.getD []
    ⟨vs, vs.map fun v => whole (s.values.getD v 0)⟩

/-- Changes no parameter. -/
def Policy.unconfigured : Policy α Configuration Unit := fun _ _ => .empty

/-! ### Playing -/

/-- A step that was played: the action, what it led to, and the dynamics after it. -/
structure PlayedStep (α δ action β : Type) where
  action : action
  result : Attempt (EpisodeError α) (Transition α β)
  dynamics : δ

namespace Environment

variable {δ action β : Type} [Dynamics α δ action β]

/-- Plays a policy while an action is awaited, for at most so many steps; `actions` is what the last
transition has offered. -/
def play (policy : Policy α action β) :
    Nat → Option β → Environment α δ →
      List (PlayedStep α δ action β) × Option β × Environment α δ
  | 0, actions, e => ([], actions, e)
  | steps + 1, actions, e =>
    match e.phase, e.snapshot with
    | .awaitingAction, .ok s =>
      let a := policy s actions
      match e.step a with
      | (.ok t, e) =>
        let (rest, actions, last) := e.play policy steps t.actions
        (⟨a, .ok t, e.dynamics⟩ :: rest, actions, last)
      | (.error cause, e) => ([⟨a, .error cause, e.dynamics⟩], none, e)
    | _, _ => ([], actions, e)

end Environment
end
end Milp
