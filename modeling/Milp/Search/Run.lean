import Milp.Search.Step

/-!
# Running a search

A handler takes the decisions of a search, with a memory of its own from one to the next. `drive`
runs a search with a handler, `toDecision` runs it up to the next decision point. Both take a
number of turns that they may use; `patience` is more than any search will see.
-/

namespace Milp

/-- Takes a decision: makes a choice, fails or crashes, after any trials. -/
abbrev Handler (α κ : Type) : Type :=
  Plan α → Decision α → κ → Attempt (SolverError α) Choice × Decision α × κ

/-- The handler that leaves every decision to the solver. -/
def Handler.passive {α κ : Type} : Handler α κ := fun _ d k => (.ok .didNotRun, d, k)

/-- The number of turns that a search may take. -/
def patience : Nat := 0x4000000000000000

namespace Plan

variable {α κ : Type} [Scalar α] (plan : Plan α)

/-- Goes on from a decision point with what a handler gave. -/
def resolve (d : Decision α) : Attempt (SolverError α) Choice → Turn α
  | .ok choice => plan.answer d choice
  | .error cause => .failed cause d.search

/-- Runs a search for at most `turns` turns. -/
def drive (handler : Handler α κ) : Nat → Turn α → κ → Turn α × κ
  | 0, turn, k => (turn, k)
  | turns + 1, turn, k =>
    match turn with
    | .proceed s => drive handler turns (plan.advance s) k
    | .ask d =>
      let (reply, d, k) := handler plan d k
      drive handler turns (plan.resolve d reply) k
    | _ => (turn, k)

/-- Runs a search for at most `turns` turns, up to the next decision point. -/
def toDecision : Nat → Turn α → Turn α
  | 0, turn => turn
  | turns + 1, turn =>
    match turn with
    | .proceed s => toDecision turns (plan.advance s)
    | _ => turn

end Plan
end Milp
