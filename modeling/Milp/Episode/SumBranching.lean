import Milp.Episode.Dynamics

/-!
# Episodes of branching on sums

Every branching decision of the solve is exposed, and an action names a set of variables to branch
on together: one child keeps the sum of them at most, the other at least at the whole numbers
around the sum of their values. The actions are the non-empty subsets of the candidates whose
values do not sum to a whole number.
-/

namespace Milp

/-- The dynamics of branching on sums. The tolerance is that of the model of the last reset; the
action set is the last one offered, with the values of all variables at that node. -/
structure SumBranchingDynamics (α : Type) where
  actionSet : Option (List Var) := none
  values : Array α := #[]
  tolerance : α

namespace SumBranchingDynamics

variable {α : Type} [Scalar α]

/-- The dynamics before any episode. -/
def initial : SumBranchingDynamics α := { tolerance := 0 }

variable (b : SumBranchingDynamics α)

/-- What a reset or step leads to, once the solve has moved. -/
def outcome (session : EpisodeSession α) (done : Bool) :
    DynamicsResult (SumBranchingDynamics α) α (List Var) :=
  if done then (.ok ⟨true, none⟩, { b with actionSet := none, values := #[] }, session)
  else
    match session.snapshot with
    | .error e => (Attempt.fail e, b, session)
    | .ok s =>
      (.ok ⟨false, some s.candidates⟩,
        { b with actionSet := some s.candidates, values := s.values }, session)

/-- The sum of the values of variables that stand in the action set, each of them once. -/
def sumOf : List Var → List Var → α → Except (ActionRefusal α) α
  | _, [], sum => .ok sum
  | seen, v :: vs, sum =>
    if !(b.actionSet.getD []).contains v then .error (.notCandidate v)
    else if seen.contains v then .error (.repeated v)
    else sumOf (v :: seen) vs (sum + b.values.getD v 0)

/-- Whether an action may be taken. -/
def check (vars : List Var) : Except (ActionRefusal α) Unit :=
  if vars.isEmpty then .error .emptySet
  else do
    let sum ← b.sumOf [] vars 0
    if Scalar.isWhole sum b.tolerance then throw (.wholeSum sum)

/-- Starts the solve of an episode with the tolerance of its model. -/
def reset (session : EpisodeSession α) :
    DynamicsResult (SumBranchingDynamics α) α (List Var) :=
  let b := { b with actionSet := none }
  match session.model with
  | .error e => (Attempt.fail e, b, session)
  | .ok m =>
    match m.registry.read .real "numerics/feastol" with
    | .error e => (Attempt.fail (.param e), b, session)
    | .ok tolerance =>
      let b := { b with tolerance := Scalar.ofDouble tolerance }
      match session.start { branching := true } () with
      | (.error e, session, _) => (Attempt.fail e, b, session)
      | (.ok done, session, _) => b.outcome session done

/-- Branches on the sum of variables and goes on to the next decision. -/
def step (session : EpisodeSession α) (vars : List Var) :
    DynamicsResult (SumBranchingDynamics α) α (List Var) :=
  if !session.isSuspended then (Attempt.fail (.sequencing .notSuspended), b, session)
  else
    match b.check vars with
    | .error refusal => (Attempt.fail (.invalidAction refusal), b, session)
    | .ok () =>
      match session.resume (.resolve (.branchedSum vars)) () with
      | (.error e, session, _) => (Attempt.fail e, b, session)
      | (.ok done, session, _) => b.outcome session done

end SumBranchingDynamics

instance {α : Type} [Scalar α] :
    Dynamics α (SumBranchingDynamics α) (List Var) (List Var) where
  reset := SumBranchingDynamics.reset
  step := SumBranchingDynamics.step

end Milp
