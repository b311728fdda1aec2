import Milp.Episode.Dynamics

/-!
# Episodes of primal search

Heuristic decisions of the solve are exposed at the depths of a schedule. At each of them partial
assignments may be tried, as many as the limit allows: the variables are fixed, the relaxation of
the rest is solved, and a whole and better optimum is kept. The empty assignment spends a trial
on nothing. The solve goes on when the trials are spent or the solver is asked to stop.
-/

namespace Milp

/-- Variables and the values to fix them to, position by position. -/
structure PartialAssignment (α : Type) where
  vars : List Var
  values : List α

/-- The largest count of trials. -/
def trialCounterLimit : Nat := 0xFFFFFFFF

/-- The dynamics of primal search: the trials allowed at a decision point, with a negative number
for any, and the depths of the decision points; then the trials spent at the current one, its node,
and what came of the last trial there. -/
structure PrimalSearchDynamics where
  trials : Int32
  schedule : Schedule
  spent : Nat := 0
  lastNode : Option Nat := none
  lastResult : Option TrialResult := none

namespace PrimalSearchDynamics

variable {α : Type}

/-- The dynamics with a limit of trials. Minus one stands for no limit; there is nothing below. -/
def withTrials (trials : Int32) (schedule : Schedule) :
    Except (EpisodeError α) PrimalSearchDynamics :=
  if trials < -1 then .error (.invalidArgument (.trialCount trials)) else .ok { trials, schedule }

variable [Scalar α] (b : PrimalSearchDynamics)

/-- Whether the next trial is the last one at its decision point. -/
def isLastTrial : Bool :=
  0 ≤ b.trials && b.trials.toInt ≤ min (b.spent + 1) trialCounterLimit

/-- The dynamics after one more trial. -/
def spend : PrimalSearchDynamics := { b with spent := min (b.spent + 1) trialCounterLimit }

/-- The dynamics at a decision point of a node. At another node than before nothing is spent. -/
def track (node : Nat) : PrimalSearchDynamics :=
  if b.lastNode = some node then b
  else { b with spent := 0, lastResult := none, lastNode := some node }

/-- What a reset or step leads to, once the solve has moved. -/
def outcome (session : EpisodeSession α) (done : Bool) :
    DynamicsResult PrimalSearchDynamics α (List Var) :=
  if done then (.ok ⟨true, none⟩, b, session)
  else
    match session.snapshot with
    | .error e => (Attempt.fail e, b, session)
    | .ok s => (.ok ⟨false, some s.pseudoCandidates⟩, b.track s.nodeNumber, session)

/-- Whether an assignment may be tried on `size` variables. -/
def check (size : Nat) (a : PartialAssignment α) : Except (ActionRefusal α) Unit :=
  if a.vars.length ≠ a.values.length then
    .error (.lengthMismatch a.vars.length a.values.length)
  else
    match a.vars.find? (size ≤ ·) with
    | some v => .error (.outOfRange v)
    | none =>
      match a.values.find? fun x => !Scalar.isFinite x with
      | some x => .error (.nonFinite x)
      | none => .ok ()

/-- The order to try an assignment. The decision point is left with what the trials have found
after the last trial, or when the search is to stop; else it is held. -/
def order (a : PartialAssignment α) : Order α Unit :=
  .act fun plan d k =>
    let (result, d) :=
      if a.vars.isEmpty then (.ok none, d)
      else
        let (result, d) := d.tryAssignment plan (a.vars.zip a.values)
        (result.map some, d)
    match result with
    | .error e => (Attempt.fail e, d, k)
    | .ok _ =>
      if b.isLastTrial || d.isStopped plan then (.ok (.choose d.heuristicChoice), d, k)
      else (.ok .hold, d, k)

/-- Starts the solve of an episode. Without any trials it runs to its end at once. -/
def reset (session : EpisodeSession α) : DynamicsResult PrimalSearchDynamics α (List Var) :=
  let b := { b with spent := 0, lastNode := none, lastResult := none }
  if b.trials = 0 then
    let (result, session) := session.solve
    (result.map fun _ => ⟨true, none⟩, b, session)
  else
    match session.start { heuristic := some b.schedule } () with
    | (.error e, session, _) => (Attempt.fail e, b, session)
    | (.ok done, session, _) => b.outcome session done

/-- What a step leads to, once the trial is over. Its result counts where the node is the same as
before. -/
def afterTrial (node : Nat) (session : EpisodeSession α) (done : Bool) :
    DynamicsResult PrimalSearchDynamics α (List Var) :=
  if done then b.spend.outcome session true
  else
    match session.snapshot with
    | .error e => (Attempt.fail e, b, session)
    | .ok s =>
      match b.spend.outcome session false with
      | (.error e, b, session) => (.error e, b, session)
      | (.ok outcome, b, session) =>
        let b := if b.lastNode = some node then { b with lastResult := s.lastTrial } else b
        (.ok outcome, b, session)

/-- Tries an assignment and goes on to the next trial. -/
def step (session : EpisodeSession α) (a : PartialAssignment α) :
    DynamicsResult PrimalSearchDynamics α (List Var) :=
  if !session.isSuspended then (Attempt.fail (.sequencing .notSuspended), b, session)
  else
    match session.snapshot with
    | .error e => (Attempt.fail e, b, session)
    | .ok s =>
      match check s.values.size a with
      | .error refusal => (Attempt.fail (.invalidAction refusal), b, session)
      | .ok () =>
        match session.resume (b.order a) () with
        | (.error e, session, _) => (Attempt.fail e, b, session)
        | (.ok done, session, _) => b.afterTrial s.nodeNumber session done

end PrimalSearchDynamics

instance {α : Type} [Scalar α] :
    Dynamics α PrimalSearchDynamics (PartialAssignment α) (List Var) where
  reset := PrimalSearchDynamics.reset
  step := PrimalSearchDynamics.step

end Milp
