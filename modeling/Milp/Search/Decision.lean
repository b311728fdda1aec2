import Milp.Search.Snapshot
import Milp.Search.State

/-!
# Decision points

At a decision point the search waits with a solved node in hand. Whoever decides may look at the
node, ask the search to stop, and try partial assignments: the named variables are fixed, the
relaxation of the rest is solved, and a whole and better optimum becomes the incumbent.
-/

namespace Milp

/-- The node in hand: its box, its relaxation, and the variables that can be branched on. -/
structure Focus (α : Type) where
  node : Node α
  box : Box α
  bound : α
  values : Array α
  candidates : List Var
  pseudoCandidates : List Var
  dualBound : Extended α

/-- A search that waits at a decision point. -/
structure Decision (α : Type) where
  search : Search α
  focus : Focus α
  point : DecisionPoint
  foundSolution : Bool := false
  lastTrial : Option TrialResult := none

namespace Decision

variable {α : Type} [Scalar α]

/-- Whether the search is asked to stop. -/
def isStopped (d : Decision α) (plan : Plan α) : Bool :=
  let stats := d.search.stats
  let now := plan.clock.deciding stats.nodesExplored d.point stats.trials
  d.search.interrupted || (d.search.commandAt now).isTerminate

/-- Asks the search to stop after the decision. -/
def interrupt (d : Decision α) : Decision α :=
  { d with search := { d.search with interrupted := true } }

/-- The choice to make after trials. -/
def heuristicChoice (d : Decision α) : Choice :=
  if d.foundSolution then .foundSolution else .didNotFind

/-- The objective value that the next point has to beat. -/
def primalBound (d : Decision α) (plan : Plan α) : Extended α :=
  plan.problem.primalBound d.search.incumbent

/-- Why an assignment cannot be tried, if so. -/
def refusal? (plan : Plan α) (assignment : List (Var × α)) : Option (AssignmentRefusal α) :=
  assignment.findSome? fun (v, x) =>
    if v ≥ plan.problem.size then some (.outOfRange v plan.problem.size)
    else if !Scalar.isFinite x then some (.nonFinite v x)
    else none

/-- Fixes the variables of an assignment one after the other. A value outside the bounds, or a
fractional one of an integral variable, leaves no box. -/
def fixAll (plan : Plan α) : List (Var × α) → Box α → Option (Box α)
  | [], box => some box
  | (v, x) :: rest, box =>
    let tol := plan.tolerance
    let outside := x < box.lowerAt v - tol ||
      ((box.upperAt v).add (Scalar.extend tol)).lt (Scalar.extend x)
    let whole := plan.problem.isIntegral v
    if outside || (whole && !Scalar.isWhole x tol) then none
    else fixAll plan rest (box.fix v (if whole then Scalar.round x else x))

/-- Judges the relaxation of what an assignment leaves open, and installs its optimum if that is
whole and better than the incumbent. -/
def judge (d : Decision α) (plan : Plan α) : RelaxationResult α → TrialResult × Decision α
  | .optimal objective values =>
    if !(plan.problem.fractionalVars plan.tolerance values).isEmpty then (.fractional, d)
    else if !plan.problem.canImprove (Scalar.extend objective) d.search.incumbent
        plan.tolerance then (.notImproving, d)
    else (.accepted, { d with search := d.search.install plan values, foundSolution := true })
  | _ => (.infeasible, d)

/-- Completes an assignment by the relaxation of the rest. -/
def probe (d : Decision α) (plan : Plan α) (assignment : List (Var × α)) :
    Except (SolverError α) TrialResult × Decision α :=
  match fixAll plan assignment d.focus.box with
  | none => (.ok .infeasible, d)
  | some box =>
    match plan.relax box d.focus.node.rows with
    | .error e => (.error (.relaxation e), d)
    | .ok relaxed =>
      let search := { d.search with stats := d.search.stats.onRelaxation relaxed.iterations }
      let (result, d) := { d with search }.judge plan relaxed.result
      (.ok result, d)

/-- Tries an assignment as the start of a solution. -/
def tryAssignment (d : Decision α) (plan : Plan α) (assignment : List (Var × α)) :
    Except (SolverError α) TrialResult × Decision α :=
  match refusal? plan assignment with
  | some refusal => (.error (.invalidAssignment refusal), d)
  | none =>
    let search := { d.search with stats := d.search.stats.onTrial }
    match { d with search }.probe plan assignment with
    | (.error e, d) => (.error e, d)
    | (.ok result, d) =>
      let event := .trial d.focus.node.number assignment.length result
      (.ok result, { d with lastTrial := some result, search := d.search.note event })

/-- What the solver shows of itself at the decision point. -/
def snapshot (d : Decision α) (plan : Plan α) : Snapshot α where
  stage := .solving
  status := .unknown
  decision := some d.point
  nodeNumber := d.focus.node.number
  depth := d.focus.node.depth
  nodesExplored := d.search.stats.nodesExplored
  openNodes := d.search.stack.length
  primalBound := d.primalBound plan
  dualBound := d.focus.dualBound
  objective := some d.focus.bound
  values := d.focus.values
  candidates := d.focus.candidates
  fractionalities := d.focus.candidates.map fun v => Scalar.fractionality (d.focus.values.getD v 0)
  pseudoCandidates := d.focus.pseudoCandidates
  solutions := d.search.stats.solutionsFound
  iterations := d.search.stats.iterations
  lastTrial := d.lastTrial

end Decision
end Milp
