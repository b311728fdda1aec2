import Milp.Failure
import Milp.Search.Decision

/-!
# Steps of a search

A search goes on in turns. `advance` takes the next open node: it drops it, makes its relaxation
the incumbent, branches on it, or stops at a decision point. `answer` goes on from a decision
point with what was decided there. Neither ever waits, so a search can be driven by anyone, and
put aside at any decision point.
-/

namespace Milp

/-- Where a search is after a step. -/
inductive Turn (α : Type) where
  /-- Another node can be taken. -/
  | proceed (s : Search α)
  /-- A decision is to be taken. -/
  | ask (d : Decision α)
  /-- The search is over. -/
  | ended (status : SolveStatus) (dualBound : Extended α) (s : Search α)
  /-- The search was given up. -/
  | failed (cause : Failure (SolverError α)) (s : Search α)

/-- The state of the search at a turn. -/
def Turn.search {α : Type} : Turn α → Search α
  | .proceed s => s
  | .ask d => d.search
  | .ended _ _ s => s
  | .failed _ s => s

/-- What the search has done up to a turn. A failure is part of it, a crash leaves no trace. -/
def Turn.journal {α : Type} : Turn α → Array (JournalEvent α)
  | .failed (.error cause) s => s.journal.push (.failed cause)
  | turn => turn.search.journal

/-- Waits at a decision point of a node. -/
def Turn.askAt {α : Type} (s : Search α) (f : Focus α) (point : DecisionPoint) : Turn α :=
  .ask { search := { s with stats := s.stats.onCallback }, focus := f, point }

/-- What a node is split by. -/
inductive Split (α : Type) where
  | onVariable (v : Var)
  | onSum (vs : List Var) (sum : α)

/-- Why a search ends. -/
inductive Ending where
  | explored
  | unbounded
  | stopped (status : SolveStatus)
  deriving DecidableEq, Repr

namespace Plan

variable {α : Type} [Scalar α] (plan : Plan α)

/-! ### The end of a search -/

/-- The status of a search that ends. -/
def endStatus (s : Search α) : Ending → SolveStatus
  | .unbounded => .unbounded
  | .stopped status => status
  | .explored => if s.incumbent.isSome then .optimal else .infeasible

/-- Ends the search. If it was stopped, the open nodes still count for the dual bound. -/
def finish (s : Search α) (ending : Ending) : Turn α :=
  let s := { s with monitor := s.monitor.after .exited }
  let status := endStatus s ending
  let primal := plan.problem.primalBound s.incumbent
  let dual := match ending with
    | .stopped _ => s.weakestBound plan.problem.sense primal
    | _ => primal
  let s := s.note (.finished status s.stats.nodesExplored s.stats.solutionsFound)
  .ended status dual (s.display plan (.closing status primal s.stats.nodesExplored))

/-- Stops the search and leaves a node open. -/
def stopAt (s : Search α) (node : Node α) (status : SolveStatus) : Turn α :=
  plan.finish { s with stack := node :: s.stack } (.stopped status)

/-! ### Branching -/

/-- Puts two children on the stack, the preferred one on top. -/
def pushChildren (s : Search α) (down up : Node α) : Search α :=
  { s with
    stack := match plan.settings.childSelection with
      | .down => down :: up :: s.stack
      | .up => up :: down :: s.stack
    lastNumber := s.lastNumber + 2
    stats := s.stats.onBranched }

/-- The values that the children of a variable are bounded by: the whole numbers around its value,
or around the upper or lower side of a whole value. -/
def splitValues (f : Focus α) (v : Var) : α × α :=
  let x := f.values.getD v 0
  if !Scalar.isWhole x plan.tolerance then (Scalar.floor x, Scalar.ceil x)
  else
    let r := Scalar.round x
    if (Scalar.extend r).lt (f.box.upperAt v) then (r, r + 1) else (r - 1, r)

/-- Splits the node in hand into two children. -/
def split (s : Search α) (f : Focus α) : Split α → Search α
  | .onVariable v =>
    let (down, up) := plan.splitValues f v
    let bound := Scalar.extend f.bound
    (plan.pushChildren s
      (f.node.child (s.lastNumber + 1) bound (.cutUpper v down))
      (f.node.child (s.lastNumber + 2) bound (.raiseLower v up))).note
        (.branched f.node.number v down up)
  | .onSum vs sum =>
    let down := Scalar.floor sum
    let up := Scalar.ceil sum
    let bound := Scalar.extend f.bound
    (plan.pushChildren s
      (f.node.childWithRow (s.lastNumber + 1) bound (Row.ofSum vs .lessEqual down))
      (f.node.childWithRow (s.lastNumber + 2) bound (Row.ofSum vs .greaterEqual up))).note
        (.branchedSum f.node.number vs.length down up)

/-- Splits the node in hand by the branching rule of the settings. -/
def splitByRule (s : Search α) (f : Focus α) : Search α :=
  let (v?, engine) := plan.settings.rule.select f.candidates f.values plan.rank s.engine
  let s := { s with engine }
  match v? with
  | none => s
  | some v => plan.split s f (.onVariable v)

/-- Why a variable cannot be branched on in the node in hand, if so. -/
def branchingRefusal? (f : Focus α) (v : Var) : Option BranchingRefusal :=
  if v ≥ plan.problem.size then some .outOfRange
  else if !plan.problem.isIntegral v then some .continuous
  else if f.box.isFixed plan.tolerance v then some .fixed
  else none

/-- Adds up the values of variables that can be branched on together, each of them once. -/
def branchingSum (f : Focus α) : List Var → List Var → α → Except (SolverError α) α
  | _, [], sum => .ok sum
  | seen, v :: vs, sum =>
    match plan.branchingRefusal? f v with
    | some refusal => .error (.invalidBranching v refusal)
    | none =>
      if v ∈ seen then .error (.invalidBranching v .repeated)
      else branchingSum f (v :: seen) vs (sum + f.values.getD v 0)

/-- The split that a choice names. A choice that leaves the branching to the solver names none. -/
def splitOf (f : Focus α) : Choice → Except (SolverError α) (Option (Split α))
  | .branched v =>
    match plan.branchingRefusal? f v with
    | some refusal => .error (.invalidBranching v refusal)
    | none => .ok (some (.onVariable v))
  | .branchedSum [] => .error (.invalidSumBranching .empty)
  | .branchedSum vs => do
    let sum ← plan.branchingSum f [] vs 0
    if Scalar.isWhole sum plan.tolerance then throw (.invalidSumBranching .wholeSum)
    else pure (some (.onSum vs sum))
  | _ => .ok none

/-! ### Decision points -/

/-- Whether a decision is to be asked for at a point of a node. -/
def asksAt (f : Focus α) (point : DecisionPoint) : Bool :=
  (plan.hooks.map (·.fires f.node.depth point)).getD false

/-- Goes on with a node behind its heuristic point: to the branching point, or to branching. -/
def offerBranching (s : Search α) (f : Focus α) : Turn α :=
  if plan.asksAt f .branching then Turn.askAt s f .branching
  else .proceed (plan.splitByRule s f)

/-- Goes on with a solved node that has fractional variables. -/
def offer (s : Search α) (f : Focus α) : Turn α :=
  if plan.asksAt f .heuristic then Turn.askAt s f .heuristic else plan.offerBranching s f

/-- Goes on from a decision point where nothing speaks against it: stops if the monitors say so,
drops a node that the trials have made pointless, and else branches or asks on. -/
def settle (d : Decision α) (split? : Option (Split α)) : Turn α :=
  let s := d.search
  match s.commandAt (plan.clock.decided s.stats.nodesExplored d.point) with
  | .terminate reason => plan.stopAt s d.focus.node (.ofStop reason)
  | .proceed =>
    if !plan.problem.canImprove (Scalar.extend d.focus.bound) s.incumbent plan.tolerance then
      .proceed { s with stats := s.stats.onPrunedByBound }
    else
      match d.point with
      | .heuristic => plan.offerBranching s d.focus
      | .branching =>
        match split? with
        | some split => .proceed (plan.split s d.focus split)
        | none => .proceed (plan.splitByRule s d.focus)

/-- Goes on from a decision point with the choice made there. -/
def answer (d : Decision α) (choice : Choice) : Turn α :=
  if !choice.isValidAt d.point then .failed (.error (.invalidChoice choice d.point)) d.search
  else if choice = .interrupt then plan.stopAt d.search d.focus.node .userInterrupt
  else
    match plan.splitOf d.focus choice with
    | .error e => .failed (.error e) d.search
    | .ok split? => plan.settle d split?

/-! ### Nodes -/

/-- Goes on with a node whose relaxation has an optimum. -/
def explore (s : Search α) (node : Node α) (box : Box α) (bound : α) (values : Array α) :
    Turn α :=
  let p := plan.problem
  let tol := plan.tolerance
  let s := (s.note (.nodeSolved node.number node.depth bound)).display plan
    (.node node.number node.depth bound s.stack.length)
  if !p.canImprove (Scalar.extend bound) s.incumbent tol then
    .proceed { s with stats := s.stats.onPrunedByBound }
  else
    let candidates := p.fractionalVars tol values
    if candidates.isEmpty then .proceed (s.install plan values)
    else
      plan.offer s {
        node, box, bound, values, candidates
        pseudoCandidates := p.integralVars.filter (box.isFree tol)
        dualBound := s.weakestBound p.sense (Scalar.extend bound) }

/-- Solves the relaxation of a node and goes on with it. -/
def visit (s : Search α) (node : Node α) : Turn α :=
  let box := node.box plan.problem
  match plan.relax box node.rows with
  | .error e => .failed (.error (.relaxation e)) s
  | .ok relaxed =>
    let stats := (s.stats.onRelaxation relaxed.iterations).onExplored node.depth
    let stats :=
      if node.depth = 0 then
        { stats with
          rootObjective := match relaxed.result with
            | .optimal objective _ => some objective
            | _ => none }
      else stats
    let s := { s with stats }
    match relaxed.result with
    | .infeasible =>
      .proceed ({ s with stats := stats.onPrunedInfeasible }.note (.nodeInfeasible node.number))
    | .unbounded => plan.finish s .unbounded
    | .optimal bound values => plan.explore s node box bound values

/-- Takes the next open node. -/
def advance (s : Search α) : Turn α :=
  match s.stack with
  | [] => plan.finish s .explored
  | node :: rest =>
    if !plan.problem.canImprove node.parentBound s.incumbent plan.tolerance then
      .proceed { s with stack := rest, stats := s.stats.onPrunedByBound }
    else
      let s := { s with stack := rest, monitor := s.monitor.after .stepped }
      match s.commandAt (plan.clock.beforeNode s.stats.nodesExplored) with
      | .terminate reason => plan.stopAt s node (.ofStop reason)
      | .proceed => plan.visit s node

end Plan
end Milp
