import Milp.Number.Text
import Milp.Search.Monitor

/-!
# Statistics

The search counts what it does. Every counter stops at the largest 64-bit number.
-/

namespace Milp

/-- The counters of a solve. -/
structure Statistics (α : Type) where
  nodesExplored : Nat := 0
  branchings : Nat := 0
  maxDepth : Nat := 0
  prunedInfeasible : Nat := 0
  prunedByBound : Nat := 0
  solutionsFound : Nat := 0
  relaxationsSolved : Nat := 0
  iterations : Nat := 0
  trials : Nat := 0
  callbackCalls : Nat := 0
  rootObjective : Option α := none
  time : Duration := ⟨0⟩

namespace Statistics

variable {α : Type} (s : Statistics α)

/-- A node at a depth was explored. -/
def onExplored (depth : Nat) : Statistics α :=
  { s with nodesExplored := countUp s.nodesExplored, maxDepth := max s.maxDepth depth }

/-- A node was branched on. -/
def onBranched : Statistics α := { s with branchings := countUp s.branchings }

/-- A node was dropped because nothing in it is feasible. -/
def onPrunedInfeasible : Statistics α :=
  { s with prunedInfeasible := countUp s.prunedInfeasible }

/-- A node was dropped because nothing in it beats the incumbent. -/
def onPrunedByBound : Statistics α := { s with prunedByBound := countUp s.prunedByBound }

/-- An incumbent was installed. -/
def onSolution : Statistics α := { s with solutionsFound := countUp s.solutionsFound }

/-- A relaxation was solved in so many pivots. -/
def onRelaxation (iterations : Nat) : Statistics α :=
  { s with
    relaxationsSolved := countUp s.relaxationsSolved
    iterations := countUp s.iterations iterations }

/-- A partial assignment was tried. -/
def onTrial : Statistics α := { s with trials := countUp s.trials }

/-- A decision was asked for. -/
def onCallback : Statistics α := { s with callbackCalls := countUp s.callbackCalls }

end Statistics

/-- The counters in words, without the time. -/
def Statistics.counterLines (s : Statistics Float) : List String :=
  let root := match s.rootObjective with
    | some x => Number.text x
    | none => "-"
  ["Rudder-BnB Solver Statistics:",
    s!"  Nodes explored:       {s.nodesExplored}",
    s!"  Branchings:           {s.branchings}",
    s!"  Max depth reached:    {s.maxDepth}",
    s!"  Prunings (infeasible):{s.prunedInfeasible}",
    s!"  Prunings (bound):     {s.prunedByBound}",
    s!"  Solutions found:      {s.solutionsFound}",
    s!"  LP solves:            {s.relaxationsSolved}",
    s!"  LP iterations:        {s.iterations}",
    s!"  Probing trials:       {s.trials}",
    s!"  Callback calls:       {s.callbackCalls}",
    "  Root LP objective:    " ++ root]

/-- The statistics in words, a line for each counter. -/
def Statistics.text (s : Statistics Float) : String :=
  String.join ((s.counterLines ++ ["  Total time:           " ++ s.time.text]).map (· ++ "\n"))

end Milp
