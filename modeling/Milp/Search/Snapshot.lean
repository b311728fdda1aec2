import Milp.Number.Tolerance
import Milp.Problem.Basic
import Milp.Search.Choice
import Milp.Search.Status

/-!
# Snapshots

A snapshot is what the solver shows of itself: at a decision point with the node in hand and its
relaxation, otherwise with the results so far. The gap compares the objective value in hand with
the one that no point can beat.
-/

namespace Milp

/-- What the solver shows of itself. -/
structure Snapshot (α : Type) where
  stage : Stage
  status : SolveStatus
  decision : Option DecisionPoint
  nodeNumber : Nat
  depth : Nat
  nodesExplored : Nat
  openNodes : Nat
  primalBound : Extended α
  dualBound : Extended α
  objective : Option α
  values : Array α
  candidates : List Var
  fractionalities : List α
  pseudoCandidates : List Var
  solutions : Nat
  iterations : Nat
  lastTrial : Option TrialResult

section

variable {α : Type} [Scalar α]

/-- The distance of two bounds in relation to the smaller one. It is infinite while one of them is
not known, and where one of two different bounds is zero. -/
def relativeGap (primal dual : Extended α) : Extended α :=
  match primal, dual with
  | .fin p, .fin d =>
    let difference := Scalar.abs (p - d)
    if difference == 0 then .fin 0
    else
      let scale := Scalar.min (Scalar.abs p) (Scalar.abs d)
      if scale == 0 then .posInf else Scalar.extend (difference / scale)
  | _, _ => .posInf

namespace Snapshot

/-- The gap between the bounds. -/
def gap (s : Snapshot α) : Extended α := relativeGap s.primalBound s.dualBound

/-- Whether the solve is over. -/
def isSolved (s : Snapshot α) : Bool := s.stage = .solved

/-- A snapshot of nothing. -/
def blank : Snapshot α where
  stage := .problem
  status := .unknown
  decision := none
  nodeNumber := 0
  depth := 0
  nodesExplored := 0
  openNodes := 0
  primalBound := .fin 0
  dualBound := .fin 0
  objective := none
  values := #[]
  candidates := []
  fractionalities := []
  pseudoCandidates := []
  solutions := 0
  iterations := 0
  lastTrial := none

end Snapshot
end
end Milp
