import Milp.Problem.Basic

/-!
# Decisions taken from outside

At two points of a node the search can be told what to do: before branching, partial assignments
may be tried as solutions; at the branching itself, the variable or the sum of variables to
branch on may be named. Hooks say which points are offered, a schedule at which depths.
-/

namespace Milp

/-- The kinds of decisions. -/
inductive DecisionPoint where
  | branching
  | heuristic
  deriving DecidableEq, Repr

namespace DecisionPoint

/-- All kinds. -/
def all : List DecisionPoint := [.branching, .heuristic]

/-- The kind in words. -/
def text : DecisionPoint → String
  | .branching => "branching"
  | .heuristic => "heuristic"

end DecisionPoint

/-- The depths at which heuristic decisions are offered: from `start` on every `freq` levels, up to
`stop` unless that is negative. The frequency zero means `start` only, a negative one never. -/
structure Schedule where
  freq : Int32 := 1
  start : Int32 := 0
  stop : Int32 := -1
  deriving DecidableEq, Repr, Inhabited

/-- Whether the schedule offers decisions at a depth. The distance from the start is taken in
64-bit numbers. -/
def Schedule.applies (s : Schedule) (depth : Nat) : Bool :=
  let depth : Int64 := Int64.ofNat (min depth 0x7FFFFFFFFFFFFFFF)
  let freq := s.freq.toInt64
  let start := s.start.toInt64
  let stop := s.stop.toInt64
  if freq < 0 then false
  else if freq = 0 then depth = start
  else start ≤ depth && (stop < 0 || depth ≤ stop) && (depth - start) % freq = 0

/-- Which decisions are offered. -/
structure Hooks where
  branching : Bool := false
  heuristic : Option Schedule := none
  deriving DecidableEq, Repr, Inhabited

/-- Whether a decision is offered at a depth. -/
def Hooks.fires (h : Hooks) (depth : Nat) : DecisionPoint → Bool
  | .branching => h.branching
  | .heuristic => (h.heuristic.map (·.applies depth)).getD false

/-- What is decided. -/
inductive Choice where
  | didNotRun
  | branched (v : Var)
  | branchedSum (vs : List Var)
  | foundSolution
  | didNotFind
  | interrupt
  deriving DecidableEq, Repr

namespace Choice

/-- Whether the choice may be made at a point. -/
def isValidAt (c : Choice) (point : DecisionPoint) : Bool :=
  match c with
  | .didNotRun | .interrupt => true
  | .branched _ | .branchedSum _ => point == .branching
  | .foundSolution | .didNotFind => point == .heuristic

/-- The choice in words. -/
def text : Choice → String
  | .didNotRun => "DidNotRun"
  | .branched v => s!"Branched({v.label})"
  | .branchedSum vs => s!"BranchedSum({vs.length} variables)"
  | .foundSolution => "FoundSolution"
  | .didNotFind => "DidNotFind"
  | .interrupt => "Interrupt"

end Choice

/-- What resolves a decision point: a choice, or the wish to be asked once more. -/
inductive Resolution where
  | choose (choice : Choice)
  | hold
  deriving DecidableEq, Repr

/-- The resolution in words. -/
def Resolution.text : Resolution → String
  | .choose choice => choice.text
  | .hold => "hold"

/-- What became of a partial assignment that was tried. -/
inductive TrialResult where
  | accepted
  | notImproving
  | fractional
  | infeasible
  deriving DecidableEq, Repr

/-- The result in words. -/
def TrialResult.text : TrialResult → String
  | .accepted => "Accepted"
  | .notImproving => "NotImproving"
  | .fractional => "Fractional"
  | .infeasible => "Infeasible"

end Milp
