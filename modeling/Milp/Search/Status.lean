import Milp.Search.Monitor

/-!
# Stages and statuses

A model is at a stage of its one solve: before, during or after it. The status says how the
solve ended: with a proof about the whole problem, or early for one of the stop reasons.
-/

namespace Milp

/-- Where a model is in its solve. -/
inductive Stage where
  | problem
  | solving
  | solved
  deriving DecidableEq, Repr, Inhabited

namespace Stage

/-- All stages. -/
def all : List Stage := [.problem, .solving, .solved]

/-- The stage in words. -/
def text : Stage → String
  | .problem => "problem"
  | .solving => "solving"
  | .solved => "solved"

end Stage

/-- How a solve ended; unknown as long as none has. -/
inductive SolveStatus where
  | unknown
  | optimal
  | infeasible
  | unbounded
  | userInterrupt
  | timeLimit
  | nodeLimit
  | solutionLimit
  deriving DecidableEq, Repr, Inhabited

namespace SolveStatus

/-- All statuses. -/
def all : List SolveStatus :=
  [.unknown, .optimal, .infeasible, .unbounded, .userInterrupt, .timeLimit, .nodeLimit,
    .solutionLimit]

/-- Whether the status is a proof about the whole problem. -/
def isProven : SolveStatus → Bool
  | .optimal | .infeasible | .unbounded => true
  | _ => false

/-- Whether the solve was stopped early. -/
def isAborted : SolveStatus → Bool
  | .userInterrupt | .timeLimit | .nodeLimit | .solutionLimit => true
  | _ => false

/-- The status of a solve that was stopped. -/
def ofStop : StopReason → SolveStatus
  | .interrupt => .userInterrupt
  | .timeLimit => .timeLimit
  | .nodeLimit => .nodeLimit
  | .solutionLimit => .solutionLimit

/-- The status in words. -/
def text : SolveStatus → String
  | .unknown => "unknown"
  | .optimal => "optimal solution found"
  | .infeasible => "problem is infeasible"
  | .unbounded => "problem is unbounded"
  | .userInterrupt => "user interrupt"
  | .timeLimit => "time limit reached"
  | .nodeLimit => "node limit reached"
  | .solutionLimit => "solution limit reached"

end SolveStatus
end Milp
