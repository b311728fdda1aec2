import Milp.Param.Registry
import Milp.Problem.Read
import Milp.Relaxation.Solve
import Milp.Search.Choice
import Milp.Search.Status

/-!
# Solver errors

Everything that the solver refuses or fails at, each with its cause and the words for it.
-/

namespace Milp

/-- What a model refuses at a stage. -/
inductive StageOperation where
  | copyProblem
  | startSolve
  deriving DecidableEq, Repr

/-- The operation in words. -/
def StageOperation.text : StageOperation → String
  | .copyProblem => "copy the original problem"
  | .startSolve => "start a solve"

/-- Why a variable cannot be branched on. -/
inductive BranchingRefusal where
  | outOfRange
  | continuous
  | fixed
  | repeated
  deriving DecidableEq, Repr

/-- The refusal in words. -/
def BranchingRefusal.text : BranchingRefusal → String
  | .outOfRange => "index out of range"
  | .continuous => "variable is continuous"
  | .fixed => "variable is fixed at this node"
  | .repeated => "variable appears twice in the sum"

/-- Why a sum cannot be branched on. -/
inductive SumRefusal where
  | empty
  | wholeSum
  deriving DecidableEq, Repr

/-- The refusal in words. -/
def SumRefusal.text : SumRefusal → String
  | .empty => "empty variable set"
  | .wholeSum => "the LP values sum to an integer"

/-- Why a partial assignment cannot be tried. -/
inductive AssignmentRefusal (α : Type) where
  | outOfRange (v : Var) (size : Nat)
  | nonFinite (v : Var) (value : α)

/-- The refusal in words. -/
def AssignmentRefusal.text : AssignmentRefusal Float → String
  | .outOfRange v size => s!"{v.label} is out of range for {size} variables"
  | .nonFinite v value => s!"{v.label} assigned non-finite value " ++ Number.text value

/-- What the solver refuses or fails at. -/
inductive SolverError (α : Type) where
  | param (cause : ParamError)
  | load (cause : LoadError)
  | relaxation (cause : RelaxationError)
  | invalidSetting (name : String) (value : Char)
  | invalidStage (stage : Stage) (operation : StageOperation)
  | callbackInstalled
  | invalidBranching (v : Var) (refusal : BranchingRefusal)
  | invalidSumBranching (refusal : SumRefusal)
  | invalidChoice (choice : Choice) (point : DecisionPoint)
  | invalidAssignment (refusal : AssignmentRefusal α)
  | callback (cause : String)
  | panicked (cause : String)

/-- The error in words. -/
def SolverError.message : SolverError Float → String
  | .param cause => cause.message
  | .load cause => "failed to read problem: " ++ cause.message
  | .relaxation cause => "LP relaxation failed: " ++ cause.message
  | .invalidSetting name value => s!"parameter {name} has unsupported value {value}"
  | .invalidStage stage operation => s!"cannot {operation.text} in stage {stage.text}"
  | .callbackInstalled => "a decision callback is already installed"
  | .invalidBranching v refusal => s!"cannot branch on {v.label}: {refusal.text}"
  | .invalidSumBranching refusal => s!"cannot branch on a sum of variables: {refusal.text}"
  | .invalidChoice choice point =>
    s!"callback returned {choice.text} at a {point.text} decision point"
  | .invalidAssignment refusal => "invalid assignment: " ++ refusal.text
  | .callback cause => s!"decision callback failed: {cause}"
  | .panicked cause => s!"solver thread panicked: {cause}"

end Milp
