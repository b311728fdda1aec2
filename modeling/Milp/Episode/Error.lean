import Milp.Control.Channel
import Milp.Instance.Directory
import Milp.Random.Choice

/-!
# Episode errors

Episodes tell misuse apart from failure: calls out of sequence, actions and arguments that make no
sense are the caller's; all else is a failure of the parameters, the solver, the channel or the
instances.
-/

namespace Milp

/-- Where an environment is in its episode. -/
inductive Phase where
  | created
  | awaitingAction
  | terminal
  | poisoned
  deriving DecidableEq, Repr, Inhabited

namespace Phase

/-- All phases. -/
def all : List Phase := [.created, .awaitingAction, .terminal, .poisoned]

/-- The phase in words. -/
def text : Phase → String
  | .created => "created"
  | .awaitingAction => "awaiting action"
  | .terminal => "terminal"
  | .poisoned => "poisoned"

end Phase

/-- A call out of sequence. -/
inductive Misstep where
  | notIdle
  | notControlled
  | modelOwned
  | modelLost
  | notSuspended
  | noEpisode
  | stepInPhase (phase : Phase)
  | control (cause : String)
  deriving DecidableEq, Repr

/-- The misstep in words. -/
def Misstep.text : Misstep → String
  | .notIdle => "a controlled solve can only start from an idle session"
  | .notControlled => "no controlled solve is suspended"
  | .modelOwned => "the model is owned by a controlled solve"
  | .modelLost => "the session lost its model to a failure"
  | .notSuspended => "the solver is not suspended at a decision point"
  | .noEpisode => "no episode in progress"
  | .stepInPhase phase => s!"step is not allowed in the {phase.text} phase"
  | .control cause => cause

/-- Why an action is not accepted. -/
inductive ActionRefusal (α : Type) where
  | notCandidate (v : Var)
  | emptySet
  | repeated (v : Var)
  | wholeSum (sum : α)
  | lengthMismatch (vars values : Nat)
  | outOfRange (v : Var)
  | nonFinite (value : α)

/-- The refusal in words. -/
def ActionRefusal.text : ActionRefusal Float → String
  | .notCandidate v => s!"{v.label} is not a branching candidate"
  | .emptySet => "cannot branch on an empty set of variables"
  | .repeated v => s!"{v.label} appears twice"
  | .wholeSum sum => "the LP values of the variables sum to the integer " ++ Number.text sum
  | .lengthMismatch vars values => s!"{vars} variable indices for {values} values"
  | .outOfRange v => s!"variable index {v.label} is out of range"
  | .nonFinite value => "non-finite value " ++ Number.text value

/-- Why an argument is not accepted. -/
inductive ArgumentRefusal (α : Type) where
  | zeroLimit
  | trialCount (trials : Int32)
  | sampling (cause : Random.ChoiceError α)

/-- The refusal in words. -/
def ArgumentRefusal.text : ArgumentRefusal Float → String
  | .zeroLimit => "candidate limit must be positive"
  | .trialCount trials => "illegal number of trials per node: " ++ Int.repr trials.toInt
  | .sampling cause => cause.message

/-- Everything that can go wrong in an episode. -/
inductive EpisodeError (α : Type) where
  | sequencing (misstep : Misstep)
  | invalidAction (refusal : ActionRefusal α)
  | invalidArgument (refusal : ArgumentRefusal α)
  | param (cause : ParamError)
  | solver (cause : SolverError α)
  | control (cause : ControlError α)
  | source (cause : InstanceError α)

namespace EpisodeError

variable {α : Type}

/-- Whether the error is the caller's. -/
def isUsage : EpisodeError α → Bool
  | .sequencing _ | .invalidAction _ | .invalidArgument _ => true
  | _ => false

/-- A solver error in an episode. Errors of parameters keep their own kind. -/
def ofSolver : SolverError α → EpisodeError α
  | .param cause => .param cause
  | cause => .solver cause

/-- A channel error in an episode. Failures of the solve and missteps keep their own kinds. -/
def ofControl : ControlError α → EpisodeError α
  | .solver cause => ofSolver cause
  | .sequencing cause => .sequencing (.control cause)
  | .foreignToken => .sequencing (.control "control token was issued by another channel")
  | cause => .control cause

/-- The error in words. -/
def message : EpisodeError Float → String
  | .sequencing misstep => s!"out of sequence: {misstep.text}"
  | .invalidAction refusal => "invalid action: " ++ refusal.text
  | .invalidArgument refusal => "invalid argument: " ++ refusal.text
  | .param cause => cause.message
  | .solver cause => cause.message
  | .control cause => cause.message
  | .source cause => cause.message

end EpisodeError
end Milp
