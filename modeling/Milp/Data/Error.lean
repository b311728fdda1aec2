import Milp.Data.Basic
import Milp.Episode.Error

/-!
# Errors as data

An error is written with its kind and its words. The kind names the cause; where one error wraps
another, the kind of the inner one follows behind a point. Errors of episodes also say whether they
are the caller's.
-/

namespace Milp

/-- An error with its kind, its words and more parts. -/
def Data.error (kind message : String) (more : List (String × Data) := []) : Data :=
  .parts ([("error", .of kind), ("message", .of message)] ++ more)

/-- The kind of the error. -/
def ValueError.kind : ValueError → String
  | .invalidCast .. => "InvalidCast"
  | .outOfRange .. => "OutOfRange"

/-- The kind of the error. -/
def ParamError.kind : ParamError → String
  | .unknown _ => "Unknown"
  | .duplicate _ => "Duplicate"
  | .rejected _ cause => "Rejected." ++ cause.kind

/-- The kind of the error. -/
def ProblemError.kind {α : Type} : ProblemError α → String
  | .duplicateVariable _ => "DuplicateVariable"
  | .duplicateConstraint _ => "DuplicateConstraint"
  | .emptyDomain .. => "EmptyDomain"
  | .infiniteLowerBound _ => "InfiniteLowerBound"
  | .nonFiniteCoefficient .. => "NonFiniteCoefficient"
  | .unknownVariable .. => "UnknownVariable"

/-- The kind of the error. -/
def LoadError.kind : LoadError → String
  | .io _ => "Io"
  | .unexpectedEnd => "UnexpectedEof"
  | .unparsable .. => "Parse"
  | .unexpectedWord .. => "UnexpectedToken"
  | .unknownVariable .. => "UnknownVariable"
  | .noVariables => "NoVariables"
  | .refused cause => "Problem." ++ cause.kind

/-- The kind of the error. -/
def RelaxationError.kind : RelaxationError → String
  | .iterationLimit _ => "IterationLimit"
  | .phaseOneUnbounded | .nonFiniteValue => "Numerical"

/-- The kind of the error. -/
def Random.ChoiceError.kind {α : Type} : Random.ChoiceError α → String
  | .tooMany .. => "TooManySamples"
  | .badWeight .. => "InvalidWeight"

/-- The kind of the error. -/
def SolverError.kind {α : Type} : SolverError α → String
  | .param cause => "Param." ++ cause.kind
  | .load cause => "Load." ++ cause.kind
  | .relaxation cause => "Lp." ++ cause.kind
  | .invalidSetting .. => "InvalidSetting"
  | .invalidStage .. => "InvalidStage"
  | .callbackInstalled => "CallbackInstalled"
  | .invalidBranching .. => "InvalidBranching"
  | .invalidSumBranching _ => "InvalidSumBranching"
  | .invalidChoice .. => "InvalidCallbackResult"
  | .invalidAssignment _ => "InvalidAssignment"
  | .callback _ => "Callback"
  | .panicked _ => "Panicked"

/-- The kind of the error. -/
def ControlError.kind {α : Type} : ControlError α → String
  | .sequencing _ => "Sequencing"
  | .foreignToken => "ForeignToken"
  | .finished => "Finished"
  | .spawn _ => "Spawn"
  | .solver cause => "Solver." ++ cause.kind

/-- The kind of the error. -/
def InstanceError.kind {α : Type} : InstanceError α → String
  | .listing .. => "Io"
  | .exhausted => "Exhausted"
  | .loading _ cause => "Load." ++ cause.kind

/-- The kind of the error. -/
def EpisodeError.kind {α : Type} : EpisodeError α → String
  | .sequencing _ => "Sequencing"
  | .invalidAction _ => "InvalidAction"
  | .invalidArgument _ => "InvalidArgument"
  | .param cause => "Param." ++ cause.kind
  | .solver cause => "Solver." ++ cause.kind
  | .control cause => "Control." ++ cause.kind
  | .source cause => "Instance." ++ cause.kind

instance : Writable ValueError := ⟨fun e => .error e.kind e.message⟩

instance : Writable ParamError := ⟨fun e => .error e.kind e.message⟩

instance : Writable (ProblemError Float) := ⟨fun e => .error e.kind e.message⟩

instance : Writable LoadError := ⟨fun e => .error e.kind e.message⟩

instance : Writable RelaxationError := ⟨fun e => .error e.kind e.message⟩

instance : Writable (Random.ChoiceError Float) := ⟨fun e => .error e.kind e.message⟩

instance : Writable (SolverError Float) := ⟨fun e => .error e.kind e.message⟩

instance : Writable (ControlError Float) := ⟨fun e => .error e.kind e.message⟩

instance : Writable (InstanceError Float) := ⟨fun e => .error e.kind e.message⟩

instance : Writable (EpisodeError Float) :=
  ⟨fun e => .error e.kind e.message [("usage", .of e.isUsage)]⟩

end Milp
