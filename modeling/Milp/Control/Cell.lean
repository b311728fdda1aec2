import Milp.Model
import Milp.Search.Script

/-!
# The cell between controller and worker

A worker solves a model and a controller takes its decisions; exactly one of them is active at a
time. What they share is one cell: whose turn it is, the order that the controller has left, the
snapshot that the worker has published, and in the end the model and the failure of the solve.
-/

namespace Milp

/-- What a suspended solve is resumed with: leave the decision to the solver, or carry out an action
at the decision point, with a memory that goes from action to action. -/
inductive Order (α κ : Type) where
  | leave
  | act (action : Plan α → Decision α → κ →
      Attempt (SolverError α) Resolution × Decision α × κ)

namespace Order

variable {α κ : Type}

/-- The order to make a choice at once. -/
def resolve (choice : Choice) : Order α κ := .act fun _ d k => (.ok (.choose choice), d, k)

/-- The order to play a move and to remember its record. -/
def play [Scalar α] (m : Move α) : Order α (Array (MoveRecord α)) := .act fun plan d records =>
  let (reply, d, record) := m.play plan d
  (reply, d, records ++ record.toArray)

end Order

/-- What controller and worker share. -/
structure Cell (α κ : Type) where
  /-- Whether it is the worker's turn. -/
  workerActive : Bool := false
  /-- Whether the worker is to stop. -/
  terminate : Bool := false
  /-- Whether the worker has finished for good. -/
  finished : Bool := false
  /-- Whether the controller holds a token. -/
  tokenOut : Bool := false
  /-- The order that the worker has not taken yet. -/
  pending : Option (Order α κ) := none
  /-- What the worker has published last. -/
  snapshot : Option (Snapshot α) := none
  /-- The failure of the solve, until it is delivered. -/
  failure : Option (SolverError α) := none
  /-- The model, from the end of the solve until it is taken. -/
  model : Option (Model α) := none

/-- Who sleeps on the condition variable of a cell. A notification wakes everybody. -/
structure Sleepers where
  worker : Bool := false
  controller : Bool := false
  deriving DecidableEq, Repr

/-- Where the thread of a worker is. Between two places it takes one step, and it looks at the cell
in at most one critical section of it. -/
inductive Worker (α κ : Type) where
  /-- It has not started yet. -/
  | ready (m : Model α) (hooks : Hooks)
  /-- It searches. -/
  | solving (m : Model α) (plan : Plan α) (turn : Turn α)
  /-- It waits for its turn at a decision point. -/
  | waiting (m : Model α) (plan : Plan α) (d : Decision α)
  /-- It has taken an order to carry out at a decision point. -/
  | acting (m : Model α) (plan : Plan α) (d : Decision α) (order : Order α κ)
  /-- Its solve is over, and it has yet to say so. -/
  | closing (m : Model α) (result : Attempt (SolverError α) SolveStatus)
  /-- It has finished, and its thread has yet to end. -/
  | leaving
  /-- Its thread has ended, by a crash or not. -/
  | ended (crashed : Bool)

/-- The proof that it is the controller's turn, with the channel that issued it. -/
structure Token where
  channel : Nat
  deriving DecidableEq, Repr

/-- What a channel refuses or delivers. -/
inductive ControlError (α : Type) where
  | sequencing (cause : String)
  | foreignToken
  | finished
  | spawn (cause : String)
  | solver (cause : SolverError α)

/-- The error in words. -/
def ControlError.message : ControlError Float → String
  | .sequencing cause => s!"out of sequence: {cause}"
  | .foreignToken => "control token was issued by another channel"
  | .finished => "the solver has already finished"
  | .spawn cause => s!"failed to spawn the solver thread: {cause}"
  | .solver cause => cause.message

/-- What a worker reports of a crash. -/
def Crash.report : Crash → String
  | .message text => text
  | .silent => "unknown panic payload"

/-- The error that a worker reports of a failed solve. -/
def SolverError.ofFailure {α : Type} : Failure (SolverError α) → SolverError α
  | .error e => e
  | .crash c => .panicked c.report

/-- The error that a worker reports of how its solve ended, if it failed. -/
def SolverError.ofResult? {α β : Type} : Attempt (SolverError α) β → Option (SolverError α)
  | .ok _ => none
  | .error cause => some (.ofFailure cause)

end Milp
