import Milp.Control.Cell

/-!
# Channels

A channel runs a solve on a worker that is suspended at every decision point. The controller waits
for its turn, gets a token for it, and gives both back when it resumes the worker with an order
or joins it. A failure of the solve is delivered once, by the next wait or join. Stopping a
channel lets the worker interrupt its search and finish.

The worker moves in steps (`workerStep`), and so does the controller: what it does to the cell
while it holds the lock is one function (`takeTurn`, `resume`, `orderStop`, `collect` and so on).
A call of the controller that has to wait runs the worker until it need not wait any more
(`runUntil`). `Milp.Control.Interleaving` lets both sides take their steps in any order.
-/

namespace Milp

/-- A solve on a worker, suspended at every decision point. -/
structure Channel (α κ : Type) where
  id : Nat
  cell : Cell α κ
  sleepers : Sleepers := {}
  worker : Worker α κ
  /-- Whether the controller has joined the thread of the worker. -/
  joined : Bool := false

/-- What a controller waits for. -/
inductive Awaited where
  /-- Its turn. -/
  | turn
  /-- The end of the solve. -/
  | finish
  /-- The end of the worker's thread. -/
  | thread
  deriving DecidableEq, Repr

namespace Channel

variable {α κ : Type}

/-- A channel whose worker is about to solve a model, asking for the given decisions. -/
def start (id : Nat) (m : Model α) (hooks : Hooks) : Channel α κ where
  id
  cell := { workerActive := true }
  worker := .ready m hooks

/-- Whether what a controller waits for has come. -/
def hasCome (c : Channel α κ) : Awaited → Bool
  | .turn => !c.cell.workerActive
  | .finish => c.cell.finished
  | .thread => match c.worker with
    | .ended _ => true
    | _ => false

variable [Scalar α] (c : Channel α κ)

/-- Wakes everybody who sleeps on the condition variable. -/
def notifyAll : Channel α κ := { c with sleepers := {} }

/-! ### The worker's side -/

/-- The worker installs its callback and begins the solve. -/
def begin (m : Model α) (hooks : Hooks) : Channel α κ :=
  match m.install hooks with
  | .error e => { c with worker := .closing m (Attempt.fail e) }
  | .ok m =>
    match m.opening with
    | .over result => { c with worker := .closing m result }
    | .entered plan turn => { c with worker := .solving m plan turn }

/-- The worker publishes a snapshot, gives its turn away and goes to sleep. -/
def suspend (m : Model α) (plan : Plan α) (d : Decision α) : Channel α κ :=
  let c := { c with cell := { c.cell with
    snapshot := some (d.snapshot plan)
    workerActive := false } }.notifyAll
  { c with
    sleepers := { c.sleepers with worker := true }
    worker := .waiting m plan d }

/-- The worker interrupts the search at a decision point. -/
def interrupt (m : Model α) (plan : Plan α) (d : Decision α) : Channel α κ :=
  { c with worker := .solving m plan (plan.answer d .interrupt) }

/-- The worker comes to a decision point. Once it is to stop, it interrupts the search there. -/
def enter (m : Model α) (plan : Plan α) (d : Decision α) : Channel α κ :=
  if c.cell.terminate then c.interrupt m plan d else c.suspend m plan d

/-- The worker goes on with its search. -/
def search (m : Model α) (plan : Plan α) : Turn α → Channel α κ
  | .proceed s => { c with worker := .solving m plan (plan.advance s) }
  | .ask d => c.enter m plan d
  | turn =>
    let (m, result) := m.close turn
    { c with worker := .closing m result }

/-- The worker has been woken up at a decision point. If it is its turn, it interrupts the search
or takes the order that has been left for it. -/
def wake (m : Model α) (plan : Plan α) (d : Decision α) : Channel α κ :=
  if !c.cell.workerActive then { c with sleepers := { c.sleepers with worker := true } }
  else if c.cell.terminate then c.interrupt m plan d
  else
    { c with
      cell := { c.cell with pending := none }
      worker := .acting m plan d (c.cell.pending.getD .leave) }

/-- The worker carries out an order at its decision point. After an action that holds it is at the
same decision point again. -/
def carryOut (m : Model α) (plan : Plan α) (d : Decision α) (order : Order α κ) (k : κ) :
    Channel α κ × κ :=
  match order with
  | .leave => ({ c with worker := .solving m plan (plan.answer d .didNotRun) }, k)
  | .act action =>
    match action plan d k with
    | (.ok (.choose choice), d, k) => ({ c with worker := .solving m plan (plan.answer d choice) }, k)
    | (.ok .hold, d, k) => ({ c with worker := .solving m plan (.ask d) }, k)
    | (.error cause, d, k) => ({ c with worker := .solving m plan (.failed cause d.search) }, k)

/-- The worker hands over the model and the outcome of the solve, and finishes. -/
def conclude (m : Model α) (result : Attempt (SolverError α) SolveStatus) : Channel α κ :=
  let m := m.uninstall
  { c with
    cell := { c.cell with
      snapshot := some m.snapshot
      failure := SolverError.ofResult? result
      model := some m
      finished := true
      workerActive := false }
    worker := .leaving }.notifyAll

/-- One step of the worker, unless it sleeps or its thread has ended. Nothing that it does outside
of the solve can crash. -/
def workerStep (k : κ) : Option (Channel α κ × κ) :=
  match c.worker with
  | .ready m hooks => some (c.begin m hooks, k)
  | .solving m plan turn => some (c.search m plan turn, k)
  | .waiting m plan d => if c.sleepers.worker then none else some (c.wake m plan d, k)
  | .acting m plan d order => some (c.carryOut m plan d order k)
  | .closing m result => some (c.conclude m result, k)
  | .leaving => some ({ c with worker := .ended false }, k)
  | .ended _ => none

/-- Lets the worker take steps until what a controller waits for has come. -/
def runUntil (awaited : Awaited) : Nat → Channel α κ → κ → Channel α κ × κ
  | 0, c, k => (c, k)
  | steps + 1, c, k =>
    if c.hasCome awaited then (c, k)
    else
      match c.workerStep k with
      | some (c, k) => runUntil awaited steps c k
      | none => (c, k)

/-! ### The controller's side -/

/-- The error of a wait by a controller that has its turn already. -/
def holdingToken : ControlError α := .sequencing "wait called while holding the control token"

/-- The error of a worker that crashed where it is not caught. -/
def crashedOutside : ControlError α :=
  .solver (.panicked "solver thread panicked outside of the solve")

/-- Takes the turn, which has come, or delivers a failure of the solve that was not delivered
yet. -/
def takeTurn : Except (ControlError α) Token × Channel α κ :=
  match c.cell.failure with
  | some e => (.error (.solver e), { c with cell := { c.cell with failure := none } })
  | none => (.ok ⟨c.id⟩, { c with cell := { c.cell with tokenOut := true } })

/-- Waits for the turn while the worker takes its steps. Fails if the controller has it already. -/
def wait (k : κ) (steps : Nat := patience) : Except (ControlError α) Token × Channel α κ × κ :=
  if c.cell.tokenOut then (.error holdingToken, c, k)
  else
    let (c, k) := c.runUntil .turn steps k
    let (result, c) := c.takeTurn
    (result, c, k)

/-- Whether the token was issued by another channel. -/
def isForeign (token : Token) : Bool := token.channel != c.id

/-- Gives the turn to the worker with an order. -/
def resume (order : Order α κ) (token : Token) : Except (ControlError α) Unit × Channel α κ :=
  if c.isForeign token then (.error .foreignToken, c)
  else
    let c := { c with cell := { c.cell with tokenOut := false } }
    if c.cell.finished then (.error .finished, c)
    else
      (.ok (), { c with cell := { c.cell with
        pending := some order
        workerActive := true } }.notifyAll)

/-- Whether the worker has finished. -/
def isDone (token : Token) : Except (ControlError α) Bool :=
  if c.isForeign token then .error .foreignToken else .ok c.cell.finished

/-- What the worker has published last. -/
def state (token : Token) : Except (ControlError α) (Snapshot α) :=
  if c.isForeign token then .error .foreignToken
  else .ok (c.cell.snapshot.getD Snapshot.blank)

/-- Takes the token back from a controller that gives up its turn. -/
def giveUp : Channel α κ := { c with cell := { c.cell with tokenOut := false } }

/-- Tells the worker to stop, if it has not finished, and goes to sleep. -/
def orderStop : Channel α κ :=
  if c.cell.finished then c
  else
    let c := { c with cell := { c.cell with
      terminate := true
      pending := some .leave
      workerActive := true } }.notifyAll
    { c with sleepers := { c.sleepers with controller := true } }

/-- Joins the thread of the worker, which has ended, unless that was done before. Fails if the
thread crashed. -/
def joinThread : Except (ControlError α) Unit × Channel α κ :=
  if c.joined then (.ok (), c)
  else
    match c.worker with
    | .ended true => (.error crashedOutside, { c with joined := true })
    | _ => (.ok (), { c with joined := true })

/-- Delivers a failure of the solve that was not delivered yet. -/
def collect : Except (ControlError α) Unit × Channel α κ :=
  match c.cell.failure with
  | some e => (.error (.solver e), { c with cell := { c.cell with failure := none } })
  | none => (.ok (), c)

/-- Lets the worker stop, if it has not finished, and joins its thread. -/
def shutdown (k : κ) : Except (ControlError α) Unit × Channel α κ × κ :=
  let (c, k) := c.runUntil .turn patience k
  let (c, k) := c.orderStop.runUntil .finish patience k
  let (c, k) := if c.joined then (c, k) else c.runUntil .thread patience k
  match c.joinThread with
  | (.error e, c) => (.error e, c, k)
  | (.ok (), c) =>
    let (result, c) := c.collect
    (result, c, k)

/-- Stops the worker and gives the token back. -/
def join (token : Token) (k : κ) : Except (ControlError α) Unit × Channel α κ × κ :=
  if c.isForeign token then (.error .foreignToken, c, k) else c.giveUp.shutdown k

/-- Takes the model, once the worker has finished. -/
def takeModel : Option (Model α) × Channel α κ :=
  if c.cell.finished then (c.cell.model, { c with cell := { c.cell with model := none } })
  else (none, c)

/-- Gives the channel up: the worker is stopped, and whatever it failed at is forgotten. -/
def abandon (k : κ) : κ := (c.shutdown k).2.2

end Channel
end Milp
