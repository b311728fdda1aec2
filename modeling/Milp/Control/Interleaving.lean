import Milp.Control.Channel

/-!
# Controller and worker in any order

The calls of a controller and the steps of a worker, taken in any order at all. Each side is a
thread of its own; what a thread does to the cell while it holds the lock is one step, and so is
what it does between two looks at the cell. A thread that sleeps on the condition variable takes no
step until it is notified.

A system also knows what no thread can see: how many tokens of the channel are alive, and what
happened so far. Tokens are neither copied nor made up (`System.MayCall`); they can get lost, and
those of other channels can turn up in any call.
-/

namespace Milp

/-! ### Calls and responses -/

/-- Why a controller shuts a channel down. -/
inductive Stop where
  /-- It gives its token back. -/
  | join
  /-- It wants the model back after an error. -/
  | recovery
  /-- It drops the channel. -/
  | drop
  deriving DecidableEq, Repr

/-- Where the thread of a controller is. -/
inductive Controller where
  /-- Between two calls. -/
  | free
  /-- In a wait, until its turn comes. -/
  | waiting
  /-- In a shutdown, until its turn comes. -/
  | stopping (why : Stop)
  /-- In a shutdown, until the solve is over. -/
  | finishing (why : Stop)
  /-- In a shutdown, until the worker's thread has ended. -/
  | joining (why : Stop)
  /-- In a shutdown, about to look for a failure. -/
  | collecting (why : Stop)
  /-- The channel has been dropped. -/
  | gone
  deriving DecidableEq, Repr

/-- A call of the controller. -/
inductive Call (α κ : Type) where
  | wait
  | resume (order : Order α κ) (token : Token)
  | isDone (token : Token)
  | state (token : Token)
  | join (token : Token)
  | takeModel
  | recover
  | drop

/-- The token that a call is made with. -/
def Call.token? {α κ : Type} : Call α κ → Option Token
  | .resume _ token | .isDone token | .state token | .join token => some token
  | .wait | .takeModel | .recover | .drop => none

/-- What a call shuts the channel down for, if it does. -/
def Call.stop? {α κ : Type} : Call α κ → Option Stop
  | .join _ => some .join
  | .recover => some .recovery
  | .drop => some .drop
  | .wait | .resume .. | .isDone _ | .state _ | .takeModel => none

/-- What a call gives back. A channel that is dropped keeps its failure to itself. -/
inductive Response (α : Type) where
  | wait (result : Except (ControlError α) Token)
  | resume (result : Except (ControlError α) Unit)
  | isDone (result : Except (ControlError α) Bool)
  | state (result : Except (ControlError α) (Snapshot α))
  | join (result : Except (ControlError α) Unit)
  | takeModel (m : Option (Model α))
  | recover (result : Except (ControlError α) Unit)
  | drop

/-- The error of a result. -/
def errorOf? {ε β : Type} : Except ε β → Option ε
  | .ok _ => none
  | .error e => some e

/-- The error that a response tells. -/
def Response.error? {α : Type} : Response α → Option (ControlError α)
  | .wait result => errorOf? result
  | .resume result => errorOf? result
  | .isDone result => errorOf? result
  | .state result => errorOf? result
  | .join result => errorOf? result
  | .recover result => errorOf? result
  | .takeModel _ | .drop => none

/-- What a shutdown gives back. -/
def Stop.response {α : Type} (result : Except (ControlError α) Unit) : Stop → Response α
  | .join => .join result
  | .recovery => .recover result
  | .drop => .drop

/-- Where the controller is after a shutdown. -/
def Stop.after : Stop → Controller
  | .join | .recovery => .free
  | .drop => .gone

/-- Something that happened on a channel. -/
inductive Event (α : Type) where
  /-- The worker finished, with the failure of its solve if it had one. -/
  | concluded (failure : Option (SolverError α))
  /-- A call of the controller gave something back. -/
  | responded (response : Response α)

/-! ### Steps -/

/-- A channel with both of its threads. -/
structure System (α κ : Type) where
  channel : Channel α κ
  controller : Controller := .free
  /-- What actions remember. -/
  memory : κ
  /-- How many tokens of the channel are alive. -/
  tokens : Nat := 0
  /-- What happened so far. -/
  log : List (Event α) := []

namespace System

variable {α κ : Type}

/-- A channel that has just been started. -/
def start (id : Nat) (m : Model α) (hooks : Hooks) (memory : κ) : System α κ where
  channel := Channel.start id m hooks
  memory

variable (s : System α κ)

/-- The system with one more response. -/
def respond (r : Response α) : System α κ := { s with log := s.log ++ [.responded r] }

/-- The controller goes to sleep. -/
def sleep : System α κ :=
  { s with channel := { s.channel with
    sleepers := { s.channel.sleepers with controller := true } } }

/-- A token is used up by a call. Those of other channels are not counted here. -/
def spend (token : Token) : System α κ :=
  if s.channel.isForeign token then s else { s with tokens := s.tokens - 1 }

/-- What happens when a worker takes its next step. -/
def announcement : Worker α κ → List (Event α)
  | .closing _ result => [.concluded (SolverError.ofResult? result)]
  | _ => []

variable [Scalar α]

/-- A step of the worker. -/
def workerStep : Option (System α κ) :=
  (s.channel.workerStep s.memory).map fun (c, k) =>
    { s with channel := c, memory := k, log := s.log ++ announcement s.channel.worker }

/-- A controller that waits looks whether its turn has come, and takes it. -/
def lookForTurn : System α κ :=
  if s.channel.hasCome .turn then
    let (result, c) := s.channel.takeTurn
    let tokens := if (errorOf? result).isSome then s.tokens else s.tokens + 1
    { s with channel := c, controller := .free, tokens }.respond (.wait result)
  else s.sleep

/-- A controller that shuts the channel down looks whether its turn has come, and tells the worker
to stop. -/
def lookToStop (why : Stop) : System α κ :=
  if s.channel.hasCome .turn then
    let c := s.channel.orderStop
    { s with channel := c, controller := if c.hasCome .finish then .joining why else .finishing why }
  else s.sleep

/-- A controller that shuts the channel down looks whether the solve is over. -/
def lookForFinish (why : Stop) : System α κ :=
  if s.channel.hasCome .finish then { s with controller := .joining why } else s.sleep

/-- A shutdown is over. -/
def finishStop (why : Stop) (result : Except (ControlError α) Unit) : System α κ :=
  { s with controller := why.after }.respond (why.response result)

/-- A controller that shuts the channel down joins the thread of the worker. -/
def joinThread (why : Stop) : System α κ :=
  match s.channel.joinThread with
  | (.error e, c) => { s with channel := c }.finishStop why (.error e)
  | (.ok (), c) => { s with channel := c, controller := .collecting why }

/-- A controller that shuts the channel down looks for a failure. -/
def collect (why : Stop) : System α κ :=
  let (result, c) := s.channel.collect
  { s with channel := c }.finishStop why result

/-- A step of the controller within a call, unless it sleeps or is blocked by the worker's
thread. -/
def controllerStep : Option (System α κ) :=
  match s.controller with
  | .free | .gone => none
  | .waiting => if s.channel.sleepers.controller then none else some s.lookForTurn
  | .stopping why => if s.channel.sleepers.controller then none else some (s.lookToStop why)
  | .finishing why => if s.channel.sleepers.controller then none else some (s.lookForFinish why)
  | .joining why =>
    if s.channel.joined || s.channel.hasCome .thread then some (s.joinThread why) else none
  | .collecting why => some (s.collect why)

/-- The first step of a call, which is the only one where nothing has to be waited for. -/
def perform : Call α κ → System α κ
  | .wait =>
    if s.channel.cell.tokenOut then s.respond (.wait (.error Channel.holdingToken))
    else { s with controller := .waiting }.lookForTurn
  | .resume order token =>
    let (result, c) := s.channel.resume order token
    ({ s with channel := c }.spend token).respond (.resume result)
  | .isDone token => s.respond (.isDone (s.channel.isDone token))
  | .state token => s.respond (.state (s.channel.state token))
  | .join token =>
    if s.channel.isForeign token then s.respond (.join (.error .foreignToken))
    else { s with channel := s.channel.giveUp, controller := .stopping .join }.spend token
  | .takeModel =>
    let (m, c) := s.channel.takeModel
    { s with channel := c }.respond (.takeModel m)
  | .recover => { s with controller := .stopping .recovery }
  | .drop => { s with controller := .stopping .drop }

/-- Whether a call can be made: the controller is not in another one, and a token of the channel
that the call is made with is alive. The model is recovered by a controller that has given its
turn up. -/
structure MayCall (call : Call α κ) : Prop where
  free : s.controller = .free
  alive : ∀ token ∈ call.token?, s.channel.isForeign token = false → 0 < s.tokens
  unheld : call = .recover → s.tokens = 0

/-- A step of the worker, or of the controller within a call. -/
inductive Progress : System α κ → System α κ → Prop
  | worker {s t : System α κ} : s.workerStep = some t → Progress s t
  | controller {s t : System α κ} : s.controllerStep = some t → Progress s t

/-- A step of any kind: one of the two threads goes on, a call is made, or a token gets lost. -/
inductive Step : System α κ → System α κ → Prop
  | progress {s t : System α κ} : Progress s t → Step s t
  | call {s : System α κ} (call : Call α κ) : s.MayCall call → Step s (s.perform call)
  | lose {s : System α κ} : 0 < s.tokens → Step s { s with tokens := s.tokens - 1 }

/-- Whether a system can come about, from any model, by any calls and any order of steps. -/
inductive Reachable : System α κ → Prop
  | start (id : Nat) (m : Model α) (hooks : Hooks) (memory : κ) :
      Reachable (start id m hooks memory)
  | step {s t : System α κ} : Reachable s → Step s t → Reachable t

end System
end Milp
