import Milp.Search.Run

/-!
# Models

A model is a problem together with its parameters and the results of at most one solve. The solve
can be run with a handler for its decisions, or be opened, driven from outside and closed again.
-/

namespace Milp

/-- A problem, its parameters and what its solve found. The hooks say which decisions an installed
callback takes; there are none where no callback is installed. The clock is the one that a solve is
timed by. -/
structure Model (α : Type) where
  problem : Problem α
  registry : Registry
  stage : Stage
  status : SolveStatus
  incumbent : Option (Solution α)
  stats : Statistics α
  dualBound : Extended α
  interrupted : Bool
  hooks : Option Hooks
  clock : Clock := .still

/-- How a solve begins: it is over at once, or the search is entered. -/
inductive Opening (α : Type) where
  | over (result : Attempt (SolverError α) SolveStatus)
  | entered (plan : Plan α) (turn : Turn α)

/-- What a solve leaves: the model, the status or the failure, the memory of the handler and the
journal. -/
structure SolveReport (α κ : Type) where
  model : Model α
  result : Attempt (SolverError α) SolveStatus
  memory : κ
  journal : Array (JournalEvent α)

namespace Model

variable {α κ : Type}

/-- A fresh model with the given parameters. -/
def withRegistry (p : Problem α) (registry : Registry) (clock : Clock := .still) : Model α where
  problem := p
  registry
  stage := .problem
  status := .unknown
  incumbent := none
  stats := {}
  dualBound := p.sense.best
  interrupted := false
  hooks := none
  clock

/-- A fresh model with default parameters. -/
def ofProblem (p : Problem α) : Model α := withRegistry p defaultRegistry

variable (m : Model α)

/-- A fresh model over the same problem with the same parameters. There is none during a solve. -/
def copyProblem : Except (SolverError α) (Model α) :=
  if m.stage = .solving then .error (.invalidStage m.stage .copyProblem)
  else .ok (withRegistry m.problem m.registry m.clock)

/-- Sets a parameter. -/
def setParam (name : String) (value : ParamValue) : Except (SolverError α) (Model α) :=
  match m.registry.set name value with
  | .ok registry => .ok { m with registry }
  | .error e => .error (.param e)

/-- Sets parameters one after the other up to the first failure, which is reported. -/
def setParams (values : List (String × ParamValue)) :
    Model α × Except (SolverError α) Unit :=
  let (registry, result) := m.registry.setMany values
  ({ m with registry }, result.mapError .param)

/-- The value of a parameter. -/
def param (name : String) : Except (SolverError α) ParamValue :=
  (m.registry.get name).mapError .param

/-- Installs a callback for the given decisions. There can be only one. -/
def install (hooks : Hooks) : Except (SolverError α) (Model α) :=
  if m.hooks.isSome then .error .callbackInstalled else .ok { m with hooks := some hooks }

/-- Removes the callback. -/
def uninstall : Model α := { m with hooks := none }

variable [Scalar α]

/-- What the model shows of itself outside of any decision point. -/
def snapshot : Snapshot α :=
  { Snapshot.blank with
    stage := m.stage
    status := m.status
    nodeNumber := m.stats.nodesExplored
    nodesExplored := m.stats.nodesExplored
    primalBound := m.problem.primalBound m.incumbent
    dualBound := m.dualBound
    solutions := m.stats.solutionsFound
    iterations := m.stats.iterations }

/-! ### Solving -/

/-- Begins the solve. A solved model gives its status again; settings that cannot be read leave the
model as it is. -/
def opening : Opening α :=
  match m.stage with
  | .solved => .over (.ok m.status)
  | .solving => .over (Attempt.fail (.invalidStage .solving .startSolve))
  | .problem =>
    match Settings.read m.registry with
    | .error cause => .over (.error cause)
    | .ok settings =>
      let plan := Plan.ofSettings m.problem settings m.hooks m.clock
      .entered plan (.proceed (Search.start plan m.stats m.incumbent m.interrupted))

/-- The model with the results of a search. After an end or an error it is solved; after a crash it
remains as it was in the middle of the solve, without its callback. -/
def close (turn : Turn α) : Model α × Attempt (SolverError α) SolveStatus :=
  let s := turn.search
  let m := { m with stats := s.stats, incumbent := s.incumbent, interrupted := s.interrupted }
  match turn with
  | .ended status dualBound _ => ({ m with stage := .solved, status, dualBound }, .ok status)
  | .failed (.error e) _ => ({ m with stage := .solved, status := .unknown }, Attempt.fail e)
  | .failed (.crash c) _ => ({ m with stage := .solving, hooks := none }, .error (.crash c))
  | _ => ({ m with stage := .solving, hooks := none }, .error (.crash .silent))

/-- Solves the model with a handler for its decisions. -/
def solve (handler : Handler α κ) (memory : κ) : SolveReport α κ :=
  match m.opening with
  | .over result => ⟨m, result, memory, #[]⟩
  | .entered plan turn =>
    let (turn, memory) := plan.drive handler patience turn memory
    let (model, result) := m.close turn
    ⟨model, result, memory, turn.journal⟩

/-- Solves the model and leaves every decision to the solver. -/
def solveAlone : Model α × Attempt (SolverError α) SolveStatus :=
  let report := m.solve Handler.passive ()
  (report.model, report.result)

end Model
end Milp
