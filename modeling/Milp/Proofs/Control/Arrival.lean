import Milp.Proofs.Control.Calls
import Milp.Proofs.Control.Strategy
import Milp.Proofs.Search.Runs

/-!
# Where a worker arrives

A worker that has been resumed carries out its order and searches on, up to the next decision point or
to the end of the solve. So where the controller has its turn again, the worker stands where the search
itself comes to from there (`Channel.Arrives`): it is suspended at the decision that `Plan.toDecision`
finds, or it has finished with what a closed search leaves (`Channel.arrives_runUntil`). Only a search
that can take another node may still go on when the steps that it was granted are used up.
-/

namespace Milp

variable {α κ : Type} [Scalar α]

/-- Where the search goes on from a decision point at which an order is carried out, and what the order
remembers. -/
def Order.carried (order : Order α κ) (plan : Plan α) (d : Decision α) (k : κ) : Turn α × κ :=
  match order with
  | .leave => (plan.answer d .didNotRun, k)
  | .act action =>
    let (reply, d, k) := action plan d k
    (plan.afterRound d reply, k)

namespace Channel

variable {c c' : Channel α κ} {m : Model α} {plan : Plan α} {turn : Turn α} {d : Decision α} {k : κ}

/-- A worker carries an order out and goes on with its search from there. -/
theorem carryOut_eq (c : Channel α κ) (m : Model α) (plan : Plan α) (d : Decision α)
    (order : Order α κ) (k : κ) : c.carryOut m plan d order k =
      ({ c with worker := .solving m plan (order.carried plan d k).1 },
        (order.carried plan d k).2) := by
  cases order with
  | leave => rfl
  | act action =>
    rw [carryOut, Order.carried]
    split
    next eq => rw [eq]; rfl
    next eq => rw [eq]; rfl
    next eq => rw [eq]; rfl

/-- A worker that runs takes one step after the other. -/
theorem runUntil_step {k' : κ} {awaited : Awaited} (ahead : c.hasCome awaited = false)
    (moved : c.workerStep k = some (c', k')) (steps : Nat) :
    c.runUntil awaited (steps + 1) k = c'.runUntil awaited steps k' := by
  rw [runUntil, if_neg (by simp [ahead])]
  simp only [moved]

omit [Scalar α] in
/-- While it is the worker's turn, the controller's has not come. -/
theorem hasCome_turn_of_active (active : c.cell.workerActive = true) : c.hasCome .turn = false := by
  rw [hasCome, active]
  rfl

/-- A worker that is woken up takes the order that is left for it, and carries it out. -/
theorem runUntil_of_order {order : Order α κ} (worker_eq : c.worker = .waiting m plan d)
    (awake : c.sleepers.worker = false) (active : c.cell.workerActive = true)
    (running : c.cell.terminate = false) (left : c.cell.pending = some order) (steps : Nat) :
    c.runUntil .turn (steps + 2) k = runUntil .turn steps { c with
      cell := { c.cell with pending := none }
      worker := .solving m plan (order.carried plan d k).1 } (order.carried plan d k).2 := by
  have taken : c.workerStep k = some ({ c with
      cell := { c.cell with pending := none }
      worker := .acting m plan d order }, k) := by
    simp only [workerStep, worker_eq, awake, wake, active, running, left]
    rfl
  rw [runUntil_step (hasCome_turn_of_active active) taken]
  generalize taken_eq : ({ c with
    cell := { c.cell with pending := none }
    worker := .acting m plan d order } : Channel α κ) = c'
  have carried : c'.workerStep k = some ({ c' with
      worker := .solving m plan (order.carried plan d k).1 }, (order.carried plan d k).2) := by
    rw [← carryOut_eq, ← taken_eq]
    rfl
  rw [runUntil_step (hasCome_turn_of_active (by rw [← taken_eq]; exact active)) carried, ← taken_eq]

/-! ### Arrivals -/

/-- Where the worker of a channel arrives that searches from a turn on, when it may take so many steps:
it still runs, it is suspended at the next decision point, or it has finished. If it may take two, it only
runs on to another node. -/
inductive Arrives (c : Channel α κ) (m : Model α) (plan : Plan α) (turn : Turn α) (steps : Nat) :
    Channel α κ → Prop
  | runs {c' : Channel α κ} (busy : c'.worker.phase = .busy) (active : c'.cell.workerActive = true)
      (goesOn : 2 ≤ steps → ∃ s, turn = .proceed s) : Arrives c m plan turn steps c'
  | waits {d : Decision α} (turns : Nat) (asks : plan.toDecision turns turn = .ask d) :
      Arrives c m plan turn steps (c.suspend m plan d)
  | finishes (turns : Nat) (isOver : (plan.toDecision turns turn).IsOver) :
      Arrives c m plan turn steps (c.conclude (m.close (plan.toDecision turns turn)).1
        (m.close (plan.toDecision turns turn)).2)

/-- Where it arrives from the next node on, it arrives from the turn that takes this node. -/
theorem Arrives.of_advance {s : Search α} {steps : Nat}
    (h : Arrives { c with worker := .solving m plan (plan.advance s) } m plan (plan.advance s) steps c') :
    c.Arrives m plan (.proceed s) (steps + 1) c' := by
  cases h with
  | runs busy active => exact .runs busy active fun _ => ⟨s, rfl⟩
  | waits turns asks => exact .waits (turns + 1) asks
  | finishes turns isOver => exact .finishes (turns + 1) isOver

/-- A worker that has closed its search hands the model over in a step. -/
theorem runUntil_of_closing {result : Attempt (SolverError α) SolveStatus}
    (worker_eq : c.worker = .closing m result) (active : c.cell.workerActive = true) (steps : Nat) :
    c.runUntil .turn (steps + 1) k = (c.conclude m result, k) := by
  have concluded : c.workerStep k = some (c.conclude m result, k) := by
    simp only [workerStep, worker_eq]
  rw [runUntil_step (hasCome_turn_of_active active) concluded, runUntil_of_come rfl]

section

variable (worker_eq : c.worker = .solving m plan turn)
include worker_eq

/-- A worker whose search is over closes it in a step. -/
theorem workerStep_of_isOver (isOver : turn.IsOver) : c.workerStep k =
    some ({ c with worker := .closing (m.close turn).1 (m.close turn).2 }, k) := by
  simp only [workerStep, worker_eq]
  cases turn with
  | proceed s => exact isOver.elim
  | ask d => exact isOver.elim
  | ended status dual s => rfl
  | failed cause s => rfl

variable (active : c.cell.workerActive = true)
include active

/-- So it has handed the model over in two. -/
theorem runUntil_of_isOver (isOver : turn.IsOver) (steps : Nat) :
    c.runUntil .turn (steps + 2) k = (c.conclude (m.close turn).1 (m.close turn).2, k) := by
  rw [runUntil_step (hasCome_turn_of_active active) (workerStep_of_isOver worker_eq isOver)]
  exact runUntil_of_closing (c := { c with worker := .closing _ _ }) rfl active steps

/-- A worker whose search is at a decision point is suspended there in a step. -/
theorem runUntil_of_ask (running : c.cell.terminate = false) (asks : turn = .ask d) (steps : Nat) :
    c.runUntil .turn (steps + 1) k = (c.suspend m plan d, k) := by
  subst asks
  have suspended : c.workerStep k = some (c.suspend m plan d, k) := by
    simp only [workerStep, worker_eq, search, enter, running]
    rfl
  rw [runUntil_step (hasCome_turn_of_active active) suspended, runUntil_of_come rfl]

end

/-- A worker that searches arrives there while the controller waits for its turn. -/
theorem arrives_runUntil (worker_eq : c.worker = .solving m plan turn)
    (active : c.cell.workerActive = true) (running : c.cell.terminate = false) (steps : Nat) :
    c.Arrives m plan turn steps (c.runUntil .turn steps k).1 := by
  have busy : c.worker.phase = .busy := by rw [worker_eq]; rfl
  induction steps generalizing c turn with
  | zero => exact .runs busy active nofun
  | succ steps ih =>
    have finishes (isOver : turn.IsOver) :
        c.Arrives m plan turn (steps + 1) (c.runUntil .turn (steps + 1) k).1 := by
      cases steps with
      | zero =>
        rw [runUntil_step (hasCome_turn_of_active active) (workerStep_of_isOver worker_eq isOver)]
        exact .runs rfl active fun enough => absurd enough (by decide)
      | succ steps =>
        rw [runUntil_of_isOver worker_eq active isOver]
        exact .finishes 0 isOver
    cases turn with
    | proceed s =>
      have advanced : c.workerStep k =
          some ({ c with worker := .solving m plan (plan.advance s) }, k) := by
        simp only [workerStep, worker_eq]
        rfl
      rw [runUntil_step (hasCome_turn_of_active active) advanced]
      apply Arrives.of_advance
      exact ih (c := { c with worker := .solving m plan (plan.advance s) }) rfl active running rfl
    | ask d =>
      rw [runUntil_of_ask worker_eq active running rfl]
      exact .waits 0 rfl
    | ended status dual s => exact finishes trivial
    | failed cause s => exact finishes trivial

end Channel
end Milp
