import Milp.Episode.Reward
import Milp.Proofs.Control.Arrival
import Milp.Proofs.Control.Upholding
import Milp.Proofs.Search.Opening
import Milp.Proofs.Search.Outcome

/-!
# The work of a controlled solve

Two counters say how much work a solve has done, the one of nodes and the one of pivots (`Work`). No
search takes work back, whatever its callback does (`Plan.drive_work`), nor does a solve
(`Model.solve_work`). So it is a law of controlled solves that at least so much work has been done
(`Law.worked`).

A snapshot shows the work of the decision at which it was taken. It is the one at which the worker
waits (`Channel.Truthful`), and a shutdown there leaves the model with that work
(`Channel.shutdown_of_waiting`).
-/

namespace Milp

variable {α κ : Type}

/-! ### Counters of work -/

/-- The counters of the work that a solve does. -/
inductive Work where
  | nodes
  | iterations

namespace Work

/-- The work that was done. -/
def done (c : Statistics α) : Work → Nat
  | .nodes => c.nodesExplored
  | .iterations => c.iterations

/-- The work that a snapshot shows. -/
def shown (s : Snapshot α) : Work → Nat
  | .nodes => s.nodesExplored
  | .iterations => s.iterations

/-- The reward function that charges for work, after a reading of its counter. -/
def reward (last : Nat) : Work → Reward
  | .nodes => .nodes last
  | .iterations => .iterations last

/-- Whether at least so much work was done, and its counter is in range. -/
def Within (w : Work) (n : Nat) (c : Statistics α) : Prop := n ≤ w.done c ∧ w.done c ≤ counterLimit

/-- Work is not taken back. -/
theorem Within.grows {w : Work} {n : Nat} {c c' : Statistics α} (h : w.Within n c) (grows : c.Grows c') :
    w.Within n c' := by
  obtain ⟨enough, inRange⟩ := h
  cases w with
  | nodes => exact ⟨enough.trans (grows.nodes inRange).1, (grows.nodes inRange).2⟩
  | iterations => exact ⟨enough.trans (grows.iterations inRange).1, (grows.iterations inRange).2⟩

/-- A model at rest shows the work of its solve. -/
@[simp] theorem shown_atRest [Scalar α] (m : Model α) (w : Work) :
    w.shown m.snapshot = w.done m.stats := by
  cases w <;> rfl

/-- A decision shows the work of its search. -/
@[simp] theorem shown_decision [Scalar α] (d : Decision α) (plan : Plan α) (w : Work) :
    w.shown (d.snapshot plan) = w.done d.search.stats := by
  cases w <;> rfl

end Work

/-! ### Searches and solves -/

/-- A search starts with the counters that it is given. -/
theorem Search.start_stats (plan : Plan α) (stats : Statistics α) (incumbent : Option (Solution α))
    (interrupted : Bool) : (Search.start plan stats incumbent interrupted).stats = stats := by
  unfold Search.start Search.display
  simp only
  split <;> rfl

/-- Closing a search keeps its counters. -/
theorem Model.close_stats (m : Model α) (turn : Turn α) :
    (m.close turn).1.stats = turn.search.stats := by
  cases turn with
  | failed cause s => cases cause <;> rfl
  | _ => rfl

variable [Scalar α]

/-- An interrupt ends the search with the counters as they are. -/
theorem Plan.answer_interrupt (plan : Plan α) (d : Decision α) :
    (plan.answer d .interrupt).IsOver ∧ (plan.answer d .interrupt).search.stats = d.search.stats := by
  obtain ⟨dual, journal, finish_eq⟩ :=
    plan.finish_eq { d.search with stack := d.focus.node :: d.search.stack } (.stopped .userInterrupt)
  have stops : plan.answer d .interrupt = plan.stopAt d.search d.focus.node .userInterrupt := rfl
  rw [stops, Plan.stopAt, finish_eq]
  exact ⟨trivial, rfl⟩

/-- No run of a search takes work back, whatever its callback does. -/
theorem Plan.drive_work (plan : Plan α) {handler : Handler α κ} (confined : handler.Confined)
    (turns : Nat) (turn : Turn α) (k : κ) :
    turn.search.stats.Grows (plan.drive handler turns turn k).1.search.stats := by
  induction turns generalizing turn k with
  | zero => exact .refl _
  | succ turns ih =>
    cases turn with
    | proceed s => exact (plan.advance_work s).trans (ih _ _)
    | ask d =>
      have reached := (confined plan d k).sameNodes.work
      exact (reached.trans (plan.resolve_outcome _ _).work).trans (ih _ _)
    | ended status dual s => exact .refl _
    | failed cause s => exact .refl _

/-- No solve takes work back. -/
theorem Model.solve_work (m : Model α) {handler : Handler α κ} (confined : handler.Confined) (k : κ) :
    m.stats.Grows (m.solve handler k).model.stats := by
  unfold solve
  split
  · exact .refl m.stats
  next plan turn entered =>
    obtain ⟨-, settings, -, -, rfl⟩ := Model.opening_entered entered
    have driven : (Search.start plan m.stats m.incumbent m.interrupted).stats.Grows _ :=
      plan.drive_work confined patience (.proceed _) k
    rw [Search.start_stats] at driven
    simp only
    rw [close_stats]
    exact driven

/-! ### The law of work -/

/-- The law that at least so much work has been done. -/
def Law.worked (w : Work) (n : Nat) : Law α where
  turn _ turn := w.Within n turn.search.stats
  model m := w.Within n m.stats
  snapshot _ := True

/-- The solver keeps to it. -/
theorem Law.worked_kept (w : Work) (n : Nat) : (Law.worked w n : Law α).Kept where
  opening {m plan turn} enough entered := by
    obtain ⟨-, settings, -, -, rfl⟩ := Model.opening_entered entered
    show w.Within n (Search.start plan m.stats m.incumbent m.interrupted).stats
    rw [Search.start_stats]
    exact enough
  advance {plan s} enough := enough.grows (plan.advance_work s)
  leave {plan d} enough := enough.grows (plan.resolve_outcome d (.ok .didNotRun)).work
  interrupt {plan d} enough := enough.grows (plan.resolve_outcome d (.ok .interrupt)).work
  close {plan turn} enough m := by
    show w.Within n (m.close turn).1.stats
    rw [Model.close_stats]
    exact enough
  hook enough _ := enough
  decision _ := trivial
  atRest _ := trivial
  blank := trivial

/-- Whether an order does nothing to a decision point but try assignments and ask the search to stop. -/
def Order.Confined (order : Order α κ) : Prop :=
  ∀ action, order = .act action → ∀ plan d k, Decision.Reaches plan d (action plan d k).2.1

namespace Order.Confined

/-- To leave a decision to the solver is confined. -/
theorem leave : (Order.leave : Order α κ).Confined := nofun

/-- To make a choice is confined. -/
theorem resolve (choice : Choice) : (Order.resolve choice : Order α κ).Confined := by
  intro action eq plan d k
  cases eq
  exact .refl

/-- Confined orders take no work back. -/
theorem upholds {order : Order α κ} (confined : order.Confined) (w : Work) (n : Nat) :
    order.Upholds (Law.worked w n) := by
  intro action eq plan d k enough
  have reached := (confined action eq plan d k).sameNodes.work
  generalize action plan d k = carried at reached
  obtain ⟨reply, e, k'⟩ := carried
  have there : w.Within n e.search.stats := enough.grows reached
  cases reply with
  | error cause => exact there
  | ok resolution =>
    cases resolution with
    | choose choice => exact there.grows (plan.resolve_outcome e (.ok choice)).work
    | hold => exact there

end Order.Confined

namespace Channel

variable {c c' : Channel α κ} {k : κ}

/-! ### What is in the cell -/

/-- Whether a channel shows the decision at which its worker waits, has no order left for it but a
confined one, and has no model before the end. -/
structure Truthful (c : Channel α κ) : Prop where
  shows : ∀ m plan d, c.worker = .waiting m plan d → c.cell.snapshot = some (d.snapshot plan)
  confined : ∀ order, c.cell.pending = some order → order.Confined
  modelless : c.cell.finished = false → c.cell.model = none

namespace Truthful

/-- The worker goes on without looking at the cell. -/
theorem goesOn (h : c.Truthful) {w : Worker α κ} (awake : ∀ m plan d, w ≠ .waiting m plan d) :
    Truthful { c with worker := w } where
  shows m plan d waiting := absurd waiting (awake m plan d)
  confined := h.confined
  modelless := h.modelless

/-- Every step of the worker keeps the channel truthful. -/
theorem of_moves (h : c.Truthful) (moves : c.Moves c') : c'.Truthful := by
  cases moves with
  | goesOn w busy busy' =>
    apply h.goesOn
    rintro m plan d rfl
    cases busy'
  | suspends m plan d worker_eq =>
    refine ⟨fun m' plan' d' waiting => ?_, h.confined, h.modelless⟩
    cases waiting
    rfl
  | wakes m plan d worker_eq =>
    unfold wake interrupt
    split_ifs
    · exact ⟨h.shows, h.confined, h.modelless⟩
    · exact h.goesOn fun _ _ _ waiting => by cases waiting
    · exact ⟨(fun _ _ _ waiting => by cases waiting), nofun, h.modelless⟩
  | concludes => exact ⟨(fun _ _ _ waiting => by cases waiting), h.confined, nofun⟩
  | leaves worker_eq => exact h.goesOn fun _ _ _ waiting => by cases waiting

/-- A channel that has just been started. -/
theorem start (id : Nat) (m : Model α) (hooks : Hooks) :
    (Channel.start id m hooks : Channel α κ).Truthful :=
  ⟨(fun _ _ _ waiting => by cases waiting), nofun, fun _ => rfl⟩

/-- Taking the turn. -/
theorem takeTurn (h : c.Truthful) : c.takeTurn.2.Truthful := by
  unfold Channel.takeTurn
  split <;> exact ⟨h.shows, h.confined, h.modelless⟩

/-- To resume the worker with a confined order. -/
theorem resume (h : c.Truthful) {order : Order α κ} (confined : order.Confined) (token : Token) :
    (c.resume order token).2.Truthful := by
  unfold Channel.resume
  simp only
  split_ifs
  · exact h
  · exact ⟨h.shows, h.confined, h.modelless⟩
  · refine ⟨h.shows, fun order' left => ?_, h.modelless⟩
    cases left
    exact confined

/-- A wait. -/
theorem wait (h : c.Truthful) (k : κ) (steps : Nat) : (c.wait k steps).2.1.Truthful := by
  unfold Channel.wait
  split_ifs
  · exact h
  · exact takeTurn (runUntil_keeps Truthful (fun _ _ kept moves => kept.of_moves moves) .turn steps k h)

end Truthful

/-! ### A shutdown at a decision -/

variable {m : Model α} {plan : Plan α} {d : Decision α} (worker_eq : c.worker = .waiting m plan d)
  (unfinished : c.cell.finished = false)
include worker_eq unfinished

/-- A worker that waits at a decision and is told to stop interrupts its search there, closes it and
finishes. -/
theorem orderStop_of_waiting (k : κ) : ∃ c', c.orderStop.runUntil .finish patience k = (c', k) ∧
    c'.worker.phase = .done ∧ c'.cell.finished = true ∧
    c'.cell.model = some (m.close (plan.answer d .interrupt)).1.uninstall := by
  have told : c.orderStop.cell.finished = false ∧
      c.orderStop.workerStep k = some (c.orderStop.interrupt m plan d, k) := by
    simp [orderStop, unfinished, notifyAll, workerStep, worker_eq, wake]
  obtain ⟨unfinished', interrupts⟩ := told
  generalize c.orderStop = c₁ at unfinished' interrupts
  have closes : workerStep { c₁ with worker := .solving m plan (plan.answer d .interrupt) } k =
      some ({ c₁ with
        worker := .closing (m.close (plan.answer d .interrupt)).1
          (m.close (plan.answer d .interrupt)).2 }, k) :=
    workerStep_of_isOver rfl (plan.answer_interrupt d).1
  generalize m.close (plan.answer d .interrupt) = left at closes
  obtain ⟨m', result⟩ := left
  have concludes : workerStep { c₁ with worker := .closing m' result } k =
      some (conclude { c₁ with worker := .closing m' result } m' result, k) := rfl
  refine ⟨conclude { c₁ with worker := .closing m' result } m' result, ?_, rfl, rfl, rfl⟩
  have ahead (w : Worker α κ) : hasCome { c₁ with worker := w } .finish = false := unfinished'
  obtain ⟨steps, patience_eq⟩ := Nat.exists_eq_add_of_le' (show 3 ≤ patience by decide)
  rw [patience_eq, runUntil_step (ahead _) interrupts, interrupt, runUntil_step (ahead _) closes,
    runUntil_step (ahead _) concludes, runUntil_of_come rfl]

/-- A shutdown that finds the worker waiting at a decision interrupts the search there, and the model is
to be had. -/
theorem shutdown_of_waiting (inactive : c.cell.workerActive = false) (k : κ) :
    (c.shutdown k).2.1.takeModel.1 = some (m.close (plan.answer d .interrupt)).1.uninstall := by
  have turn : c.hasCome .turn = true := by simp [hasCome, inactive]
  obtain ⟨c', stopped, done, finished, model⟩ := orderStop_of_waiting worker_eq unfinished k
  have ended : (if c'.joined = true then (c', k) else c'.runUntil .thread patience k).1.cell =
      c'.cell := by
    split_ifs
    · rfl
    · exact (ended_runUntil done (patience - 1) k).2
  unfold shutdown
  simp only [runUntil_of_come turn, stopped]
  generalize (if c'.joined = true then (c', k) else c'.runUntil .thread patience k) = run at ended
  have joined : run.1.joinThread.2.cell = c'.cell := by
    rw [joinThread_snd]
    exact ended
  split
  next joining =>
    rw [joining] at joined
    simp only at joined
    simp only [takeModel, joined, finished, model, if_true]
  next joining =>
    rw [joining] at joined
    simp only at joined
    unfold collect
    split <;> simp only [takeModel, joined, finished, model, if_true]

end Channel
end Milp
