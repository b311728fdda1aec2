import Mathlib.Logic.Relation
import Milp.Proofs.Control.Invariant

/-!
# One of the two can always go on

A call that has to wait sleeps until the worker gives its turn away, and a worker that is suspended
sleeps until the controller does. Never do both sleep (`Inv.one_awake`), and within a call one of
the two threads can take a step (`Inv.exists_progress`): where the controller sleeps, it is the
worker's turn, or the worker was told to stop and has not finished.

An order to stop is never taken back (`terminate_of_steps`). A worker that was told to stop
interrupts its search wherever it comes to a decision point (`workerStep_interrupt`), so that it has
at most four steps left (`Worker.stepsLeft`).
-/

namespace Milp

variable {α κ : Type}

/-! ### The worker -/

namespace Worker

/-- How many steps a worker has left once it was told to stop. -/
def stepsLeft : Worker α κ → Nat
  | .ready .. | .acting .. => 5
  | .waiting .. => 4
  | .solving .. => 3
  | .closing .. => 2
  | .leaving => 1
  | .ended _ => 0

/-- A worker that waits for its turn has at most four steps left. -/
theorem stepsLeft_of_waiting {w : Worker α κ} (waiting : w.phase = .waiting) : w.stepsLeft ≤ 4 := by
  cases w with
  | waiting m plan d => exact Nat.le_refl 4
  | _ => cases waiting

/-- A worker with no step left has finished. -/
theorem done_of_stepsLeft {w : Worker α κ} (none_left : w.stepsLeft = 0) : w.phase = .done := by
  cases w with
  | ended crashed => rfl
  | _ => cases none_left

/-- A worker that has finished has at most one step left. -/
theorem stepsLeft_of_done {w : Worker α κ} (done : w.phase = .done) : w.stepsLeft ≤ 1 := by
  cases w with
  | leaving => exact Nat.le_refl 1
  | ended crashed => exact Nat.zero_le 1
  | _ => cases done

end Worker

namespace Channel

/-- Taking the turn is no order to stop and takes none back. -/
theorem terminate_takeTurn (c : Channel α κ) :
    c.takeTurn.2.cell.terminate = c.cell.terminate := by
  unfold takeTurn
  split <;> rfl

/-- Looking for a failure is no order to stop and takes none back. -/
theorem terminate_collect (c : Channel α κ) : c.collect.2.cell.terminate = c.cell.terminate := by
  unfold collect
  split <;> rfl

variable [Scalar α] {c c' : Channel α κ} {k k' : κ}

/-- A worker that is awake takes a step, unless its thread has ended. -/
theorem exists_workerStep (awake : c.sleepers.worker = false) (running : c.hasCome .thread = false)
    (k : κ) : ∃ c' k', c.workerStep k = some (c', k') := by
  unfold workerStep
  cases worker_eq : c.worker with
  | waiting m plan d => exact ⟨c.wake m plan d, k, by simp [awake]⟩
  | ended crashed =>
    rw [hasCome, worker_eq] at running
    cases running
  | _ => exact ⟨_, _, rfl⟩

/-- A worker that is suspended takes no step. -/
theorem workerStep_of_suspended (suspended : c.IsSuspended) (k : κ) : c.workerStep k = none := by
  obtain ⟨waiting, asleep⟩ := suspended
  unfold workerStep
  cases worker_eq : c.worker with
  | waiting m plan d => simp only [asleep, if_true]
  | _ => simp [worker_eq, Worker.phase] at waiting

/-- A worker that was told to stop interrupts its search at any decision point. -/
theorem workerStep_interrupt (h : c.Coherent) (terminate : c.cell.terminate = true) {m : Model α}
    {plan : Plan α} {d : Decision α}
    (at_decision : c.worker = .waiting m plan d ∨ c.worker = .solving m plan (.ask d)) (k : κ) :
    c.workerStep k = some (c.interrupt m plan d, k) := by
  rcases at_decision with worker_eq | worker_eq
  · have awake := (h.stopping terminate).2.1
    have active := h.active_of_awake (by rw [worker_eq]; rfl) awake
    simp [workerStep, worker_eq, awake, wake, active, terminate]
  · simp [workerStep, worker_eq, search, enter, terminate]

/-- A step of a worker that was told to stop leaves it with fewer of them. -/
theorem Coherent.stepsLeft_lt (h : c.Coherent) (terminate : c.cell.terminate = true)
    (moved : c.workerStep k = some (c', k')) : c'.worker.stepsLeft < c.worker.stepsLeft := by
  have stopping := (h.stopping terminate).1
  cases worker_eq : c.worker with
  | ready m hooks =>
    rw [worker_eq] at stopping
    exact stopping.elim
  | solving m plan turn =>
    rw [worker_eq] at stopping
    cases turn with
    | ended status dual s =>
      simp only [workerStep, worker_eq, search, Option.some.injEq, Prod.mk.injEq] at moved
      rw [← moved.1]
      exact Nat.lt_succ_self 2
    | _ => exact stopping.elim
  | waiting m plan d =>
    rw [workerStep_interrupt h terminate (.inl worker_eq)] at moved
    cases moved
    exact Nat.lt_succ_self 3
  | acting m plan d order =>
    rw [worker_eq] at stopping
    exact stopping.elim
  | closing m result =>
    simp only [workerStep, worker_eq, Option.some.injEq, Prod.mk.injEq] at moved
    rw [← moved.1]
    exact Nat.lt_succ_self 1
  | leaving =>
    simp only [workerStep, worker_eq, Option.some.injEq, Prod.mk.injEq] at moved
    rw [← moved.1]
    exact Nat.lt_succ_self 0
  | ended crashed =>
    simp only [workerStep, worker_eq] at moved
    cases moved

end Channel

namespace System

variable {s t : System α κ}

/-! ### No deadlock -/

/-- The controller and the worker never sleep both. -/
theorem Inv.one_awake (h : s.Inv) :
    s.channel.sleepers.controller = false ∨ s.channel.sleepers.worker = false := by
  by_contra both
  obtain ⟨asleep, asleep'⟩ : s.channel.sleepers.controller = true ∧
      s.channel.sleepers.worker = true := by simpa using both
  have active : s.channel.cell.workerActive = true ∨ s.channel.cell.terminate = true := by
    have agrees := h.agrees
    unfold Controller.Agrees at agrees
    split at agrees
    · cases asleep.symm.trans agrees.1
    · cases asleep.symm.trans agrees.1
    · exact .inl (agrees.2.1 asleep)
    · exact .inl (agrees.2.1 asleep)
    · exact .inr agrees.2.1
    · cases asleep.symm.trans agrees.2.1
    · cases asleep.symm.trans agrees.2.1
  rcases active with active | terminate
  · cases asleep'.symm.trans (h.coherent.awake_of_active active)
  · cases asleep'.symm.trans (h.coherent.stopping terminate).2.1

section

variable [Scalar α]

/-- A worker that is awake takes a step, unless its thread has ended. -/
theorem exists_progress_worker (awake : s.channel.sleepers.worker = false)
    (running : s.channel.hasCome .thread = false) : ∃ t, s.Progress t := by
  obtain ⟨c, k, moved⟩ := Channel.exists_workerStep awake running s.memory
  exact ⟨_, .worker (by rw [workerStep, moved]; rfl)⟩

namespace Inv

/-- When it is the worker's turn, it takes a step. -/
theorem exists_progress_of_active (h : s.Inv) (active : s.channel.cell.workerActive = true) :
    ∃ t, s.Progress t := by
  have unfinished := h.coherent.unfinished_of_active active
  exact exists_progress_worker (h.coherent.awake_of_active active)
    (h.coherent.running_of_unfinished unfinished)

/-- A worker that was told to stop takes a step, unless it has finished. -/
theorem exists_progress_of_unfinished (h : s.Inv) (terminate : s.channel.cell.terminate = true)
    (unfinished : s.channel.cell.finished = false) : ∃ t, s.Progress t :=
  exists_progress_worker (h.coherent.stopping terminate).2.1
    (h.coherent.running_of_unfinished unfinished)

/-- Within a call of the controller, one of the threads takes a step. -/
theorem exists_progress (h : s.Inv) (called : s.controller ≠ .free) (kept : s.controller ≠ .gone) :
    ∃ t, s.Progress t := by
  have agrees := h.agrees
  cases controller : s.controller with
  | free => exact absurd controller called
  | gone => exact absurd controller kept
  | waiting =>
    rw [controller] at agrees
    cases asleep : s.channel.sleepers.controller with
    | true => exact h.exists_progress_of_active (agrees.2.1 asleep)
    | false =>
      exact ⟨s.lookForTurn, .controller (by simp [System.controllerStep, controller, asleep])⟩
  | stopping why =>
    rw [controller] at agrees
    cases asleep : s.channel.sleepers.controller with
    | true => exact h.exists_progress_of_active (agrees.2.1 asleep)
    | false =>
      exact ⟨s.lookToStop why, .controller (by simp [System.controllerStep, controller, asleep])⟩
  | finishing why =>
    rw [controller] at agrees
    cases asleep : s.channel.sleepers.controller with
    | true => exact h.exists_progress_of_unfinished agrees.2.1 (agrees.2.2.mp asleep)
    | false =>
      exact ⟨s.lookForFinish why,
        .controller (by simp [System.controllerStep, controller, asleep])⟩
  | joining why =>
    rw [controller] at agrees
    cases ended : s.channel.hasCome .thread with
    | true =>
      exact ⟨s.joinThread why, .controller (by simp [System.controllerStep, controller, ended])⟩
    | false =>
      have done := h.coherent.finished_iff.mp agrees.2.2
      exact exists_progress_worker (h.coherent.awake_of_done done) ended
  | collecting why =>
    exact ⟨s.collect why, .controller (by simp [System.controllerStep, controller])⟩

end Inv

end

/-! ### A worker that was told to stop -/

/-- A controller that waits takes no order to stop back. -/
theorem terminate_of_lookForTurn (terminate : s.channel.cell.terminate = true) :
    s.lookForTurn.channel.cell.terminate = true := by
  unfold lookForTurn
  split_ifs
  · exact (Channel.terminate_takeTurn s.channel).trans terminate
  · exact terminate

/-- A step of the controller within a call takes no order to stop back. -/
theorem terminate_of_controllerStep (terminate : s.channel.cell.terminate = true)
    (step : s.controllerStep = some t) : t.channel.cell.terminate = true := by
  unfold controllerStep at step
  split at step
  next => cases step
  next => cases step
  next =>
    split_ifs at step
    cases step
    exact terminate_of_lookForTurn terminate
  next =>
    split_ifs at step
    cases step
    unfold lookToStop Channel.orderStop
    split_ifs
    · exact terminate
    · rfl
    · exact terminate
  next =>
    split_ifs at step
    cases step
    unfold lookForFinish
    split_ifs <;> exact terminate
  next =>
    split_ifs at step
    cases step
    have kept : s.channel.joinThread.2.cell.terminate = true := by
      rwa [Channel.joinThread_snd]
    unfold joinThread
    split
    next failed => rwa [failed] at kept
    next done => rwa [done] at kept
  next =>
    cases step
    exact (Channel.terminate_collect s.channel).trans terminate

variable [Scalar α]

/-- No call takes an order to stop back. -/
theorem terminate_of_perform (terminate : s.channel.cell.terminate = true) (call : Call α κ) :
    (s.perform call).channel.cell.terminate = true := by
  cases call with
  | wait =>
    simp only [perform]
    split_ifs
    · exact terminate
    · exact terminate_of_lookForTurn terminate
  | resume order token =>
    simp only [perform, respond, spend_channel]
    unfold Channel.resume
    split_ifs
    · exact terminate
    · simp only
      split_ifs <;> exact terminate
  | join token =>
    simp only [perform]
    split_ifs
    · exact terminate
    · rw [spend_channel]
      exact terminate
  | takeModel =>
    simp only [perform, Channel.takeModel]
    split_ifs <;> exact terminate
  | isDone token => exact terminate
  | state token => exact terminate
  | recover => exact terminate
  | drop => exact terminate

/-- No step of any kind takes an order to stop back. -/
theorem Step.terminate (step : s.Step t) (terminate : s.channel.cell.terminate = true) :
    t.channel.cell.terminate = true := by
  cases step with
  | progress progress =>
    cases progress with
    | worker step =>
      obtain ⟨⟨c, k⟩, moved, rfl⟩ := Option.map_eq_some_iff.mp step
      exact (Channel.moves_of_workerStep moved).terminate_eq.trans terminate
    | controller step => exact terminate_of_controllerStep terminate step
  | call call may => exact terminate_of_perform terminate call
  | lose => exact terminate

/-- What comes after something that can come about can come about. -/
theorem Reachable.trans (h : s.Reachable) (steps : Relation.ReflTransGen Step s t) :
    t.Reachable := by
  induction steps with
  | refl => exact h
  | tail _ step ih => exact ih.step step

/-- An order to stop is never taken back. -/
theorem terminate_of_steps (steps : Relation.ReflTransGen Step s t)
    (terminate : s.channel.cell.terminate = true) : t.channel.cell.terminate = true := by
  induction steps with
  | refl => exact terminate
  | tail _ step ih => exact step.terminate ih

end System
end Milp
