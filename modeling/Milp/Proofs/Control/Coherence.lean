import Mathlib.Tactic.ByContra
import Mathlib.Tactic.SplitIfs
import Milp.Control.Channel

/-!
# Where the worker is and what the cell says

The flags of a cell are set by both sides, each in several places. `Channel.Coherent` says what they
mean: where the worker is when it is its turn, when it sleeps, when an order is left for it, when a
failure can be there. Nothing here depends on which calls are made, only on when: a call keeps the
cell coherent if it is the controller's turn.

* `Coherent.takeTurn`, `Coherent.resume`, `Coherent.orderStop` and so on — each operation of the
  controller keeps a cell coherent.
* `Channel.Moves` — the five kinds of steps of a worker; `moves_of_workerStep`: there are no others.
* `Coherent.suspend`, `Coherent.wake`, `Coherent.conclude` and so on — so does each step of the
  worker (`Coherent.of_moves`).
-/

namespace Milp

/-! ### Phases -/

namespace Worker

variable {α κ : Type}

/-- Roughly where a worker is. -/
inductive Phase where
  | busy
  | waiting
  | done
  deriving DecidableEq

/-- Roughly where a worker is. -/
def phase : Worker α κ → Phase
  | .ready .. | .solving .. | .acting .. | .closing .. => .busy
  | .waiting .. => .waiting
  | .leaving | .ended _ => .done

/-- Whether a worker can be one that was told to stop: it waits for its turn still, or its search
has been interrupted. -/
def IsStopping : Worker α κ → Prop
  | .waiting .. => True
  | .solving _ _ (.ended status ..) => status = .userInterrupt
  | .closing m (.ok _) => m.status = .userInterrupt
  | .leaving | .ended _ => True
  | _ => False

/-- A worker that waits for its turn may have been told to stop. -/
theorem isStopping_of_waiting {w : Worker α κ} (waiting : w.phase = .waiting) : w.IsStopping := by
  cases w with
  | waiting => trivial
  | _ => cases waiting

end Worker

namespace Channel

variable {α κ : Type}

/-! ### Coherent cells -/

/-- Whether the worker sleeps at a decision point. -/
def IsSuspended (c : Channel α κ) : Prop := c.worker.phase = .waiting ∧ c.sleepers.worker = true

/-- A worker whose thread has ended has finished. -/
theorem done_of_ended {c : Channel α κ} (ended : c.hasCome .thread = true) :
    c.worker.phase = .done := by
  simp only [hasCome] at ended
  split at ended
  next worker_eq => rw [worker_eq]; rfl
  next => cases ended

/-- What the flags of a cell mean. -/
structure Coherent (c : Channel α κ) : Prop where
  active_of_busy : c.worker.phase = .busy → c.cell.workerActive = true
  inactive_of_done : c.worker.phase = .done → c.cell.workerActive = false
  finished_iff : c.cell.finished = true ↔ c.worker.phase = .done
  asleep_iff : c.sleepers.worker = true ↔
    c.worker.phase = .waiting ∧ c.cell.workerActive = false
  pending_none : c.cell.terminate = false → c.cell.workerActive = false ∨ c.worker.phase = .busy →
    c.cell.pending = none
  failure_none : c.cell.finished = false → c.cell.failure = none
  model_none : c.cell.finished = false → c.cell.model = none
  stopping : c.cell.terminate = true →
    c.worker.IsStopping ∧ c.sleepers.worker = false ∧ c.cell.failure = none
  interrupted : c.cell.terminate = true → ∀ m ∈ c.cell.model, m.status = .userInterrupt
  caught : c.worker ≠ .ended true
  ended_of_joined : c.joined = true → c.hasCome .thread = true

/-- A channel that has just been started is coherent. -/
theorem coherent_start (id : Nat) (m : Model α) (hooks : Hooks) :
    (start id m hooks : Channel α κ).Coherent where
  active_of_busy _ := rfl
  inactive_of_done := nofun
  finished_iff := ⟨nofun, nofun⟩
  asleep_iff := ⟨nofun, nofun⟩
  pending_none _ _ := rfl
  failure_none _ := rfl
  model_none _ := rfl
  stopping := nofun
  interrupted := nofun
  caught := nofun
  ended_of_joined := nofun

namespace Coherent

variable {c : Channel α κ} (h : c.Coherent)

include h

/-- When it is not the worker's turn and it has not finished, it sleeps at a decision point, no
order is left for it and it has not been told to stop. -/
theorem suspended (inactive : c.cell.workerActive = false) (unfinished : c.cell.finished = false) :
    c.IsSuspended ∧ c.cell.terminate = false ∧ c.cell.pending = none := by
  have waiting : c.worker.phase = .waiting := by
    cases phase : c.worker.phase with
    | busy => rw [h.active_of_busy phase] at inactive; cases inactive
    | waiting => rfl
    | done => rw [h.finished_iff.mpr phase] at unfinished; cases unfinished
  have asleep := h.asleep_iff.mpr ⟨waiting, inactive⟩
  have running : c.cell.terminate = false := by
    by_contra terminate
    rw [Bool.not_eq_false] at terminate
    rw [(h.stopping terminate).2.1] at asleep
    cases asleep
  exact ⟨⟨waiting, asleep⟩, running, h.pending_none running (.inl inactive)⟩

/-- A worker that has been woken up has the turn. -/
theorem active_of_awake (waiting : c.worker.phase = .waiting) (awake : c.sleepers.worker = false) :
    c.cell.workerActive = true := by
  by_contra inactive
  rw [h.asleep_iff.mpr ⟨waiting, by simpa using inactive⟩] at awake
  cases awake

/-- A worker whose thread was joined has finished. -/
theorem done_of_joined (joined : c.joined = true) : c.worker.phase = .done :=
  done_of_ended (h.ended_of_joined joined)

/-- The thread of a worker that has not finished was not joined. -/
theorem not_joined (unfinished : c.cell.finished = false) : ¬ c.joined = true := by
  intro joined
  have finished := h.finished_iff.mpr (h.done_of_joined joined)
  cases unfinished.symm.trans finished

/-- A worker that waits has not finished. -/
theorem unfinished_of_waiting (waiting : c.worker.phase = .waiting) : c.cell.finished = false := by
  by_contra finished
  rw [Bool.not_eq_false, h.finished_iff, waiting] at finished
  cases finished

/-- A worker that has the turn has not finished. -/
theorem unfinished_of_active (active : c.cell.workerActive = true) : c.cell.finished = false := by
  by_contra finished
  rw [Bool.not_eq_false, h.finished_iff] at finished
  cases active.symm.trans (h.inactive_of_done finished)

/-- The thread of a worker that has not finished goes on. -/
theorem running_of_unfinished (unfinished : c.cell.finished = false) :
    c.hasCome .thread = false := by
  by_contra ended
  have finished := h.finished_iff.mpr (done_of_ended (by simpa using ended))
  cases unfinished.symm.trans finished

/-- A worker sleeps only where it waits for its turn. -/
theorem awake_of_done (done : c.worker.phase = .done) : c.sleepers.worker = false := by
  by_contra asleep
  have waiting := (h.asleep_iff.mp (by simpa using asleep)).1
  cases waiting.symm.trans done

/-- A worker that has the turn is awake. -/
theorem awake_of_active (active : c.cell.workerActive = true) : c.sleepers.worker = false := by
  by_contra asleep
  have inactive := (h.asleep_iff.mp (by simpa using asleep)).2
  cases active.symm.trans inactive

/-- A busy worker has not finished. -/
theorem unfinished_of_busy (busy : c.worker.phase = .busy) : c.cell.finished = false := by
  by_contra finished
  rw [Bool.not_eq_false, h.finished_iff, busy] at finished
  cases finished

end Coherent

/-! ### Operations of the controller -/

/-- A foreign token resumes nothing. -/
theorem resume_foreign {c : Channel α κ} {order : Order α κ} {token : Token}
    (foreign : c.isForeign token = true) : c.resume order token = (.error .foreignToken, c) := by
  rw [resume, if_pos foreign]

/-- What resuming with a token of the channel does, whether the worker has finished or not. -/
theorem resume_own {c : Channel α κ} (order : Order α κ) {token : Token}
    (own : c.isForeign token = false) (awake : c.sleepers.controller = false) :
    let c' := (c.resume order token).2
    c'.id = c.id ∧ c'.cell.tokenOut = false ∧ c'.cell.terminate = c.cell.terminate ∧
      c'.cell.finished = c.cell.finished ∧ c'.cell.failure = c.cell.failure ∧
      c'.joined = c.joined ∧ c'.sleepers.controller = false := by
  unfold resume
  simp only [own, Bool.false_eq_true, if_false]
  split_ifs
  · exact ⟨rfl, rfl, rfl, rfl, rfl, rfl, awake⟩
  · exact ⟨rfl, rfl, rfl, rfl, rfl, rfl, rfl⟩

/-- Joining the worker's thread is noted and changes nothing else. -/
theorem joinThread_snd (c : Channel α κ) : c.joinThread.2 = { c with joined := true } := by
  obtain ⟨id, cell, sleepers, worker, joined⟩ := c
  unfold joinThread
  cases joined with
  | true => rfl
  | false =>
    simp only [Bool.false_eq_true, if_false]
    split <;> rfl

namespace Coherent

variable {c : Channel α κ}

/-- A cell stays coherent when a token is noted, a failure or a model is taken, or the controller
falls asleep. -/
theorem update (h : c.Coherent) (tokenOut : Bool) {failure : Option (SolverError α)}
    {model : Option (Model α)} (controller : Bool)
    (taken : failure = c.cell.failure ∨ failure = none)
    (taken' : model = c.cell.model ∨ model = none) :
    Coherent { c with
      cell := { c.cell with tokenOut, failure, model }
      sleepers := { c.sleepers with controller } } := by
  have stays_none : c.cell.failure = none → failure = none := by
    intro undelivered
    rcases taken with same | taken
    · exact same.trans undelivered
    · exact taken
  have stays_none' : c.cell.model = none → model = none := by
    intro missing
    rcases taken' with same | taken
    · exact same.trans missing
    · exact taken
  exact {
    active_of_busy := h.active_of_busy
    inactive_of_done := h.inactive_of_done
    finished_iff := h.finished_iff
    asleep_iff := h.asleep_iff
    pending_none := h.pending_none
    failure_none := fun unfinished => stays_none (h.failure_none unfinished)
    model_none := fun unfinished => stays_none' (h.model_none unfinished)
    stopping := fun terminate =>
      have ⟨stopping, awake, undelivered⟩ := h.stopping terminate
      ⟨stopping, awake, stays_none undelivered⟩
    interrupted := fun terminate => by
      rcases taken' with same | taken
      · rw [same]
        exact h.interrupted terminate
      · rw [taken]
        exact fun _ mem => absurd mem (Option.not_mem_none _)
    caught := h.caught
    ended_of_joined := h.ended_of_joined }

/-- Taking the turn keeps a cell coherent. -/
theorem takeTurn (h : c.Coherent) : c.takeTurn.2.Coherent := by
  unfold Channel.takeTurn
  split
  · exact h.update _ _ (.inr rfl) (.inl rfl)
  · exact h.update true _ (.inl rfl) (.inl rfl)

/-- Delivering a failure keeps a cell coherent. -/
theorem collect (h : c.Coherent) : c.collect.2.Coherent := by
  unfold Channel.collect
  split
  · exact h.update _ _ (.inr rfl) (.inl rfl)
  · exact h

/-- Giving up the turn keeps a cell coherent. -/
theorem giveUp (h : c.Coherent) : c.giveUp.Coherent :=
  h.update false _ (.inl rfl) (.inl rfl)

/-- Taking the model keeps a cell coherent. -/
theorem takeModel (h : c.Coherent) : c.takeModel.2.Coherent := by
  unfold Channel.takeModel
  split
  · exact h.update _ _ (.inl rfl) (.inr rfl)
  · exact h

/-- Leaving an order for a worker that sleeps keeps a cell coherent. -/
theorem leave_order (h : c.Coherent) (inactive : c.cell.workerActive = false)
    (unfinished : c.cell.finished = false) (terminate tokenOut controller : Bool)
    (order : Order α κ) :
    Coherent { c with
      cell := { c.cell with terminate, tokenOut, pending := some order, workerActive := true }
      sleepers := { worker := false, controller } } := by
  obtain ⟨⟨waiting, -⟩, -⟩ := h.suspended inactive unfinished
  exact {
    active_of_busy := fun _ => rfl
    inactive_of_done := fun done => absurd (waiting.symm.trans done) nofun
    finished_iff := h.finished_iff
    asleep_iff := ⟨nofun, nofun⟩
    pending_none := fun _ parked => by
      rcases parked with inactive | busy
      · cases inactive
      · cases waiting.symm.trans busy
    failure_none := h.failure_none
    model_none := h.model_none
    stopping := fun _ => ⟨Worker.isStopping_of_waiting waiting, rfl, h.failure_none unfinished⟩
    interrupted := fun _ m mem => by
      rw [show c.cell.model = none from h.model_none unfinished] at mem
      cases mem
    caught := h.caught
    ended_of_joined := h.ended_of_joined }

/-- Resuming keeps a cell coherent if it is the controller's turn. -/
theorem resume (h : c.Coherent) (inactive : c.cell.workerActive = false) (order : Order α κ)
    (token : Token) : (c.resume order token).2.Coherent := by
  unfold Channel.resume
  split_ifs with foreign
  · exact h
  · simp only
    split_ifs with finished
    · exact h.giveUp
    · exact h.leave_order inactive (by simpa using finished) _ _ _ order

/-- Telling the worker to stop keeps a cell coherent if it is the controller's turn. -/
theorem orderStop (h : c.Coherent) (inactive : c.cell.workerActive = false) :
    c.orderStop.Coherent := by
  unfold Channel.orderStop
  split_ifs with finished
  · exact h
  · exact h.leave_order inactive (by simpa using finished) _ _ _ .leave

/-- Joining the worker's thread keeps a cell coherent if the thread has ended. -/
theorem joinThread (h : c.Coherent) (ended : c.hasCome .thread = true) :
    c.joinThread.2.Coherent := by
  have joins : Coherent { c with joined := true } := { h with ended_of_joined := fun _ => ended }
  unfold Channel.joinThread
  split_ifs
  · exact h
  · split
    · exact joins
    · exact joins

/-- The thread of a worker never crashes outside of its solve. -/
theorem joinThread_ok (h : c.Coherent) : c.joinThread.1 = .ok () := by
  unfold Channel.joinThread
  split_ifs
  · rfl
  · split
    next crashed => exact absurd crashed h.caught
    next => rfl

/-- Joining the worker's thread succeeds and is noted. -/
theorem joinThread_eq (h : c.Coherent) :
    c.joinThread = (.ok (), { c with joined := true }) :=
  Prod.ext h.joinThread_ok (joinThread_snd c)

end Coherent

/-! ### Steps of the worker -/

/-- Going on keeps a cell coherent. -/
theorem Coherent.goesOn {c : Channel α κ} (h : c.Coherent) {w : Worker α κ}
    (busy : c.worker.phase = .busy) (busy' : w.phase = .busy)
    (stopping : c.worker.IsStopping → w.IsStopping) :
    Coherent { c with worker := w } := by
  have same : c.worker.phase = w.phase := busy.trans busy'.symm
  have unfinished := h.unfinished_of_busy busy
  exact {
    active_of_busy := fun _ => h.active_of_busy busy
    inactive_of_done := fun done => h.inactive_of_done (same.trans done)
    finished_iff := by rw [h.finished_iff, same]
    asleep_iff := by rw [h.asleep_iff, same]
    pending_none := fun running _ => h.pending_none running (.inr busy)
    failure_none := h.failure_none
    model_none := h.model_none
    stopping := fun terminate =>
      ⟨stopping (h.stopping terminate).1, (h.stopping terminate).2⟩
    interrupted := h.interrupted
    caught := fun crashed => by
      have crashed : w = .ended true := crashed
      rw [crashed] at busy'
      cases busy'
    ended_of_joined := fun joined => absurd joined (h.not_joined unfinished) }

/-- The end of the worker's thread keeps a cell coherent. -/
theorem Coherent.leave {c : Channel α κ} (h : c.Coherent) (worker_eq : c.worker = .leaving) :
    Coherent { c with worker := .ended false } := by
  have done : c.worker.phase = .done := by rw [worker_eq]; rfl
  exact {
    active_of_busy := nofun
    inactive_of_done := fun _ => h.inactive_of_done done
    finished_iff := ⟨fun _ => rfl, fun _ => h.finished_iff.mpr done⟩
    asleep_iff := by
      rw [h.asleep_iff, done]
      exact ⟨nofun, nofun⟩
    pending_none := fun running _ => h.pending_none running (.inl (h.inactive_of_done done))
    failure_none := h.failure_none
    model_none := h.model_none
    stopping := fun terminate => ⟨trivial, (h.stopping terminate).2⟩
    interrupted := h.interrupted
    caught := nofun
    ended_of_joined := fun _ => rfl }

variable [Scalar α]

/-- What a step of a worker does to its channel. -/
inductive Moves (c : Channel α κ) : Channel α κ → Prop
  /-- It goes on by itself and leaves the cell alone. -/
  | goesOn (w : Worker α κ) (busy : c.worker.phase = .busy) (busy' : w.phase = .busy)
      (open_ : ∀ m result, c.worker ≠ .closing m result)
      (stopping : c.worker.IsStopping → w.IsStopping) : Moves c { c with worker := w }
  /-- It comes to a decision point and goes to sleep. -/
  | suspends (m : Model α) (plan : Plan α) (d : Decision α)
      (worker_eq : c.worker = .solving m plan (.ask d)) (running : c.cell.terminate = false) :
      Moves c (c.suspend m plan d)
  /-- It has been woken up. -/
  | wakes (m : Model α) (plan : Plan α) (d : Decision α) (worker_eq : c.worker = .waiting m plan d)
      (awake : c.sleepers.worker = false) : Moves c (c.wake m plan d)
  /-- It finishes. -/
  | concludes (m : Model α) (result : Attempt (SolverError α) SolveStatus)
      (worker_eq : c.worker = .closing m result) : Moves c (c.conclude m result)
  /-- Its thread ends. -/
  | leaves (worker_eq : c.worker = .leaving) : Moves c { c with worker := .ended false }

variable {c c' : Channel α κ} {k k' : κ}

/-- A worker does nothing else. -/
theorem moves_of_workerStep (h : c.workerStep k = some (c', k')) : c.Moves c' := by
  unfold workerStep at h
  split at h
  next m hooks worker_eq =>
    cases h
    unfold begin
    have goesOn : ∀ w : Worker α κ, w.phase = .busy → c.Moves { c with worker := w } :=
      fun w busy => .goesOn w (by rw [worker_eq]; rfl) busy (by simp [worker_eq])
        (by rw [worker_eq]; exact False.elim)
    split
    · exact goesOn _ rfl
    · split
      · exact goesOn _ rfl
      · exact goesOn _ rfl
  next m plan turn worker_eq =>
    cases h
    have goesOn : ∀ w : Worker α κ, w.phase = .busy → (c.worker.IsStopping → w.IsStopping) →
        c.Moves { c with worker := w } := fun w busy stopping =>
      .goesOn w (by rw [worker_eq]; rfl) busy (by simp [worker_eq]) stopping
    cases turn with
    | proceed s => exact goesOn _ rfl (by rw [worker_eq]; exact False.elim)
    | ask d =>
      rw [search, enter]
      split_ifs with terminate
      · exact goesOn _ rfl (by rw [worker_eq]; exact False.elim)
      · exact .suspends m plan d worker_eq (by simpa using terminate)
    | ended status dual s =>
      exact goesOn _ rfl (by rw [worker_eq]; exact fun interrupted => interrupted)
    | failed cause s =>
      exact goesOn _ (by cases cause <;> rfl) (by rw [worker_eq]; exact False.elim)
  next m plan d worker_eq =>
    split_ifs at h with asleep
    cases h
    exact .wakes m plan d worker_eq (by simpa using asleep)
  next m plan d order worker_eq =>
    have goesOn : ∀ turn, c.Moves { c with worker := .solving m plan turn } := fun turn =>
      .goesOn _ (by rw [worker_eq]; rfl) rfl (by simp [worker_eq])
        (by rw [worker_eq]; exact False.elim)
    cases order with
    | leave => cases h; exact goesOn _
    | act action =>
      simp only [carryOut, Option.some.injEq] at h
      split at h
      · cases h; exact goesOn _
      · cases h; exact goesOn _
      · cases h; exact goesOn _
  next m result worker_eq =>
    cases h
    exact .concludes m result worker_eq
  next worker_eq =>
    cases h
    exact .leaves worker_eq
  next => cases h

/-- Going to sleep at a decision point keeps a cell coherent, unless the worker was told to stop. -/
theorem Coherent.suspend (h : c.Coherent) {m : Model α} {plan : Plan α} {d : Decision α}
    (worker_eq : c.worker = .solving m plan (.ask d)) (running : c.cell.terminate = false) :
    (c.suspend m plan d).Coherent := by
  have busy : c.worker.phase = .busy := by rw [worker_eq]; rfl
  have unfinished := h.unfinished_of_busy busy
  exact {
    active_of_busy := nofun
    inactive_of_done := nofun
    finished_iff := ⟨fun finished => absurd (unfinished.symm.trans finished) nofun, nofun⟩
    asleep_iff := ⟨fun _ => ⟨rfl, rfl⟩, fun _ => rfl⟩
    pending_none := fun _ _ => h.pending_none running (.inr busy)
    failure_none := h.failure_none
    model_none := h.model_none
    stopping := fun terminate => absurd (running.symm.trans terminate) nofun
    interrupted := fun terminate => absurd (running.symm.trans terminate) nofun
    caught := nofun
    ended_of_joined := fun joined => absurd joined (h.not_joined unfinished) }

/-- Waking up at a decision point keeps a cell coherent. -/
theorem Coherent.wake (h : c.Coherent) {m : Model α} {plan : Plan α} {d : Decision α}
    (worker_eq : c.worker = .waiting m plan d) (awake : c.sleepers.worker = false) :
    (c.wake m plan d).Coherent := by
  have waiting : c.worker.phase = .waiting := by rw [worker_eq]; rfl
  have unfinished := h.unfinished_of_waiting waiting
  have active := h.active_of_awake waiting awake
  rw [Channel.wake, active]
  simp only [Bool.not_true, Bool.false_eq_true, if_false]
  split_ifs with terminate
  · exact {
      active_of_busy := fun _ => active
      inactive_of_done := nofun
      finished_iff := ⟨fun finished => absurd (unfinished.symm.trans finished) nofun, nofun⟩
      asleep_iff := ⟨fun asleep => absurd (awake.symm.trans asleep) nofun, nofun⟩
      pending_none := fun running => absurd (running.symm.trans terminate) nofun
      failure_none := h.failure_none
      model_none := h.model_none
      stopping := fun _ => ⟨rfl, awake, (h.stopping terminate).2.2⟩
      interrupted := h.interrupted
      caught := nofun
      ended_of_joined := fun joined => absurd joined (h.not_joined unfinished) }
  · exact {
      active_of_busy := fun _ => active
      inactive_of_done := nofun
      finished_iff := ⟨fun finished => absurd (unfinished.symm.trans finished) nofun, nofun⟩
      asleep_iff := ⟨fun asleep => absurd (awake.symm.trans asleep) nofun, nofun⟩
      pending_none := fun _ _ => rfl
      failure_none := h.failure_none
      model_none := h.model_none
      stopping := fun stopped => absurd stopped terminate
      interrupted := fun stopped => absurd stopped terminate
      caught := nofun
      ended_of_joined := fun joined => absurd joined (h.not_joined unfinished) }

/-- Finishing keeps a cell coherent. -/
theorem Coherent.conclude (h : c.Coherent) {m : Model α}
    {result : Attempt (SolverError α) SolveStatus} (worker_eq : c.worker = .closing m result) :
    (c.conclude m result).Coherent := by
  have busy : c.worker.phase = .busy := by rw [worker_eq]; rfl
  have unfinished := h.unfinished_of_busy busy
  exact {
    active_of_busy := nofun
    inactive_of_done := fun _ => rfl
    finished_iff := ⟨fun _ => rfl, fun _ => rfl⟩
    asleep_iff := ⟨nofun, nofun⟩
    pending_none := fun running _ => h.pending_none running (.inr busy)
    failure_none := nofun
    model_none := nofun
    stopping := fun terminate => by
      have stopping := (h.stopping terminate).1
      rw [worker_eq] at stopping
      cases result with
      | ok status => exact ⟨trivial, rfl, rfl⟩
      | error cause => cases stopping
    interrupted := fun terminate m' mem => by
      have stopping := (h.stopping terminate).1
      rw [worker_eq] at stopping
      cases Option.mem_some.mp mem
      cases result with
      | ok status => exact stopping
      | error cause => cases stopping
    caught := nofun
    ended_of_joined := fun joined => absurd joined (h.not_joined unfinished) }

/-- A step of the worker keeps a cell coherent. -/
theorem Coherent.of_moves (h : c.Coherent) (moves : c.Moves c') : c'.Coherent := by
  cases moves with
  | goesOn w busy busy' open_ stopping => exact h.goesOn busy busy' stopping
  | suspends m plan d worker_eq running => exact h.suspend worker_eq running
  | wakes m plan d worker_eq awake => exact h.wake worker_eq awake
  | concludes m result worker_eq => exact h.conclude worker_eq
  | leaves worker_eq => exact h.leave worker_eq

/-- A worker does not touch what is the controller's own. -/
theorem Moves.keeps (moves : c.Moves c') : c'.id = c.id ∧ c'.cell.tokenOut = c.cell.tokenOut ∧
    c'.cell.terminate = c.cell.terminate ∧ c'.joined = c.joined := by
  cases moves with
  | wakes m plan d worker_eq awake =>
    unfold wake interrupt
    split_ifs <;> exact ⟨rfl, rfl, rfl, rfl⟩
  | _ => exact ⟨rfl, rfl, rfl, rfl⟩

/-- A worker does not touch the order to stop. -/
theorem Moves.terminate_eq (moves : c.Moves c') : c'.cell.terminate = c.cell.terminate :=
  moves.keeps.2.2.1

/-- A step of a worker leaves the flags as they are, or gives the turn to the controller and wakes
it up. A worker that was told to stop gives its turn away only when it finishes. -/
theorem Coherent.turn_of_moves (h : c.Coherent) (moves : c.Moves c') :
    (c'.cell.workerActive = c.cell.workerActive ∧ c'.cell.finished = c.cell.finished ∧
      c'.cell.failure = c.cell.failure ∧ c'.sleepers.controller = c.sleepers.controller) ∨
    (c.worker.phase = .busy ∧ c'.cell.workerActive = false ∧ c'.sleepers.controller = false ∧
      (c.cell.terminate = true → c'.cell.finished = true)) := by
  cases moves with
  | goesOn => exact .inl ⟨rfl, rfl, rfl, rfl⟩
  | suspends m plan d worker_eq running =>
    refine .inr ⟨by rw [worker_eq]; rfl, rfl, rfl, fun terminate => ?_⟩
    cases running.symm.trans terminate
  | wakes m plan d worker_eq awake =>
    have active := h.active_of_awake (by rw [worker_eq]; rfl) awake
    rw [Channel.wake, active]
    simp only [Bool.not_true, Bool.false_eq_true, if_false, interrupt]
    split_ifs
    · exact .inl ⟨active, rfl, rfl, rfl⟩
    · exact .inl ⟨active, rfl, rfl, rfl⟩
  | concludes m result worker_eq => exact .inr ⟨by rw [worker_eq]; rfl, rfl, rfl, fun _ => rfl⟩
  | leaves => exact .inl ⟨rfl, rfl, rfl, rfl⟩

end Channel
end Milp
