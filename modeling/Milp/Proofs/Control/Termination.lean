import Milp.Proofs.Control.Calls
import Milp.Proofs.Control.Progress

/-!
# Shutdowns come to an end

Each thread has only so many steps left of a shutdown, once the worker is suspended or has finished.
So a shutdown comes to its end whichever thread goes on first (`ComesTo`): of a suspended worker
with the model of an interrupted solve (`Halting` says what holds on the way), and of a finished one
without effect (`Ending`). `System.shutdown_terminates` puts this together with the absence of
deadlocks.
-/

namespace Milp

variable {α κ : Type}

/-- How many steps a controller has left of a shutdown. -/
def Controller.stepsLeft : Controller → Nat
  | .stopping _ => 4
  | .finishing _ => 3
  | .joining _ => 2
  | .collecting _ => 1
  | .free | .waiting | .gone => 0

namespace System

variable {s t : System α κ}

/-! ### Coming to an end -/

/-- Whether a system comes to a goal in at most so many steps, whichever of its threads goes on. -/
inductive ComesTo [Scalar α] (goal : System α κ → Prop) : Nat → System α κ → Prop
  | here {s : System α κ} (n : Nat) : goal s → ComesTo goal n s
  | later {s : System α κ} {n : Nat} : (∃ t, s.Progress t) →
      (∀ t, s.Progress t → ComesTo goal n t) → ComesTo goal (n + 1) s

/-- A system comes to what its goal implies. -/
theorem ComesTo.mono [Scalar α] {goal goal' : System α κ → Prop} {n : Nat} (h : ComesTo goal n s)
    (weaker : ∀ t, goal t → goal' t) : ComesTo goal' n s := by
  induction h with
  | here n there => exact .here n (weaker _ there)
  | later goes_on _ ih => exact .later goes_on ih

/-- A system comes to a goal if it goes on until it is there and every step counts down. -/
theorem comesTo_of_countdown [Scalar α] {goal : System α κ → Prop} {left : System α κ → Nat}
    (holds : System α κ → Prop) (goes : ∀ s, holds s → goal s ∨ ∃ t, s.Progress t)
    (counts : ∀ s t, holds s → s.Progress t → holds t ∧ left t < left s) {n : Nat}
    (h : holds s) (enough : left s ≤ n) : ComesTo goal n s := by
  induction n generalizing s with
  | zero =>
    rcases goes s h with there | ⟨t, progress⟩
    · exact .here 0 there
    · have fewer := (counts s t h progress).2
      omega
  | succ n ih =>
    rcases goes s h with there | goes_on
    · exact .here (n + 1) there
    · refine .later goes_on fun t progress => ?_
      obtain ⟨holds_t, fewer⟩ := counts s t h progress
      exact ih holds_t (by omega)

/-! ### Shutting a finished channel down -/

/-- How many steps a shutdown has left, if the worker was told to stop or has finished. -/
def stepsLeft (s : System α κ) : Nat := s.channel.worker.stepsLeft + s.controller.stepsLeft

/-- A shutdown is over, with what the worker has left in the cell and what happened before. -/
structure Ended (why : Stop) (cell : Cell α κ) (log : List (Event α)) (s : System α κ) : Prop where
  controller : s.controller = why.after
  joined : s.channel.joined = true
  cell_eq : s.channel.cell = cell
  log_eq : s.log = log ++ [.responded (why.response (.ok ()))]

/-- Where a shutdown can be after the worker has finished. -/
inductive Ending (why : Stop) (cell : Cell α κ) (log : List (Event α)) (s : System α κ) : Prop
  | begun (cell_eq : s.channel.cell = cell) (log_eq : s.log = log)
      (controller : s.controller = .stopping why ∨ s.controller = .finishing why ∨
        s.controller = .joining why)
  | joined (cell_eq : s.channel.cell = cell) (log_eq : s.log = log)
      (controller : s.controller = .collecting why) (joined : s.channel.joined = true)
  | ended (ended : s.Ended why cell log)

variable {why : Stop} {cell : Cell α κ} {log : List (Event α)}

/-- The cell of an ending shutdown is the one that the worker has left. -/
theorem Ending.cell_eq (h : s.Ending why cell log) : s.channel.cell = cell := by
  cases h with
  | begun cell_eq => exact cell_eq
  | joined cell_eq => exact cell_eq
  | ended ended => exact ended.cell_eq

/-- A step of the controller keeps a shutdown ending. -/
theorem Ending.controllerStep (h : s.Ending why cell log) (inv : s.Inv)
    (finished : cell.finished = true) (undelivered : cell.failure = none)
    (step : s.controllerStep = some t) :
    t.Ending why cell log ∧ t.stepsLeft < s.stepsLeft := by
  have come : s.channel.hasCome .finish = true := by rw [Channel.hasCome, h.cell_eq, finished]
  have turn : s.channel.hasCome .turn = true := by
    rw [Channel.hasCome, inv.coherent.inactive_of_done (inv.coherent.finished_iff.mp come)]
    rfl
  cases h with
  | begun cell_eq log_eq controller =>
    rcases controller with controller | controller | controller
    · simp only [System.controllerStep, controller] at step
      split_ifs at step
      cases step
      have kept : s.channel.orderStop = s.channel := if_pos come
      simp only [lookToStop, turn, kept, come, if_true, stepsLeft, controller, Controller.stepsLeft]
      exact ⟨.begun cell_eq log_eq (.inr (.inr rfl)), by omega⟩
    · simp only [System.controllerStep, controller] at step
      split_ifs at step
      cases step
      simp only [lookForFinish, come, if_true, stepsLeft, controller, Controller.stepsLeft]
      exact ⟨.begun cell_eq log_eq (.inr (.inr rfl)), by omega⟩
    · simp only [System.controllerStep, controller] at step
      split_ifs at step
      cases step
      rw [joinThread_eq inv.coherent]
      refine ⟨.joined cell_eq log_eq rfl rfl, ?_⟩
      simp only [stepsLeft, controller, Controller.stepsLeft]
      omega
  | joined cell_eq log_eq controller joined =>
    simp only [System.controllerStep, controller, Option.some.injEq] at step
    have nothing : s.channel.collect = (.ok (), s.channel) := by
      rw [Channel.collect, cell_eq, undelivered]
    subst step
    simp only [System.collect, nothing, finishStop, respond]
    refine ⟨.ended ⟨rfl, joined, cell_eq, by rw [log_eq]⟩, ?_⟩
    simp only [stepsLeft, controller, Controller.stepsLeft]
    cases why <;> simp [Stop.after]
  | ended ended =>
    cases why <;> simp [System.controllerStep, ended.controller, Stop.after] at step

variable [Scalar α]

/-- A step of the worker keeps a shutdown ending. -/
theorem Ending.workerStep (h : s.Ending why cell log) (inv : s.Inv)
    (finished : cell.finished = true) (step : s.workerStep = some t) :
    t.Ending why cell log ∧ t.stepsLeft < s.stepsLeft := by
  have done : s.channel.worker.phase = .done := by
    rw [← inv.coherent.finished_iff, h.cell_eq, finished]
  unfold System.workerStep at step
  obtain ⟨⟨c, k⟩, moved, rfl⟩ := Option.map_eq_some_iff.mp step
  cases worker_eq : s.channel.worker with
  | leaving =>
    simp only [Channel.workerStep, worker_eq, Option.some.injEq, Prod.mk.injEq] at moved
    obtain ⟨rfl, rfl⟩ := moved
    refine ⟨?_, ?_⟩
    · cases h with
      | begun cell_eq log_eq controller =>
        exact .begun cell_eq (by simp [announcement, log_eq]) controller
      | joined cell_eq log_eq controller joined =>
        exact .joined cell_eq (by simp [announcement, log_eq]) controller joined
      | ended ended =>
        exact .ended ⟨ended.controller, ended.joined, ended.cell_eq,
          by simp [announcement, ended.log_eq]⟩
    · simp only [stepsLeft, worker_eq, Worker.stepsLeft]
      omega
  | ended crashed =>
    simp only [Channel.workerStep, worker_eq] at moved
    cases moved
  | _ => simp [worker_eq, Worker.phase] at done

/-- A step of either thread keeps a shutdown ending. -/
theorem Ending.progress (h : s.Ending why cell log) (inv : s.Inv) (finished : cell.finished = true)
    (undelivered : cell.failure = none) (progress : s.Progress t) :
    t.Ending why cell log ∧ t.stepsLeft < s.stepsLeft := by
  cases progress with
  | worker step => exact h.workerStep inv finished step
  | controller step => exact h.controllerStep inv finished undelivered step

/-- An ending shutdown is over, or it goes on. -/
theorem Ending.over_or_goes_on (h : s.Ending why cell log) (inv : s.Inv) :
    s.Ended why cell log ∨ ∃ t, s.Progress t := by
  cases h with
  | begun cell_eq log_eq controller =>
    right
    rcases controller with controller | controller | controller <;>
      exact inv.exists_progress (by simp [controller]) (by simp [controller])
  | joined cell_eq log_eq controller joined =>
    exact .inr (inv.exists_progress (by simp [controller]) (by simp [controller]))
  | ended ended => exact .inl ended

/-- A shutdown of a channel whose worker has finished ends, and leaves the cell as it is. -/
theorem Ending.comesTo (h : s.Ending why cell log) (inv : s.Inv) (finished : cell.finished = true)
    (undelivered : cell.failure = none) {n : Nat} (enough : s.stepsLeft ≤ n) :
    s.ComesTo (Ended why cell log) n := by
  refine comesTo_of_countdown (fun t => t.Inv ∧ t.Ending why cell log)
    (fun t ⟨inv, ending⟩ => ending.over_or_goes_on inv) ?_ ⟨inv, h⟩ enough
  rintro t u ⟨inv, ending⟩ progress
  obtain ⟨ending', fewer⟩ := ending.progress inv finished undelivered progress
  exact ⟨⟨inv.progress progress, ending'⟩, fewer⟩

/-! ### Shutting a suspended channel down -/

/-- A shutdown of a suspended worker is over, with what happened before, and the model of an
interrupted solve is there to be taken. -/
structure Halted (why : Stop) (before : List (Event α)) (s : System α κ) : Prop where
  controller : s.controller = why.after
  joined : s.channel.joined = true
  log_eq : s.log = before ++ [.concluded none, .responded (why.response (.ok ()))]
  model : ∃ m, s.channel.takeModel.1 = some m ∧ m.status = .userInterrupt

/-- Where a shutdown of a suspended worker can be. -/
inductive Halting (why : Stop) (before : List (Event α)) (s : System α κ) : Prop
  /-- The worker is about to be told to stop. -/
  | ordered (controller : s.controller = .stopping why) (suspended : s.channel.IsSuspended)
      (log_eq : s.log = before)
  /-- It was told to stop, and has not finished. -/
  | searching (controller : s.controller = .finishing why)
      (terminate : s.channel.cell.terminate = true) (unfinished : s.channel.cell.finished = false)
      (log_eq : s.log = before)
  /-- It has finished, and has left its model. -/
  | ending (cell : Cell α κ) (terminate : cell.terminate = true) (finished : cell.finished = true)
      (model : cell.model.isSome = true)
      (ending : s.Ending why cell (before ++ [.concluded none]))

variable {before : List (Event α)}

/-- A step of the worker keeps a shutdown halting. -/
theorem Halting.workerStep (h : s.Halting why before) (inv : s.Inv)
    (step : s.workerStep = some t) : t.Halting why before ∧ t.stepsLeft < s.stepsLeft := by
  cases h with
  | ordered controller suspended log_eq =>
    rw [System.workerStep, Channel.workerStep_of_suspended suspended] at step
    cases step
  | searching controller terminate unfinished log_eq =>
    have inv_t := inv.workerStep step
    unfold System.workerStep at step
    obtain ⟨⟨c, k⟩, moved, rfl⟩ := Option.map_eq_some_iff.mp step
    have moves := Channel.moves_of_workerStep moved
    have terminate' : c.cell.terminate = true := moves.terminate_eq.trans terminate
    refine ⟨?_, Nat.add_lt_add_right (inv.coherent.stepsLeft_lt terminate moved) _⟩
    rcases announcement_of_moves moves with
      ⟨silent, -, finished_eq⟩ | ⟨announced, -, finished, model⟩
    · exact .searching controller terminate' (finished_eq.trans unfinished)
        (by simp only [silent, log_eq, List.append_nil])
    · have undelivered : c.cell.failure = none := (inv_t.coherent.stopping terminate').2.2
      refine .ending c.cell terminate' finished model (.begun rfl ?_ (.inr (.inl controller)))
      simp only [announced, undelivered, log_eq]
  | ending cell terminate finished model ending =>
    obtain ⟨ending', fewer⟩ := ending.workerStep inv finished step
    exact ⟨.ending cell terminate finished model ending', fewer⟩

omit [Scalar α] in
/-- A step of the controller keeps a shutdown halting. -/
theorem Halting.controllerStep (h : s.Halting why before) (inv : s.Inv)
    (step : s.controllerStep = some t) : t.Halting why before ∧ t.stepsLeft < s.stepsLeft := by
  cases h with
  | ordered controller suspended log_eq =>
    have inactive := (inv.coherent.asleep_iff.mp suspended.2).2
    have unfinished := inv.coherent.unfinished_of_waiting suspended.1
    simp only [System.controllerStep, controller] at step
    split_ifs at step
    cases step
    simp only [lookToStop, Channel.hasCome, inactive, Bool.not_false, if_true, Channel.orderStop,
      unfinished, Bool.false_eq_true, if_false, Channel.notifyAll, stepsLeft, controller,
      Controller.stepsLeft]
    exact ⟨.searching rfl rfl rfl log_eq, by omega⟩
  | searching controller terminate unfinished log_eq =>
    -- the controller sleeps until the worker has finished
    have agrees := inv.agrees
    rw [controller] at agrees
    have asleep := agrees.2.2.mpr unfinished
    simp only [System.controllerStep, controller, asleep, if_true] at step
    cases step
  | ending cell terminate finished model ending =>
    have undelivered : cell.failure = none := by
      rw [← ending.cell_eq] at terminate ⊢
      exact (inv.coherent.stopping terminate).2.2
    obtain ⟨ending', fewer⟩ := ending.controllerStep inv finished undelivered step
    exact ⟨.ending cell terminate finished model ending', fewer⟩

/-- A step of either thread keeps a shutdown halting. -/
theorem Halting.progress (h : s.Halting why before) (inv : s.Inv) (progress : s.Progress t) :
    t.Halting why before ∧ t.stepsLeft < s.stepsLeft := by
  cases progress with
  | worker step => exact h.workerStep inv step
  | controller step => exact h.controllerStep inv step

/-- A halting shutdown is over, or it goes on. -/
theorem Halting.over_or_goes_on (h : s.Halting why before) (inv : s.Inv) :
    s.Halted why before ∨ ∃ t, s.Progress t := by
  cases h with
  | ordered controller suspended log_eq =>
    exact .inr (inv.exists_progress (by simp [controller]) (by simp [controller]))
  | searching controller terminate unfinished log_eq =>
    exact .inr (inv.exists_progress (by simp [controller]) (by simp [controller]))
  | ending cell terminate finished model ending =>
    rcases ending.over_or_goes_on inv with ended | goes_on
    · rw [← ended.cell_eq] at terminate finished model
      obtain ⟨m, model⟩ := Option.isSome_iff_exists.mp model
      have taken : s.channel.takeModel.1 = some m := by
        rw [Channel.takeModel, if_pos finished]
        exact model
      exact .inl {
        controller := ended.controller
        joined := ended.joined
        log_eq := by simpa using ended.log_eq
        model := ⟨m, taken, inv.coherent.interrupted terminate m model⟩ }
    · exact .inr goes_on

/-- A shutdown of a suspended worker ends, with the model of an interrupted solve. -/
theorem Halting.comesTo (h : s.Halting why before) (inv : s.Inv) {n : Nat}
    (enough : s.stepsLeft ≤ n) :
    s.ComesTo (Halted why before) n := by
  refine comesTo_of_countdown (fun t => t.Inv ∧ t.Halting why before)
    (fun t ⟨inv, halting⟩ => halting.over_or_goes_on inv) ?_ ⟨inv, h⟩ enough
  rintro t u ⟨inv, halting⟩ progress
  obtain ⟨halting', fewer⟩ := halting.progress inv progress
  exact ⟨⟨inv.progress progress, halting'⟩, fewer⟩

/-! ### Shutdowns -/

/-- A call that shuts the channel down begins by giving its token back. -/
theorem perform_stop {call : Call α κ} (stops : call.stop? = some why)
    (own : ∀ token ∈ call.token?, s.channel.isForeign token = false) :
    (s.perform call).controller = .stopping why ∧
      (s.perform call).channel.giveUp = s.channel.giveUp ∧ (s.perform call).log = s.log := by
  cases call with
  | join token =>
    cases stops
    simp only [perform, own token rfl, Bool.false_eq_true, if_false, spend_controller,
      spend_channel, spend_log, true_and, and_true]
    rfl
  | recover =>
    cases stops
    exact ⟨rfl, rfl, rfl⟩
  | drop =>
    cases stops
    exact ⟨rfl, rfl, rfl⟩
  | wait => cases stops
  | resume order token => cases stops
  | isDone token => cases stops
  | state token => cases stops
  | takeModel => cases stops

/-- A shutdown that finds the worker suspended halts it. -/
theorem Inv.halts (inv : s.Inv) (stopping : s.controller = .stopping why)
    (suspended : s.channel.IsSuspended) : s.ComesTo (Halted why s.log) 8 := by
  have halting : s.Halting why s.log := .ordered stopping suspended rfl
  refine halting.comesTo inv ?_
  rw [stepsLeft, stopping]
  exact Nat.add_le_add_right (Worker.stepsLeft_of_waiting suspended.1) 4

/-- A shutdown that finds the worker finished and no failure ends. -/
theorem Inv.ends (inv : s.Inv) (stopping : s.controller = .stopping why)
    (finished : s.channel.cell.finished = true) (undelivered : s.channel.cell.failure = none) :
    s.ComesTo (Ended why s.channel.cell s.log) 5 := by
  have ending : s.Ending why s.channel.cell s.log := .begun rfl rfl (.inl stopping)
  refine ending.comesTo inv finished undelivered ?_
  rw [stepsLeft, stopping]
  exact Nat.add_le_add_right (Worker.stepsLeft_of_done (inv.coherent.finished_iff.mp finished)) 4

/-- Controller and worker never wait for each other, and shutting a channel down ends.

* The two never sleep both, and within a call of the controller one of them can take a step.
* Once the worker was told to stop, and whatever happens then, it is never suspended again, and it
  interrupts its search at every decision point that it waits at or comes to.
* A shutdown that finds the worker suspended, as any that is called then, succeeds within eight
  steps, whichever of the two takes them, and leaves the model of an interrupted solve.
* A shutdown of a worker that has finished, by a controller that has its turn or that has shut it
  down before, succeeds within five steps and leaves the cell as it was but for the token. -/
theorem shutdown_terminates (h : s.Reachable) :
    (s.channel.sleepers.controller = false ∨ s.channel.sleepers.worker = false) ∧
    (s.controller ≠ .free → s.controller ≠ .gone → ∃ t, s.Progress t) ∧
    (s.channel.cell.terminate = true → ∀ t, Relation.ReflTransGen Step s t →
      ¬ t.channel.IsSuspended ∧
      ∀ m plan d,
        t.channel.worker = .waiting m plan d ∨ t.channel.worker = .solving m plan (.ask d) →
        t.workerStep = some { t with channel := t.channel.interrupt m plan d }) ∧
    (∀ why, s.controller = .stopping why → s.channel.IsSuspended → s.ComesTo (Halted why s.log) 8) ∧
    ∀ call why, call.stop? = some why → s.MayCall call →
      (∀ token ∈ call.token?, s.channel.isForeign token = false) →
      (s.channel.IsSuspended → (s.perform call).ComesTo (Halted why s.log) 8) ∧
      (s.channel.cell.finished = true → 0 < s.tokens ∨ s.channel.joined = true →
        (s.perform call).ComesTo (fun t =>
          t.Ended why { s.channel.cell with tokenOut := t.channel.cell.tokenOut } s.log) 5) := by
  refine ⟨h.inv.one_awake, h.inv.exists_progress, ?_, fun why => h.inv.halts, ?_⟩
  · intro terminate t steps
    have coherent := (h.trans steps).inv.coherent
    have terminate' := terminate_of_steps steps terminate
    constructor
    · intro suspended
      cases suspended.2.symm.trans (coherent.stopping terminate').2.1
    · intro m plan d at_decision
      have silent : announcement t.channel.worker = [] := by
        rcases at_decision with worker_eq | worker_eq <;> rw [worker_eq] <;> rfl
      rw [workerStep, Channel.workerStep_interrupt coherent terminate' at_decision, silent]
      simp only [Option.map_some, List.append_nil]
  · intro call why stops may own
    obtain ⟨stopping, giveUp_eq, log_eq⟩ := perform_stop stops own
    have inv := h.inv.perform may
    have cell_eq : (s.perform call).channel.giveUp.cell = s.channel.giveUp.cell := by rw [giveUp_eq]
    constructor
    · intro suspended
      have suspended' : (s.perform call).channel.giveUp.IsSuspended := by
        rw [giveUp_eq]
        exact suspended
      rw [← log_eq]
      exact inv.halts stopping suspended'
    · intro finished settled
      have undelivered : s.channel.giveUp.cell.failure = none := by
        rcases settled with alive | joined
        · exact h.inv.failure_none (h.inv.tokenOut_of_alive alive)
        · exact h.inv.failure_none_of_joined (by simp [may.free]) joined
      replace finished : s.channel.giveUp.cell.finished = true := finished
      rw [← cell_eq] at undelivered finished
      apply (inv.ends stopping finished undelivered).mono
      intro t ended
      have kept : t.channel.cell =
          { s.channel.cell with tokenOut := t.channel.cell.tokenOut } := by
        rw [ended.cell_eq]
        exact congrArg
          (fun cell => { cell with tokenOut := (s.perform call).channel.cell.tokenOut }) cell_eq
      exact ⟨ended.controller, ended.joined, kept, log_eq ▸ ended.log_eq⟩

/-- A join of the pair at its first decision ends, with the model of an interrupted solve. After its
first step the worker has been told to stop, and is not suspended any more. -/
theorem pair_terminates : ∃ s t : System Rat Unit, s.Reachable ∧ s.channel.IsSuspended ∧
    (s.perform (.join ⟨1⟩)).ComesTo (Halted .join s.log) 8 ∧
    (s.perform (.join ⟨1⟩)).Progress t ∧ t.channel.cell.terminate = true ∧
    ¬ t.channel.IsSuspended ∧ ∃ u, t.Progress u := by
  obtain ⟨s, reached, free, tokens, id_eq, suspended⟩ := pair_suspended
  obtain ⟨-, -, -, -, shuts_down⟩ := shutdown_terminates reached
  have may : s.MayCall (.join ⟨1⟩) := ⟨free, fun _ _ _ => by omega, nofun⟩
  have own : s.channel.isForeign ⟨1⟩ = false := by simp [Channel.isForeign, id_eq]
  have joins := (shuts_down (.join ⟨1⟩) .join rfl may (by rintro _ ⟨⟩; exact own)).1 suspended
  have inactive := (reached.inv.coherent.asleep_iff.mp suspended.2).2
  have unfinished := reached.inv.coherent.unfinished_of_waiting suspended.1
  have agrees := reached.inv.agrees
  rw [free] at agrees
  let t := (s.perform (.join ⟨1⟩)).lookToStop .join
  have step : (s.perform (.join ⟨1⟩)).Progress t :=
    .controller (by simp [t, controllerStep, perform, own, Channel.giveUp, agrees.1])
  have stopped : t.channel.cell.terminate = true ∧ t.controller = .finishing .join := by
    simp [t, lookToStop, perform, own, Channel.giveUp, Channel.hasCome, inactive,
      Channel.orderStop, unfinished, Channel.notifyAll]
  have reached_t := (reached.step (.call _ may)).step (.progress step)
  obtain ⟨-, goes_on, interrupts, -⟩ := shutdown_terminates reached_t
  exact ⟨s, t, reached, suspended, joins, step, stopped.1, (interrupts stopped.1 t .refl).1,
    goes_on (by simp [stopped.2]) (by simp [stopped.2])⟩

end System

/-! ### Shutdowns that run -/

namespace Channel

variable [Scalar α] {c : Channel α κ}

/-- A worker that was told to stop finishes when it is let run, and leaves its model. -/
theorem finished_runUntil (h : c.Coherent) (terminate : c.cell.terminate = true)
    (left : c.cell.finished = true → c.cell.model.isSome = true) (steps : Nat) (k : κ)
    (enough : c.worker.stepsLeft ≤ steps) :
    let c' := (c.runUntil .finish steps k).1
    c'.cell.terminate = true ∧ c'.cell.finished = true ∧ c'.cell.model.isSome = true := by
  induction steps generalizing c k with
  | zero =>
    have finished : c.cell.finished = true := by
      rw [h.finished_iff]
      exact Worker.done_of_stepsLeft (Nat.le_zero.mp enough)
    exact ⟨terminate, finished, left finished⟩
  | succ steps ih =>
    unfold runUntil
    split_ifs with finished
    · exact ⟨terminate, finished, left finished⟩
    · have unfinished : c.cell.finished = false := by simpa [hasCome] using finished
      have running := h.running_of_unfinished unfinished
      obtain ⟨c', k', moved⟩ := exists_workerStep (h.stopping terminate).2.1 running k
      have moves := moves_of_workerStep moved
      have fewer := h.stepsLeft_lt terminate moved
      rw [moved]
      refine ih (h.of_moves moves) (moves.terminate_eq.trans terminate) (fun finished' => ?_) k'
        (by omega)
      rcases System.announcement_of_moves moves with ⟨-, -, finished_eq⟩ | ⟨-, -, -, model⟩
      · cases unfinished.symm.trans (finished_eq.symm.trans finished')
      · exact model

/-- Joining a suspended worker succeeds, and the model of an interrupted solve is there to be
taken. -/
theorem join_of_suspended (h : c.Coherent) (suspended : c.IsSuspended) {token : Token}
    (own : c.isForeign token = false) (k : κ) :
    ∃ c' k', c.join token k = (.ok (), c', k') ∧
      ∃ m, c'.takeModel.1 = some m ∧ m.status = .userInterrupt := by
  have inactive := (h.asleep_iff.mp suspended.2).2
  have unfinished := h.unfinished_of_waiting suspended.1
  have turn : c.giveUp.hasCome .turn = true := by
    simp only [hasCome, giveUp, inactive, Bool.not_false]
  -- the worker is told to stop, and finishes
  have coherent₁ : c.giveUp.orderStop.Coherent := h.giveUp.orderStop inactive
  have ordered : c.giveUp.orderStop.cell.terminate = true ∧
      c.giveUp.orderStop.cell.finished = false ∧ c.giveUp.orderStop.worker = c.worker := by
    simp [orderStop, giveUp, unfinished, notifyAll]
  obtain ⟨terminate₁, unfinished₁, worker_eq⟩ := ordered
  have few : c.giveUp.orderStop.worker.stepsLeft ≤ patience := by
    rw [worker_eq]
    exact Nat.le_trans (Worker.stepsLeft_of_waiting suspended.1) (by decide)
  have stopped := finished_runUntil coherent₁ terminate₁
    (fun finished => by cases unfinished₁.symm.trans finished) patience k few
  have coherent₂ := coherent₁.runUntil .finish patience k
  unfold join shutdown
  simp only [own, Bool.false_eq_true, if_false, runUntil_of_come turn]
  generalize c.giveUp.orderStop.runUntil .finish patience k = run at stopped coherent₂ ⊢
  obtain ⟨c₂, k₂⟩ := run
  obtain ⟨terminate₂, finished₂, model₂⟩ := stopped
  simp only at terminate₂ finished₂ model₂ coherent₂ ⊢
  -- its thread ends
  have ended : ∃ c₃ k₃,
      (if c₂.joined then (c₂, k₂) else c₂.runUntil .thread patience k₂) = (c₃, k₃) ∧
      c₃.Coherent ∧ c₃.cell = c₂.cell := by
    split_ifs
    · exact ⟨c₂, k₂, rfl, coherent₂, rfl⟩
    · exact ⟨_, _, rfl, coherent₂.runUntil .thread patience k₂,
        (ended_runUntil (coherent₂.finished_iff.mp finished₂) (patience - 1) k₂).2⟩
  obtain ⟨c₃, k₃, run_eq, coherent₃, cell_eq⟩ := ended
  simp only [run_eq, coherent₃.joinThread_eq]
  have undelivered := (coherent₂.stopping terminate₂).2.2
  obtain ⟨m, model₂⟩ := Option.isSome_iff_exists.mp model₂
  refine ⟨{ c₃ with joined := true }, k₃, ?_, m, ?_, coherent₂.interrupted terminate₂ m model₂⟩
  · simp only [collect, cell_eq, undelivered]
  · simp only [takeModel, cell_eq, finished₂, if_true, model₂]

/-- Shutting a channel down again has no effect. -/
theorem shutdown_of_joined (h : c.Coherent) (joined : c.joined = true)
    (undelivered : c.cell.failure = none) (k : κ) : c.shutdown k = (.ok (), c, k) := by
  have done := h.done_of_joined joined
  have turn : c.hasCome .turn = true := by simp [hasCome, h.inactive_of_done done]
  have finish : c.hasCome .finish = true := h.finished_iff.mpr done
  have kept : c.orderStop = c := if_pos finish
  unfold shutdown
  simp only [runUntil_of_come turn, kept, runUntil_of_come finish, joined, if_true, joinThread,
    collect, undelivered]

end Channel
end Milp
