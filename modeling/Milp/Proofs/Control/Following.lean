import Milp.Proofs.Control.Mimicry
import Milp.Proofs.Control.Progress

/-!
# A controller that follows a strategy

What each step of the controller does to a channel that is where a direct solve is: none of them is
a turn of the direct solve, and each comes closer to one or to the end. `System.Answered` says what
a call leaves behind with its response, and `Awaits.step_cases` and `Holds.step_cases` that a
controller makes no calls but those of its strategy. `Yields.sleep`, `Looks.step` and `Settles.step`
follow it through a round and to the end.
-/

namespace Milp

variable {α κ : Type} {strategy : Strategy α κ} {s t : System α κ}

/-! ### Responses -/

/-- Whether a step ends a call with a response. -/
structure System.Answered (s t : System α κ) (r : Response α) : Prop where
  responses_eq : t.responses = s.responses ++ [r]
  id_eq : t.channel.id = s.channel.id
  free : t.controller = .free

namespace System.Answered

variable {r : Response α}

/-- A response ends a call. -/
theorem respond (log_eq : t.log = s.log) (id_eq : t.channel.id = s.channel.id)
    (free : t.controller = .free) : s.Answered (t.respond r) r where
  responses_eq := by rw [responses_respond, responses, responses, log_eq]
  id_eq
  free

/-- A call that only gives something back ends with that. -/
theorem self (free : s.controller = .free) (r : Response α) : s.Answered (s.respond r) r :=
  respond rfl rfl free

variable (h : s.Answered t r)

include h

/-- The controller has been shown what the response shows. -/
theorem shown_eq : t.shown = s.shown ++ r.snapshot?.toList := by
  cases shows : r.snapshot? <;> simp [shown, h.responses_eq, shows]

/-- The controller has been told what the response tells. -/
theorem told_eq : t.told = s.told ++ r.error?.toList := by
  cases tells : r.error? <;> simp [told, h.responses_eq, tells]

/-- The controller is about to make the call that the strategy has after the response. -/
theorem next_eq : strategy.next? t = strategy.reaction? ⟨s.channel.id⟩ t.shown r := by
  rw [Strategy.next?, h.responses_eq, h.id_eq, List.getLast?_concat]
  rfl

/-- A controller with a token goes on with the call that it makes after the response. -/
theorem holds {call : Call α κ} (one : t.tokens = 1)
    (reacts : strategy.reaction? ⟨s.channel.id⟩ t.shown r = some call) : strategy.Holds t call :=
  ⟨h.free, one, h.next_eq.trans reacts⟩

end System.Answered

/-! ### Calls and looks -/

/-- A token of the channel is not foreign to it. -/
theorem Channel.isForeign_own (c : Channel α κ) : c.isForeign ⟨c.id⟩ = false := by
  simp [Channel.isForeign]

namespace System

/-- A controller that looks for its turn when it has come, and finds no failure, gets a token. -/
theorem lookForTurn_taken (inactive : s.channel.cell.workerActive = false)
    (undelivered : s.channel.cell.failure = none) :
    let t := lookForTurn { s with controller := .waiting }
    s.Answered t (.wait (.ok ⟨s.channel.id⟩)) ∧ t.tokens = s.tokens + 1 ∧ t.memory = s.memory ∧
      t.channel = { s.channel with cell := { s.channel.cell with tokenOut := true } } := by
  have looks : lookForTurn { s with controller := .waiting } =
      respond { s with
        channel := { s.channel with cell := { s.channel.cell with tokenOut := true } }
        controller := .free
        tokens := s.tokens + 1 } (.wait (.ok ⟨s.channel.id⟩)) := by
    simp [lookForTurn, Channel.hasCome, inactive, Channel.takeTurn, undelivered, errorOf?]
  rw [looks]
  exact ⟨.respond rfl rfl rfl, rfl, rfl, rfl⟩

/-- A controller that looks for its turn when it has come, and finds a failure, is told it. -/
theorem lookForTurn_failed (inactive : s.channel.cell.workerActive = false) {e : SolverError α}
    (failure : s.channel.cell.failure = some e) :
    let t := lookForTurn { s with controller := .waiting }
    s.Answered t (.wait (.error (.solver e))) ∧ t.memory = s.memory ∧
      t.channel = { s.channel with cell := { s.channel.cell with failure := none } } := by
  have looks : lookForTurn { s with controller := .waiting } =
      respond { s with
        channel := { s.channel with cell := { s.channel.cell with failure := none } }
        controller := .free } (.wait (.error (.solver e))) := by
    simp [lookForTurn, Channel.hasCome, inactive, Channel.takeTurn, failure, errorOf?]
  rw [looks]
  exact ⟨.respond rfl rfl rfl, rfl, rfl⟩

section

variable [Scalar α]

/-- Asking with a token tells whether the worker has finished. -/
theorem perform_isDone (s : System α κ) :
    s.perform (.isDone ⟨s.channel.id⟩) = s.respond (.isDone (.ok s.channel.cell.finished)) := by
  simp [perform, Channel.isDone, Channel.isForeign_own]

/-- Looking with a token shows the snapshot that has been published. -/
theorem perform_state {snapshot : Snapshot α}
    (published : s.channel.cell.snapshot = some snapshot) :
    s.perform (.state ⟨s.channel.id⟩) = s.respond (.state (.ok snapshot)) := by
  simp [perform, Channel.state, Channel.isForeign_own, published]

/-- Joining with a token begins by giving it up. -/
theorem perform_join (s : System α κ) :
    s.perform (.join ⟨s.channel.id⟩) = { s with
      channel := s.channel.giveUp, controller := .stopping .join, tokens := s.tokens - 1 } := by
  simp [perform, spend, Channel.isForeign, Channel.giveUp]

/-- Taking the model of a worker that has finished gives it away. -/
theorem perform_takeModel {m : Model α} (finished : s.channel.cell.finished = true)
    (model : s.channel.cell.model = some m) :
    s.perform .takeModel = respond { s with
      channel := { s.channel with cell := { s.channel.cell with model := none } } }
        (.takeModel (some m)) := by
  simp [perform, Channel.takeModel, finished, model]

/-- A controller that resumes a worker that has not finished leaves it the order and the turn. -/
theorem perform_resume (free : s.controller = .free) (unfinished : s.channel.cell.finished = false)
    (order : Order α κ) :
    let t := s.perform (.resume order ⟨s.channel.id⟩)
    s.Answered t (.resume (.ok ())) ∧ t.memory = s.memory ∧
      t.channel = { s.channel with
        cell := { s.channel.cell with
          tokenOut := false, pending := some order, workerActive := true }
        sleepers := {} } := by
  have performs : s.perform (.resume order ⟨s.channel.id⟩) =
      respond { s with
        channel := { s.channel with
          cell := { s.channel.cell with
            tokenOut := false, pending := some order, workerActive := true }
          sleepers := {} }
        tokens := s.tokens - 1 } (.resume (.ok ())) := by
    simp [perform, Channel.resume, unfinished, spend, Channel.isForeign, Channel.notifyAll]
  rw [performs]
  exact ⟨.respond rfl rfl free, rfl, rfl⟩

end

/-! ### What stays as it is -/

/-- A worker stays suspended while the controller gets a response that is no error. -/
theorem IsPaused.answered [Scalar α] {m m' : Model α} {hooks : Hooks} {plan : Plan α}
    {d : Decision α} {memory : List (Snapshot α) × κ} {r : Response α} {tokenOut : Bool}
    (paused : s.IsPaused m' plan d memory) (answered : s.Answered t r)
    (channel_eq : t.channel = { s.channel with cell := { s.channel.cell with tokenOut } })
    (memory_eq : t.memory = s.memory) (silent : r.error? = none)
    (looks : strategy.Looks t memory.1 (d.snapshot plan))
    (closer : strategy.controllerRank t < strategy.controllerRank s) :
    strategy.Mimics m hooks t (.searching m' plan (.ask d) memory) ∧
      strategy.rank t < strategy.rank s := by
  have paused' : t.IsPaused m' plan d memory := by
    refine ⟨?_, ?_, ?_, memory_eq.trans paused.memory_eq, ?_⟩
    · rw [channel_eq]; exact paused.worker_eq
    · rw [channel_eq]; exact paused.inactive
    · rw [channel_eq]; exact paused.snapshot_eq
    · rw [answered.told_eq, paused.told, silent]; rfl
  exact ⟨.suspended paused' looks,
    Strategy.rank_lt (by rw [channel_eq]) (by rw [channel_eq]) (by rw [channel_eq]) closer⟩

/-- A worker stays as it has finished when the controller gets a response. A failure is told as it
is taken. -/
theorem IsSettled.answered {result : Attempt (SolverError α) SolveStatus}
    {memory : List (Snapshot α) × κ} {r : Response α} (settled : s.IsSettled result memory)
    (answered : s.Answered t r) (memory_eq : t.memory = s.memory)
    (finished_eq : t.channel.cell.finished = s.channel.cell.finished)
    (shows : r.snapshot? = none)
    (tells : r.error?.toList ++ t.channel.cell.failure.toList.map .solver =
      s.channel.cell.failure.toList.map .solver) : t.IsSettled result memory where
  finished := finished_eq.trans settled.finished
  told := by rw [answered.told_eq, List.append_assoc, tells, settled.told]
  memory_eq := by
    rw [answered.shown_eq, shows, Option.toList_none, List.append_nil, memory_eq,
      settled.memory_eq]

end System

namespace Strategy

variable [Scalar α] {m m' : Model α} {hooks : Hooks} {course : Course α κ} {plan : Plan α}
  {d : Decision α} {memory : List (Snapshot α) × κ}
  {result : Attempt (SolverError α) SolveStatus}

/-! ### Steps of the controller -/

/-- A controller between two calls can only make its next one. -/
theorem Step.of_free (step : strategy.Step s t) (free : s.controller = .free) :
    s.workerStep = some t ∨ ∃ call, strategy.next? s = some call ∧ t = s.perform call := by
  cases step with
  | progress progress =>
    cases progress with
    | worker step => exact .inl step
    | controller step =>
      simp only [System.controllerStep, free] at step
      cases step
  | call free next => exact .inr ⟨_, next, rfl⟩

/-- A controller that has its turn can only make its call. -/
theorem Holds.step_cases {call : Call α κ} (holds : strategy.Holds s call)
    (step : strategy.Step s t) : s.workerStep = some t ∨ t = s.perform call := by
  rcases step.of_free holds.1 with moved | ⟨call', next, performed⟩
  · exact .inl moved
  · cases holds.2.2.symm.trans next
    exact .inr performed

/-- A controller that waits for its turn can only look for it. -/
theorem Awaits.step_cases (awaits : strategy.Awaits s) (step : strategy.Step s t) :
    s.workerStep = some t ∨
      t = System.lookForTurn { s with controller := .waiting } ∧ 8 ≤ strategy.controllerRank s := by
  obtain ⟨unheld, waiting | ⟨free, next⟩⟩ := awaits
  · cases step with
    | progress progress =>
      cases progress with
      | worker step => exact .inl step
      | controller step =>
        simp only [System.controllerStep, waiting] at step
        split_ifs at step with asleep
        cases step
        refine .inr ⟨by rw [← waiting], ?_⟩
        rw [controllerRank, waiting]
        simp only [asleep, Bool.false_eq_true, if_false, Nat.le_refl]
    | call free next => cases waiting.symm.trans free
  · rcases step.of_free free with moved | ⟨call, next', rfl⟩
    · exact .inl moved
    · cases next.symm.trans next'
      refine .inr ⟨?_, ?_⟩
      · simp only [System.perform, unheld, Bool.false_eq_true, if_false]
      · rw [controllerRank_free free next]
        exact Nat.le_succ 8

/-- While the worker has the turn, the controller falls asleep. -/
theorem Yields.sleep (works : strategy.Works m hooks s course) (yields : strategy.Yields s)
    (waits : 8 ≤ strategy.controllerRank s) :
    strategy.Advances m hooks s (System.lookForTurn { s with controller := .waiting }) course := by
  have falls : System.lookForTurn { s with controller := .waiting } =
      System.sleep { s with controller := .waiting } := by
    simp [System.lookForTurn, Channel.hasCome, yields.active]
  rw [falls]
  refine .inl ⟨.working ?_ ⟨yields.active, yields.running, ⟨yields.awaits.1, .inl rfl⟩,
    yields.told⟩, ?_⟩
  · cases works with
    | ready worker_eq shown memory_eq => exact .ready worker_eq shown memory_eq
    | searching worker_eq memory_eq => exact .searching worker_eq memory_eq
    | woken worker_eq pending shown memory_eq => exact .woken worker_eq pending shown memory_eq
    | acting worker_eq shown memory_eq => exact .acting worker_eq shown memory_eq
    | closing worker_eq memory_eq => exact .closing worker_eq memory_eq
  · rw [rank, rank]
    have asleep : 7 < strategy.controllerRank s := waits
    exact Nat.add_lt_add_right (Nat.add_lt_add_left asleep _) _

/-- A controller that resumes a suspended worker leaves it the order for its snapshot. -/
theorem resume_step (inv : s.Inv) (paused : s.IsPaused m' plan d memory)
    (holds : strategy.Holds s (.resume (strategy s.shown) ⟨s.channel.id⟩))
    (shown : s.shown = memory.1 ++ [d.snapshot plan]) :
    let t := s.perform (.resume (strategy s.shown) ⟨s.channel.id⟩)
    strategy.Mimics m hooks t (.searching m' plan (.ask d) memory) ∧
      strategy.rank t < strategy.rank s := by
  have unfinished : s.channel.cell.finished = false :=
    inv.coherent.unfinished_of_waiting (by rw [paused.worker_eq]; rfl)
  obtain ⟨-, running, -⟩ := inv.coherent.suspended paused.inactive unfinished
  obtain ⟨answered, memory_eq, channel_eq⟩ :=
    System.perform_resume holds.1 unfinished (strategy s.shown)
  generalize s.perform (.resume (strategy s.shown) ⟨s.channel.id⟩) = t at *
  have shown_eq : t.shown = s.shown := answered.shown_eq.trans (List.append_nil _)
  have worker_eq : t.channel.worker = .waiting m' plan d := by
    rw [channel_eq]
    exact paused.worker_eq
  have active : t.channel.cell.workerActive = true := by rw [channel_eq]
  have next : strategy.next? t = some .wait := answered.next_eq
  have yields : strategy.Yields t := by
    refine ⟨active, ?_, ⟨?_, .inr ⟨answered.free, next⟩⟩, ?_⟩
    · rw [channel_eq]; exact running
    · rw [channel_eq]
    · rw [answered.told_eq, paused.told]; rfl
  refine ⟨.working (.woken worker_eq ?_ (shown_eq.trans shown)
    (memory_eq.trans paused.memory_eq)) yields, ?_⟩
  · rw [channel_eq, shown_eq]
  · have failure_eq : t.channel.cell.failure = s.channel.cell.failure := by rw [channel_eq]
    rw [rank, rank, holds.controllerRank_eq, controllerRank_free answered.free next, worker_eq,
      paused.worker_eq, active, paused.inactive, failure_eq]
    simp only [workerRank, callRank, if_true, Bool.false_eq_true, if_false]
    omega

/-- While the worker is suspended, the controller takes its turn, looks at the snapshot, and resumes
the worker with the order for it. -/
theorem Looks.step (inv : s.Inv) (paused : s.IsPaused m' plan d memory)
    (looks : strategy.Looks s memory.1 (d.snapshot plan)) (step : strategy.Step s t) :
    strategy.Mimics m hooks t (.searching m' plan (.ask d) memory) ∧
      strategy.rank t < strategy.rank s := by
  have unfinished : s.channel.cell.finished = false :=
    inv.coherent.unfinished_of_waiting (by rw [paused.worker_eq]; rfl)
  have undelivered := inv.coherent.failure_none unfinished
  have suspended := (inv.coherent.suspended paused.inactive unfinished).1
  have asleep : s.workerStep ≠ some t := by
    rw [System.workerStep, Channel.workerStep_of_suspended suspended, Option.map_none]
    exact (Option.some_ne_none t).symm
  cases looks with
  | waits awaits shown =>
    obtain ⟨rfl, waits⟩ := (awaits.step_cases step).resolve_left asleep
    obtain ⟨answered, tokens_eq, memory_eq, channel_eq⟩ :=
      System.lookForTurn_taken paused.inactive undelivered
    generalize System.lookForTurn { s with controller := .waiting } = t at *
    have one : t.tokens = 1 := by rw [tokens_eq, inv.tokens_eq_zero awaits.1]
    have holds : strategy.Holds t (.isDone ⟨t.channel.id⟩) :=
      answered.holds one (by rw [answered.id_eq]; rfl)
    refine paused.answered answered channel_eq memory_eq rfl (.asks holds ?_) ?_
    · rw [answered.shown_eq, shown]
      exact List.append_nil _
    · rw [holds.controllerRank_eq]
      exact Nat.lt_of_lt_of_le (by simp only [callRank]; omega) waits
  | asks holds shown =>
    obtain rfl := (holds.step_cases step).resolve_left asleep
    rw [System.perform_isDone, unfinished]
    have answered := System.Answered.self holds.1 (.isDone (.ok false))
    have holds' : strategy.Holds (s.respond (.isDone (.ok false))) (.state ⟨s.channel.id⟩) :=
      answered.holds holds.2.1 rfl
    refine paused.answered answered rfl rfl rfl (.looks holds' ?_) ?_
    · rw [answered.shown_eq, shown]
      exact List.append_nil _
    · rw [holds'.controllerRank_eq, holds.controllerRank_eq]
      simp only [callRank]
      omega
  | looks holds shown =>
    obtain rfl := (holds.step_cases step).resolve_left asleep
    rw [System.perform_state paused.snapshot_eq]
    have answered := System.Answered.self holds.1 (.state (.ok (d.snapshot plan)))
    have holds' : strategy.Holds (s.respond (.state (.ok (d.snapshot plan)))) (.resume _ _) :=
      answered.holds holds.2.1 rfl
    refine paused.answered answered rfl rfl rfl (.resumes holds' ?_) ?_
    · rw [answered.shown_eq, shown]
      rfl
    · rw [holds'.controllerRank_eq, holds.controllerRank_eq]
      simp only [callRank]
      omega
  | resumes holds shown =>
    obtain rfl := (holds.step_cases step).resolve_left asleep
    exact resume_step inv paused holds shown

/-- A controller that finds the worker finished is told its failure, or gets a token. -/
theorem Awaits.settle (inv : s.Inv) (settled : s.IsSettled result memory)
    (awaits : strategy.Awaits s) (waits : 8 ≤ strategy.controllerRank s)
    (model : s.channel.cell.model = some m'.uninstall) :
    let t := System.lookForTurn { s with controller := .waiting }
    strategy.Mimics m hooks t (.ended m' result memory) ∧ strategy.rank t < strategy.rank s := by
  have inactive := inv.coherent.inactive_of_done (inv.coherent.finished_iff.mp settled.finished)
  cases failure : s.channel.cell.failure with
  | none =>
    obtain ⟨answered, tokens_eq, memory_eq, channel_eq⟩ :=
      System.lookForTurn_taken inactive failure
    generalize System.lookForTurn { s with controller := .waiting } = t at *
    have one : t.tokens = 1 := by rw [tokens_eq, inv.tokens_eq_zero awaits.1]
    have holds : strategy.Holds t (.isDone ⟨t.channel.id⟩) :=
      answered.holds one (by rw [answered.id_eq]; rfl)
    refine ⟨.finished (settled.answered answered memory_eq (by rw [channel_eq]) rfl
      (by rw [channel_eq]; rfl)) (.asks holds (by rw [channel_eq]; exact model)),
      rank_lt (by rw [channel_eq]) (by rw [channel_eq]) (by rw [channel_eq]) ?_⟩
    rw [holds.controllerRank_eq]
    exact Nat.lt_of_lt_of_le (by simp only [callRank]; omega) waits
  | some e =>
    obtain ⟨answered, memory_eq, channel_eq⟩ := System.lookForTurn_failed inactive failure
    generalize System.lookForTurn { s with controller := .waiting } = t at *
    have next : strategy.next? t = some .wait := answered.next_eq
    have awaits' : strategy.Awaits t :=
      ⟨by rw [channel_eq]; exact awaits.1, .inr ⟨answered.free, next⟩⟩
    refine ⟨.finished (settled.answered answered memory_eq (by rw [channel_eq]) rfl
      (by rw [channel_eq, failure]; rfl)) (.waits awaits' (by rw [channel_eq]; exact model)), ?_⟩
    rw [rank, rank, controllerRank_free answered.free next, failure, channel_eq]
    simp only [callRank, Option.isSome_none, Option.isSome_some, Bool.false_eq_true, if_false,
      if_true]
    omega

/-- A shutdown by a controller that has been told the failure ends. -/
theorem stops_step (inv : s.Inv) (settled : s.IsSettled result memory)
    (stops : s.controller = .stopping .join ∨ s.controller = .joining .join ∨
      s.controller = .collecting .join) (delivered : s.channel.cell.failure = none)
    (model : s.channel.cell.model = some m'.uninstall) (step : s.controllerStep = some t) :
    strategy.Mimics m hooks t (.ended m' result memory) ∧ strategy.rank t < strategy.rank s := by
  have inactive := inv.coherent.inactive_of_done (inv.coherent.finished_iff.mp settled.finished)
  rcases stops with stopping | joining | collecting
  · simp only [System.controllerStep, stopping] at step
    split_ifs at step
    cases step
    have looks : s.lookToStop .join = { s with controller := .joining .join } := by
      simp [System.lookToStop, Channel.hasCome, inactive, Channel.orderStop, settled.finished]
    rw [looks]
    refine ⟨.finished ⟨settled.finished, settled.told, settled.memory_eq⟩
      (.stops (.inr (.inl rfl)) delivered model), rank_lt rfl rfl rfl ?_⟩
    rw [controllerRank, controllerRank, stopping]
    exact Nat.lt_succ_self 3
  · simp only [System.controllerStep, joining] at step
    split_ifs at step
    cases step
    rw [System.joinThread_eq inv.coherent]
    refine ⟨.finished ⟨settled.finished, settled.told, settled.memory_eq⟩
      (.stops (.inr (.inr rfl)) delivered model), rank_lt rfl rfl rfl ?_⟩
    rw [controllerRank, controllerRank, joining]
    exact Nat.lt_succ_self 2
  · simp only [System.controllerStep, collecting] at step
    cases step
    have collects : s.collect .join =
        System.respond { s with controller := .free } (.join (.ok ())) := by
      simp [System.collect, Channel.collect, delivered, System.finishStop, Stop.after,
        Stop.response]
    rw [collects]
    have answered : s.Answered (System.respond { s with controller := .free } (.join (.ok ()))) _ :=
      .respond rfl rfl rfl
    refine ⟨.finished (settled.answered answered rfl rfl rfl rfl)
      (.takes rfl answered.next_eq delivered model), rank_lt rfl rfl rfl ?_⟩
    rw [controllerRank_free rfl answered.next_eq, controllerRank, collecting]
    exact Nat.lt_succ_self 1

/-- A controller that has been told the failure, if there was one, gets the model. -/
theorem Settles.step (inv : s.Inv) (settled : s.IsSettled result memory)
    (settles : strategy.Settles s m'.uninstall) (step : strategy.Step s t) :
    strategy.Mimics m hooks t (.ended m' result memory) ∧ strategy.rank t < strategy.rank s := by
  by_cases moved : s.workerStep = some t
  · exact settles.leave inv settled moved
  cases settles with
  | waits awaits model =>
    obtain ⟨rfl, waits⟩ := (awaits.step_cases step).resolve_left moved
    exact awaits.settle inv settled waits model
  | asks holds model =>
    obtain rfl := (holds.step_cases step).resolve_left moved
    rw [System.perform_isDone, settled.finished]
    have answered := System.Answered.self holds.1 (.isDone (.ok true))
    have holds' : strategy.Holds (s.respond (.isDone (.ok true))) (.join ⟨s.channel.id⟩) :=
      answered.holds holds.2.1 rfl
    refine ⟨.finished (settled.answered answered rfl rfl rfl rfl) (.joins holds' model),
      rank_lt rfl rfl rfl ?_⟩
    rw [holds'.controllerRank_eq, holds.controllerRank_eq]
    exact Nat.lt_succ_self 5
  | joins holds model =>
    obtain rfl := (holds.step_cases step).resolve_left moved
    have delivered : s.channel.cell.failure = none :=
      inv.failure_none (inv.tokenOut_of_alive (by rw [holds.2.1]; exact Nat.one_pos))
    rw [System.perform_join]
    refine ⟨.finished ⟨settled.finished, settled.told, settled.memory_eq⟩
      (.stops (.inl rfl) delivered model), rank_lt rfl rfl rfl ?_⟩
    rw [holds.controllerRank_eq]
    exact Nat.lt_succ_self 4
  | stops stops delivered model =>
    cases step with
    | progress progress =>
      cases progress with
      | worker step => exact absurd step moved
      | controller step => exact stops_step inv settled stops delivered model step
    | call free next => simp [free] at stops
  | takes free next delivered model =>
    obtain ⟨call, next', rfl⟩ := (step.of_free free).resolve_left moved
    cases next.symm.trans next'
    rw [System.perform_takeModel settled.finished model]
    have answered : s.Answered (System.respond { s with
        channel := { s.channel with cell := { s.channel.cell with model := none } } }
          (.takeModel (some m'.uninstall))) _ := .respond rfl rfl free
    refine ⟨.finished (settled.answered answered rfl rfl rfl rfl)
      (.ended free delivered ?_), rank_lt rfl rfl rfl ?_⟩
    · rw [answered.responses_eq, List.getLast?_concat]
    · rw [controllerRank_free free next, controllerRank, answered.free, answered.next_eq]
      exact Nat.one_pos
  | ended free delivered taken =>
    obtain ⟨call, next, -⟩ := (step.of_free free).resolve_left moved
    rw [next?, taken] at next
    cases next

end Strategy
end Milp
