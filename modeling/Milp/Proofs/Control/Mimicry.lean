import Milp.Proofs.Control.Calls
import Milp.Proofs.Control.Strategy

/-!
# Where a channel is when the direct solve is there

`Strategy.Mimics` relates a channel whose controller has a strategy to a direct solve with it, turn
by turn. While the worker has the turn, the controller waits for it (`Yields`) and the worker is
where the direct solve is, or between suspension and the end of a round (`Works`). While the worker
is suspended, the controller takes its turn, looks and resumes (`Looks`). After the worker has
finished, the controller is told the failure if there was one, joins and takes the model
(`Settles`).

Most steps are no turn of the direct solve. They come closer to one (`Strategy.rank`), so that a
step either keeps the turn and lowers the rank, or takes the direct solve a turn on
(`Strategy.Advances`). Here this is shown for the steps of the worker (`Works.workerStep`,
`Settles.leave`).
-/

namespace Milp

variable {α κ : Type} {strategy : Strategy α κ} {s t : System α κ}

/-! ### What a controller is about to do -/

namespace Strategy

/-- Whether the controller waits for its turn, or is about to. -/
def Awaits (strategy : Strategy α κ) (s : System α κ) : Prop :=
  s.channel.cell.tokenOut = false ∧
    (s.controller = .waiting ∨ s.controller = .free ∧ strategy.next? s = some .wait)

/-- Whether the controller has its turn and is about to make a call. -/
def Holds (strategy : Strategy α κ) (s : System α κ) (call : Call α κ) : Prop :=
  s.controller = .free ∧ s.tokens = 1 ∧ strategy.next? s = some call

/-- Whether the worker has the turn, and the controller waits for it and was told nothing. -/
structure Yields (strategy : Strategy α κ) (s : System α κ) : Prop where
  active : s.channel.cell.workerActive = true
  running : s.channel.cell.terminate = false
  awaits : strategy.Awaits s
  told : s.told = []

/-- Where the controller can be while the worker is suspended with a snapshot. -/
inductive Looks (strategy : Strategy α κ) (s : System α κ) (seen : List (Snapshot α))
    (snapshot : Snapshot α) : Prop
  | waits (awaits : strategy.Awaits s) (shown : s.shown = seen)
  | asks (holds : strategy.Holds s (.isDone ⟨s.channel.id⟩)) (shown : s.shown = seen)
  | looks (holds : strategy.Holds s (.state ⟨s.channel.id⟩)) (shown : s.shown = seen)
  | resumes (holds : strategy.Holds s (.resume (strategy s.shown) ⟨s.channel.id⟩))
      (shown : s.shown = seen ++ [snapshot])

/-- Where the controller can be after the worker has finished with a model. -/
inductive Settles (strategy : Strategy α κ) (s : System α κ) (m : Model α) : Prop
  | waits (awaits : strategy.Awaits s) (model : s.channel.cell.model = some m)
  | asks (holds : strategy.Holds s (.isDone ⟨s.channel.id⟩))
      (model : s.channel.cell.model = some m)
  | joins (holds : strategy.Holds s (.join ⟨s.channel.id⟩))
      (model : s.channel.cell.model = some m)
  | stops (stops : s.controller = .stopping .join ∨ s.controller = .joining .join ∨
      s.controller = .collecting .join) (delivered : s.channel.cell.failure = none)
      (model : s.channel.cell.model = some m)
  | takes (free : s.controller = .free) (next : strategy.next? s = some .takeModel)
      (delivered : s.channel.cell.failure = none) (model : s.channel.cell.model = some m)
  | ended (free : s.controller = .free) (delivered : s.channel.cell.failure = none)
      (taken : s.responses.getLast? = some (.takeModel (some m)))

/-! ### How far it is to the next turn -/

/-- How far a worker is from the next turn of its solve, or from its end. -/
def workerRank (active : Bool) : Worker α κ → Nat
  | .ready .. => 14
  | .solving .. => 13
  | .waiting .. => if active then 2 else 11
  | .closing .. => 5
  | .acting .. | .leaving => 1
  | .ended _ => 0

/-- How far a controller is from resuming the worker or from its end, when it is about to make a
call. -/
def callRank : Call α κ → Nat
  | .wait => 9
  | .isDone _ => 6
  | .join _ => 5
  | .state _ => 2
  | .resume .. | .takeModel => 1
  | .recover | .drop => 0

/-- How far a controller is from resuming the worker or from its end. -/
def controllerRank (strategy : Strategy α κ) (s : System α κ) : Nat :=
  match s.controller with
  | .free => (strategy.next? s).elim 0 callRank
  | .waiting => if s.channel.sleepers.controller then 7 else 8
  | .stopping _ | .finishing _ => 4
  | .joining _ => 3
  | .collecting _ => 2
  | .gone => 0

/-- How far a channel is from the next turn of its solve, or from its end. A failure that is
delivered makes the controller wait once more. -/
def rank (strategy : Strategy α κ) (s : System α κ) : Nat :=
  workerRank s.channel.cell.workerActive s.channel.worker + strategy.controllerRank s +
    if s.channel.cell.failure.isSome then 2 else 0

/-- The rank of a controller between two calls is that of its next one. -/
theorem controllerRank_free {call : Call α κ} (free : s.controller = .free)
    (next : strategy.next? s = some call) : strategy.controllerRank s = callRank call := by
  rw [controllerRank, free, next]
  rfl

theorem Holds.controllerRank_eq {call : Call α κ} (holds : strategy.Holds s call) :
    strategy.controllerRank s = callRank call :=
  controllerRank_free holds.1 holds.2.2

/-- A channel comes closer to the next turn if its controller does. -/
theorem rank_lt (worker_eq : t.channel.worker = s.channel.worker)
    (active_eq : t.channel.cell.workerActive = s.channel.cell.workerActive)
    (failure_eq : t.channel.cell.failure = s.channel.cell.failure)
    (closer : strategy.controllerRank t < strategy.controllerRank s) :
    strategy.rank t < strategy.rank s := by
  rw [rank, rank, worker_eq, active_eq, failure_eq]
  omega

end Strategy

/-! ### Steps of the worker that the controller does not notice -/

/-- Whether a step leaves alone what the controller knows and has. -/
structure System.Unnoticed (s t : System α κ) : Prop where
  responses_eq : t.responses = s.responses
  controller_eq : t.controller = s.controller
  id_eq : t.channel.id = s.channel.id
  tokenOut_eq : t.channel.cell.tokenOut = s.channel.cell.tokenOut
  terminate_eq : t.channel.cell.terminate = s.channel.cell.terminate

/-- The controller does not notice a step of the worker. -/
theorem System.unnoticed_of_workerStep [Scalar α] (step : s.workerStep = some t) :
    s.channel.workerStep s.memory = some (t.channel, t.memory) ∧ s.Unnoticed t := by
  unfold System.workerStep at step
  obtain ⟨⟨c, k⟩, moved, rfl⟩ := Option.map_eq_some_iff.mp step
  obtain ⟨id_eq, tokenOut_eq, terminate_eq, -⟩ := (Channel.moves_of_workerStep moved).keeps
  refine ⟨moved, ?_, rfl, id_eq, tokenOut_eq, terminate_eq⟩
  cases worker_eq : s.channel.worker <;> simp [responses, announcement]

namespace System.Unnoticed

variable (h : s.Unnoticed t)

include h

/-- The controller has been shown the same snapshots. -/
theorem shown_eq : t.shown = s.shown := by
  rw [shown, shown, h.responses_eq]

/-- The controller has been told the same errors. -/
theorem told_eq : t.told = s.told := by
  rw [told, told, h.responses_eq]

/-- The controller is about to make the same call. -/
theorem next_eq : strategy.next? t = strategy.next? s := by
  rw [Strategy.next?, Strategy.next?, h.responses_eq, h.id_eq, h.shown_eq]

/-- The controller waits for its turn as before. -/
theorem awaits (awaits : strategy.Awaits s) : strategy.Awaits t := by
  rw [Strategy.Awaits, h.tokenOut_eq, h.controller_eq, h.next_eq]
  exact awaits

/-- A controller that does not notice a step can at most be woken up by it. -/
theorem controllerRank_le : strategy.controllerRank t ≤ strategy.controllerRank s + 1 := by
  rw [Strategy.controllerRank, Strategy.controllerRank, h.next_eq, h.controller_eq]
  split
  · omega
  · split_ifs <;> omega
  all_goals omega

/-- A worker that goes on by itself leaves the controller waiting. -/
theorem goesOn (yields : strategy.Yields s) {w w' : Worker α κ} {pending : Option (Order α κ)}
    (worker_eq : s.channel.worker = w) (channel_eq : t.channel =
      { s.channel with cell := { s.channel.cell with pending }, worker := w' }) :
    strategy.Yields t ∧ strategy.rank t + Strategy.workerRank true w =
      strategy.rank s + Strategy.workerRank true w' := by
  have active : t.channel.cell.workerActive = true := by rw [channel_eq]; exact yields.active
  have asleep_eq : t.channel.sleepers.controller = s.channel.sleepers.controller := by
    rw [channel_eq]
  have same : strategy.controllerRank t = strategy.controllerRank s := by
    rw [Strategy.controllerRank, Strategy.controllerRank, h.next_eq, h.controller_eq, asleep_eq]
  refine ⟨⟨active, h.terminate_eq.trans yields.running, h.awaits yields.awaits,
    h.told_eq.trans yields.told⟩, ?_⟩
  rw [Strategy.rank, Strategy.rank, same, active, yields.active, worker_eq, channel_eq]
  dsimp only
  omega

end System.Unnoticed

/-! ### Keeping up with the direct solve -/

/-- Whether the worker of a channel is suspended at a decision point of a direct solve. -/
structure System.IsPaused [Scalar α] (s : System α κ) (m : Model α) (plan : Plan α)
    (d : Decision α) (memory : List (Snapshot α) × κ) : Prop where
  worker_eq : s.channel.worker = .waiting m plan d
  inactive : s.channel.cell.workerActive = false
  snapshot_eq : s.channel.cell.snapshot = some (d.snapshot plan)
  memory_eq : s.memory = memory.2
  told : s.told = []

/-- Whether the worker of a channel has finished like a direct solve. -/
structure System.IsSettled (s : System α κ) (result : Attempt (SolverError α) SolveStatus)
    (memory : List (Snapshot α) × κ) : Prop where
  finished : s.channel.cell.finished = true
  told : s.told ++ s.channel.cell.failure.toList.map .solver =
    (SolverError.ofResult? result).toList.map .solver
  memory_eq : (s.shown, s.memory) = memory

namespace Strategy

variable [Scalar α]

/-- Where the worker can be while it has the turn, when the direct solve is where it is. -/
inductive Works (strategy : Strategy α κ) (m : Model α) (hooks : Hooks) (s : System α κ) :
    Course α κ → Prop
  | ready {k : κ} (worker_eq : s.channel.worker = .ready m hooks) (shown : s.shown = [])
      (memory_eq : s.memory = k) : Works strategy m hooks s (.start (m.hooked hooks) k)
  | searching {m' : Model α} {plan : Plan α} {turn : Turn α} {memory : List (Snapshot α) × κ}
      (worker_eq : s.channel.worker = .solving m' plan turn)
      (memory_eq : (s.shown, s.memory) = memory) :
      Works strategy m hooks s (.searching m' plan turn memory)
  | woken {m' : Model α} {plan : Plan α} {d : Decision α} {memory : List (Snapshot α) × κ}
      (worker_eq : s.channel.worker = .waiting m' plan d)
      (pending : s.channel.cell.pending = some (strategy s.shown))
      (shown : s.shown = memory.1 ++ [d.snapshot plan]) (memory_eq : s.memory = memory.2) :
      Works strategy m hooks s (.searching m' plan (.ask d) memory)
  | acting {m' : Model α} {plan : Plan α} {d : Decision α} {memory : List (Snapshot α) × κ}
      (worker_eq : s.channel.worker = .acting m' plan d (strategy s.shown))
      (shown : s.shown = memory.1 ++ [d.snapshot plan]) (memory_eq : s.memory = memory.2) :
      Works strategy m hooks s (.searching m' plan (.ask d) memory)
  | closing {m' : Model α} {result : Attempt (SolverError α) SolveStatus}
      {memory : List (Snapshot α) × κ} (worker_eq : s.channel.worker = .closing m' result)
      (memory_eq : (s.shown, s.memory) = memory) :
      Works strategy m hooks s (.ended m' result memory)

/-- Whether a channel is where a direct solve is. -/
inductive Mimics (strategy : Strategy α κ) (m : Model α) (hooks : Hooks) (s : System α κ) :
    Course α κ → Prop
  | working {course : Course α κ} (works : Works strategy m hooks s course)
      (yields : strategy.Yields s) : Mimics strategy m hooks s course
  | suspended {m' : Model α} {plan : Plan α} {d : Decision α} {memory : List (Snapshot α) × κ}
      (paused : s.IsPaused m' plan d memory)
      (looks : strategy.Looks s memory.1 (d.snapshot plan)) :
      Mimics strategy m hooks s (.searching m' plan (.ask d) memory)
  | finished {m' : Model α} {result : Attempt (SolverError α) SolveStatus}
      {memory : List (Snapshot α) × κ} (settled : s.IsSettled result memory)
      (settles : strategy.Settles s m'.uninstall) :
      Mimics strategy m hooks s (.ended m' result memory)

/-- Whether a step takes a channel closer to the next turn of the direct solve, or one turn on. -/
def Advances (strategy : Strategy α κ) (m : Model α) (hooks : Hooks) (s t : System α κ)
    (course : Course α κ) : Prop :=
  strategy.Mimics m hooks t course ∧ strategy.rank t < strategy.rank s ∨
    ¬ course.IsOver ∧ strategy.Mimics m hooks t (course.next strategy) ∧
      strategy.rank t < strategy.rank s + 13

variable {m m' : Model α} {hooks : Hooks} {course : Course α κ} {plan : Plan α} {turn : Turn α}
  {d : Decision α} {memory : List (Snapshot α) × κ}
  {result : Attempt (SolverError α) SolveStatus}

/-! ### Steps of the worker -/

/-- A channel has begun its solve where the direct solve begins. -/
theorem advances_begin (bare : m.hooks = none) (unnoticed : s.Unnoticed t)
    (yields : strategy.Yields s) (worker_eq : s.channel.worker = .ready m hooks)
    (shown : s.shown = []) (channel_eq : t.channel = s.channel.begin m hooks)
    (memory_eq : t.memory = s.memory) :
    strategy.Advances m hooks s t (.start (m.hooked hooks) s.memory) := by
  have memory_eq' : (t.shown, t.memory) = ([], s.memory) := by
    rw [unnoticed.shown_eq, shown, memory_eq]
  rw [Channel.begin, Model.install_of_bare bare] at channel_eq
  left
  simp only [Course.start]
  rcases opens : (m.hooked hooks).opening with result | ⟨plan, turn⟩
  · simp only [opens] at channel_eq
    obtain ⟨yields', ranks⟩ := unnoticed.goesOn yields worker_eq channel_eq
    simp only [workerRank] at ranks
    exact ⟨.working (.closing (by rw [channel_eq]) memory_eq') yields', by omega⟩
  · simp only [opens] at channel_eq
    obtain ⟨yields', ranks⟩ := unnoticed.goesOn yields worker_eq channel_eq
    simp only [workerRank] at ranks
    exact ⟨.working (.searching (by rw [channel_eq]) memory_eq') yields', by omega⟩

/-- A worker that goes on with its search takes a turn of the direct solve, or is suspended where
the direct solve makes a round. -/
theorem advances_search (unnoticed : s.Unnoticed t) (yields : strategy.Yields s)
    (worker_eq : s.channel.worker = .solving m' plan turn)
    (channel_eq : t.channel = s.channel.search m' plan turn) (memory_eq : t.memory = s.memory) :
    strategy.Advances m hooks s t (.searching m' plan turn (s.shown, s.memory)) := by
  have memory_eq' : (t.shown, t.memory) = (s.shown, s.memory) := by
    rw [unnoticed.shown_eq, memory_eq]
  cases turn with
  | proceed x =>
    obtain ⟨yields', ranks⟩ := unnoticed.goesOn yields worker_eq channel_eq
    simp only [workerRank] at ranks
    exact .inr ⟨Course.not_isOver_searching,
      .working (.searching (by rw [channel_eq]; rfl) memory_eq') yields', by omega⟩
  | ask d =>
    rw [Channel.search, Channel.enter, if_neg (by simp [yields.running])] at channel_eq
    have worker_eq' : t.channel.worker = .waiting m' plan d := by rw [channel_eq]; rfl
    have inactive : t.channel.cell.workerActive = false := by rw [channel_eq]; rfl
    have failure_eq : t.channel.cell.failure = s.channel.cell.failure := by rw [channel_eq]; rfl
    have controller_le : strategy.controllerRank t ≤ strategy.controllerRank s + 1 :=
      unnoticed.controllerRank_le
    have paused : t.IsPaused m' plan d (s.shown, s.memory) :=
      ⟨worker_eq', inactive, by rw [channel_eq]; rfl, memory_eq,
        unnoticed.told_eq.trans yields.told⟩
    refine .inl ⟨.suspended paused (.waits (unnoticed.awaits yields.awaits) unnoticed.shown_eq), ?_⟩
    rw [rank, rank, worker_eq, worker_eq', inactive, failure_eq]
    simp only [workerRank, Bool.false_eq_true, if_false]
    omega
  | ended status dualBound x =>
    obtain ⟨yields', ranks⟩ := unnoticed.goesOn yields worker_eq channel_eq
    simp only [workerRank] at ranks
    exact .inr ⟨Course.not_isOver_searching,
      .working (.closing (by rw [channel_eq]; rfl) memory_eq') yields', by omega⟩
  | failed cause x =>
    obtain ⟨yields', ranks⟩ := unnoticed.goesOn yields worker_eq channel_eq
    simp only [workerRank] at ranks
    exact .inr ⟨Course.not_isOver_searching,
      .working (.closing (by rw [channel_eq]; rfl) memory_eq') yields', by omega⟩

/-- A worker that has been woken up takes the order for the snapshot. -/
theorem advances_wake (unnoticed : s.Unnoticed t) (yields : strategy.Yields s)
    (worker_eq : s.channel.worker = .waiting m' plan d)
    (pending : s.channel.cell.pending = some (strategy s.shown))
    (shown : s.shown = memory.1 ++ [d.snapshot plan]) (known : s.memory = memory.2)
    (channel_eq : t.channel = s.channel.wake m' plan d) (memory_eq : t.memory = s.memory) :
    strategy.Advances m hooks s t (.searching m' plan (.ask d) memory) := by
  rw [Channel.wake, if_neg (by simp [yields.active]), if_neg (by simp [yields.running]), pending,
    Option.getD_some, ← unnoticed.shown_eq] at channel_eq
  obtain ⟨yields', ranks⟩ := unnoticed.goesOn yields worker_eq channel_eq
  simp only [workerRank, if_true] at ranks
  exact .inl ⟨.working (.acting (by rw [channel_eq]) (unnoticed.shown_eq.trans shown)
    (memory_eq.trans known)) yields', by omega⟩

/-- An order is carried out as in a round of the direct solve. -/
theorem exists_round (strategy : Strategy α κ) (c : Channel α κ) (m : Model α) (plan : Plan α)
    (d : Decision α) (memory : List (Snapshot α) × κ) :
    ∃ reply d' k,
      strategy.round plan d memory = (reply, d', memory.1 ++ [d.snapshot plan], k) ∧
      c.carryOut m plan d (strategy (memory.1 ++ [d.snapshot plan])) memory.2 =
        ({ c with worker := .solving m plan (plan.afterRound d' reply) }, k) := by
  rw [round]
  cases strategy (memory.1 ++ [d.snapshot plan]) with
  | leave => exact ⟨_, _, _, rfl, rfl⟩
  | act action =>
    refine ⟨_, _, _, rfl, ?_⟩
    rw [Channel.carryOut]
    split <;> simp_all [Plan.afterRound]

/-- A worker that carries out its order makes a round of the direct solve. -/
theorem advances_carryOut (unnoticed : s.Unnoticed t) (yields : strategy.Yields s)
    (worker_eq : s.channel.worker = .acting m' plan d (strategy s.shown))
    (shown : s.shown = memory.1 ++ [d.snapshot plan]) (known : s.memory = memory.2)
    (step_eq : s.channel.carryOut m' plan d (strategy s.shown) s.memory = (t.channel, t.memory)) :
    strategy.Advances m hooks s t (.searching m' plan (.ask d) memory) := by
  obtain ⟨reply, d', k, round_eq, carries⟩ :=
    exists_round strategy s.channel m' plan d memory
  rw [shown, known, carries] at step_eq
  obtain ⟨channel_eq, memory_eq⟩ := Prod.mk.inj step_eq
  obtain ⟨yields', ranks⟩ := unnoticed.goesOn yields worker_eq channel_eq.symm
  simp only [workerRank] at ranks
  have memory_eq' : (t.shown, t.memory) = (memory.1 ++ [d.snapshot plan], k) := by
    rw [unnoticed.shown_eq, shown, memory_eq]
  refine .inr ⟨Course.not_isOver_searching, ?_, by omega⟩
  simp only [Course.next, round_eq]
  exact .working (.searching (by rw [← channel_eq]) memory_eq') yields'

/-- A worker finishes with what the direct solve reports. -/
theorem advances_conclude (inv : s.Inv) (unnoticed : s.Unnoticed t) (yields : strategy.Yields s)
    (worker_eq : s.channel.worker = .closing m' result)
    (channel_eq : t.channel = s.channel.conclude m' result) (memory_eq : t.memory = s.memory) :
    strategy.Advances m hooks s t (.ended m' result (s.shown, s.memory)) := by
  have undelivered : s.channel.cell.failure = none :=
    inv.coherent.failure_none (inv.coherent.unfinished_of_active yields.active)
  have failure_eq : t.channel.cell.failure = SolverError.ofResult? result := by
    rw [channel_eq]
    rfl
  have controller_le : strategy.controllerRank t ≤ strategy.controllerRank s + 1 :=
    unnoticed.controllerRank_le
  refine .inl ⟨.finished ⟨by rw [channel_eq]; rfl, ?_, ?_⟩
    (.waits (unnoticed.awaits yields.awaits) (by rw [channel_eq]; rfl)), ?_⟩
  · rw [unnoticed.told_eq, yields.told, failure_eq, List.nil_append]
  · rw [unnoticed.shown_eq, memory_eq]
  · have worker_eq' : t.channel.worker = .leaving := by rw [channel_eq]; rfl
    rw [rank, rank, worker_eq, worker_eq', undelivered]
    simp only [workerRank, Option.isSome_none, Bool.false_eq_true, if_false]
    split_ifs <;> omega

/-- A step of a worker that has the turn takes a channel on. -/
theorem Works.workerStep (works : strategy.Works m hooks s course) (bare : m.hooks = none)
    (inv : s.Inv) (yields : strategy.Yields s) (step : s.workerStep = some t) :
    strategy.Advances m hooks s t course := by
  obtain ⟨moved, unnoticed⟩ := System.unnoticed_of_workerStep step
  cases works with
  | ready worker_eq shown memory_eq =>
    simp only [Channel.workerStep, worker_eq, Option.some.injEq, Prod.mk.injEq] at moved
    rw [← memory_eq]
    exact advances_begin bare unnoticed yields worker_eq shown moved.1.symm moved.2.symm
  | searching worker_eq memory_eq =>
    simp only [Channel.workerStep, worker_eq, Option.some.injEq, Prod.mk.injEq] at moved
    rw [← memory_eq]
    exact advances_search unnoticed yields worker_eq moved.1.symm moved.2.symm
  | woken worker_eq pending shown memory_eq =>
    simp only [Channel.workerStep, worker_eq] at moved
    split_ifs at moved
    simp only [Option.some.injEq, Prod.mk.injEq] at moved
    exact advances_wake unnoticed yields worker_eq pending shown memory_eq moved.1.symm
      moved.2.symm
  | acting worker_eq shown memory_eq =>
    simp only [Channel.workerStep, worker_eq, Option.some.injEq] at moved
    exact advances_carryOut unnoticed yields worker_eq shown memory_eq moved
  | closing worker_eq memory_eq =>
    simp only [Channel.workerStep, worker_eq, Option.some.injEq, Prod.mk.injEq] at moved
    rw [← memory_eq]
    exact advances_conclude inv unnoticed yields worker_eq moved.1.symm moved.2.symm

/-- The thread of a worker that has finished ends, and that is all it does. -/
theorem Settles.leave (inv : s.Inv) (settled : s.IsSettled result memory)
    (settles : strategy.Settles s m'.uninstall) (step : s.workerStep = some t) :
    strategy.Mimics m hooks t (.ended m' result memory) ∧ strategy.rank t < strategy.rank s := by
  have done := inv.coherent.finished_iff.mp settled.finished
  cases worker_eq : s.channel.worker with
  | leaving =>
    simp only [System.workerStep, Channel.workerStep, worker_eq, System.announcement,
      Option.map_some, List.append_nil, Option.some.injEq] at step
    subst step
    refine ⟨.finished ⟨settled.finished, settled.told, settled.memory_eq⟩ ?_, ?_⟩
    · cases settles with
      | waits awaits model => exact .waits awaits model
      | asks holds model => exact .asks holds model
      | joins holds model => exact .joins holds model
      | stops stops delivered model => exact .stops stops delivered model
      | takes free next delivered model => exact .takes free next delivered model
      | ended free delivered taken => exact .ended free delivered taken
    · rw [rank, rank, worker_eq]
      exact Nat.add_lt_add_right (Nat.add_lt_add_right Nat.zero_lt_one _) _
  | ended crashed =>
    simp only [System.workerStep, Channel.workerStep, worker_eq, Option.map_none] at step
    cases step
  | _ => simp [worker_eq, Worker.phase] at done

end Strategy
end Milp
