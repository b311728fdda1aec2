import Milp.Proofs.Control.Invariant

/-!
# Calls that run are runs

A channel that is driven by its own calls lets the worker run where the controller has to wait. That
is one of the orders in which the two threads can take their steps: `Reachable.wait` and
`Reachable.shutdown` find the run of a call, so that all that holds in any order of steps holds of
the calls. The calls that need not wait are single steps already.
-/

namespace Milp

namespace Channel

variable {α κ : Type}

/-- Taking the turn leaves the turn with the controller. -/
theorem active_takeTurn (c : Channel α κ) :
    c.takeTurn.2.cell.workerActive = c.cell.workerActive := by
  unfold takeTurn
  split <;> rfl

variable [Scalar α] {c c' : Channel α κ} {k : κ}

/-- A worker puts nobody else to sleep. -/
theorem Moves.awake (moves : c.Moves c') (awake : c.sleepers.controller = false) :
    c'.sleepers.controller = false := by
  cases moves with
  | goesOn => exact awake
  | suspends => rfl
  | wakes =>
    unfold wake interrupt
    split_ifs <;> exact awake
  | concludes => rfl
  | leaves => exact awake

/-- What every step of a worker keeps, a worker that runs keeps. -/
theorem runUntil_preserves (holds : Channel α κ → Prop)
    (keeps : ∀ (c c' : Channel α κ) (k k' : κ), holds c → c.workerStep k = some (c', k') → holds c')
    (awaited : Awaited) (steps : Nat) (k : κ) (h : holds c) :
    holds (c.runUntil awaited steps k).1 := by
  induction steps generalizing c k with
  | zero => exact h
  | succ steps ih =>
    unfold runUntil
    split_ifs
    · exact h
    · split
      next c' k' moved => exact ih k' (keeps c c' k k' h moved)
      next => exact h

/-- So does what every kind of step keeps. -/
theorem runUntil_keeps (holds : Channel α κ → Prop)
    (keeps : ∀ c c' : Channel α κ, holds c → c.Moves c' → holds c') (awaited : Awaited)
    (steps : Nat) (k : κ) (h : holds c) : holds (c.runUntil awaited steps k).1 :=
  runUntil_preserves holds (fun c c' _ _ h moved => keeps c c' h (moves_of_workerStep moved))
    awaited steps k h

/-- A worker that runs does not touch the token. -/
theorem tokenOut_runUntil (awaited : Awaited) (steps : Nat) (c : Channel α κ) (k : κ) :
    (c.runUntil awaited steps k).1.cell.tokenOut = c.cell.tokenOut :=
  runUntil_keeps (fun c' => c'.cell.tokenOut = c.cell.tokenOut)
    (fun _ _ kept moves => moves.keeps.2.1.trans kept) awaited steps k rfl

/-- A worker that runs puts nobody else to sleep. -/
theorem awake_runUntil (awaited : Awaited) (steps : Nat) (k : κ)
    (awake : c.sleepers.controller = false) :
    (c.runUntil awaited steps k).1.sleepers.controller = false :=
  runUntil_keeps (fun c => c.sleepers.controller = false)
    (fun _ _ awake moves => moves.awake awake) awaited steps k awake

/-- A worker need not run for what has come already. -/
theorem runUntil_of_come {awaited : Awaited} (come : c.hasCome awaited = true) (steps : Nat)
    (k : κ) : c.runUntil awaited steps k = (c, k) := by
  cases steps with
  | zero => rfl
  | succ steps => rw [runUntil, if_pos come]

/-- A worker that runs keeps a cell coherent. -/
theorem Coherent.runUntil (h : c.Coherent) (awaited : Awaited) (steps : Nat) (k : κ) :
    (c.runUntil awaited steps k).1.Coherent :=
  runUntil_keeps Coherent (fun _ _ coherent moves => coherent.of_moves moves) awaited steps k h

/-- The thread of a worker that has finished ends in a step. -/
theorem ended_runUntil (done : c.worker.phase = .done) (steps : Nat) (k : κ) :
    (c.runUntil .thread (steps + 1) k).1.hasCome .thread = true ∧
      (c.runUntil .thread (steps + 1) k).1.cell = c.cell := by
  cases worker_eq : c.worker with
  | leaving =>
    rw [runUntil, if_neg (by simp [hasCome, worker_eq])]
    simp only [workerStep, worker_eq]
    rw [runUntil_of_come rfl]
    exact ⟨rfl, rfl⟩
  | ended crashed =>
    have come : c.hasCome .thread = true := by simp [hasCome, worker_eq]
    rw [runUntil_of_come come]
    exact ⟨come, rfl⟩
  | _ => rw [worker_eq] at done; cases done

end Channel

namespace System

variable {α κ : Type} [Scalar α] {s : System α κ}

/-- The worker can run for as long as it likes, wherever the controller is. -/
theorem Reachable.runUntil (awaited : Awaited) (steps : Nat) (h : s.Reachable) :
    ∃ events, Reachable { s with
      channel := (s.channel.runUntil awaited steps s.memory).1
      memory := (s.channel.runUntil awaited steps s.memory).2
      log := s.log ++ events } := by
  induction steps generalizing s with
  | zero => exact ⟨[], by simpa [Channel.runUntil] using h⟩
  | succ steps ih =>
    unfold Channel.runUntil
    split_ifs with come
    · exact ⟨[], by simpa using h⟩
    · split
      next c k moved =>
        have step : s.Step { s with
            channel := c, memory := k, log := s.log ++ announcement s.channel.worker } :=
          .progress (.worker (by simp [System.workerStep, moved]))
        obtain ⟨events, reached⟩ := ih (h.step step)
        exact ⟨announcement s.channel.worker ++ events, by rwa [← List.append_assoc]⟩
      next => exact ⟨[], by simpa using h⟩

/-- A wait is a run, provided that the turn comes. -/
theorem Reachable.wait {result : Except (ControlError α) Token} {c : Channel α κ} {k : κ}
    (h : s.Reachable) (free : s.controller = .free)
    (waited : s.channel.wait s.memory = (result, c, k)) (come : c.hasCome .turn = true) :
    ∃ events, Reachable { s with
      channel := c
      memory := k
      tokens := if (errorOf? result).isSome then s.tokens else s.tokens + 1
      log := s.log ++ events ++ [.responded (.wait result)] } := by
  unfold Channel.wait at waited
  split_ifs at waited with tokenOut
  · cases waited
    refine ⟨[], ?_⟩
    have called := h.step (.call .wait (mayCall_wait free))
    simp only [perform, tokenOut, if_true] at called
    simpa [errorOf?, System.respond] using called
  · obtain ⟨events, reached⟩ := Reachable.runUntil .turn patience h
    have kept := Channel.tokenOut_runUntil .turn patience s.channel s.memory
    generalize s.channel.runUntil .turn patience s.memory = run at waited reached kept
    obtain ⟨c', k'⟩ := run
    have unheld : c'.cell.tokenOut = false := kept.trans (by simpa using tokenOut)
    have called := reached.step (.call .wait (mayCall_wait free))
    simp only [perform, unheld, Bool.false_eq_true, if_false, lookForTurn] at called
    cases took : c'.takeTurn with
    | mk result' c'' =>
      have active_eq := Channel.active_takeTurn c'
      simp only [took, Prod.mk.injEq] at waited called active_eq
      obtain ⟨rfl, rfl, rfl⟩ := waited
      rw [if_pos (by simpa [Channel.hasCome, ← active_eq] using come)] at called
      exact ⟨events, by simpa [System.respond, free] using called⟩

/-- The end of a shutdown is a run, once the solve is over. -/
theorem Reachable.joinAndCollect {why : Stop} (h : s.Reachable)
    (joining : s.controller = .joining why) (ended : s.channel.hasCome .thread = true) :
    Reachable { s with
      channel := s.channel.joinThread.2.collect.2
      controller := why.after
      log := s.log ++ [.responded (why.response s.channel.joinThread.2.collect.1)] } := by
  have joined : s.controllerStep = some (s.joinThread why) := by
    simp [System.controllerStep, joining, ended]
  have reached := h.step (.progress (.controller joined))
  rw [joinThread_eq h.inv.coherent] at reached
  have collected := reached.step (.progress (.controller rfl))
  rw [Channel.joinThread_snd]
  simpa [System.collect, finishStop, System.respond] using collected

/-- To stop the worker is a run, provided that the turn and then the end of the solve come. -/
theorem Reachable.stopWorker {why : Stop} {c₁ c₂ : Channel α κ} {k₁ k₂ : κ} (h : s.Reachable)
    (stopping : s.controller = .stopping why) (awake : s.channel.sleepers.controller = false)
    (first : s.channel.runUntil .turn patience s.memory = (c₁, k₁)) (turn : c₁.hasCome .turn = true)
    (second : c₁.orderStop.runUntil .finish patience k₁ = (c₂, k₂))
    (finish : c₂.hasCome .finish = true) :
    ∃ events, Reachable { s with
      channel := c₂, memory := k₂, controller := .joining why, log := s.log ++ events } := by
  -- the worker gives its turn away
  obtain ⟨events₁, reached₁⟩ := Reachable.runUntil .turn patience h
  have awake₁ := Channel.awake_runUntil .turn patience s.memory awake
  simp only [first] at reached₁ awake₁
  -- the controller tells it to stop
  have looked := reached₁.step (.progress (.controller (by
    simp only [System.controllerStep, stopping, awake₁, Bool.false_eq_true, if_false]
    rfl)))
  simp only [lookToStop, turn, if_true] at looked
  by_cases finished : c₁.orderStop.hasCome .finish = true
  · -- the worker had finished before
    rw [Channel.runUntil_of_come finished] at second
    cases second
    rw [if_pos finished] at looked
    exact ⟨events₁, looked⟩
  · -- the worker finishes, and wakes the controller up
    rw [if_neg finished] at looked
    obtain ⟨events₂, reached₂⟩ := Reachable.runUntil .finish patience looked
    simp only [second] at reached₂
    have awake₂ : c₂.sleepers.controller = false := by
      by_contra asleep
      have unfinished := reached₂.inv.agrees.2.2.mp (by simpa using asleep)
      rw [Channel.hasCome, unfinished] at finish
      cases finish
    have looked₂ := reached₂.step (.progress (.controller (by
      simp only [System.controllerStep, awake₂, Bool.false_eq_true, if_false]
      rfl)))
    simp only [lookForFinish, finish, if_true] at looked₂
    exact ⟨events₁ ++ events₂, by simpa using looked₂⟩

/-- A shutdown is a run, provided that the turn and then the end of the solve come. -/
theorem Reachable.shutdown {why : Stop} {result : Except (ControlError α) Unit}
    {c c₁ c₂ : Channel α κ} {k k₁ k₂ : κ} (h : s.Reachable)
    (stopping : s.controller = .stopping why) (awake : s.channel.sleepers.controller = false)
    (first : s.channel.runUntil .turn patience s.memory = (c₁, k₁)) (turn : c₁.hasCome .turn = true)
    (second : c₁.orderStop.runUntil .finish patience k₁ = (c₂, k₂))
    (finish : c₂.hasCome .finish = true)
    (stopped : s.channel.shutdown s.memory = (result, c, k)) :
    ∃ events, Reachable { s with
      channel := c
      memory := k
      controller := why.after
      log := s.log ++ events ++ [.responded (why.response result)] } := by
  obtain ⟨events₂, reached₂⟩ := h.stopWorker stopping awake first turn second finish
  -- the thread of the worker ends, if it has not done so before
  have done : c₂.worker.phase = .done := reached₂.inv.coherent.finished_iff.mp finish
  unfold Channel.shutdown at stopped
  simp only [first, second] at stopped
  generalize third : (if c₂.joined then (c₂, k₂) else c₂.runUntil .thread patience k₂) = run
    at stopped
  obtain ⟨c₃, k₃⟩ := run
  have ended : ∃ events, c₃.hasCome .thread = true ∧ Reachable { s with
      channel := c₃, memory := k₃, controller := .joining why, log := s.log ++ events } := by
    split_ifs at third with joined
    · cases third
      exact ⟨events₂, reached₂.inv.coherent.ended_of_joined joined, reached₂⟩
    · have come := (Channel.ended_runUntil done (patience - 1) k₂).1
      obtain ⟨events₃, reached₃⟩ := Reachable.runUntil .thread patience reached₂
      simp only [show patience - 1 + 1 = patience from rfl, third] at come reached₃
      exact ⟨events₂ ++ events₃, come, by simpa using reached₃⟩
  obtain ⟨events₃, come, reached₃⟩ := ended
  have collected := reached₃.joinAndCollect rfl come
  simp only [reached₃.inv.coherent.joinThread_eq] at stopped collected
  cases stopped
  exact ⟨events₃, collected⟩

end System

/-! ### A channel that waits for a decision -/

/-- Maximise the sum of two whole variables of at most ten, where twice the sum is at most seven. -/
def Problem.pair : Problem Rat where
  name := "pair"
  sense := .maximize
  vars := #[⟨"x", .integer, 1, 0, .fin 10⟩, ⟨"y", .integer, 1, 0, .fin 10⟩]
  constraints := #[⟨⟨[(0, 2), (1, 2)], .lessEqual, 7⟩, "c"⟩]

/-- The solve of the problem on a channel that asks for its branchings. -/
def System.pair : System Rat Unit := .start 1 (.ofProblem .pair) { branching := true } ()

/-- Whether a wait has handed out the token of channel one and found the worker suspended. -/
def Channel.findsSuspended {α κ : Type} :
    Except (ControlError α) Token × Channel α κ × κ → Bool
  | (.ok _, c, _) => c.id == 1 && c.worker.phase == .waiting && c.sleepers.worker && c.hasCome .turn
  | (.error _, _, _) => false

/-- The first wait for the solve hands out a token, and the worker is suspended. -/
theorem System.pair_suspended : ∃ s : System Rat Unit, s.Reachable ∧ s.controller = .free ∧
    s.tokens = 1 ∧ s.channel.id = 1 ∧ s.channel.IsSuspended := by
  have started : System.pair.Reachable := .start 1 _ _ ()
  have found : Channel.findsSuspended (System.pair.channel.wait ()) = true := by decide +kernel
  cases waited : System.pair.channel.wait () with
  | mk result rest =>
  obtain ⟨c, k⟩ := rest
  rw [waited] at found
  cases result with
  | error cause => cases found
  | ok token =>
    simp only [Channel.findsSuspended, Bool.and_eq_true, beq_iff_eq] at found
    obtain ⟨⟨⟨id_eq, waiting⟩, asleep⟩, come⟩ := found
    obtain ⟨events, reached⟩ := started.wait rfl waited come
    exact ⟨_, reached, rfl, rfl, id_eq, waiting, asleep⟩

end Milp
