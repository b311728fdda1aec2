import Milp.Control.Interleaving
import Milp.Proofs.Control.Coherence

/-!
# What holds in any order of steps

Whatever is called and in whatever order the two threads take their steps, the tokens that are
alive, the flags of the cell and the places of controller and worker fit together (`System.Inv`).
`Inv.workerStep` and `Inv.controllerStep` carry this over the steps of the threads, `Inv.perform`
over the calls, and `Reachable.inv` says that it always holds.
-/

namespace Milp

variable {α κ : Type}

/-! ### The invariant -/

/-- What a controller has given up for a shutdown: its token for a join, and it has none left to
recover the model. Only a channel that is dropped may have its token alive. -/
def Stop.Paid (tokenOut : Bool) (tokens : Nat) : Stop → Prop
  | .join => tokenOut = false
  | .recovery => tokens = 0
  | .drop => True

/-- What a controller knows, wherever it is in a call. Where it sleeps, what it waits for has not
come. Once it has told the worker to stop, it does not wake up before the solve is over. -/
def Controller.Agrees (c : Channel α κ) (tokens : Nat) : Controller → Prop
  | .free | .gone =>
    c.sleepers.controller = false ∧ (c.cell.terminate = true → c.cell.finished = true)
  | .waiting =>
    c.cell.tokenOut = false ∧ (c.sleepers.controller = true → c.cell.workerActive = true) ∧
      (c.cell.terminate = true → c.cell.finished = true)
  | .stopping why =>
    why.Paid c.cell.tokenOut tokens ∧ (c.sleepers.controller = true → c.cell.workerActive = true) ∧
      (c.cell.terminate = true → c.cell.finished = true)
  | .finishing why =>
    why.Paid c.cell.tokenOut tokens ∧ c.cell.terminate = true ∧
      (c.sleepers.controller = true ↔ c.cell.finished = false)
  | .joining why | .collecting why =>
    why.Paid c.cell.tokenOut tokens ∧ c.sleepers.controller = false ∧ c.cell.finished = true

/-- What a controller has given up stays given up when a token gets lost. -/
theorem Stop.Paid.lose {tokenOut : Bool} {tokens : Nat} {why : Stop}
    (h : why.Paid tokenOut tokens) : why.Paid tokenOut (tokens - 1) := by
  cases why with
  | join => exact h
  | recovery =>
    have none_alive : tokens = 0 := h
    rw [none_alive]
    rfl
  | drop => trivial

/-- A controller agrees just as well when a token gets lost. -/
theorem Controller.Agrees.lose {c : Channel α κ} {tokens : Nat} {controller : Controller}
    (h : controller.Agrees c tokens) : controller.Agrees c (tokens - 1) := by
  cases controller with
  | free => exact h
  | waiting => exact h
  | stopping why => exact ⟨h.1.lose, h.2⟩
  | finishing why => exact ⟨h.1.lose, h.2⟩
  | joining why => exact ⟨h.1.lose, h.2⟩
  | collecting why => exact ⟨h.1.lose, h.2⟩
  | gone => exact h

namespace System

/-- A controller that is free may wait. -/
theorem mayCall_wait {s : System α κ} (free : s.controller = .free) : s.MayCall .wait :=
  ⟨free, fun _ paid => (by cases paid), fun recovers => by cases recovers⟩

/-- Using a token up touches neither side. -/
@[simp] theorem spend_channel (s : System α κ) (token : Token) :
    (s.spend token).channel = s.channel := by
  unfold spend
  split <;> rfl

/-- Using a token up leaves the controller where it is. -/
@[simp] theorem spend_controller (s : System α κ) (token : Token) :
    (s.spend token).controller = s.controller := by
  unfold spend
  split <;> rfl

/-- Using a token up is no event. -/
@[simp] theorem spend_log (s : System α κ) (token : Token) : (s.spend token).log = s.log := by
  unfold spend
  split <;> rfl

/-- A controller that joins the worker's thread looks for a failure next. -/
theorem joinThread_eq {s : System α κ} (coherent : s.channel.Coherent) (why : Stop) :
    s.joinThread why =
      { s with channel := { s.channel with joined := true }, controller := .collecting why } := by
  rw [System.joinThread, coherent.joinThread_eq]

/-- What holds of every system that can come about. -/
structure Inv (s : System α κ) : Prop where
  coherent : s.channel.Coherent
  agrees : s.controller.Agrees s.channel s.tokens
  tokens_le : s.tokens ≤ 1
  tokenOut_of_alive : 0 < s.tokens → s.channel.cell.tokenOut = true
  inactive_of_tokenOut : s.channel.cell.tokenOut = true → s.channel.cell.terminate = false →
    s.channel.cell.workerActive = false
  failure_none : s.channel.cell.tokenOut = true → s.channel.cell.failure = none
  collected : s.channel.joined = true →
    s.channel.cell.failure = none ∨ ∃ why, s.controller = .collecting why

/-- A channel that has just been started satisfies the invariant. -/
theorem inv_start (id : Nat) (m : Model α) (hooks : Hooks) (memory : κ) :
    (start id m hooks memory).Inv where
  coherent := Channel.coherent_start id m hooks
  agrees := ⟨rfl, nofun⟩
  tokens_le := Nat.zero_le 1
  tokenOut_of_alive := nofun
  inactive_of_tokenOut := nofun
  failure_none := nofun
  collected := nofun

namespace Inv

variable {s t : System α κ} (h : s.Inv)

include h

/-- Where no token is noted, none is alive. -/
theorem tokens_eq_zero (tokenOut : s.channel.cell.tokenOut = false) : s.tokens = 0 := by
  by_contra alive
  rw [h.tokenOut_of_alive (Nat.pos_of_ne_zero alive)] at tokenOut
  cases tokenOut

/-- Once the worker's thread was joined, no failure is left but one that is about to be looked
for. -/
theorem failure_none_of_joined (other : ∀ why, s.controller ≠ .collecting why)
    (joined : s.channel.joined = true) : s.channel.cell.failure = none := by
  rcases h.collected joined with none | ⟨why, collecting⟩
  · exact none
  · exact absurd collecting (other why)

/-- Responses do not matter. -/
theorem respond (r : Response α) : (s.respond r).Inv := { h with }

/-- A token that gets lost does no harm. -/
theorem lose : Inv { s with tokens := s.tokens - 1 } :=
  { h with
    agrees := h.agrees.lose
    tokens_le := Nat.le_trans (Nat.sub_le _ _) h.tokens_le
    tokenOut_of_alive := fun alive =>
      h.tokenOut_of_alive (Nat.lt_of_lt_of_le alive (Nat.sub_le _ _)) }

/-- Using a token up leaves at most as many. -/
theorem spend (token : Token) : (s.spend token).Inv := by
  unfold System.spend
  split_ifs
  · exact h
  · exact h.lose

/-! ### Steps of the controller within a call -/

/-- Falling asleep keeps the invariant, if the controller agrees. -/
theorem sleep (agrees : s.controller.Agrees s.sleep.channel s.tokens) : s.sleep.Inv :=
  { h with
    coherent := h.coherent.update s.channel.cell.tokenOut true (.inl rfl) (.inl rfl)
    agrees := agrees }

/-- A controller that waits keeps the invariant when it looks for its turn. -/
theorem lookForTurn (waiting : s.controller = .waiting)
    (awake : s.channel.sleepers.controller = false) : s.lookForTurn.Inv := by
  have agrees := h.agrees
  rw [waiting] at agrees
  obtain ⟨tokenOut, -, stopped⟩ := agrees
  have tokens := h.tokens_eq_zero tokenOut
  unfold System.lookForTurn
  split_ifs with come
  · have inactive : s.channel.cell.workerActive = false := by simpa [Channel.hasCome] using come
    have coherent := h.coherent.takeTurn
    unfold Channel.takeTurn at coherent ⊢
    cases failure : s.channel.cell.failure with
    | some e =>
      rw [failure] at coherent
      exact {
        coherent
        agrees := ⟨awake, stopped⟩
        tokens_le := h.tokens_le
        tokenOut_of_alive := h.tokenOut_of_alive
        inactive_of_tokenOut := h.inactive_of_tokenOut
        failure_none := fun _ => rfl
        collected := fun _ => .inl rfl }
    | none =>
      rw [failure] at coherent
      exact {
        coherent
        agrees := ⟨awake, stopped⟩
        tokens_le := by
          show s.tokens + 1 ≤ 1
          omega
        tokenOut_of_alive := fun _ => rfl
        inactive_of_tokenOut := fun _ _ => inactive
        failure_none := fun _ => failure
        collected := fun _ => .inl failure }
  · have active : s.channel.cell.workerActive = true := by simpa [Channel.hasCome] using come
    refine h.sleep ?_
    rw [waiting]
    exact ⟨tokenOut, fun _ => active, stopped⟩

/-- A controller that shuts the channel down keeps the invariant when it looks for its turn. -/
theorem lookToStop {why : Stop} (stopping : s.controller = .stopping why)
    (awake : s.channel.sleepers.controller = false) : (s.lookToStop why).Inv := by
  have agrees := h.agrees
  rw [stopping] at agrees
  obtain ⟨paid, -, stopped⟩ := agrees
  have undelivered := h.failure_none_of_joined (by simp [stopping])
  unfold System.lookToStop
  split_ifs with come
  · have inactive : s.channel.cell.workerActive = false := by simpa [Channel.hasCome] using come
    have coherent := h.coherent.orderStop inactive
    unfold Channel.orderStop at coherent ⊢
    cases finished : s.channel.cell.finished with
    | true =>
      simp only [finished, if_true, Channel.hasCome] at coherent ⊢
      exact { h with
        agrees := ⟨paid, awake, finished⟩
        collected := fun joined => .inl (undelivered joined) }
    | false =>
      simp only [finished, Bool.false_eq_true, if_false, Channel.hasCome, Channel.notifyAll]
        at coherent ⊢
      exact { h with
        coherent
        agrees := ⟨paid, rfl, fun _ => rfl, fun _ => rfl⟩
        inactive_of_tokenOut := fun _ running => by cases running
        collected := fun joined => .inl (undelivered joined) }
  · have active : s.channel.cell.workerActive = true := by simpa [Channel.hasCome] using come
    refine h.sleep ?_
    rw [stopping]
    exact ⟨paid, fun _ => active, stopped⟩

/-- A controller that shuts the channel down keeps the invariant when it looks for the end of the
solve. -/
theorem lookForFinish {why : Stop} (finishing : s.controller = .finishing why)
    (awake : s.channel.sleepers.controller = false) : (s.lookForFinish why).Inv := by
  have agrees := h.agrees
  rw [finishing] at agrees
  obtain ⟨paid, terminate, -⟩ := agrees
  have undelivered := h.failure_none_of_joined (by simp [finishing])
  unfold System.lookForFinish
  split_ifs with come
  · exact { h with
      agrees := ⟨paid, awake, come⟩
      collected := fun joined => .inl (undelivered joined) }
  · have unfinished : s.channel.cell.finished = false := by simpa [Channel.hasCome] using come
    refine h.sleep ?_
    rw [finishing]
    exact ⟨paid, terminate, fun _ => unfinished, fun _ => rfl⟩

/-- Joining the worker's thread keeps the invariant. -/
theorem joinThread {why : Stop} (joining : s.controller = .joining why)
    (ended : s.channel.hasCome .thread = true) : (s.joinThread why).Inv := by
  have agrees := h.agrees
  rw [joining] at agrees
  obtain ⟨paid, awake, finished⟩ := agrees
  have coherent := h.coherent.joinThread ended
  rw [Channel.joinThread_snd] at coherent
  rw [joinThread_eq h.coherent]
  exact { h with
    coherent
    agrees := ⟨paid, awake, finished⟩
    collected := fun _ => .inr ⟨why, rfl⟩ }

/-- Looking for a failure keeps the invariant. -/
theorem collect {why : Stop} (collecting : s.controller = .collecting why) :
    (s.collect why).Inv := by
  have agrees := h.agrees
  rw [collecting] at agrees
  obtain ⟨-, awake, finished⟩ := agrees
  have agrees' : why.after.Agrees s.channel s.tokens := by
    cases why <;> exact ⟨awake, fun _ => finished⟩
  have coherent := h.coherent.collect
  unfold System.collect finishStop
  refine respond (?_ : Inv { s with channel := s.channel.collect.2, controller := why.after }) _
  unfold Channel.collect at coherent ⊢
  split at coherent
  next e failure =>
    exact { h with
      coherent
      agrees := agrees'
      failure_none := fun _ => rfl
      collected := fun _ => .inl rfl }
  next failure => exact { h with agrees := agrees', collected := fun _ => .inl failure }

/-- A step of the controller within a call keeps the invariant. -/
theorem controllerStep (step : s.controllerStep = some t) : t.Inv := by
  unfold System.controllerStep at step
  split at step
  next => cases step
  next => cases step
  next waiting =>
    split_ifs at step with asleep
    cases step
    exact h.lookForTurn waiting (by simpa using asleep)
  next stopping =>
    split_ifs at step with asleep
    cases step
    exact h.lookToStop stopping (by simpa using asleep)
  next finishing =>
    split_ifs at step with asleep
    cases step
    exact h.lookForFinish finishing (by simpa using asleep)
  next joining =>
    split_ifs at step with ended
    cases step
    rw [Bool.or_eq_true] at ended
    exact h.joinThread joining (ended.elim h.coherent.ended_of_joined id)
  next collecting =>
    cases step
    exact h.collect collecting

/-- Between two calls it is the controller's turn while a token is noted. -/
theorem inactive_of_free (free : s.controller = .free)
    (tokenOut : s.channel.cell.tokenOut = true) : s.channel.cell.workerActive = false := by
  have agrees := h.agrees
  rw [free] at agrees
  by_cases terminate : s.channel.cell.terminate = true
  · exact h.coherent.inactive_of_done (h.coherent.finished_iff.mp (agrees.2 terminate))
  · exact h.inactive_of_tokenOut tokenOut (by simpa using terminate)

/-- Beginning to shut the channel down without a token keeps the invariant. -/
theorem stop (free : s.controller = .free) {why : Stop}
    (paid : why.Paid s.channel.cell.tokenOut s.tokens) :
    Inv { s with controller := .stopping why } := by
  have agrees := h.agrees
  rw [free] at agrees
  obtain ⟨awake, stopped⟩ := agrees
  exact { h with
    agrees := ⟨paid, fun asleep => absurd (awake.symm.trans asleep) nofun, stopped⟩
    collected := fun joined => .inl (h.failure_none_of_joined (by simp [free]) joined) }

end Inv

/-! ### Steps of the worker -/

variable [Scalar α] {s t : System α κ}

/-- A controller agrees after a step of the worker. -/
theorem agrees_of_moves {c c' : Channel α κ} {tokens : Nat} {controller : Controller}
    (agrees : controller.Agrees c tokens) (coherent : c.Coherent) (moves : c.Moves c') :
    controller.Agrees c' tokens := by
  obtain ⟨-, tokenOut_eq, terminate_eq, -⟩ := moves.keeps
  rcases coherent.turn_of_moves moves with
    ⟨active_eq, finished_eq, -, asleep_eq⟩ | ⟨busy, inactive, awake, stopped⟩
  · -- the flags are as they were
    unfold Controller.Agrees at agrees ⊢
    rw [tokenOut_eq, terminate_eq, active_eq, finished_eq, asleep_eq]
    exact agrees
  · -- the turn is given away: nobody sleeps now
    have none_asleep : ∀ {p : Prop}, c'.sleepers.controller = true → p := fun asleep =>
      absurd (awake.symm.trans asleep) nofun
    have finished_busy : ∀ {p : Prop}, c.cell.finished = true → p := fun finished =>
      absurd (busy.symm.trans (coherent.finished_iff.mp finished)) nofun
    unfold Controller.Agrees at agrees ⊢
    rw [tokenOut_eq, terminate_eq]
    cases controller with
    | free => exact ⟨awake, stopped⟩
    | waiting => exact ⟨agrees.1, none_asleep, stopped⟩
    | stopping why => exact ⟨agrees.1, none_asleep, stopped⟩
    | finishing why =>
      have finished := stopped agrees.2.1
      exact ⟨agrees.1, agrees.2.1, none_asleep,
        fun unfinished => by cases finished.symm.trans unfinished⟩
    | joining why => exact finished_busy agrees.2.2
    | collecting why => exact finished_busy agrees.2.2
    | gone => exact ⟨awake, stopped⟩

/-- A worker says so when it finishes, with its failure and leaving its model, and only then. -/
theorem announcement_of_moves {c c' : Channel α κ} (moves : c.Moves c') :
    (announcement c.worker = [] ∧ c'.cell.failure = c.cell.failure ∧
      c'.cell.finished = c.cell.finished) ∨
    (announcement c.worker = [.concluded c'.cell.failure] ∧ c.worker.phase = .busy ∧
      c'.cell.finished = true ∧ c'.cell.model.isSome = true) := by
  cases moves with
  | goesOn w busy busy' open_ stopping =>
    refine .inl ⟨?_, rfl, rfl⟩
    cases worker_eq : c.worker with
    | closing m result => exact absurd worker_eq (open_ m result)
    | _ => rfl
  | suspends m plan d worker_eq running => exact .inl ⟨by rw [worker_eq]; rfl, rfl, rfl⟩
  | wakes m plan d worker_eq awake =>
    refine .inl ⟨by rw [worker_eq]; rfl, ?_⟩
    unfold Channel.wake Channel.interrupt
    split_ifs <;> exact ⟨rfl, rfl⟩
  | concludes m result worker_eq =>
    exact .inr ⟨by rw [worker_eq]; rfl, by rw [worker_eq]; rfl, rfl, rfl⟩
  | leaves worker_eq => exact .inl ⟨by rw [worker_eq]; rfl, rfl, rfl⟩

namespace Inv

/-- A step of the worker keeps the invariant. -/
theorem workerStep (h : s.Inv) (step : s.workerStep = some t) : t.Inv := by
  unfold System.workerStep at step
  obtain ⟨⟨c, k⟩, moved, rfl⟩ := Option.map_eq_some_iff.mp step
  have moves := Channel.moves_of_workerStep moved
  have coherent := h.coherent.of_moves moves
  obtain ⟨-, tokenOut_eq, terminate_eq, joined_eq⟩ := moves.keeps
  refine {
    coherent
    agrees := agrees_of_moves h.agrees h.coherent moves
    tokens_le := h.tokens_le
    tokenOut_of_alive := fun alive => tokenOut_eq.trans (h.tokenOut_of_alive alive)
    inactive_of_tokenOut := fun tokenOut running => ?_
    failure_none := fun tokenOut => ?_
    collected := fun joined => ?_ }
  · replace tokenOut := tokenOut_eq.symm.trans tokenOut
    replace running := terminate_eq.symm.trans running
    rcases h.coherent.turn_of_moves moves with ⟨active_eq, -⟩ | ⟨-, inactive, -⟩
    · exact active_eq.trans (h.inactive_of_tokenOut tokenOut running)
    · exact inactive
  · replace tokenOut := tokenOut_eq.symm.trans tokenOut
    rcases h.coherent.turn_of_moves moves with ⟨-, -, failure_eq, -⟩ | ⟨busy, -⟩
    · exact failure_eq.trans (h.failure_none tokenOut)
    · -- a busy worker beside a token is one that was told to stop, and it does not fail
      refine (coherent.stopping (terminate_eq.trans ?_)).2.2
      by_contra running
      have inactive := h.inactive_of_tokenOut tokenOut (by simpa using running)
      rw [h.coherent.active_of_busy busy] at inactive
      cases inactive
  · replace joined := joined_eq.symm.trans joined
    rcases h.coherent.turn_of_moves moves with ⟨-, -, failure_eq, -⟩ | ⟨busy, -⟩
    · exact (h.collected joined).imp_left failure_eq.trans
    · cases busy.symm.trans (h.coherent.done_of_joined joined)

/-! ### Calls -/

/-- Waiting keeps the invariant. -/
theorem wait (h : s.Inv) (free : s.controller = .free) : (s.perform .wait).Inv := by
  have agrees := h.agrees
  rw [free] at agrees
  obtain ⟨awake, stopped⟩ := agrees
  have undelivered := h.failure_none_of_joined (by simp [free])
  simp only [System.perform]
  split_ifs with tokenOut
  · exact h.respond _
  · have waiting : Inv { s with controller := .waiting } :=
      { h with
        agrees := ⟨by simpa using tokenOut, fun asleep => absurd (awake.symm.trans asleep) nofun,
          stopped⟩
        collected := fun joined => .inl (undelivered joined) }
    exact waiting.lookForTurn rfl awake

/-- Resuming keeps the invariant. -/
theorem resume (h : s.Inv) {order : Order α κ} {token : Token}
    (call : s.MayCall (.resume order token)) : (s.perform (.resume order token)).Inv := by
  have agrees := h.agrees
  rw [call.free] at agrees
  obtain ⟨awake, stopped⟩ := agrees
  have undelivered := h.failure_none_of_joined (by simp [call.free])
  refine respond
    (?_ : Inv (System.spend { s with channel := (s.channel.resume order token).2 } token)) _
  cases foreign : s.channel.isForeign token with
  | true =>
    rw [Channel.resume_foreign foreign]
    exact h.spend token
  | false =>
    have alive := call.alive token rfl foreign
    have inactive := h.inactive_of_free call.free (h.tokenOut_of_alive alive)
    have coherent := h.coherent.resume inactive order token
    have tokens := h.tokens_le
    obtain ⟨id_eq, tokenOut, terminate_eq, finished_eq, failure_eq, joined_eq, awake'⟩ :=
      Channel.resume_own order foreign awake
    have own : (s.channel.resume order token).2.isForeign token = false := by
      rw [Channel.isForeign, id_eq]
      exact foreign
    unfold System.spend
    simp only [own, Bool.false_eq_true, if_false]
    exact {
      coherent
      agrees := by
        show s.controller.Agrees _ _
        rw [call.free]
        exact ⟨awake',
          fun terminate => finished_eq.trans (stopped (terminate_eq.symm.trans terminate))⟩
      tokens_le := by
        show s.tokens - 1 ≤ 1
        omega
      tokenOut_of_alive := fun (alive' : 0 < s.tokens - 1) => by omega
      inactive_of_tokenOut := fun out => absurd (tokenOut.symm.trans out) nofun
      failure_none := fun out => absurd (tokenOut.symm.trans out) nofun
      collected := fun joined =>
        .inl (failure_eq.trans (undelivered (joined_eq.symm.trans joined))) }

/-- Beginning to join keeps the invariant. -/
theorem join (h : s.Inv) {token : Token} (call : s.MayCall (.join token)) :
    (s.perform (.join token)).Inv := by
  have agrees := h.agrees
  rw [call.free] at agrees
  obtain ⟨awake, stopped⟩ := agrees
  have undelivered := h.failure_none_of_joined (by simp [call.free])
  simp only [System.perform]
  split_ifs with foreign
  · exact h.respond _
  · have own : s.channel.isForeign token = false := by simpa using foreign
    have alive := call.alive token rfl own
    have tokens := h.tokens_le
    have own' : s.channel.giveUp.isForeign token = false := own
    unfold System.spend
    simp only [own', Bool.false_eq_true, if_false]
    exact {
      coherent := h.coherent.giveUp
      agrees := ⟨rfl, fun asleep => absurd (awake.symm.trans asleep) nofun, stopped⟩
      tokens_le := by
        show s.tokens - 1 ≤ 1
        omega
      tokenOut_of_alive := fun (alive' : 0 < s.tokens - 1) => by omega
      inactive_of_tokenOut := nofun
      failure_none := nofun
      collected := fun joined => .inl (undelivered joined) }

/-- Taking the model keeps the invariant. -/
theorem takeModel (h : s.Inv) : (s.perform .takeModel).Inv := by
  have coherent := h.coherent.takeModel
  refine respond (?_ : Inv { s with channel := s.channel.takeModel.2 }) _
  unfold Channel.takeModel at coherent ⊢
  split_ifs at coherent ⊢
  · exact { h with coherent }
  · exact h

/-- The first step of any call keeps the invariant. -/
theorem perform (h : s.Inv) {call : Call α κ} (may : s.MayCall call) : (s.perform call).Inv := by
  cases call with
  | wait => exact h.wait may.free
  | resume order token => exact h.resume may
  | isDone token => exact h.respond _
  | state token => exact h.respond _
  | join token => exact h.join may
  | takeModel => exact h.takeModel
  | recover => exact h.stop may.free (may.unheld rfl)
  | drop => exact h.stop may.free trivial

/-- A step of either thread keeps the invariant. -/
theorem progress (h : s.Inv) (progress : s.Progress t) : t.Inv := by
  cases progress with
  | worker step => exact h.workerStep step
  | controller step => exact h.controllerStep step

/-- A step of any kind keeps the invariant. -/
theorem step (h : s.Inv) (step : s.Step t) : t.Inv := by
  cases step with
  | progress progress => exact h.progress progress
  | call call may => exact h.perform may
  | lose => exact h.lose

end Inv

/-- The invariant holds of every system that can come about. -/
theorem Reachable.inv (h : s.Reachable) : s.Inv := by
  induction h with
  | start id m hooks memory => exact inv_start id m hooks memory
  | step _ step ih => exact ih.step step

end System
end Milp
