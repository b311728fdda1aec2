import Milp.Proofs.Control.Calls

/-!
# Controller and worker alternate

What a controller can rely on while it holds a token, read off the invariant:
`System.strict_alternation`. The token is the only one of its channel, it is the controller's turn,
and the worker sleeps at a decision point or has finished; an order that is accepted finds the
worker asleep and no order before it; and a token of another channel achieves nothing.
-/

namespace Milp

/-- What a controller shuts a channel down for, if it does. -/
def Controller.stop? : Controller → Option Stop
  | .stopping why | .finishing why | .joining why | .collecting why => some why
  | .free | .waiting | .gone => none

/-- Beside a token that is noted and alive, only a channel that is dropped is shut down. -/
theorem Stop.Paid.eq_drop {tokens : Nat} {why : Stop} (h : why.Paid true tokens)
    (alive : 0 < tokens) : why = .drop := by
  cases why with
  | join => cases h
  | recovery =>
    have none_alive : tokens = 0 := h
    omega
  | drop => rfl

namespace System

variable {α κ : Type} {s : System α κ}

namespace Inv

/-- While a token is alive it is the controller's turn, unless the channel is being dropped. -/
theorem inactive_of_alive (h : s.Inv) (alive : 0 < s.tokens)
    (kept : s.controller.stop? ≠ some .drop) : s.channel.cell.workerActive = false := by
  have tokenOut := h.tokenOut_of_alive alive
  have inactive_of_stopped : (s.channel.cell.terminate = true → s.channel.cell.finished = true) →
      s.channel.cell.workerActive = false := by
    intro stopped
    by_cases terminate : s.channel.cell.terminate = true
    · exact h.coherent.inactive_of_done (h.coherent.finished_iff.mp (stopped terminate))
    · exact h.inactive_of_tokenOut tokenOut (by simpa using terminate)
  have not_paid : ∀ {why : Stop}, s.controller.stop? = some why →
      why.Paid s.channel.cell.tokenOut s.tokens → False := by
    intro why stops paid
    rw [tokenOut] at paid
    rw [stops, paid.eq_drop alive] at kept
    exact kept rfl
  have agrees := h.agrees
  cases controller : s.controller with
  | free =>
    rw [controller] at agrees
    exact inactive_of_stopped agrees.2
  | waiting =>
    rw [controller] at agrees
    cases agrees.1.symm.trans tokenOut
  | gone =>
    rw [controller] at agrees
    exact inactive_of_stopped agrees.2
  | stopping why =>
    rw [controller] at agrees not_paid
    exact (not_paid rfl agrees.1).elim
  | finishing why =>
    rw [controller] at agrees not_paid
    exact (not_paid rfl agrees.1).elim
  | joining why =>
    rw [controller] at agrees not_paid
    exact (not_paid rfl agrees.1).elim
  | collecting why =>
    rw [controller] at agrees not_paid
    exact (not_paid rfl agrees.1).elim

/-- When it is not the worker's turn, the worker is suspended or has finished. -/
theorem suspended_or_finished (h : s.Inv) (inactive : s.channel.cell.workerActive = false) :
    s.channel.IsSuspended ∨ s.channel.cell.finished = true := by
  cases finished : s.channel.cell.finished with
  | true => exact .inr rfl
  | false => exact .inl (h.coherent.suspended inactive finished).1

/-- An order that is accepted finds the worker suspended and no order before it. -/
theorem suspended_of_resume (h : s.Inv) {order : Order α κ} {token : Token}
    (may : s.MayCall (.resume order token))
    (accepted : (s.channel.resume order token).1 = .ok ()) :
    s.channel.IsSuspended ∧ s.channel.cell.pending = none := by
  unfold Channel.resume at accepted
  split_ifs at accepted with foreign
  simp only at accepted
  split_ifs at accepted with finished
  have alive := may.alive token rfl (by simpa using foreign)
  have inactive := h.inactive_of_free may.free (h.tokenOut_of_alive alive)
  obtain ⟨suspended, -, pending⟩ := h.coherent.suspended inactive (by simpa using finished)
  exact ⟨suspended, pending⟩

end Inv

variable [Scalar α]

/-- A call with a token of another channel is refused and changes nothing. -/
theorem perform_foreign {call : Call α κ} {token : Token} (paid : call.token? = some token)
    (foreign : s.channel.isForeign token = true) :
    ∃ response, s.perform call = s.respond response ∧ response.error? = some .foreignToken := by
  cases call with
  | resume order token' =>
    cases paid
    refine ⟨.resume (.error .foreignToken), ?_, rfl⟩
    simp only [perform, Channel.resume_foreign foreign, spend, foreign, if_true]
  | isDone token' =>
    cases paid
    refine ⟨_, rfl, ?_⟩
    simp only [Response.error?, Channel.isDone, foreign, if_true, errorOf?]
  | state token' =>
    cases paid
    refine ⟨_, rfl, ?_⟩
    simp only [Response.error?, Channel.state, foreign, if_true, errorOf?]
  | join token' =>
    cases paid
    refine ⟨.join (.error .foreignToken), ?_, rfl⟩
    simp only [perform, foreign, if_true]
  | wait => cases paid
  | takeModel => cases paid
  | recover => cases paid
  | drop => cases paid

/-- Controller and worker alternate strictly, whatever is called and in whatever order the two
take their steps. At most one token is alive. While one is, and unless the channel is being
dropped, it is noted, it is the controller's turn, and the worker is suspended or has finished. An
order that is accepted finds the worker suspended and no order before it. A call with a token of
another channel is refused and changes nothing. -/
theorem strict_alternation (h : s.Reachable) :
    s.tokens ≤ 1 ∧
      (0 < s.tokens → s.controller.stop? ≠ some .drop →
        s.channel.cell.tokenOut = true ∧ s.channel.cell.workerActive = false ∧
          (s.channel.IsSuspended ∨ s.channel.cell.finished = true)) ∧
      (∀ order token, s.MayCall (.resume order token) →
        (s.channel.resume order token).1 = .ok () →
          s.channel.IsSuspended ∧ s.channel.cell.pending = none) ∧
      ∀ call token, s.MayCall call → call.token? = some token →
        s.channel.isForeign token = true →
          ∃ response, s.perform call = s.respond response ∧
            response.error? = some .foreignToken := by
  refine ⟨h.inv.tokens_le, ?_, ?_, ?_⟩
  · intro alive kept
    have inactive := h.inv.inactive_of_alive alive kept
    exact ⟨h.inv.tokenOut_of_alive alive, inactive, h.inv.suspended_or_finished inactive⟩
  · intro order token may accepted
    exact h.inv.suspended_of_resume may accepted
  · intro call token _ paid foreign
    exact perform_foreign paid foreign

/-- The pair waits for its first decision with the only token in the hands of the controller. -/
theorem pair_alternates : ∃ s : System Rat Unit, s.Reachable ∧ s.tokens = 1 ∧
    s.channel.cell.tokenOut = true ∧ s.channel.cell.workerActive = false ∧
      s.channel.IsSuspended ∧ s.channel.cell.pending = none := by
  obtain ⟨s, reached, free, tokens, id_eq, suspended⟩ := pair_suspended
  obtain ⟨-, holds, accepts, -⟩ := strict_alternation reached
  obtain ⟨tokenOut, inactive, -⟩ := holds (by omega) (by rw [free]; nofun)
  have may : s.MayCall (.resume .leave ⟨1⟩) := ⟨free, fun _ _ _ => by omega, nofun⟩
  have unfinished := reached.inv.coherent.unfinished_of_waiting suspended.1
  have accepted : (s.channel.resume .leave ⟨1⟩).1 = .ok () := by
    simp [Channel.resume, Channel.isForeign, id_eq, unfinished]
  exact ⟨s, reached, tokens, tokenOut, inactive, accepts .leave ⟨1⟩ may accepted⟩

end System
end Milp
