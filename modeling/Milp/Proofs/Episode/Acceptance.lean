import Milp.Episode.Session
import Milp.Proofs.Control.Acceptance

/-!
# Sessions that are not refused anything

A session runs a solve from decision to decision. If each order is acceptable at the decision point
where the worker waits, no operation of the session reports a refusal (`Session.Accepted`). Where it
waits is seen in the snapshot (`Session.snapshot_of_waitsAt`), from which the next order is made.
-/

namespace Milp

open Scalar

/-! ### Errors -/

namespace EpisodeError

variable {α : Type}

/-- Whether an error of an episode says that what was decided cannot be done. To reject an action
beforehand is no such error. -/
def IsRefusal : EpisodeError α → Prop
  | .solver cause => cause.IsRefusal
  | .control cause => cause.IsRefusal
  | _ => False

/-- An error of the solver remains what it is. -/
theorem isRefusal_ofSolver (e : SolverError α) : (ofSolver e).IsRefusal ↔ e.IsRefusal := by
  cases e <;> rfl

/-- So does an error of the channel. -/
theorem isRefusal_ofControl (e : ControlError α) : (ofControl e).IsRefusal ↔ e.IsRefusal := by
  cases e with
  | solver cause => exact isRefusal_ofSolver cause
  | _ => rfl

end EpisodeError

namespace Session

variable {α κ : Type}

/-- Whether the worker of a session waits for a decision at a decision point. -/
def WaitsAt (s : Session α κ) (plan : Plan α) (d : Decision α) : Prop :=
  ∃ c token m, s = .controlled c token ∧ c.worker = .waiting m plan d

/-- Where somebody waits, the solve is suspended. -/
theorem WaitsAt.isSuspended {s : Session α κ} {plan : Plan α} {d : Decision α}
    (h : s.WaitsAt plan d) : s.isSuspended = true := by
  obtain ⟨c, token, m, rfl, -⟩ := h
  rfl

/-- Nobody waits in a session without a suspended solve. -/
theorem not_waitsAt {s : Session α κ} (h : s.isSuspended = false) (plan : Plan α) (d : Decision α) :
    ¬s.WaitsAt plan d := fun waits => by
  rw [waits.isSuspended] at h
  cases h

variable [Scalar α]

/-- A session whose worker was joined does not wait for a decision. -/
theorem isSuspended_recover (c : Channel α κ) (k : κ) :
    (recover c k).1.isSuspended = false := by
  unfold recover
  simp only
  split <;> rfl

/-- What a snapshot fails at is no refusal. -/
theorem snapshot_unrefused {s : Session α κ} {e : EpisodeError α} (failed : s.snapshot = .error e) :
    ¬e.IsRefusal := by
  cases s with
  | idle m => cases failed
  | controlled c token =>
    rw [snapshot, Channel.state] at failed
    split_ifs at failed
    · cases failed
      exact fun refusal => refusal
    · cases failed
  | vacant =>
    cases failed
    exact fun refusal => refusal

/-! ### The invariant -/

variable [Faithful α] {hooks : Hooks} {tol : α}

/-- Whether no operation of a session will report a refusal, as long as the orders are acceptable. -/
def Unrefused (hooks : Hooks) (tol : α) : Session α κ → Prop
  | .controlled c token => c.Unrefused hooks tol ∧ c.isForeign token = false
  | _ => True

/-- What comes of an operation that was not refused anything. Unless the solve goes on, nobody waits
for a decision. -/
structure Accepted (hooks : Hooks) (tol : α) (o : Outcome α κ Bool) : Prop where
  session : o.2.1.Unrefused hooks tol
  error : ∀ e, o.1 = .error e → ¬e.IsRefusal
  nobody : o.1 ≠ .ok false → ∀ plan d, ¬o.2.1.WaitsAt plan d

variable {s : Session α κ} {plan : Plan α} {d : Decision α}

/-- The decision point where the worker waits is branchable. -/
theorem Unrefused.branchable (h : s.Unrefused hooks tol) (waits : s.WaitsAt plan d) :
    plan.Serves (some hooks) tol ∧ d.Branchable plan := by
  obtain ⟨c, token, m, rfl, worker_eq⟩ := waits
  have worker := h.1.worker
  rw [worker_eq] at worker
  exact worker

/-- The snapshot shows the decision point where the worker waits. -/
theorem Unrefused.snapshot_of_waitsAt (h : s.Unrefused hooks tol) (waits : s.WaitsAt plan d) :
    s.snapshot = .ok (d.snapshot plan) := by
  obtain ⟨c, token, m, rfl, worker_eq⟩ := waits
  rw [snapshot, Channel.state, h.2, h.1.shown m plan d worker_eq]
  rfl

/-! ### Operations -/

/-- Nothing can be refused where nobody waits. -/
theorem unrefused_of_not_suspended (h : s.isSuspended = false) : s.Unrefused hooks tol := by
  cases s with
  | controlled => cases h
  | idle => trivial
  | vacant => trivial

/-- An operation that fails, after which the worker is joined. -/
theorem accepted_of_failed (c : Channel α κ) (k : κ) {e : ControlError α} (fine : ¬e.IsRefusal) :
    Accepted hooks tol (.error (.ofControl e), (recover c k).1, (recover c k).2) where
  session := unrefused_of_not_suspended (isSuspended_recover c k)
  error e' eq := by
    cases eq
    rwa [EpisodeError.isRefusal_ofControl]
  nobody _ := not_waitsAt (isSuspended_recover c k)

/-- An operation that succeeds. -/
theorem accepted_of_ok (h : s.Unrefused hooks tol) {done : Bool}
    (ended : done = true → s.isSuspended = false) (k : κ) : Accepted hooks tol (.ok done, s, k) where
  session := h
  error e eq := nomatch eq
  nobody finished := not_waitsAt (ended (by simpa using finished))

/-- Settling where the session is after a wait. -/
theorem accepted_settle {c : Channel α κ} (h : c.Unrefused hooks tol)
    {waited : Except (ControlError α) Token} (fine : ∀ e, waited = .error e → ¬e.IsRefusal)
    (own : ∀ token, waited = .ok token → c.isForeign token = false) (k : κ) :
    Accepted hooks tol (settle c waited k) := by
  unfold settle
  cases waited with
  | error e => exact accepted_of_failed c k (fine e rfl)
  | ok token =>
    have token_own := own token rfl
    simp only [bind, Except.bind, pure, Except.pure, Channel.isDone, token_own, Bool.false_eq_true,
      if_false]
    cases c.cell.finished with
    | false => exact accepted_of_ok (s := controlled c token) ⟨h, token_own⟩ (by simp) k
    | true =>
      have settled := isSuspended_recover (c.join token k).2.1 (c.join token k).2.2
      simp only
      split
      next joined =>
        exact accepted_of_ok (unrefused_of_not_suspended settled) (fun _ => settled) _
      next e joined => exact accepted_of_failed _ _ (h.join token k joined)

/-- A wait for the next decision. -/
theorem accepted_wait {c : Channel α κ} (h : c.Unrefused hooks tol) (k : κ) :
    Accepted hooks tol (settle (c.wait k).2.1 (c.wait k).1 (c.wait k).2.2) := by
  obtain ⟨kept, fine, own⟩ := h.wait k
  exact accepted_settle kept fine own _

/-- Starting the solve of an idle model. -/
theorem accepted_start {m : Model α} (h : m.Integral tol) (hooks : Hooks) (k : κ) :
    Accepted hooks tol ((idle m : Session α κ).start hooks k) :=
  accepted_wait (Channel.unrefused_start channelId h hooks) k

/-- Resuming the solve with an order that is acceptable where the worker waits. -/
theorem Unrefused.resume (h : s.Unrefused hooks tol) (order : Order α κ) (k : κ)
    (acceptable : ∀ plan d, s.WaitsAt plan d → order.Acceptable plan d) :
    Accepted hooks tol (s.resume order k) := by
  cases s with
  | controlled c token =>
    obtain ⟨kept, fine⟩ := h.1.resume token
      fun m plan d worker_eq => acceptable plan d ⟨c, token, m, rfl, worker_eq⟩
    unfold Session.resume
    simp only
    split
    next e c' resumed =>
      rw [resumed] at fine
      exact accepted_of_failed c' k (fine e rfl)
    next c' resumed =>
      rw [resumed] at kept
      exact accepted_wait kept k
  | idle m =>
    refine ⟨trivial, fun e eq => ?_, fun _ => not_waitsAt rfl⟩
    cases eq
    exact fun refusal => refusal
  | vacant =>
    refine ⟨trivial, fun e eq => ?_, fun _ => not_waitsAt rfl⟩
    cases eq
    exact fun refusal => refusal

end Session

end Milp
