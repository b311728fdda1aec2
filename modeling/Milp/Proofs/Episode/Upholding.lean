import Milp.Episode.Session
import Milp.Proofs.Control.Upholding

/-!
# Laws of a session

A session keeps to a law that the solver and all orders keep to, from the idle model over the suspended
solve to the model that returns, and all that it shows is as the law says (`Session.Upholds.snapshot`).
-/

namespace Milp.Session

variable {α κ : Type} [Scalar α] {law : Law α}

/-- Whether a law holds of what a session owns. -/
def Upholds (law : Law α) : Session α κ → Prop
  | .idle m => law.model m
  | .controlled c _ => c.Upholds law
  | .vacant => True

/-- Taking the model back from a channel. -/
theorem upholds_recover {c : Channel α κ} (h : c.Upholds law) (kept : law.Kept) (k : κ) :
    (recover c k).1.Upholds law := by
  have stopped := h.shutdown kept k
  unfold recover
  simp only
  split
  next m taken => exact stopped.takeModel taken
  next => trivial

/-- Settling where the session is after a wait. -/
theorem upholds_settle {c : Channel α κ} (h : c.Upholds law) (kept : law.Kept)
    (waited : Except (ControlError α) Token) (k : κ) : (settle c waited k).2.1.Upholds law := by
  unfold settle
  simp only
  split
  · exact h
  next token _ =>
    have recovered := upholds_recover (h.join kept token k) kept (c.join token k).2.2
    split <;> exact recovered
  · exact upholds_recover h kept k

namespace Upholds

variable {s : Session α κ}

/-- Starting a controlled solve. -/
theorem start (h : s.Upholds law) (kept : law.Kept) (hooks : Hooks) (k : κ) (steps : Nat) :
    (s.start hooks k steps).2.1.Upholds law := by
  cases s with
  | idle m => exact upholds_settle ((Channel.upholds_start h channelId hooks).wait kept k steps) kept _ _
  | controlled c token => exact h
  | vacant => exact h

/-- Resuming it with an order that upholds the law. -/
theorem resume (h : s.Upholds law) (kept : law.Kept) {order : Order α κ} (upheld : order.Upholds law)
    (k : κ) (steps : Nat) : (s.resume order k steps).2.1.Upholds law := by
  cases s with
  | idle m => exact h
  | controlled c token =>
    have resumed : (c.resume order token).2.Upholds law := Channel.Upholds.resume h upheld token
    unfold Session.resume
    simp only
    split
    next eq =>
      rw [eq] at resumed
      exact upholds_recover resumed kept k
    next eq =>
      rw [eq] at resumed
      exact upholds_settle (resumed.wait kept k steps) kept _ _
  | vacant => exact h

/-- Solving without asking for decisions. -/
theorem solve (h : s.Upholds law) (kept : law.Kept) : s.solve.2.Upholds law := by
  -- a run that leaves every decision to the solver
  have run (plan : Plan α) (turns : Nat) {turn : Turn α} (holds : law.turn plan turn) :
      law.turn plan (plan.drive Handler.passive turns turn ()).1 := by
    induction turns generalizing turn with
    | zero => exact holds
    | succ turns ih =>
      cases turn with
      | proceed s => exact ih (kept.advance holds)
      | ask d => exact ih (kept.leave holds)
      | ended => exact holds
      | failed => exact holds
  cases s with
  | idle m =>
    have solved : law.model (m.solve Handler.passive ()).model := by
      unfold Model.solve
      split
      · exact h
      next plan turn entered => exact kept.close (run plan patience (kept.opening h entered)) m
    exact solved
  | controlled c token => exact h
  | vacant => exact h

/-- What a session shows. -/
theorem snapshot (h : s.Upholds law) (kept : law.Kept) {shown : Snapshot α}
    (snapshot_eq : s.snapshot = .ok shown) : law.snapshot shown := by
  cases s with
  | idle m =>
    cases snapshot_eq
    exact kept.atRest h
  | controlled c token =>
    change (c.state token).mapError EpisodeError.ofControl = .ok shown at snapshot_eq
    cases published : c.state token with
    | ok s =>
      rw [published] at snapshot_eq
      cases snapshot_eq
      exact Channel.Upholds.state h kept published
    | error e =>
      rw [published] at snapshot_eq
      cases snapshot_eq
  | vacant => cases snapshot_eq

/-- The model of a session. -/
theorem model (h : s.Upholds law) {m : Model α} (model_eq : s.model = .ok m) : law.model m := by
  cases s with
  | idle m =>
    cases model_eq
    exact h
  | controlled c token => cases model_eq
  | vacant => cases model_eq

end Upholds
end Milp.Session
