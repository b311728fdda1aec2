import Milp.Episode.Error

/-!
# Sessions

A session owns the model of an episode. While a controlled solve is suspended it owns the channel
and the token instead; when the solve is over, for whatever reason, the worker is joined and the
model returns.
-/

namespace Milp

/-- What a session owns. -/
inductive Session (α κ : Type) where
  | idle (m : Model α)
  | controlled (c : Channel α κ) (token : Token)
  | vacant

namespace Session

variable {α κ : Type}

/-- The result of an operation, with the session and the memory after it. -/
abbrev Outcome (α κ β : Type) : Type :=
  Except (EpisodeError α) β × Session α κ × κ

/-- Whether a controlled solve is suspended. -/
def isSuspended : Session α κ → Bool
  | .controlled .. => true
  | _ => false

/-- The model, unless a controlled solve owns it. -/
def model : Session α κ → Except (EpisodeError α) (Model α)
  | .idle m => .ok m
  | .controlled .. => .error (.sequencing .modelOwned)
  | .vacant => .error (.sequencing .modelLost)

variable [Scalar α]

/-- Stops a channel and takes the model back from it. -/
def recover (c : Channel α κ) (k : κ) : Session α κ × κ :=
  let (_, c, k) := c.shutdown k
  match c.takeModel.1 with
  | some m => (.idle m, k)
  | none => (.vacant, k)

/-- Settles where the session is after a wait: the solve is suspended, over, or failed. The flag
says whether it is over. -/
def settle (c : Channel α κ) (waited : Except (ControlError α) Token) (k : κ) :
    Outcome α κ Bool :=
  let waited := do
    let token ← waited
    let done ← c.isDone token
    pure (token, done)
  match waited with
  | .ok (token, false) => (.ok false, .controlled c token, k)
  | .ok (token, true) =>
    let (joined, c, k) := c.join token k
    let (s, k) := recover c k
    match joined with
    | .ok () => (.ok true, s, k)
    | .error e => (.error (.ofControl e), s, k)
  | .error e =>
    let (s, k) := recover c k
    (.error (.ofControl e), s, k)

/-- The channel of a session; its token never meets another one. -/
def channelId : Nat := 0

/-- Starts a controlled solve and runs it to its first decision point. The flag says whether it is
over without one. -/
def start (s : Session α κ) (hooks : Hooks) (k : κ) (steps : Nat := patience) :
    Outcome α κ Bool :=
  match s with
  | .idle m =>
    let (waited, c, k) := (Channel.start channelId m hooks).wait k steps
    settle c waited k
  | s => (.error (.sequencing .notIdle), s, k)

/-- Resumes the suspended solve with an order and runs it to the next decision point. The flag says
whether it is over. -/
def resume (s : Session α κ) (order : Order α κ) (k : κ) (steps : Nat := patience) :
    Outcome α κ Bool :=
  match s with
  | .controlled c token =>
    match c.resume order token with
    | (.error e, c) =>
      let (s, k) := recover c k
      (.error (.ofControl e), s, k)
    | (.ok (), c) =>
      let (waited, c, k) := c.wait k steps
      settle c waited k
  | s => (.error (.sequencing .notControlled), s, k)

/-- What the solver shows of itself. -/
def snapshot : Session α κ → Except (EpisodeError α) (Snapshot α)
  | .idle m => .ok m.snapshot
  | .controlled c token => (c.state token).mapError .ofControl
  | .vacant => .error (.sequencing .modelLost)

/-- Solves the idle model without asking for decisions. -/
def solve (s : Session α κ) : Attempt (EpisodeError α) SolveStatus × Session α κ :=
  match s.model with
  | .error e => (Attempt.fail e, s)
  | .ok m =>
    let (m, result) := m.solveAlone
    (result.mapError .ofSolver, .idle m)

/-- Ends the session and returns the model. -/
def close (s : Session α κ) (k : κ) : Option (Model α) × κ :=
  match s with
  | .idle m => (some m, k)
  | .controlled c token =>
    let (_, c, k) := c.join token k
    (c.takeModel.1, k)
  | .vacant => (none, k)

end Session
end Milp
