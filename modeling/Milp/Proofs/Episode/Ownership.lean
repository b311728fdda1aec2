import Milp.Proofs.Control.Handover
import Milp.Proofs.Episode.Acceptance

/-!
# A session never loses its model

The owner of a session makes calls one after the other (`Session.Comes`), each of them with whatever
number of steps its worker needs to give the turn away (`Session.Returns`). Between the calls the
model is idle, or it is on a channel whose worker is suspended (`Session.Holds`). A call that
waits comes to the next decision point, or finds the solve over and takes the model back from the
worker (`Session.Settled`): on success, on an error and after a crash alike. So the model is there
after every run of calls (`Session.model_kept`).
-/

namespace Milp

variable {α κ : Type}

namespace Session

/-! ### Calls -/

/-- A call on a session, other than the one that ends it. -/
inductive Call (α κ : Type) where
  | start (hooks : Hooks)
  | resume (order : Order α κ)
  | solve
  | state
  | model

/-- What a call gives back. A solve is moved by starting and by resuming it. -/
inductive Answer (α : Type) where
  | moved (result : Except (EpisodeError α) Bool)
  | solved (result : Attempt (EpisodeError α) SolveStatus)
  | state (result : Except (EpisodeError α) (Snapshot α))
  | model (result : Except (EpisodeError α) (Model α))

namespace Answer

/-- The error that a call gives back. -/
def error? : Answer α → Option (EpisodeError α)
  | .moved result => errorOf? result
  | .solved (.error (.error e)) => some e
  | .solved _ => none
  | .state result => errorOf? result
  | .model result => errorOf? result

/-- Whether a call was refused as out of sequence. -/
def OutOfSequence (a : Answer α) : Prop := ∃ misstep, a.error? = some (.sequencing misstep)

/-- What came of a call that has moved the solve. A call out of sequence has not. -/
def moved? : Answer α → Option (Except (EpisodeError α) Bool)
  | .moved (.error (.sequencing _)) => none
  | .moved result => some result
  | _ => none

end Answer

/-- What came of the last call that has moved the solve. -/
def lastMoved (answers : List (Answer α)) : Option (Except (EpisodeError α) Bool) :=
  (answers.filterMap Answer.moved?).getLast?

variable [Scalar α]

/-- Makes a call, during which the worker takes at most so many steps. -/
def perform (s : Session α κ) (steps : Nat) (call : Call α κ) (k : κ) :
    Answer α × Session α κ × κ :=
  match call with
  | .start hooks =>
    let (result, s, k) := s.start hooks k steps
    (.moved result, s, k)
  | .resume order =>
    let (result, s, k) := s.resume order k steps
    (.moved result, s, k)
  | .solve =>
    let (result, s) := s.solve
    (.solved result, s, k)
  | .state => (.state s.snapshot, s, k)
  | .model => (.model s.model, s, k)

omit [Scalar α] in
/-- The channel on which a call waits for its turn. -/
def awaited? (s : Session α κ) (call : Call α κ) : Option (Channel α κ) :=
  match s, call with
  | .idle m, .start hooks => some (Channel.start channelId m hooks)
  | .controlled c token, .resume order => some (c.resume order token).2
  | _, _ => none

/-- Whether a call returns: the turn that it waits for comes within so many steps of the worker. -/
def Returns (s : Session α κ) (steps : Nat) (call : Call α κ) (k : κ) : Prop :=
  ∀ c ∈ s.awaited? call, (c.runUntil .turn steps k).1.hasCome .turn = true

/-- Where calls that return lead to from a model, with what they gave back. -/
inductive Comes (m₀ : Model α) (k₀ : κ) : List (Answer α) → Session α κ → κ → Prop
  | begin : Comes m₀ k₀ [] (.idle m₀) k₀
  | call {answers : List (Answer α)} {s : Session α κ} {k : κ} (steps : Nat) (call : Call α κ)
      (comes : Comes m₀ k₀ answers s k) (returns : s.Returns steps call k) :
      Comes m₀ k₀ (answers ++ [(s.perform steps call k).1]) (s.perform steps call k).2.1
        (s.perform steps call k).2.2

/-! ### Taking the model back -/

/-- Whether a session holds a model: it is idle, or its worker is suspended at the solve of it. -/
inductive Holds (m₁ : Model α) : Session α κ → Prop
  | idle : Holds m₁ (.idle m₁)
  | suspended {c : Channel α κ} {token : Token} (reports : c.Reports m₁)
      (suspended : c.IsSuspended) (own : c.isForeign token = false) : Holds m₁ (.controlled c token)

/-- How a call ends that has moved the solve of a model, by the channel at its turn: the solve is
suspended again, it is over, or it has failed. -/
inductive Settled (m₁ : Model α) (c : Channel α κ) : Outcome α κ Bool → Prop
  | suspended {s : Session α κ} (k : κ) (suspended : s.isSuspended = true) (holds : s.Holds m₁) :
      Settled m₁ c (.ok false, s, k)
  | ended {m : Model α} {status : SolveStatus} (k : κ) (finished : c.worker.phase = .done)
      (left : m₁.Left (.ok status) m) : Settled m₁ c (.ok true, .idle m, k)
  | failed {m : Model α} {cause : Failure (SolverError α)} (k : κ)
      (finished : c.worker.phase = .done) (left : m₁.Left (.error cause) m) :
      Settled m₁ c (.error (.ofSolver (.ofFailure cause)), .idle m, k)

variable {c : Channel α κ} {s : Session α κ} {m₀ m₁ : Model α} {k k₀ : κ}

/-- The model of a worker that has finished is taken back. -/
theorem recover_of_finished (coherent : c.Coherent) (finished : c.cell.finished = true) {m : Model α}
    (model : c.cell.model = some m) (k : κ) : ∃ k', recover c k = (.idle m, k') := by
  obtain ⟨c', k', shut, cell_eq, -⟩ := Channel.shutdown_of_finished coherent finished k
  refine ⟨k', ?_⟩
  simp [recover, shut, Channel.takeModel, cell_eq, finished, model]

/-- A failed wait ends with the model taken back. -/
theorem settle_failed (coherent : c.Coherent) (finished : c.cell.finished = true) {m : Model α}
    (model : c.cell.model = some m) (e : ControlError α) (k : κ) :
    ∃ k', settle c (.error e) k = (.error (.ofControl e), .idle m, k') := by
  obtain ⟨k', recovered⟩ := recover_of_finished coherent finished model k
  exact ⟨k', by simp only [settle, bind, Except.bind, recovered]⟩

omit [Scalar α] in
/-- A token is issued by its channel. -/
theorem isForeign_self (c : Channel α κ) : c.isForeign ⟨c.id⟩ = false := by
  simp [Channel.isForeign]

/-- A wait that finds the worker suspended ends there. -/
theorem settle_suspended (unfinished : c.cell.finished = false) (k : κ) :
    settle c (.ok ⟨c.id⟩) k = (.ok false, .controlled c ⟨c.id⟩, k) := by
  simp only [settle, bind, Except.bind, pure, Except.pure, Channel.isDone, isForeign_self,
    Bool.false_eq_true, if_false, unfinished]

/-- A wait that finds the worker finished without a failure ends with the model taken back. -/
theorem settle_finished (coherent : c.Coherent) (finished : c.cell.finished = true)
    (undelivered : c.cell.failure = none) {m : Model α} (model : c.cell.model = some m) (k : κ) :
    ∃ k', settle c (.ok ⟨c.id⟩) k = (.ok true, .idle m, k') := by
  obtain ⟨c', k', shut, cell_eq, joined, coherent'⟩ :=
    Channel.shutdown_of_finished coherent.giveUp finished k
  have nothing : c.giveUp.collect.1 = .ok () := by
    simp [Channel.collect, Channel.giveUp, undelivered]
  obtain ⟨k'', recovered⟩ := recover_of_finished coherent' (by rw [cell_eq]; exact finished)
    (by rw [cell_eq]; exact model) k'
  refine ⟨k'', ?_⟩
  simp only [settle, bind, Except.bind, pure, Except.pure, Channel.isDone, isForeign_self,
    Bool.false_eq_true, if_false, finished, Channel.join, shut, nothing, recovered]

/-- Where the turn has come, the solve is suspended, or it is over and the model is taken back. -/
theorem settled_of_turn (h : c.Reports m₁) (turn : c.hasCome .turn = true) (k : κ) :
    Settled m₁ c (settle c.takeTurn.2 c.takeTurn.1 k) := by
  have coherent := h.coherent.takeTurn
  cases finished : c.cell.finished with
  | false =>
    have inactive : c.cell.workerActive = false := by simpa [Channel.hasCome] using turn
    obtain ⟨suspended, -⟩ := h.coherent.suspended inactive finished
    have taken : c.takeTurn = (.ok ⟨c.id⟩, { c with cell := { c.cell with tokenOut := true } }) := by
      simp only [Channel.takeTurn, h.coherent.failure_none finished]
    rw [taken] at coherent ⊢
    rw [settle_suspended (by exact finished)]
    exact .suspended k rfl (.suspended (h.of_unfinished coherent rfl finished) suspended
      (isForeign_self c))
  | true =>
    have done := h.coherent.finished_iff.mp finished
    obtain ⟨result, m, failure, model, left⟩ := h.left finished
    rcases result with cause | status
    · have told : c.takeTurn = (.error (.solver (.ofFailure cause)),
          { c with cell := { c.cell with failure := none } }) := by
        simp only [Channel.takeTurn, failure, SolverError.ofResult?]
      rw [told] at coherent ⊢
      obtain ⟨k', settled⟩ := settle_failed coherent (by exact finished) (by exact model)
        (.solver (.ofFailure cause)) k
      rw [settled]
      exact .failed k' done left
    · have undelivered : c.cell.failure = none := failure
      have taken : c.takeTurn =
          (.ok ⟨c.id⟩, { c with cell := { c.cell with tokenOut := true } }) := by
        simp only [Channel.takeTurn, undelivered]
      rw [taken] at coherent ⊢
      obtain ⟨k', settled⟩ := settle_finished coherent (by exact finished) (by exact undelivered)
        (by exact model) k
      exact settled ▸ .ended k' done left

/-- A wait whose turn comes settles where the solve is. -/
theorem settled_wait (h : c.Reports m₁) (free : c.cell.tokenOut = false) {steps : Nat}
    (come : (c.runUntil .turn steps k).1.hasCome .turn = true) :
    Settled m₁ (c.runUntil .turn steps k).1
      (settle (c.wait k steps).2.1 (c.wait k steps).1 (c.wait k steps).2.2) := by
  have waits : c.wait k steps = ((c.runUntil .turn steps k).1.takeTurn.1,
      (c.runUntil .turn steps k).1.takeTurn.2, (c.runUntil .turn steps k).2) := by
    simp only [Channel.wait, free, Bool.false_eq_true, if_false]
  rw [waits]
  exact settled_of_turn (h.runUntil .turn steps k) come _

/-! ### What calls do -/

/-- Starting the solve of an idle model settles where the solve is. -/
theorem settled_start (m : Model α) {steps : Nat} {hooks : Hooks}
    (returns : (idle m : Session α κ).Returns steps (.start hooks) k) :
    Settled m ((Channel.start channelId m hooks).runUntil .turn steps k).1
      ((idle m).start hooks k steps) :=
  settled_wait (Channel.reports_start channelId m hooks) rfl (returns _ rfl)

/-- Resuming a suspended solve settles where it is. -/
theorem settled_resume {token : Token} (h : c.Reports m₁) (suspended : c.IsSuspended)
    (own : c.isForeign token = false) {steps : Nat} {order : Order α κ}
    (returns : (controlled c token).Returns steps (.resume order) k) :
    Settled m₁ ((c.resume order token).2.runUntil .turn steps k).1
      ((controlled c token).resume order k steps) := by
  have come := returns _ rfl
  have inactive := (h.coherent.asleep_iff.mp suspended.2).2
  have unfinished := h.coherent.unfinished_of_waiting suspended.1
  have coherent := h.coherent.resume inactive order token
  have resumed : c.resume order token = (.ok (), (c.resume order token).2) ∧
      (c.resume order token).2.worker = c.worker ∧
      (c.resume order token).2.cell.finished = false ∧
      (c.resume order token).2.cell.tokenOut = false := by
    simp [Channel.resume, own, unfinished, Channel.notifyAll]
  obtain ⟨resumed, worker_eq, unfinished', free⟩ := resumed
  generalize (c.resume order token).2 = c' at *
  have settled := settled_wait (h.of_unfinished coherent worker_eq unfinished') free come
  unfold Session.resume
  simp only [resumed]
  exact settled

/-- What a call can do on a session that holds a model: it is refused, it shows something, it moves
the solve, or it solves the idle model. -/
inductive Does (m₁ : Model α) (s : Session α κ) (steps : Nat) (call : Call α κ) (k : κ) :
    Answer α × Session α κ × κ → Prop
  | refused {a : Answer α} (misstep : Misstep) (out : a.error? = some (.sequencing misstep))
      (unmoved : a.moved? = none) : Does m₁ s steps call k (a, s, k)
  | shows {a : Answer α} (fine : a.error? = none) (unmoved : a.moved? = none) :
      Does m₁ s steps call k (a, s, k)
  | moves {c : Channel α κ} {result : Except (EpisodeError α) Bool} {s' : Session α κ} {k' : κ}
      (awaited : s.awaited? call = some c)
      (settled : Settled m₁ (c.runUntil .turn steps k).1 (result, s', k')) :
      Does m₁ s steps call k (.moved result, s', k')
  | solves (idle : s = .idle m₁) : Does m₁ s steps call k
      (.solved (m₁.solveAlone.2.mapError .ofSolver), .idle m₁.solveAlone.1, k)

/-- A call that returns does nothing else. -/
theorem Holds.does (h : s.Holds m₁) {steps : Nat} {call : Call α κ}
    (returns : s.Returns steps call k) : s.Does m₁ steps call k (s.perform steps call k) := by
  cases h with
  | idle =>
    cases call with
    | start hooks => exact .moves rfl (settled_start m₁ returns)
    | resume order => exact .refused .notControlled rfl rfl
    | solve => exact .solves rfl
    | state => exact .shows rfl rfl
    | model => exact .shows rfl rfl
  | suspended reports suspended own =>
    cases call with
    | start hooks => exact .refused .notIdle rfl rfl
    | resume order => exact .moves rfl (settled_resume reports suspended own returns)
    | solve => exact .refused .modelOwned rfl rfl
    | state => exact .shows (by simp [snapshot, Channel.state, own, Answer.error?, errorOf?,
        Except.mapError]) rfl
    | model => exact .refused .modelOwned rfl rfl

omit [Scalar α] in
/-- A failure of the solve comes of a call that has moved it. -/
theorem moved?_ofSolver (e : SolverError α) :
    Answer.moved? (.moved (.error (.ofSolver e))) = some (.error (.ofSolver e)) := by
  cases e <;> rfl

omit [Scalar α] in
/-- A failure of the solve is no refusal of a call. -/
theorem ofSolver_ne_sequencing (e : SolverError α) (misstep : Misstep) :
    EpisodeError.ofSolver e ≠ .sequencing misstep := by
  cases e <;> simp [EpisodeError.ofSolver]

/-- A call that is out of sequence changes nothing. -/
theorem Does.unchanged {steps : Nat} {call : Call α κ} {a : Answer α} {s' : Session α κ} {k' : κ}
    (does : s.Does m₁ steps call k (a, s', k')) (out : a.OutOfSequence) : s' = s ∧ k' = k := by
  obtain ⟨misstep, out⟩ := out
  cases does with
  | refused => exact ⟨rfl, rfl⟩
  | shows => exact ⟨rfl, rfl⟩
  | moves awaited settled =>
    cases settled with
    | suspended => cases out
    | ended => cases out
    | failed => exact absurd (Option.some.inj out) (ofSolver_ne_sequencing _ misstep)
  | solves idle =>
    rcases result : m₁.solveAlone.2 with ⟨e | c⟩ | status
    · rw [result] at out
      exact absurd (Option.some.inj out) (ofSolver_ne_sequencing e misstep)
    · rw [result] at out
      cases out
    · rw [result] at out
      cases out

/-- A call that finds the solve over finds the worker finished, and takes the model back. -/
theorem Does.takenBack {steps : Nat} {call : Call α κ} {a : Answer α} {s' : Session α κ} {k' : κ}
    (does : s.Does m₁ steps call k (a, s', k')) {result : Except (EpisodeError α) Bool}
    (moved : a.moved? = some result) (ended : result ≠ .ok false) :
    (∀ e, result = .error e → ∃ cause, e = .ofSolver cause) ∧
    (∃ m, s' = .idle m ∧ m.hooks = none) ∧
    ∃ c, s.awaited? call = some c ∧ (c.runUntil .turn steps k).1.worker.phase = .done := by
  cases does with
  | refused misstep out unmoved => cases unmoved.symm.trans moved
  | shows fine unmoved => cases unmoved.symm.trans moved
  | moves awaited settled =>
    cases settled with
    | suspended k suspended holds' =>
      cases moved
      exact absurd rfl ended
    | @ended m status k finished left =>
      cases moved
      refine ⟨?_, ⟨m, rfl, left.bare⟩, _, awaited, finished⟩
      rintro e ⟨⟩
    | @failed m cause k finished left =>
      rw [moved?_ofSolver] at moved
      cases moved
      refine ⟨?_, ⟨m, rfl, left.bare⟩, _, awaited, finished⟩
      rintro e ⟨⟩
      exact ⟨_, rfl⟩
  | solves idle => cases moved

/-- The model of a session is there in the end. If a solve is suspended, it is interrupted. -/
theorem Holds.close (h : s.Holds m₁) (k : κ) : ∃ m k', s.close k = (some m, k') ∧
    (s = .idle m ∧ m = m₁ ∨ s.isSuspended = true ∧ ∃ status, m₁.Left (.ok status) m) := by
  cases h with
  | idle => exact ⟨m₁, k, rfl, .inl ⟨rfl, rfl⟩⟩
  | @suspended c token reports suspended own =>
    have unfinished := reports.coherent.unfinished_of_waiting suspended.1
    obtain ⟨c', k', shut, reports', finished, terminate⟩ :=
      (reports.of_unfinished reports.coherent.giveUp rfl unfinished).halt suspended k
    obtain ⟨result, m, failure, model, left⟩ := reports'.left finished
    obtain ⟨c'', k'', shut', cell_eq, -⟩ :=
      Channel.shutdown_of_finished reports'.coherent finished k'
    refine ⟨m, k'', ?_, .inr ⟨rfl, ?_⟩⟩
    · simp [Session.close, Channel.join, own, shut, shut', Channel.takeModel, cell_eq, finished,
        model]
    · -- who was told to stop has not failed
      have undelivered := (reports'.coherent.stopping terminate).2.2
      rw [failure] at undelivered
      rcases result with cause | status
      · cases undelivered
      · exact ⟨status, left⟩

/-! ### Runs of calls -/

omit [Scalar α] in
/-- What came of the last call counts, if it has moved the solve. -/
theorem lastMoved_append (answers : List (Answer α)) (a : Answer α) :
    lastMoved (answers ++ [a]) = a.moved?.or (lastMoved answers) := by
  unfold lastMoved
  rw [List.filterMap_append, List.getLast?_append]
  rcases eq : a.moved? with _ | result <;> simp [eq]

/-- After any run of calls the session holds a model with the problem and the parameters that it
began with, and it is suspended exactly if the last call that has moved the solve said so. -/
theorem Comes.holds {answers : List (Answer α)} (run : Comes m₀ k₀ answers s k) :
    ∃ m₁, s.Holds m₁ ∧ m₀.SameInput m₁ ∧
      (s.isSuspended = true ↔ lastMoved answers = some (.ok false)) := by
  induction run with
  | begin => exact ⟨m₀, .idle, .refl m₀, by simp [isSuspended, lastMoved]⟩
  | @call answers s k steps call _ returns ih =>
    obtain ⟨m₁, holds, same, suspended_iff⟩ := ih
    have does := holds.does returns
    generalize s.perform steps call k = made at does ⊢
    rw [lastMoved_append]
    cases does with
    | refused misstep out unmoved => exact ⟨m₁, holds, same, by simpa [unmoved] using suspended_iff⟩
    | shows fine unmoved => exact ⟨m₁, holds, same, by simpa [unmoved] using suspended_iff⟩
    | moves awaited settled =>
      cases settled with
      | suspended k suspended holds' =>
        exact ⟨m₁, holds', same, by simp [suspended, Answer.moved?]⟩
      | ended k finished left =>
        exact ⟨_, .idle, same.trans left.sameInput, by simp [isSuspended, Answer.moved?]⟩
      | failed k finished left =>
        exact ⟨_, .idle, same.trans left.sameInput, by simp [isSuspended, moved?_ofSolver]⟩
    | solves idle =>
      subst idle
      refine ⟨_, .idle, same.trans m₁.sameInput_solveAlone, ?_⟩
      simpa [isSuspended, Answer.moved?] using suspended_iff

/-- A session never loses its model. After every run of calls that return, whatever the decisions
and the actions were:

* The model is there. A solve is suspended exactly if the last call that has moved it said that it
  is not over, and then the worker waits at a decision point.
* A call that is out of sequence changes nothing. When a call finds the solve over, with a status or
  with a failure of the solver, the worker has finished and the model is idle without a callback.
* The end of the session gives the model back, with the problem and the parameters that it had. -/
theorem model_kept {answers : List (Answer α)} (run : Comes m₀ k₀ answers s k) :
    s ≠ .vacant ∧
    (s.isSuspended = true ↔ lastMoved answers = some (.ok false)) ∧
    (s.isSuspended = true → ∃ plan d, s.WaitsAt plan d) ∧
    (∀ steps call, s.Returns steps call k → ∀ a s' k', s.perform steps call k = (a, s', k') →
      (a.OutOfSequence → s' = s ∧ k' = k) ∧
      ∀ result, a.moved? = some result → result ≠ .ok false →
        (∀ e, result = .error e → ∃ cause, e = .ofSolver cause) ∧
        (∃ m, s' = .idle m ∧ m.hooks = none) ∧
        ∃ c, s.awaited? call = some c ∧ (c.runUntil .turn steps k).1.worker.phase = .done) ∧
    ∃ m k', s.close k = (some m, k') ∧ m₀.SameInput m := by
  obtain ⟨m₁, holds, same, suspended_iff⟩ := run.holds
  refine ⟨?_, suspended_iff, ?_, ?_, ?_⟩
  · rintro rfl
    cases holds
  · intro suspended
    cases holds with
    | idle => cases suspended
    | @suspended c token reports paused own =>
      cases worker_eq : c.worker with
      | waiting m plan d => exact ⟨plan, d, c, token, m, rfl, worker_eq⟩
      | _ => simp [Channel.IsSuspended, worker_eq, Worker.phase] at paused
  · intro steps call returns a s' k' made
    have does := holds.does returns
    rw [made] at does
    exact ⟨does.unchanged, fun result moved ended => does.takenBack moved ended⟩
  · obtain ⟨m, k', closes, ⟨-, rfl⟩ | ⟨-, status, left⟩⟩ := holds.close k
    · exact ⟨m, k', closes, same⟩
    · exact ⟨m, k', closes, same.trans left.sameInput⟩

end Session

/-- The order to crash at the decision point. -/
def Order.crash (text : String) : Order α κ :=
  .act fun _ d k => (.error (.crash (.message text)), d, k)

namespace Session

/-- What comes of starting a session on the pair. -/
def pairStarted : Answer Rat × Session Rat Unit × Unit :=
  (idle (.ofProblem .pair)).perform 100 (.start { branching := true }) ()

/-- Starting a session on the pair returns. -/
theorem pair_comes :
    Comes (.ofProblem .pair) () ([] ++ [pairStarted.1]) pairStarted.2.1 pairStarted.2.2 := by
  have returns : (idle (.ofProblem .pair) : Session Rat Unit).Returns 100
      (.start { branching := true }) () := by
    rintro c ⟨⟩
    decide +kernel
  have comes := Comes.begin.call 100 _ returns
  rw [show (idle (.ofProblem .pair)).perform 100 (.start { branching := true }) () = pairStarted
    from rfl] at comes
  exact comes

/-- What comes of a crash of the action at the first decision of the pair. -/
def pairCrashed : Answer Rat × Session Rat Unit × Unit :=
  pairStarted.2.1.perform 100 (.resume (.crash "boom")) pairStarted.2.2

/-- A crash of the action at the first decision of the pair returns. -/
theorem pair_crashes :
    pairStarted.2.1.Returns 100 (.resume (.crash "boom")) pairStarted.2.2 := by
  unfold Returns
  decide +kernel

/-- At its first decision the session of the pair is suspended, and gives its model back when it is
ended. After a crash of the action there it is idle, without a callback. -/
theorem pair_kept : pairStarted.2.1.isSuspended = true ∧
    lastMoved ([] ++ [pairStarted.1]) = some (.ok false) ∧
    (∃ m k', pairStarted.2.1.close pairStarted.2.2 = (some m, k') ∧
      (Model.ofProblem .pair).SameInput m) ∧
    ∃ m, pairCrashed.2.1 = .idle m ∧ m.hooks = none := by
  obtain ⟨-, suspended_iff, -, calls, closes⟩ := model_kept pair_comes
  have suspended : pairStarted.2.1.isSuspended = true := by decide +kernel
  have fails : pairCrashed.1.moved?.any (·.toOption.isNone) = true := by decide +kernel
  unfold pairCrashed at fails ⊢
  rcases made : pairStarted.2.1.perform 100 (.resume (.crash "boom")) pairStarted.2.2
    with ⟨a, s, k⟩
  rw [made] at fails
  obtain ⟨-, moved⟩ := calls 100 _ pair_crashes a s k made
  obtain ⟨result, moved_eq, failed⟩ := (Option.any_eq_true ..).mp fails
  obtain ⟨-, idle, -⟩ := moved result moved_eq (by rintro rfl; cases failed)
  exact ⟨suspended, suspended_iff.mp suspended, closes, idle⟩

end Session
end Milp
