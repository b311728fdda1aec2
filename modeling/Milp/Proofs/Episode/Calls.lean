import Milp.Episode.Branching
import Milp.Episode.PrimalSearch
import Milp.Episode.SumBranching
import Milp.Proofs.Episode.Refusal
import Milp.Proofs.Episode.Upholding

/-!
# What a dynamics does to its session

A dynamics starts its session, resumes it with orders of its own and solves it, and does nothing else
to it (`Dynamics.OnlyCalls`). So whatever these calls keep holds throughout all episodes
(`Dynamics.Yields.lasts`): a law that the solver and the orders keep to (`Session.lasting_upholds`), and
what the flags of a channel say of its worker (`Session.lasting_flagged`).

The flags are what an outcome is known by: unless the episode is done, the worker waits for a decision,
or a call was given up before its turn came (`Session.GoesOn.running_or_waits`).
-/

namespace Milp

/-! ### What the flags of a cell say -/

namespace Channel

variable {α κ : Type} {c c' : Channel α κ}

/-- Whether the flags of a cell tell of a worker that is busy and of one that has finished. -/
structure Flagged (c : Channel α κ) : Prop where
  active_of_busy : c.worker.phase = .busy → c.cell.workerActive = true
  finished_of_done : c.worker.phase = .done → c.cell.finished = true

/-- A worker that has just been started is busy. -/
theorem flagged_start (id : Nat) (m : Model α) (hooks : Hooks) :
    (start id m hooks : Channel α κ).Flagged := ⟨fun _ => rfl, nofun⟩

/-- Taking the turn does not touch the flags. -/
theorem Flagged.takeTurn (h : c.Flagged) : c.takeTurn.2.Flagged := by
  unfold Channel.takeTurn
  split <;> exact ⟨h.active_of_busy, h.finished_of_done⟩

/-- To resume the worker gives it the turn. -/
theorem Flagged.resume (h : c.Flagged) (order : Order α κ) (token : Token) :
    (c.resume order token).2.Flagged := by
  unfold Channel.resume
  simp only
  split_ifs
  · exact h
  · exact ⟨h.active_of_busy, h.finished_of_done⟩
  · exact ⟨fun _ => rfl, h.finished_of_done⟩

variable [Scalar α]

/-- Every step of the worker sees to its flags. -/
theorem Flagged.of_moves (h : c.Flagged) (moves : c.Moves c') : c'.Flagged := by
  cases moves with
  | goesOn w busy busy' =>
    refine ⟨fun _ => h.active_of_busy busy, fun done => ?_⟩
    cases busy'.symm.trans done
  | suspends => exact ⟨nofun, nofun⟩
  | wakes m plan d worker_eq =>
    unfold wake interrupt
    split_ifs with inactive stopping
    · exact ⟨h.active_of_busy, h.finished_of_done⟩
    · exact ⟨fun _ => by simpa using inactive, nofun⟩
    · exact ⟨fun _ => by simpa using inactive, nofun⟩
  | concludes => exact ⟨nofun, fun _ => rfl⟩
  | leaves worker_eq => exact ⟨nofun, fun _ => h.finished_of_done (by rw [worker_eq]; rfl)⟩

/-- So does a worker that runs while the controller waits. -/
theorem Flagged.wait (h : c.Flagged) (k : κ) (steps : Nat) : (c.wait k steps).2.1.Flagged := by
  unfold Channel.wait
  split_ifs
  · exact h
  · exact takeTurn (runUntil_keeps Flagged (fun _ _ kept moves => kept.of_moves moves) .turn steps k h)

end Channel

namespace Session

variable {α κ : Type} {s : Session α κ}

/-- Whether the flags of the channel tell of its worker, if a session owns one. -/
def Flagged : Session α κ → Prop
  | .controlled c _ => c.Flagged
  | _ => True

/-- Whether the solve of a session is not over. -/
def GoesOn (s : Session α κ) : Prop :=
  ∃ c token, s = .controlled c token ∧ c.cell.finished = false

/-- Whether it is still the worker's turn, since a call was given up before its end. -/
def IsRunning (s : Session α κ) : Prop :=
  ∃ c token, s = .controlled c token ∧ c.cell.workerActive = true

instance (s : Session α κ) : Decidable s.IsRunning :=
  match s with
  | .controlled c _ =>
    decidable_of_iff (c.cell.workerActive = true)
      ⟨fun active => ⟨c, _, rfl, active⟩, fun ⟨_, _, eq, active⟩ => by cases eq; exact active⟩
  | .idle _ => isFalse (by rintro ⟨_, _, ⟨⟩, -⟩)
  | .vacant => isFalse (by rintro ⟨_, _, ⟨⟩, -⟩)

/-- In a solve that is not over, the worker waits for a decision if it is not its turn. -/
theorem GoesOn.running_or_waits (h : s.GoesOn) (flagged : s.Flagged) :
    s.IsRunning ∨ ∃ plan d, s.WaitsAt plan d := by
  obtain ⟨c, token, rfl, unfinished⟩ := h
  have channel : c.Flagged := flagged
  cases worker_eq : c.worker with
  | waiting m plan d => exact .inr ⟨plan, d, c, token, m, rfl, worker_eq⟩
  | leaving =>
    cases unfinished.symm.trans (channel.finished_of_done (by rw [worker_eq]; rfl))
  | ended =>
    cases unfinished.symm.trans (channel.finished_of_done (by rw [worker_eq]; rfl))
  | _ => exact .inl ⟨c, token, rfl, channel.active_of_busy (by rw [worker_eq]; rfl)⟩

variable [Scalar α]

/-- Settling where a session is keeps the channel, or there is none any more. -/
theorem flagged_settle {c : Channel α κ} (h : c.Flagged) (waited : Except (ControlError α) Token)
    (k : κ) : (settle c waited k).2.1.Flagged := by
  have recovered (c : Channel α κ) (k : κ) : (recover c k).1.Flagged := by
    unfold recover
    simp only
    split <;> trivial
  unfold settle
  simp only
  split
  · exact h
  · split <;> exact recovered _ _
  · exact recovered _ _

/-- Where it finds a solve not over, the session still owns it. -/
theorem settle_goesOn {c : Channel α κ} {waited : Except (ControlError α) Token} {k k' : κ}
    {s' : Session α κ} (h : settle c waited k = (.ok false, s', k')) : s'.GoesOn := by
  unfold settle at h
  cases waited with
  | error e => cases h
  | ok token =>
    simp only [bind, Except.bind, pure, Except.pure, Channel.isDone] at h
    cases own : c.isForeign token with
    | true =>
      rw [own] at h
      cases h
    | false =>
      rw [own] at h
      cases finished : c.cell.finished with
      | false =>
        simp only [finished, Bool.false_eq_true, if_false] at h
        cases h
        exact ⟨c, token, rfl, finished⟩
      | true =>
        simp only [finished, Bool.false_eq_true, if_false] at h
        split at h <;> cases h

/-- A start that is not the end of the solve leaves it with the session. -/
theorem start_goesOn {hooks : Hooks} {k k' : κ} {steps : Nat} {s' : Session α κ}
    (h : s.start hooks k steps = (.ok false, s', k')) : s'.GoesOn := by
  cases s with
  | idle m => exact settle_goesOn h
  | controlled c token => cases h
  | vacant => cases h

/-- So does a resumption. -/
theorem resume_goesOn {order : Order α κ} {k k' : κ} {steps : Nat} {s' : Session α κ}
    (h : s.resume order k steps = (.ok false, s', k')) : s'.GoesOn := by
  cases s with
  | idle m => cases h
  | controlled c token =>
    unfold Session.resume at h
    simp only at h
    split at h
    · cases h
    · exact settle_goesOn h
  | vacant => cases h

/-- A law that a session keeps to holds where the worker waits. -/
theorem Upholds.of_waitsAt {law : Law α} (h : s.Upholds law) {plan : Plan α} {d : Decision α}
    (waits : s.WaitsAt plan d) : law.turn plan (.ask d) := by
  obtain ⟨c, token, m, rfl, worker_eq⟩ := waits
  have worker := Channel.Upholds.worker h
  rw [worker_eq] at worker
  exact worker

/-! ### What outlives calls -/

/-- Whether a property of sessions outlives calls on them, with orders of some kind. -/
structure Lasting (orders : Order α Unit → Prop) (holds : EpisodeSession α → Prop) : Prop where
  start : ∀ s hooks, holds s → holds (s.start hooks ()).2.1
  resume : ∀ s order, holds s → orders order → holds (s.resume order ()).2.1
  solve : ∀ s, holds s → holds s.solve.2

/-- What the flags say outlives all calls. -/
theorem lasting_flagged (orders : Order α Unit → Prop) : Lasting orders (Flagged (α := α)) where
  start s hooks h := by
    cases s with
    | idle m => exact flagged_settle ((Channel.flagged_start channelId m hooks).wait () patience) _ _
    | controlled c token => exact h
    | vacant => exact h
  resume s order h _ := by
    cases s with
    | idle m => exact h
    | controlled c token =>
      have resumed := Channel.Flagged.resume h order token
      unfold Session.resume
      simp only
      split
      next eq =>
        unfold recover
        simp only
        split <;> trivial
      next eq =>
        rw [eq] at resumed
        exact flagged_settle (resumed.wait () patience) _ _
    | vacant => exact h
  solve s h := by
    cases s with
    | idle m => trivial
    | controlled c token => exact h
    | vacant => exact h

/-- A law that the solver keeps to outlives calls with orders that uphold it. -/
theorem lasting_upholds {law : Law α} (kept : law.Kept) {orders : Order α Unit → Prop}
    (upheld : ∀ order, orders order → order.Upholds law) : Lasting orders (Upholds law) where
  start _ hooks h := h.start kept hooks () patience
  resume _ order h given := h.resume kept (upheld order given) () patience
  solve _ h := h.solve kept

end Session

/-! ### Dynamics -/

namespace Dynamics

variable {α δ action β : Type} [Scalar α] [Dynamics α δ action β] {m : Model α}

/-- What the episodes of a dynamics on a model yield: the results of its resets and of its steps. -/
inductive Yields (m : Model α) : DynamicsResult δ α β → Prop
  | reset (b : δ) : Yields m (Dynamics.reset b (Session.idle m))
  | step {b : δ} {s : EpisodeSession α} (a : action) (comes : Comes m b s) :
      Yields m (Dynamics.step b s a)

variable (δ) in
/-- Whether a dynamics does nothing to a session but to call it, with orders of some kind. -/
structure OnlyCalls (orders : Order α Unit → Prop) : Prop where
  reset : ∀ {holds}, Session.Lasting orders holds → ∀ (b : δ) (s : EpisodeSession α), holds s →
    holds (Dynamics.reset b s).2.2
  step : ∀ {holds}, Session.Lasting orders holds → ∀ (b : δ) (s : EpisodeSession α) (a : action),
    holds s → holds (Dynamics.step b s a).2.2

variable {orders : Order α Unit → Prop} {holds : EpisodeSession α → Prop}

/-- What outlives the calls holds throughout all episodes. -/
theorem Comes.lasts {b : δ} {s : EpisodeSession α} (comes : Comes m b s)
    (only : OnlyCalls δ orders) (lasting : Session.Lasting orders holds)
    (h : holds (.idle m)) : holds s := by
  induction comes with
  | reset b => exact only.reset lasting b _ h
  | step a _ ih => exact only.step lasting _ _ a ih

/-- It holds of all sessions that they yield. -/
theorem Yields.lasts {r : DynamicsResult δ α β} (yields : Yields m r) (only : OnlyCalls δ orders)
    (lasting : Session.Lasting orders holds) (h : holds (.idle m)) : holds r.2.2 := by
  cases yields with
  | reset b => exact only.reset lasting b _ h
  | step a comes => exact only.step lasting _ _ a (comes.lasts only lasting h)

omit [Scalar α] in
/-- So does a relation of dynamics and session that resets lead to and steps keep. -/
theorem Yields.keeps {holds : δ → EpisodeSession α → Prop} {r : DynamicsResult δ α β}
    (yields : Yields m r) (reset : ∀ b : δ, (Dynamics.reset b (Session.idle m)).Keeps holds)
    (step : ∀ (b : δ) (s : EpisodeSession α) (a : action), holds b s →
      (Dynamics.step b s a).Keeps holds) : holds r.2.1 r.2.2 := by
  cases yields with
  | reset b => exact (reset b).2
  | step a comes => exact (step _ _ a (comes.keeps reset step)).2

end Dynamics

namespace BranchingDynamics

variable {α : Type} [Scalar α]

/-- Once the solve has moved, the session stays as it is. -/
theorem outcome_session (b : BranchingDynamics) (s : EpisodeSession α) (done : Bool) :
    (b.outcome s done).2.2 = s := by
  unfold outcome
  split_ifs
  · rfl
  · split
    · rfl
    · split <;> rfl

/-- Decisions are left to the solver, or a variable is branched on. -/
theorem onlyCalls : Dynamics.OnlyCalls (α := α) BranchingDynamics
    fun order => order = .leave ∨ ∃ v, order = .resolve (.branched v) where
  reset {holds} lasting b s h := by
    have started := lasting.start s { branching := true } h
    show holds (b.reset s).2.2
    unfold reset
    simp only
    split
    next eq =>
      rw [eq] at started
      exact started
    next eq =>
      rw [eq] at started
      rw [outcome_session]
      exact started
  step {holds} lasting b s a h := by
    show holds (b.step s a).2.2
    unfold step
    split_ifs
    · exact h
    · split
      · exact h
      next order checked =>
        have given : order = .leave ∨ ∃ v, order = .resolve (.branched v) := by
          cases a with
          | bySolver =>
            cases checked
            exact .inl rfl
          | onVariable v =>
            rw [check] at checked
            split_ifs at checked
            cases checked
            exact .inr ⟨v, rfl⟩
        have resumed := lasting.resume s order h given
        split
        next eq =>
          rw [eq] at resumed
          exact resumed
        next eq =>
          rw [eq] at resumed
          rw [outcome_session]
          exact resumed

end BranchingDynamics

namespace SumBranchingDynamics

variable {α : Type} [Scalar α]

/-- Once the solve has moved, the session stays as it is. -/
theorem outcome_session (b : SumBranchingDynamics α) (s : EpisodeSession α) (done : Bool) :
    (b.outcome s done).2.2 = s := by
  unfold outcome
  split_ifs
  · rfl
  · split <;> rfl

/-- Sums of variables are branched on. -/
theorem onlyCalls : Dynamics.OnlyCalls (α := α) (SumBranchingDynamics α)
    fun order => ∃ vars, order = .resolve (.branchedSum vars) where
  reset {holds} lasting b s h := by
    show holds (b.reset s).2.2
    unfold reset
    simp only
    split
    · exact h
    · split
      · exact h
      · have started := lasting.start s { branching := true } h
        split
        next eq =>
          rw [eq] at started
          exact started
        next eq =>
          rw [eq] at started
          rw [outcome_session]
          exact started
  step {holds} lasting b s vars h := by
    show holds (b.step s vars).2.2
    unfold step
    split_ifs
    · exact h
    · split
      · exact h
      · have resumed := lasting.resume s (.resolve (.branchedSum vars)) h ⟨vars, rfl⟩
        split
        next eq =>
          rw [eq] at resumed
          exact resumed
        next eq =>
          rw [eq] at resumed
          rw [outcome_session]
          exact resumed

end SumBranchingDynamics

namespace PrimalSearchDynamics

variable {α : Type} [Scalar α]

/-- Once the solve has moved, the session stays as it is. -/
theorem outcome_session (b : PrimalSearchDynamics) (s : EpisodeSession α) (done : Bool) :
    (b.outcome s done).2.2 = s := by
  unfold outcome
  split_ifs
  · rfl
  · split <;> rfl

/-- After a trial, too. -/
theorem afterTrial_session (b : PrimalSearchDynamics) (node : Nat) (s : EpisodeSession α)
    (done : Bool) : (b.afterTrial node s done).2.2 = s := by
  unfold afterTrial
  split_ifs
  · exact outcome_session b.spend s true
  · split
    · rfl
    · have same := outcome_session b.spend s false
      split
      next eq =>
        rw [eq] at same
        exact same
      next eq =>
        rw [eq] at same
        exact same

/-- Assignments are tried. -/
theorem onlyCalls : Dynamics.OnlyCalls (α := α) PrimalSearchDynamics
    fun order => ∃ b a, order = PrimalSearchDynamics.order b a where
  reset {holds} lasting b s h := by
    show holds (b.reset s).2.2
    unfold reset
    simp only
    split_ifs
    · exact lasting.solve s h
    · have started := lasting.start s { heuristic := some b.schedule } h
      split
      next eq =>
        rw [eq] at started
        exact started
      next eq =>
        rw [eq] at started
        rw [outcome_session]
        exact started
  step {holds} lasting b s a h := by
    show holds (b.step s a).2.2
    unfold step
    split_ifs
    · exact h
    · split
      · exact h
      · split
        · exact h
        · have resumed := lasting.resume s (b.order a) h ⟨b, a, rfl⟩
          split
          next eq =>
            rw [eq] at resumed
            exact resumed
          next eq =>
            rw [eq] at resumed
            rw [afterTrial_session]
            exact resumed

end PrimalSearchDynamics

end Milp
