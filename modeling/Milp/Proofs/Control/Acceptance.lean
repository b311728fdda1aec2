import Milp.Proofs.Control.Calls
import Milp.Proofs.Search.Opening

/-!
# Orders that are not refused

A controller does not see the search, only the snapshot that the worker has published. If every
order that it leaves is acceptable at the decision point where the worker waits, no call ever
delivers a refusal (`Channel.Unrefused`).

An order can also be left where no worker waits for it, after a wait that has run out of steps. Then
it is taken back before it is looked at: a worker that suspends gives its turn away, and gets it
again only with the next order. So the invariant speaks of a pending order only where the worker
waits and has the turn.
-/

namespace Milp

open Scalar

variable {α κ : Type} [Scalar α] {hooks : Hooks} {tol : α}

/-! ### Acceptable orders -/

/-- Whether an order can be carried out at a decision point: it keeps to the point, its choice is
admissible there, and if it fails, then not because it was refused something. -/
def Order.Acceptable (order : Order α κ) (plan : Plan α) (d : Decision α) : Prop :=
  ∀ action, order = .act action → ∀ k, d.SamePoint (action plan d k).2.1 ∧
    (∀ choice, (action plan d k).1 = .ok (.choose choice) →
      choice.Admissible plan (action plan d k).2.1) ∧
    ∀ cause, (action plan d k).1 = .error cause → ¬cause.IsRefusal

/-- To leave the decision to the solver is always acceptable. -/
theorem Order.acceptable_leave (plan : Plan α) (d : Decision α) :
    (Order.leave : Order α κ).Acceptable plan d := nofun

/-- To make an admissible choice is acceptable. -/
theorem Order.acceptable_resolve {plan : Plan α} {d : Decision α} {choice : Choice}
    (admissible : choice.Admissible plan d) :
    (Order.resolve choice : Order α κ).Acceptable plan d := by
  intro action eq k
  cases eq
  refine ⟨.refl d, fun choice' chosen => ?_, nofun⟩
  cases chosen
  exact admissible

/-- Whether an error of a channel says that what was decided cannot be done. -/
def ControlError.IsRefusal {α : Type} : ControlError α → Prop
  | .solver cause => cause.IsRefusal
  | _ => False

/-! ### The invariant -/

variable [Faithful α]

/-- Whether nothing that a worker is at will be refused. -/
def Worker.Unrefused (hooks : Hooks) (tol : α) : Worker α κ → Prop
  | .ready m hooks' => m.Integral tol ∧ hooks' = hooks
  | .solving _ plan turn => plan.Serves (some hooks) tol ∧ turn.Branchable plan
  | .waiting _ plan d => plan.Serves (some hooks) tol ∧ d.Branchable plan
  | .acting _ plan d order =>
    plan.Serves (some hooks) tol ∧ d.Branchable plan ∧ order.Acceptable plan d
  | .closing _ result => result.Unrefused
  | .leaving => True
  | .ended _ => True

namespace Channel

/-- Whether no call of a channel will deliver a refusal, as long as the orders are acceptable. Where
the worker waits, its snapshot shows the decision. -/
structure Unrefused (hooks : Hooks) (tol : α) (c : Channel α κ) : Prop where
  worker : c.worker.Unrefused hooks tol
  failure : ∀ e, c.cell.failure = some e → ¬e.IsRefusal
  shown : ∀ m plan d, c.worker = .waiting m plan d → c.cell.snapshot = some (d.snapshot plan)
  pending : ∀ m plan d, c.worker = .waiting m plan d → c.cell.workerActive = true →
    ∀ order, c.cell.pending = some order → order.Acceptable plan d

/-- A channel that has just been started. -/
theorem unrefused_start (id : Nat) {m : Model α} (h : m.Integral tol) (hooks : Hooks) :
    (start id m hooks : Channel α κ).Unrefused hooks tol where
  worker := ⟨h, rfl⟩
  failure := nofun
  shown _ _ _ eq := absurd (congrArg Worker.phase eq) nofun
  pending _ _ _ eq := absurd (congrArg Worker.phase eq) nofun

namespace Unrefused

variable {c c' : Channel α κ} {k k' : κ}

/-- The worker goes on without looking at the cell. -/
theorem goesOn (h : c.Unrefused hooks tol) {w : Worker α κ} (hw : w.Unrefused hooks tol)
    (elsewhere : w.phase ≠ .waiting) : Unrefused hooks tol { c with worker := w } where
  worker := hw
  failure := h.failure
  shown _ _ _ eq := absurd (congrArg Worker.phase eq) elsewhere
  pending _ _ _ eq := absurd (congrArg Worker.phase eq) elsewhere

/-- The worker installs its callback and begins the solve. -/
theorem begin {m : Model α} (h : c.Unrefused hooks tol) (hm : m.Integral tol) :
    (c.begin m hooks).Unrefused hooks tol := by
  unfold Channel.begin
  split
  next e refused =>
    refine h.goesOn ?_ nofun
    unfold Model.install at refused
    split_ifs at refused
    cases refused
    intro cause eq
    cases eq
    exact fun refusal => refusal
  next m' installed =>
    have same : m'.Integral tol ∧ m'.hooks = some hooks := by
      unfold Model.install at installed
      split_ifs at installed
      cases installed
      exact ⟨⟨hm.box, hm.moderate, hm.tolerance⟩, rfl⟩
    split
    next result ended => exact h.goesOn (Model.opening_unrefused ended) nofun
    next plan turn entered =>
      obtain ⟨serves, branchable⟩ := same.1.opened entered
      rw [same.2] at serves
      exact h.goesOn ⟨serves, branchable⟩ nofun

/-- The worker goes on with its search, or comes to a decision point. -/
theorem search {m : Model α} {plan : Plan α} {turn : Turn α} (h : c.Unrefused hooks tol)
    (serves : plan.Serves (some hooks) tol) (branchable : turn.Branchable plan) :
    (c.search m plan turn).Unrefused hooks tol := by
  cases turn with
  | proceed s =>
    exact h.goesOn ⟨serves, Plan.advance_branchable serves.toIntegral branchable⟩ nofun
  | ask d =>
    change (c.enter m plan d).Unrefused hooks tol
    unfold enter
    split
    · exact h.goesOn ⟨serves, Plan.answer_branchable branchable ⟨rfl, none, rfl⟩⟩ nofun
    · exact {
        worker := ⟨serves, branchable⟩
        failure := h.failure
        shown := by
          intro m' plan' d' eq
          cases eq
          rfl
        pending _ _ _ _ active := absurd active nofun }
  | ended status dual s => exact h.goesOn (Model.close_unrefused (m := m) branchable) nofun
  | failed cause s => exact h.goesOn (Model.close_unrefused (m := m) branchable) nofun

/-- The worker is woken up, and takes the order that is left for it. -/
theorem wake {m : Model α} {plan : Plan α} {d : Decision α} (h : c.Unrefused hooks tol)
    (worker_eq : c.worker = .waiting m plan d) : (c.wake m plan d).Unrefused hooks tol := by
  obtain ⟨serves, branchable⟩ : plan.Serves (some hooks) tol ∧ d.Branchable plan := by
    have worker := h.worker
    rw [worker_eq] at worker
    exact worker
  unfold Channel.wake
  split
  · exact ⟨h.worker, h.failure, h.shown, h.pending⟩
  next active =>
    split
    · exact h.goesOn ⟨serves, Plan.answer_branchable branchable ⟨rfl, none, rfl⟩⟩ nofun
    · have acceptable : (c.cell.pending.getD .leave).Acceptable plan d := by
        cases left : c.cell.pending with
        | none => exact Order.acceptable_leave plan d
        | some order => exact h.pending m plan d worker_eq (by simpa using active) order left
      exact {
        worker := ⟨serves, branchable, acceptable⟩
        failure := h.failure
        shown _ _ _ eq := absurd (congrArg Worker.phase eq) nofun
        pending _ _ _ eq := absurd (congrArg Worker.phase eq) nofun }

/-- The worker carries out an acceptable order. -/
theorem carryOut {m : Model α} {plan : Plan α} {d : Decision α} {order : Order α κ}
    (h : c.Unrefused hooks tol) (serves : plan.Serves (some hooks) tol)
    (branchable : d.Branchable plan) (acceptable : order.Acceptable plan d) (k : κ) :
    (c.carryOut m plan d order k).1.Unrefused hooks tol := by
  cases order with
  | leave => exact h.goesOn ⟨serves, Plan.answer_branchable branchable ⟨rfl, none, rfl⟩⟩ nofun
  | act action =>
    obtain ⟨same, chosen, failed⟩ := acceptable action rfl k
    unfold Channel.carryOut
    simp only
    split
    next choice d' k' eq =>
      rw [eq] at same chosen
      exact h.goesOn ⟨serves, Plan.answer_branchable (branchable.of_samePoint same)
        (chosen choice rfl)⟩ nofun
    next d' k' eq =>
      rw [eq] at same
      exact h.goesOn ⟨serves, branchable.of_samePoint same⟩ nofun
    next cause d' k' eq =>
      rw [eq] at failed
      exact h.goesOn ⟨serves, failed cause rfl⟩ nofun

/-- The worker hands over the outcome of the solve. -/
theorem conclude {m : Model α} {result : Attempt (SolverError α) SolveStatus}
    (unrefused : result.Unrefused) : (c.conclude m result).Unrefused hooks tol where
  worker := trivial
  failure e reported := by
    cases result with
    | ok status => cases reported
    | error cause =>
      cases reported
      cases cause with
      | error e => exact unrefused (.error e) rfl
      | crash crash => exact fun refusal => refusal
  shown _ _ _ eq := absurd (congrArg Worker.phase eq) nofun
  pending _ _ _ eq := absurd (congrArg Worker.phase eq) nofun

/-- No step of the worker leads to a refusal. -/
theorem workerStep (h : c.Unrefused hooks tol) (step : c.workerStep k = some (c', k')) :
    c'.Unrefused hooks tol := by
  have worker := h.worker
  unfold Channel.workerStep at step
  split at step
  next m hooks' worker_eq =>
    rw [worker_eq] at worker
    obtain ⟨integral, rfl⟩ := worker
    cases step
    exact h.begin integral
  next m plan turn worker_eq =>
    rw [worker_eq] at worker
    cases step
    exact h.search worker.1 worker.2
  next m plan d worker_eq =>
    split_ifs at step
    cases step
    exact h.wake worker_eq
  next m plan d order worker_eq =>
    rw [worker_eq] at worker
    have carried := h.carryOut (m := m) worker.1 worker.2.1 worker.2.2 k
    rw [Option.some.inj step] at carried
    exact carried
  next m result worker_eq =>
    rw [worker_eq] at worker
    cases step
    exact .conclude worker
  next worker_eq =>
    cases step
    exact h.goesOn trivial nofun
  next => cases step

/-- A worker that runs comes to no refusal. -/
theorem runUntil (h : c.Unrefused hooks tol) (awaited : Awaited) (steps : Nat) (k : κ) :
    (c.runUntil awaited steps k).1.Unrefused hooks tol :=
  runUntil_preserves (Unrefused hooks tol) (fun _ _ _ _ kept step => kept.workerStep step)
    awaited steps k h

/-! ### The controller's calls -/

/-- What is not the worker's, nor read by it, does not matter. -/
theorem congr (h : c.Unrefused hooks tol) (worker_eq : c'.worker = c.worker)
    (failure : c'.cell.failure = none ∨ c'.cell.failure = c.cell.failure)
    (snapshot_eq : c'.cell.snapshot = c.cell.snapshot)
    (pending : c'.cell.workerActive = c.cell.workerActive ∧ c'.cell.pending = c.cell.pending) :
    c'.Unrefused hooks tol where
  worker := worker_eq ▸ h.worker
  failure e reported := by
    rcases failure with none | same
    · cases none.symm.trans reported
    · exact h.failure e (same.symm.trans reported)
  shown m plan d eq := snapshot_eq.trans (h.shown m plan d (worker_eq.symm.trans eq))
  pending m plan d eq active order left := h.pending m plan d (worker_eq.symm.trans eq)
    (pending.1.symm.trans active) order (pending.2.symm.trans left)

/-- A new order that is acceptable at the decision point where the worker waits. -/
theorem leave (h : c.Unrefused hooks tol) {order : Order α κ}
    (acceptable : ∀ m plan d, c.worker = .waiting m plan d → order.Acceptable plan d)
    (worker_eq : c'.worker = c.worker) (failure_eq : c'.cell.failure = c.cell.failure)
    (snapshot_eq : c'.cell.snapshot = c.cell.snapshot) (left : c'.cell.pending = some order) :
    c'.Unrefused hooks tol where
  worker := worker_eq ▸ h.worker
  failure e reported := h.failure e (failure_eq.symm.trans reported)
  shown m plan d eq := snapshot_eq.trans (h.shown m plan d (worker_eq.symm.trans eq))
  pending m plan d eq _ order' left' := by
    cases left.symm.trans left'
    exact acceptable m plan d (worker_eq.symm.trans eq)

/-- Taking the turn. -/
theorem takeTurn (h : c.Unrefused hooks tol) :
    c.takeTurn.2.Unrefused hooks tol ∧ (∀ e, c.takeTurn.1 = .error e → ¬e.IsRefusal) ∧
      ∀ token, c.takeTurn.1 = .ok token → c.takeTurn.2.isForeign token = false := by
  unfold Channel.takeTurn
  split
  next e reported =>
    refine ⟨h.congr rfl (.inl rfl) rfl ⟨rfl, rfl⟩, fun e' eq => ?_, nofun⟩
    cases eq
    exact h.failure e reported
  next =>
    refine ⟨h.congr rfl (.inr rfl) rfl ⟨rfl, rfl⟩, nofun, fun token eq => ?_⟩
    cases eq
    simp [isForeign]

/-- A wait delivers no refusal, and the token that it gives out is the channel's own. -/
theorem wait (h : c.Unrefused hooks tol) (k : κ) :
    (c.wait k).2.1.Unrefused hooks tol ∧ (∀ e, (c.wait k).1 = .error e → ¬e.IsRefusal) ∧
      ∀ token, (c.wait k).1 = .ok token → (c.wait k).2.1.isForeign token = false := by
  unfold Channel.wait
  split_ifs
  · refine ⟨h, fun e eq => ?_, nofun⟩
    cases eq
    exact fun refusal => refusal
  · exact (h.runUntil .turn patience k).takeTurn

/-- To resume with an acceptable order. -/
theorem resume (h : c.Unrefused hooks tol) {order : Order α κ} (token : Token)
    (acceptable : ∀ m plan d, c.worker = .waiting m plan d → order.Acceptable plan d) :
    (c.resume order token).2.Unrefused hooks tol ∧
      ∀ e, (c.resume order token).1 = .error e → ¬e.IsRefusal := by
  unfold Channel.resume
  simp only
  split_ifs
  · refine ⟨h, fun e eq => ?_⟩
    cases eq
    exact fun refusal => refusal
  · refine ⟨h.congr rfl (.inr rfl) rfl ⟨rfl, rfl⟩, fun e eq => ?_⟩
    cases eq
    exact fun refusal => refusal
  · exact ⟨h.leave acceptable rfl rfl rfl rfl, nofun⟩

/-- To tell the worker to stop. -/
theorem orderStop (h : c.Unrefused hooks tol) : c.orderStop.Unrefused hooks tol := by
  unfold Channel.orderStop
  split_ifs
  · exact h
  · exact h.leave (fun _ plan d _ => Order.acceptable_leave plan d) rfl rfl rfl rfl

/-- To join the thread of the worker. -/
theorem joinThread (h : c.Unrefused hooks tol) :
    c.joinThread.2.Unrefused hooks tol ∧ ∀ e, c.joinThread.1 = .error e → ¬e.IsRefusal := by
  rw [joinThread_snd]
  refine ⟨h.congr rfl (.inr rfl) rfl ⟨rfl, rfl⟩, fun e failed => ?_⟩
  unfold Channel.joinThread at failed
  split at failed
  · cases failed
  · split at failed
    · cases failed
      exact fun refusal => refusal
    · cases failed

/-- What is delivered in the end is no refusal. -/
theorem collect (h : c.Unrefused hooks tol) {e : ControlError α} (failed : c.collect.1 = .error e) :
    ¬e.IsRefusal := by
  unfold Channel.collect at failed
  split at failed
  next e' reported =>
    cases failed
    exact h.failure e' reported
  next => cases failed

/-- Stopping the worker delivers no refusal. -/
theorem shutdown (h : c.Unrefused hooks tol) (k : κ) {e : ControlError α}
    (failed : (c.shutdown k).1 = .error e) : ¬e.IsRefusal := by
  have finished := (h.runUntil .turn patience k).orderStop.runUntil .finish patience
    (c.runUntil .turn patience k).2
  unfold Channel.shutdown at failed
  simp only at failed
  generalize (c.runUntil .turn patience k).1.orderStop.runUntil .finish patience
    (c.runUntil .turn patience k).2 = run at failed finished
  have ended : (if run.1.joined = true then (run.1, run.2)
      else run.1.runUntil .thread patience run.2).1.Unrefused hooks tol := by
    split_ifs
    · exact finished
    · exact finished.runUntil .thread patience run.2
  generalize (if run.1.joined = true then (run.1, run.2)
      else run.1.runUntil .thread patience run.2) = run' at failed ended
  obtain ⟨kept, fine⟩ := ended.joinThread
  split at failed
  next e' c' joining =>
    rw [joining] at fine
    cases failed
    exact fine e rfl
  next c' joining =>
    rw [joining] at kept
    exact kept.collect failed

/-- Neither does giving up the turn for it. -/
theorem join (h : c.Unrefused hooks tol) (token : Token) (k : κ) {e : ControlError α}
    (failed : (c.join token k).1 = .error e) : ¬e.IsRefusal := by
  unfold Channel.join at failed
  split_ifs at failed
  · cases failed
    exact fun refusal => refusal
  · exact shutdown (c := c.giveUp) (h.congr rfl (.inr rfl) rfl ⟨rfl, rfl⟩) k failed

end Unrefused

end Channel

end Milp
