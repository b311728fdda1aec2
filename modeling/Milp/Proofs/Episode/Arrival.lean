import Milp.Proofs.Control.Arrival
import Milp.Proofs.Episode.Ownership

/-!
# Where a session arrives

What a session comes to when its solve is moved is what the search comes to. A start that leaves the
worker at a decision has come there from the opening of the solve (`Session.arrives_of_start`), and a
resumption from where the search goes on with the order (`Session.Stands.resume`). The session stands at
the next decision then, or it has the model back with the status or the failure of the search
(`Session.Arrives`).
-/

namespace Milp

/-- The default of granted steps is enough for an order and for what closes a solve. -/
theorem four_le_patience : 4 ≤ patience := by
  unfold patience
  omega

variable {α κ : Type} [Scalar α]

namespace Session

variable {s : Session α κ} {m : Model α} {plan : Plan α} {turn : Turn α} {d : Decision α} {k : κ}

/-! ### Standing at a decision -/

/-- Whether a session stands at a decision: its worker is suspended there and shows it. -/
inductive Stands (m : Model α) (plan : Plan α) (d : Decision α) : Session α κ → Prop
  | controlled {c : Channel α κ} (coherent : c.Coherent) (worker_eq : c.worker = .waiting m plan d)
      (inactive : c.cell.workerActive = false)
      (shown : c.cell.snapshot = some (d.snapshot plan)) : Stands m plan d (.controlled c ⟨c.id⟩)

omit [Scalar α] in
/-- A worker waits at one decision. -/
theorem WaitsAt.unique {plan' : Plan α} {d' : Decision α} (waits : s.WaitsAt plan d)
    (waits' : s.WaitsAt plan' d') : plan' = plan ∧ d' = d := by
  obtain ⟨c, token, m, rfl, worker_eq⟩ := waits
  obtain ⟨c', token', m', eq, worker_eq'⟩ := waits'
  cases eq
  cases worker_eq.symm.trans worker_eq'
  exact ⟨rfl, rfl⟩

namespace Stands

/-- Where a session stands, its worker waits. -/
theorem waitsAt (h : s.Stands m plan d) : s.WaitsAt plan d := by
  cases h with
  | controlled coherent worker_eq => exact ⟨_, _, m, rfl, worker_eq⟩

/-- It shows the decision. -/
theorem snapshot_eq (h : s.Stands m plan d) : s.snapshot = .ok (d.snapshot plan) := by
  cases h with
  | controlled coherent worker_eq inactive shown =>
    rw [snapshot, Channel.state, isForeign_self, shown]
    rfl

end Stands

/-! ### Arriving -/

/-- How a call ends that finds the search at a turn: the session stands at the decision, or it has the
model back with the status or the failure. -/
inductive Finds (m : Model α) (plan : Plan α) : Turn α → Outcome α κ Bool → Prop
  | asks {d : Decision α} {s : Session α κ} (k : κ) (stands : s.Stands m plan d) :
      Finds m plan (.ask d) (.ok false, s, k)
  | ended {status : SolveStatus} {dual : Extended α} {x : Search α} (m' : Model α) (k : κ) :
      Finds m plan (.ended status dual x) (.ok true, .idle m', k)
  | failed {cause : Failure (SolverError α)} {x : Search α} (m' : Model α) (k : κ) :
      Finds m plan (.failed cause x) (.error (.ofSolver (.ofFailure cause)), .idle m', k)

/-- Where a call arrives from a turn of the search: at the next decision or at the end, or it is given up
while the worker takes one node after the other. -/
inductive Arrives (m : Model α) (plan : Plan α) (turn : Turn α) : Outcome α κ Bool → Prop
  | runs {c : Channel α κ} {token : Token} {s : Search α} (k : κ) (busy : c.worker.phase = .busy)
      (goesOn : turn = .proceed s) : Arrives m plan turn (.ok false, .controlled c token, k)
  | finds {o : Outcome α κ Bool} (turns : Nat) (found : Finds m plan (plan.toDecision turns turn) o) :
      Arrives m plan turn o

namespace Arrives

variable {o : Outcome α κ Bool}

/-- Where there is no node to take, the turn itself is found. -/
theorem of_settled (h : Arrives m plan turn o) (settled : ∀ s, turn ≠ .proceed s) :
    Finds m plan turn o := by
  cases h with
  | runs k busy goesOn => exact absurd goesOn (settled _)
  | finds turns found => rwa [Plan.toDecision_of_settled settled] at found

/-- Where a worker waits, the search has come there. -/
theorem of_waitsAt (h : Arrives m plan turn o) {plan' : Plan α} {d : Decision α}
    (waits : o.2.1.WaitsAt plan' d) : plan' = plan ∧ o.1 = .ok false ∧
      (∃ turns, plan.toDecision turns turn = .ask d) ∧ o.2.1.Stands m plan d := by
  cases h with
  | runs k busy goesOn =>
    obtain ⟨c, token, m', eq, worker_eq⟩ := waits
    cases eq
    rw [worker_eq] at busy
    cases busy
  | finds turns found =>
    generalize run : plan.toDecision turns turn = last at found
    cases found with
    | asks k stands =>
      obtain ⟨rfl, rfl⟩ := stands.waitsAt.unique waits
      exact ⟨rfl, rfl, ⟨turns, run⟩, stands⟩
    | ended => exact absurd waits (not_waitsAt rfl _ _)
    | failed => exact absurd waits (not_waitsAt rfl _ _)

end Arrives

variable {c c' : Channel α κ}

omit [Scalar α] in
/-- Where no failure is left, the turn is taken. -/
theorem takeTurn_of_undelivered (undelivered : c.cell.failure = none) :
    c.takeTurn = (.ok ⟨c.id⟩, { c with cell := { c.cell with tokenOut := true } }) := by
  simp only [Channel.takeTurn, undelivered]

/-- A wait settles where the worker has arrived. -/
theorem arrives_settle {steps : Nat} (h : c.Arrives m plan turn steps c') (enough : 2 ≤ steps)
    (coherent : c'.Coherent) (k : κ) :
    Arrives m plan turn (settle c'.takeTurn.2 c'.takeTurn.1 k) := by
  have taken := coherent.takeTurn
  cases h with
  | runs busy active proceeds =>
    obtain ⟨s, proceeds⟩ := proceeds enough
    have unfinished := coherent.unfinished_of_busy busy
    rw [takeTurn_of_undelivered (coherent.failure_none unfinished),
      settle_suspended (by exact unfinished)]
    exact .runs k busy proceeds
  | waits turns asks =>
    have unfinished := coherent.unfinished_of_waiting rfl
    rw [takeTurn_of_undelivered (coherent.failure_none unfinished)] at taken ⊢
    rw [settle_suspended (by exact unfinished)]
    refine .finds turns ?_
    rw [asks]
    exact .asks k (.controlled taken rfl rfl rfl)
  | finishes turns isOver =>
    refine .finds turns ?_
    generalize plan.toDecision turns turn = last at isOver coherent taken ⊢
    cases last with
    | proceed x => exact isOver.elim
    | ask d => exact isOver.elim
    | ended status dual x =>
      rw [takeTurn_of_undelivered rfl] at taken ⊢
      obtain ⟨k', settled⟩ := settle_finished taken rfl rfl rfl k
      rw [settled]
      exact .ended _ k'
    | failed cause x =>
      have told : c.conclude (m.close (.failed cause x)).1 (m.close (.failed cause x)).2 =
          c.conclude (m.close (.failed cause x)).1 (.error cause) := by
        cases cause <;> rfl
      rw [told] at taken ⊢
      obtain ⟨k', settled⟩ := settle_failed taken rfl rfl (.solver (.ofFailure cause)) k
      exact settled ▸ .failed _ k'

/-- A wait of a controller that has no token takes the turn where the worker has come to. -/
theorem wait_eq (free : c.cell.tokenOut = false) (k : κ) (steps : Nat) :
    c.wait k steps = ((c.runUntil .turn steps k).1.takeTurn.1,
      (c.runUntil .turn steps k).1.takeTurn.2, (c.runUntil .turn steps k).2) := by
  simp only [Channel.wait, free, Bool.false_eq_true, if_false]

/-- A wait for a worker that is woken up with an order arrives where the search goes on with it. -/
theorem arrives_of_order {order : Order α κ} (coherent : c.Coherent)
    (worker_eq : c.worker = .waiting m plan d) (active : c.cell.workerActive = true)
    (running : c.cell.terminate = false) (left : c.cell.pending = some order)
    (free : c.cell.tokenOut = false) (k : κ) {steps : Nat} (enough : 4 ≤ steps) :
    Arrives m plan (order.carried plan d k).1
      (settle (c.wait k steps).2.1 (c.wait k steps).1 (c.wait k steps).2.2) := by
  obtain ⟨steps, rfl⟩ := Nat.exists_eq_add_of_le' (show 2 ≤ steps by omega)
  have arrived := coherent.runUntil .turn (steps + 2) k
  rw [wait_eq free]
  rw [Channel.runUntil_of_order worker_eq (coherent.awake_of_active active) active running left]
    at arrived ⊢
  refine arrives_settle (Channel.arrives_runUntil ?_ ?_ ?_ steps) (by omega) arrived _
  · rfl
  · exact active
  · exact running

/-- A resumption arrives where the search goes on with the order. -/
theorem Stands.resume (h : s.Stands m plan d) (order : Order α κ) (k : κ) {steps : Nat}
    (enough : 4 ≤ steps) :
    Arrives m plan (order.carried plan d k).1 (s.resume order k steps) := by
  cases h with
  | @controlled c coherent worker_eq inactive shown =>
    have unfinished := coherent.unfinished_of_waiting (by rw [worker_eq]; rfl)
    obtain ⟨suspended, running, -⟩ := coherent.suspended inactive unfinished
    have resumed := coherent.resume inactive order ⟨c.id⟩
    have resumes : c.resume order ⟨c.id⟩ = (.ok (), { c with
        cell := { c.cell with tokenOut := false, pending := some order, workerActive := true }
        sleepers := {} }) := by
      simp only [Channel.resume, isForeign_self, unfinished]
      rfl
    rw [resumes] at resumed
    unfold Session.resume
    simp only [resumes]
    exact arrives_of_order resumed worker_eq rfl running rfl rfl k enough

/-- A wait that finds the worker finished leaves no suspended solve. -/
theorem settle_of_finished (finished : c.cell.finished = true) (waited : Except (ControlError α) Token)
    (k : κ) : (settle c waited k).2.1.isSuspended = false := by
  unfold settle
  cases waited with
  | error e => exact isSuspended_recover c k
  | ok token =>
    simp only [bind, Except.bind, pure, Except.pure, Channel.isDone]
    cases c.isForeign token with
    | true => exact isSuspended_recover c k
    | false =>
      simp only [Bool.false_eq_true, if_false, finished]
      split <;> exact isSuspended_recover _ _

/-- A start arrives where the search comes to that was entered, if any; else no solve is suspended. -/
theorem arrives_of_start (m : Model α) (hooks : Hooks) (k : κ) {steps : Nat} (enough : 3 ≤ steps) :
    (∃ plan turn, { m with hooks := some hooks }.opening = .entered plan turn ∧
      Arrives { m with hooks := some hooks } plan turn ((idle m).start hooks k steps)) ∨
    ((idle m).start hooks k steps).2.1.isSuspended = false := by
  have coherent := (Channel.coherent_start (κ := κ) channelId m hooks).runUntil .turn steps k
  have active : (Channel.start channelId m hooks : Channel α κ).cell.workerActive = true := rfl
  obtain ⟨steps, rfl⟩ := Nat.exists_eq_add_of_le' (show 1 ≤ steps by omega)
  have begins : (Channel.start channelId m hooks : Channel α κ).workerStep k =
      some ((Channel.start channelId m hooks).begin m hooks, k) := rfl
  have moved := Channel.runUntil_step (Channel.hasCome_turn_of_active active) begins steps
  unfold Session.start
  simp only
  rw [wait_eq rfl]
  rw [moved] at coherent ⊢
  generalize begun : (Channel.start channelId m hooks : Channel α κ).begin m hooks = c at coherent ⊢
  have handedBack (m' : Model α) (result : Attempt (SolverError α) SolveStatus)
      (closing : c = { Channel.start channelId m hooks with worker := .closing m' result }) :
      (settle (c.runUntil .turn steps k).1.takeTurn.2 (c.runUntil .turn steps k).1.takeTurn.1
        (c.runUntil .turn steps k).2).2.1.isSuspended = false := by
    obtain ⟨steps, rfl⟩ := Nat.exists_eq_add_of_le' (show 1 ≤ steps by omega)
    rw [Channel.runUntil_of_closing (by rw [closing]) (by rw [closing]; exact active)]
    apply settle_of_finished
    unfold Channel.takeTurn
    split <;> rfl
  unfold Channel.begin at begun
  split at begun
  next e _ => exact .inr (handedBack m (Attempt.fail e) begun.symm)
  next m' installed =>
    obtain rfl : { m with hooks := some hooks } = m' := by
      unfold Model.install at installed
      split_ifs at installed
      exact Except.ok.inj installed
    split at begun
    next result _ => exact .inr (handedBack _ result begun.symm)
    next plan turn entered =>
      refine .inl ⟨plan, turn, entered, ?_⟩
      subst begun
      exact arrives_settle (Channel.arrives_runUntil rfl rfl rfl steps) (by omega) coherent _

end Session
end Milp
