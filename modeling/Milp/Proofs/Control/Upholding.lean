import Milp.Proofs.Control.Calls

/-!
# Laws of a controlled solve

What holds of every turn of a search also holds of what a controller gets to see of it: of the
snapshots that the worker publishes, and of the model that it hands over. A law says what the turns,
models and snapshots of a solve are to be like (`Law`). If the solver keeps to it (`Law.Kept`) and every
order does (`Order.Upholds`), so does the channel, whatever the controller calls (`Channel.Upholds`).

An order upholds a law if it does so at every decision point where the law holds, so it does not matter
where an order is carried out that was left too late.
-/

namespace Milp

/-- What the turns of a search, its models and their snapshots are to be like. -/
structure Law (α : Type) where
  turn : Plan α → Turn α → Prop
  model : Model α → Prop
  snapshot : Snapshot α → Prop

variable {α κ : Type} [Scalar α] {law : Law α}

/-- Whether the solver keeps to a law. -/
structure Law.Kept (law : Law α) : Prop where
  opening : ∀ {m plan turn}, law.model m → m.opening = .entered plan turn → law.turn plan turn
  advance : ∀ {plan s}, law.turn plan (.proceed s) → law.turn plan (plan.advance s)
  leave : ∀ {plan d}, law.turn plan (.ask d) → law.turn plan (plan.answer d .didNotRun)
  interrupt : ∀ {plan d}, law.turn plan (.ask d) → law.turn plan (plan.answer d .interrupt)
  close : ∀ {plan turn}, law.turn plan turn → ∀ m : Model α, law.model (m.close turn).1
  hook : ∀ {m : Model α}, law.model m → ∀ hooks, law.model { m with hooks }
  decision : ∀ {plan d}, law.turn plan (.ask d) → law.snapshot (d.snapshot plan)
  atRest : ∀ {m}, law.model m → law.snapshot m.snapshot
  blank : law.snapshot Snapshot.blank

/-- Whether an order, carried out where a law holds, leads to where it holds. -/
def Order.Upholds (law : Law α) (order : Order α κ) : Prop :=
  ∀ action, order = .act action → ∀ plan d k, law.turn plan (.ask d) → law.turn plan
    (match action plan d k with
    | (.ok (.choose choice), d, _) => plan.answer d choice
    | (.ok .hold, d, _) => .ask d
    | (.error cause, d, _) => .failed cause d.search)

/-- Whether a law holds wherever a worker is. -/
def Worker.Upholds (law : Law α) : Worker α κ → Prop
  | .ready m _ => law.model m
  | .solving _ plan turn => law.turn plan turn
  | .waiting _ plan d => law.turn plan (.ask d)
  | .acting _ plan d order => law.turn plan (.ask d) ∧ order.Upholds law
  | .closing m _ => law.model m
  | .leaving => True
  | .ended _ => True

namespace Channel

/-- Whether a law holds of all that a channel has and shows. -/
structure Upholds (law : Law α) (c : Channel α κ) : Prop where
  worker : c.worker.Upholds law
  pending : ∀ order, c.cell.pending = some order → order.Upholds law
  snapshot : ∀ s, c.cell.snapshot = some s → law.snapshot s
  model : ∀ m, c.cell.model = some m → law.model m

/-- A channel that has just been started. -/
theorem upholds_start {m : Model α} (h : law.model m) (id : Nat) (hooks : Hooks) :
    (start id m hooks : Channel α κ).Upholds law where
  worker := h
  pending _ left := nomatch left
  snapshot _ shown := nomatch shown
  model _ handed := nomatch handed

namespace Upholds

variable {c c' : Channel α κ} {k k' : κ}

/-- The worker goes on without looking at the cell. -/
theorem goesOn (h : c.Upholds law) {w : Worker α κ} (hw : w.Upholds law) :
    Upholds law { c with worker := w } := ⟨hw, h.pending, h.snapshot, h.model⟩

/-! ### The worker's side -/

section Worker

variable (kept : law.Kept)
include kept

/-- The worker installs its callback and begins the solve. -/
theorem begin (h : c.Upholds law) {m : Model α} (hm : law.model m) (hooks : Hooks) :
    (c.begin m hooks).Upholds law := by
  unfold Channel.begin
  split
  · exact h.goesOn hm
  next m' installed =>
    have hm' : law.model m' := by
      unfold Model.install at installed
      split_ifs at installed
      cases installed
      exact kept.hook hm (some hooks)
    split
    · exact h.goesOn hm'
    next entered => exact h.goesOn (kept.opening hm' entered)

/-- The worker goes on with its search, or comes to a decision point. -/
theorem search (h : c.Upholds law) (m : Model α) {plan : Plan α} {turn : Turn α}
    (holds : law.turn plan turn) : (c.search m plan turn).Upholds law := by
  cases turn with
  | proceed s => exact h.goesOn (kept.advance holds)
  | ask d =>
    change (c.enter m plan d).Upholds law
    unfold enter
    split
    · exact h.goesOn (kept.interrupt holds)
    · refine ⟨holds, h.pending, fun s shown => ?_, h.model⟩
      cases shown
      exact kept.decision holds
  | ended => exact h.goesOn (kept.close holds m)
  | failed => exact h.goesOn (kept.close holds m)

/-- The worker is woken up, and takes the order that is left for it. -/
theorem wake (h : c.Upholds law) (m : Model α) {plan : Plan α} {d : Decision α}
    (holds : law.turn plan (.ask d)) : (c.wake m plan d).Upholds law := by
  unfold Channel.wake
  split
  · exact ⟨h.worker, h.pending, h.snapshot, h.model⟩
  · split
    · exact h.goesOn (kept.interrupt holds)
    · refine ⟨⟨holds, ?_⟩, nofun, h.snapshot, h.model⟩
      cases left : c.cell.pending with
      | none => exact nofun
      | some order => exact h.pending order left

/-- The worker carries out an order. -/
theorem carryOut (h : c.Upholds law) (m : Model α) {plan : Plan α} {d : Decision α}
    {order : Order α κ} (holds : law.turn plan (.ask d)) (upheld : order.Upholds law) (k : κ) :
    (c.carryOut m plan d order k).1.Upholds law := by
  cases order with
  | leave => exact h.goesOn (kept.leave holds)
  | act action =>
    have carried := upheld action rfl plan d k holds
    unfold Channel.carryOut
    simp only
    split
    next eq =>
      rw [eq] at carried
      exact h.goesOn carried
    next eq =>
      rw [eq] at carried
      exact h.goesOn carried
    next eq =>
      rw [eq] at carried
      exact h.goesOn carried

/-- The worker hands over the model. -/
theorem conclude (h : c.Upholds law) {m : Model α} (hm : law.model m)
    (result : Attempt (SolverError α) SolveStatus) : (c.conclude m result).Upholds law := by
  have bare : law.model m.uninstall := kept.hook hm none
  refine ⟨trivial, h.pending, fun s shown => ?_, fun m' handed => ?_⟩
  · cases shown
    exact kept.atRest bare
  · cases handed
    exact bare

/-- Every step of the worker keeps to a law that the solver and all orders keep to. -/
theorem workerStep (h : c.Upholds law) (step : c.workerStep k = some (c', k')) :
    c'.Upholds law := by
  have worker := h.worker
  unfold Channel.workerStep at step
  split at step
  next m hooks worker_eq =>
    rw [worker_eq] at worker
    cases step
    exact h.begin kept worker hooks
  next m plan turn worker_eq =>
    rw [worker_eq] at worker
    cases step
    exact h.search kept m worker
  next m plan d worker_eq =>
    rw [worker_eq] at worker
    split_ifs at step
    cases step
    exact h.wake kept m worker
  next m plan d order worker_eq =>
    rw [worker_eq] at worker
    have carried := h.carryOut kept m worker.1 worker.2 k
    rw [Option.some.inj step] at carried
    exact carried
  next m result worker_eq =>
    rw [worker_eq] at worker
    cases step
    exact h.conclude kept worker result
  next =>
    cases step
    exact h.goesOn trivial
  next => cases step

/-- A worker that runs keeps to the law. -/
theorem runUntil (h : c.Upholds law) (awaited : Awaited) (steps : Nat) (k : κ) :
    (c.runUntil awaited steps k).1.Upholds law :=
  runUntil_preserves (Upholds law) (fun _ _ _ _ upheld step => upheld.workerStep kept step)
    awaited steps k h

end Worker

/-! ### The controller's calls -/

/-- Only what the worker has and what is in the cell for it or from it matters. -/
theorem congr (h : c.Upholds law) (worker_eq : c'.worker = c.worker)
    (pending_eq : c'.cell.pending = c.cell.pending) (snapshot_eq : c'.cell.snapshot = c.cell.snapshot)
    (model_eq : c'.cell.model = c.cell.model) : c'.Upholds law where
  worker := worker_eq ▸ h.worker
  pending order left := h.pending order (pending_eq.symm.trans left)
  snapshot s shown := h.snapshot s (snapshot_eq.symm.trans shown)
  model m handed := h.model m (model_eq.symm.trans handed)

/-- Taking the turn. -/
theorem takeTurn (h : c.Upholds law) : c.takeTurn.2.Upholds law := by
  unfold Channel.takeTurn
  split <;> exact h.congr rfl rfl rfl rfl

/-- A wait. -/
theorem wait (h : c.Upholds law) (kept : law.Kept) (k : κ) (steps : Nat) :
    (c.wait k steps).2.1.Upholds law := by
  unfold Channel.wait
  split_ifs
  · exact h
  · exact (h.runUntil kept .turn steps k).takeTurn

/-- To resume with an order that upholds the law. -/
theorem resume (h : c.Upholds law) {order : Order α κ} (upheld : order.Upholds law) (token : Token) :
    (c.resume order token).2.Upholds law := by
  unfold Channel.resume
  simp only
  split_ifs
  · exact h
  · exact h.congr rfl rfl rfl rfl
  · refine ⟨h.worker, fun order' left => ?_, h.snapshot, h.model⟩
    cases left
    exact upheld

/-- To tell the worker to stop. -/
theorem orderStop (h : c.Upholds law) : c.orderStop.Upholds law := by
  unfold Channel.orderStop
  split_ifs
  · exact h
  · refine ⟨h.worker, fun order left => ?_, h.snapshot, h.model⟩
    cases left
    exact nofun

/-- Stopping the worker. -/
theorem shutdown (h : c.Upholds law) (kept : law.Kept) (k : κ) :
    (c.shutdown k).2.1.Upholds law := by
  have finished := (h.runUntil kept .turn patience k).orderStop.runUntil kept .finish patience
    (c.runUntil .turn patience k).2
  unfold Channel.shutdown
  simp only
  generalize (c.runUntil .turn patience k).1.orderStop.runUntil .finish patience
    (c.runUntil .turn patience k).2 = run at finished
  have ended : (if run.1.joined = true then (run.1, run.2)
      else run.1.runUntil .thread patience run.2).1.Upholds law := by
    split_ifs
    · exact finished
    · exact finished.runUntil kept .thread patience run.2
  generalize (if run.1.joined = true then (run.1, run.2)
      else run.1.runUntil .thread patience run.2) = run' at ended
  have joined : run'.1.joinThread.2.Upholds law := by
    rw [joinThread_snd]
    exact ended.congr rfl rfl rfl rfl
  split
  next joining =>
    rw [joining] at joined
    exact joined
  next joining =>
    rw [joining] at joined
    unfold Channel.collect
    split <;> exact joined.congr rfl rfl rfl rfl

/-- Giving up the turn for it. -/
theorem join (h : c.Upholds law) (kept : law.Kept) (token : Token) (k : κ) :
    (c.join token k).2.1.Upholds law := by
  unfold Channel.join
  split_ifs
  · exact h
  · exact shutdown (c := c.giveUp) (h.congr rfl rfl rfl rfl) kept k

/-- The model that is taken. -/
theorem takeModel (h : c.Upholds law) {m : Model α} (taken : c.takeModel.1 = some m) : law.model m := by
  unfold Channel.takeModel at taken
  split_ifs at taken
  exact h.model m taken

/-- What is shown to the holder of a token. -/
theorem state (h : c.Upholds law) (kept : law.Kept) {token : Token} {s : Snapshot α}
    (shown : c.state token = .ok s) : law.snapshot s := by
  unfold Channel.state at shown
  split_ifs at shown
  cases shown
  cases published : c.cell.snapshot with
  | none => exact kept.blank
  | some s => exact h.snapshot s published

end Upholds
end Channel
end Milp
