import Milp.Proofs.Control.Termination
import Milp.Proofs.Search.Closing

/-!
# The model comes back from the worker

A worker takes a model over, solves it and hands it back with the failure of the solve, if there was
one. What it hands back is what a solve with a callback leaves of the model that it was started
with, wherever the solve ended (`Worker.Solves`, `Channel.solves_of_workerStep`).

* `Channel.Reports` says so of a channel whose failure nobody has looked at yet. It is kept by the
  worker and by the orders that are left for it, so that a shutdown finds the model
  (`Channel.shutdown_of_finished`, `Channel.Reports.halt`).
* `System.HandsOver` says so of any order of steps: the model that is in the cell, or that was taken
  out of it, is the one that the worker finished with (`System.handsOver_of_steps`).
-/

namespace Milp

variable {α κ : Type}

/-! ### The worker -/

section

variable [Scalar α]

/-- Whether a worker is at a solve of the model `m₀`, or has finished with it. -/
def Worker.Solves (m₀ : Model α) : Worker α κ → Prop
  | .ready m _ => m = m₀
  | .solving m _ _ | .waiting m _ _ | .acting m _ _ _ => m₀.Searches ∧ m₀.SameInput m
  | .closing m result => m₀.Left result m.uninstall
  | .leaving | .ended _ => True

namespace Channel

variable {c c' : Channel α κ} {k k' : κ} {m₀ : Model α}

/-- A worker that begins is at the solve of its model. -/
theorem solves_begin (c : Channel α κ) (m : Model α) (hooks : Hooks) :
    (c.begin m hooks).worker.Solves m := by
  unfold begin
  split
  next e refused =>
    unfold Model.install at refused
    split_ifs at refused with installed
    cases refused
    exact .unsearched (.installed installed) rfl
  next m' installed =>
    unfold Model.install at installed
    split_ifs at installed with free
    cases installed
    have bare : m.hooks = none := by simpa using free
    split
    next result ended => exact .unsearched (Model.unsearched_of_over bare ended) rfl
    next plan turn entered => exact ⟨Model.searches_of_entered bare entered, rfl, rfl⟩

/-- A worker that searches remains at its solve, or has come to the end of it. -/
theorem solves_search {m : Model α} {plan : Plan α} (h : m₀.Searches ∧ m₀.SameInput m)
    (turn : Turn α) : (c.search m plan turn).worker.Solves m₀ := by
  unfold search
  split
  · exact h
  · unfold enter
    split
    · exact h
    · exact h
  · obtain ⟨searches, same⟩ := h
    obtain ⟨problem_eq, registry_eq⟩ := same.trans (m.sameInput_close turn)
    exact .searched searches ⟨problem_eq, registry_eq⟩ rfl (m.closed_close turn)

/-- A worker remains at the solve of its model until it has handed the model back. -/
theorem solves_of_workerStep (h : c.worker.Solves m₀)
    (moved : c.workerStep k = some (c', k')) : c'.worker.Solves m₀ := by
  unfold workerStep at moved
  split at moved
  next m hooks worker_eq =>
    rw [worker_eq] at h
    cases moved
    obtain rfl : m = m₀ := h
    exact c.solves_begin m hooks
  next m plan turn worker_eq =>
    rw [worker_eq] at h
    cases moved
    exact solves_search h turn
  next m plan d worker_eq =>
    split_ifs at moved
    cases moved
    have here : c.worker.Solves m₀ := h
    rw [worker_eq] at h
    unfold wake interrupt
    split_ifs
    · exact here
    · exact h
    · exact h
  next m plan d order worker_eq =>
    rw [worker_eq] at h
    obtain ⟨rfl, -⟩ := Prod.mk.inj (Option.some.inj moved)
    cases order with
    | leave => exact h
    | act action =>
      simp only
      split <;> exact h
  next => cases moved; trivial
  next => cases moved; trivial
  next => cases moved

/-- A worker leaves the model in the cell and the failure alone, or finishes. -/
theorem Moves.concludes_or_not (moves : c.Moves c') :
    (c'.cell.model = c.cell.model ∧ c'.cell.failure = c.cell.failure ∧
      c'.cell.finished = c.cell.finished ∧ ∀ m result, c.worker ≠ .closing m result) ∨
    ∃ m result, c.worker = .closing m result ∧ c' = c.conclude m result := by
  cases moves with
  | goesOn w busy busy' open_ stopping => exact .inl ⟨rfl, rfl, rfl, open_⟩
  | suspends m plan d worker_eq => exact .inl ⟨rfl, rfl, rfl, by simp [worker_eq]⟩
  | wakes m plan d worker_eq =>
    refine .inl ?_
    unfold wake interrupt
    split_ifs <;> exact ⟨rfl, rfl, rfl, by simp [worker_eq]⟩
  | concludes m result worker_eq => exact .inr ⟨m, result, worker_eq, rfl⟩
  | leaves worker_eq => exact .inl ⟨rfl, rfl, rfl, by simp [worker_eq]⟩

/-! ### Channels whose failure nobody has looked at -/

/-- Whether the worker of a channel is at a solve of the model `m₀`, and leaves in the cell what the
solve leaves of it. -/
structure Reports (m₀ : Model α) (c : Channel α κ) : Prop where
  coherent : c.Coherent
  solves : c.worker.Solves m₀
  left : c.cell.finished = true → ∃ result m, c.cell.failure = SolverError.ofResult? result ∧
    c.cell.model = some m ∧ m₀.Left result m

/-- A channel that has just been started is at a solve of its model. -/
theorem reports_start (id : Nat) (m : Model α) (hooks : Hooks) :
    (start id m hooks : Channel α κ).Reports m where
  coherent := coherent_start id m hooks
  solves := rfl
  left := nofun

namespace Reports

/-- What a channel reports is kept by each step of its worker. -/
theorem workerStep (h : c.Reports m₀) (moved : c.workerStep k = some (c', k')) :
    c'.Reports m₀ where
  coherent := h.coherent.of_moves (moves_of_workerStep moved)
  solves := solves_of_workerStep h.solves moved
  left := by
    rcases (moves_of_workerStep moved).concludes_or_not with
      ⟨model_eq, failure_eq, finished_eq, -⟩ | ⟨m, result, worker_eq, rfl⟩
    · rw [model_eq, failure_eq, finished_eq]
      exact h.left
    · have closing := h.solves
      rw [worker_eq] at closing
      exact fun _ => ⟨result, m.uninstall, rfl, rfl, closing⟩

/-- So it is by a worker that runs. -/
theorem runUntil (h : c.Reports m₀) (awaited : Awaited) (steps : Nat) (k : κ) :
    (c.runUntil awaited steps k).1.Reports m₀ :=
  runUntil_preserves (Reports m₀) (fun _ _ _ _ h moved => h.workerStep moved) awaited steps k h

/-- What a channel reports depends only on its worker as long as that has not finished. -/
theorem of_unfinished (h : c.Reports m₀) (coherent : c'.Coherent) (worker_eq : c'.worker = c.worker)
    (unfinished : c'.cell.finished = false) : c'.Reports m₀ where
  coherent := coherent
  solves := by
    rw [worker_eq]
    exact h.solves
  left finished := by cases unfinished.symm.trans finished

/-- A shutdown of a suspended worker comes to where the worker has finished its solve with a
status. -/
theorem halt (h : c.Reports m₀) (suspended : c.IsSuspended) (k : κ) :
    ∃ (c' : Channel α κ) (k' : κ), c.shutdown k = c'.shutdown k' ∧ c'.Reports m₀ ∧
      c'.cell.finished = true ∧ c'.cell.terminate = true := by
  have inactive := (h.coherent.asleep_iff.mp suspended.2).2
  have unfinished := h.coherent.unfinished_of_waiting suspended.1
  have turn : c.hasCome .turn = true := by simp [hasCome, inactive]
  -- the worker is told to stop, and finishes
  have ordered : c.orderStop.cell.terminate = true ∧ c.orderStop.cell.finished = false ∧
      c.orderStop.worker = c.worker := by
    simp [orderStop, unfinished, notifyAll]
  obtain ⟨terminate, unfinished', worker_eq⟩ := ordered
  have coherent := h.coherent.orderStop inactive
  have reports := (h.of_unfinished coherent worker_eq unfinished').runUntil .finish patience k
  have few : c.orderStop.worker.stepsLeft ≤ patience := by
    rw [worker_eq]
    exact Nat.le_trans (Worker.stepsLeft_of_waiting suspended.1) (by decide)
  obtain ⟨stopped, finished, -⟩ := finished_runUntil coherent terminate
    (fun finished => by cases unfinished'.symm.trans finished) patience k few
  generalize run_eq : c.orderStop.runUntil .finish patience k = run at reports finished stopped
  obtain ⟨c', k'⟩ := run
  simp only at reports finished stopped
  refine ⟨c', k', ?_, reports, finished, stopped⟩
  -- the rest of the shutdown is that of a worker that has finished
  have turn' : c'.hasCome .turn = true := by
    have done := reports.coherent.finished_iff.mp finished
    simp [hasCome, reports.coherent.inactive_of_done done]
  have kept : c'.orderStop = c' := if_pos finished
  unfold shutdown
  simp only [runUntil_of_come turn, run_eq, runUntil_of_come turn', kept,
    runUntil_of_come (show c'.hasCome .finish = true from finished)]

end Reports

/-- A shutdown of a worker that has finished joins its thread and delivers the failure. -/
theorem shutdown_of_finished (h : c.Coherent) (finished : c.cell.finished = true) (k : κ) :
    ∃ c' k', c.shutdown k = (c.collect.1, c', k') ∧ c'.cell = { c.cell with failure := none } ∧
      c'.joined = true ∧ c'.Coherent := by
  have done := h.finished_iff.mp finished
  have turn : c.hasCome .turn = true := by simp [hasCome, h.inactive_of_done done]
  have kept : c.orderStop = c := if_pos finished
  -- the thread of the worker ends
  obtain ⟨c₁, k₁, run_eq, coherent, cell_eq⟩ : ∃ c₁ k₁,
      (if c.joined then (c, k) else c.runUntil .thread patience k) = (c₁, k₁) ∧
      Coherent { c₁ with joined := true } ∧ c₁.cell = c.cell := by
    split_ifs with joined
    · exact ⟨c, k, rfl, { h with ended_of_joined := fun _ => h.ended_of_joined joined }, rfl⟩
    · obtain ⟨ended, cell_eq⟩ := ended_runUntil done (patience - 1) k
      have coherent := h.runUntil .thread patience k
      exact ⟨_, _, rfl, { coherent with ended_of_joined := fun _ => ended }, cell_eq⟩
  have joins : c₁.joinThread = (.ok (), { c₁ with joined := true }) := by
    refine Prod.ext ?_ (joinThread_snd c₁)
    unfold joinThread
    split_ifs
    · rfl
    · split
      next crashed => exact absurd crashed coherent.caught
      next => rfl
  unfold shutdown
  simp only [runUntil_of_come turn, kept, run_eq, joins,
    runUntil_of_come (show c.hasCome .finish = true from finished)]
  refine ⟨_, k₁, Prod.ext ?_ rfl, ?_, ?_, coherent.collect⟩
  · simp only [collect, cell_eq]
    split <;> rfl
  · simp only [collect, cell_eq]
    split
    · rfl
    next undelivered => rw [← undelivered]
  · simp only [collect]
    split <;> rfl

end Channel

end

/-! ### Any order of steps -/

namespace System

variable {s t : System α κ}

/-- Whether a model was handed back: it is in the cell, or it was taken out of it. -/
def HandedBack (s : System α κ) (m : Model α) : Prop :=
  m ∈ s.channel.cell.model ∨ .responded (.takeModel (some m)) ∈ s.log

/-- Whether a step has left the worker alone, has got no model but that of the cell, and has not
let go of what happened before. -/
structure Spares (s t : System α κ) : Prop where
  worker_eq : t.channel.worker = s.channel.worker
  handedBack : ∀ m, t.HandedBack m → s.HandedBack m
  log_sub : ∀ event ∈ s.log, event ∈ t.log

namespace Spares

/-- A step that gives nothing back spares the worker, if it takes no model. -/
theorem quiet (worker_eq : t.channel.worker = s.channel.worker)
    (model_eq : t.channel.cell.model = s.channel.cell.model) (log_eq : t.log = s.log) :
    s.Spares t where
  worker_eq := worker_eq
  handedBack m := by
    unfold HandedBack
    rw [model_eq, log_eq]
    exact id
  log_sub := by
    rw [log_eq]
    exact fun _ => id

/-- A step that gives back something else than a model spares the worker, if it takes no model. -/
theorem responds {r : Response α} (worker_eq : t.channel.worker = s.channel.worker)
    (model_eq : t.channel.cell.model = s.channel.cell.model)
    (log_eq : t.log = s.log ++ [.responded r]) (other : ∀ m, r ≠ .takeModel (some m)) :
    s.Spares t where
  worker_eq := worker_eq
  handedBack m := by
    unfold HandedBack
    rw [model_eq, log_eq]
    rintro (there | told)
    · exact .inl there
    · rcases List.mem_append.mp told with told | told
      · exact .inr told
      · cases List.mem_singleton.mp told
        exact absurd rfl (other m)
  log_sub event mem := by
    rw [log_eq]
    exact List.mem_append_left _ mem

/-- A controller that looks for its turn spares the worker. -/
theorem lookForTurn (s : System α κ) : s.Spares s.lookForTurn := by
  unfold System.lookForTurn Channel.takeTurn
  split_ifs
  · rcases s.channel.cell.failure with _ | e
    · exact responds rfl rfl rfl (by simp)
    · exact responds rfl rfl rfl (by simp)
  · exact quiet rfl rfl rfl

/-- A controller that shuts the channel down spares the worker when it looks for its turn. -/
theorem lookToStop (s : System α κ) (why : Stop) : s.Spares (s.lookToStop why) := by
  unfold System.lookToStop Channel.orderStop
  split_ifs <;> exact quiet rfl rfl rfl

/-- A controller that shuts the channel down spares the worker when it looks for the end of the
solve. -/
theorem lookForFinish (s : System α κ) (why : Stop) : s.Spares (s.lookForFinish why) := by
  unfold System.lookForFinish
  split_ifs <;> exact quiet rfl rfl rfl

/-- A controller that joins the thread of the worker spares it. -/
theorem joinThread (s : System α κ) (why : Stop) : s.Spares (s.joinThread why) := by
  have joins := Channel.joinThread_snd s.channel
  unfold System.joinThread
  split
  next e c joined =>
    rw [joined] at joins
    simp only at joins
    subst joins
    exact responds rfl rfl rfl (by cases why <;> simp [Stop.response])
  next c joined =>
    rw [joined] at joins
    simp only at joins
    subst joins
    exact quiet rfl rfl rfl

/-- A controller that looks for a failure spares the worker. -/
theorem collect (s : System α κ) (why : Stop) : s.Spares (s.collect why) := by
  unfold System.collect Channel.collect
  rcases s.channel.cell.failure with _ | e
  · exact responds rfl rfl rfl (by cases why <;> simp [Stop.response])
  · exact responds rfl rfl rfl (by cases why <;> simp [Stop.response])

/-- A step of the controller within a call spares the worker. -/
theorem controllerStep (step : s.controllerStep = some t) : s.Spares t := by
  unfold System.controllerStep at step
  split at step
  next => cases step
  next => cases step
  next =>
    split_ifs at step
    cases step
    exact lookForTurn s
  next =>
    split_ifs at step
    cases step
    exact lookToStop s _
  next =>
    split_ifs at step
    cases step
    exact lookForFinish s _
  next =>
    split_ifs at step
    cases step
    exact joinThread s _
  next =>
    cases step
    exact collect s _

variable [Scalar α]

/-- Taking the model spares the worker. -/
theorem takeModel (s : System α κ) : s.Spares (s.perform .takeModel) := by
  simp only [System.perform, Channel.takeModel]
  split_ifs
  · refine ⟨rfl, ?_, fun event mem => List.mem_append_left _ mem⟩
    rintro m (⟨⟨⟩⟩ | told)
    rcases List.mem_append.mp told with told | told
    · exact .inr told
    · simp only [List.mem_singleton, Event.responded.injEq, Response.takeModel.injEq] at told
      exact .inl told.symm
  · exact responds rfl rfl rfl (by simp)

/-- The first step of any call spares the worker. -/
theorem perform (s : System α κ) (call : Call α κ) : s.Spares (s.perform call) := by
  cases call with
  | wait =>
    simp only [System.perform]
    split_ifs
    · exact responds rfl rfl rfl (by simp)
    · obtain ⟨worker_eq, handedBack, log_sub⟩ := lookForTurn { s with controller := .waiting }
      exact ⟨worker_eq, handedBack, log_sub⟩
  | resume order token =>
    have resumed : (s.channel.resume order token).2.worker = s.channel.worker ∧
        (s.channel.resume order token).2.cell.model = s.channel.cell.model := by
      unfold Channel.resume
      split_ifs
      · exact ⟨rfl, rfl⟩
      · simp only
        split_ifs <;> exact ⟨rfl, rfl⟩
    refine responds ?_ ?_ (r := .resume (s.channel.resume order token).1) ?_ (by simp)
    · simpa [System.perform, respond] using resumed.1
    · simpa [System.perform, respond] using resumed.2
    · simp [System.perform, respond]
  | isDone token => exact responds rfl rfl rfl (by simp)
  | state token => exact responds rfl rfl rfl (by simp)
  | join token =>
    simp only [System.perform]
    split_ifs
    · exact responds rfl rfl rfl (by simp)
    · refine quiet ?_ ?_ (spend_log _ _)
      · rw [spend_channel]
        rfl
      · rw [spend_channel]
        rfl
  | takeModel => exact takeModel s
  | recover => exact quiet rfl rfl rfl
  | drop => exact quiet rfl rfl rfl

end Spares

variable [Scalar α]

/-- Whether the worker is at a solve of the model `m₀`, and all that was handed back is what the
solve has left of it. -/
structure HandsOver (m₀ : Model α) (s : System α κ) : Prop where
  solves : s.channel.worker.Solves m₀
  left : ∀ m, s.HandedBack m → ∃ result, .concluded (SolverError.ofResult? result) ∈ s.log ∧
    m₀.Left result m

variable {m₀ : Model α}

namespace HandsOver

/-- A step that spares the worker changes nothing about what was handed back. -/
theorem of_spares (h : s.HandsOver m₀) (spares : s.Spares t) : t.HandsOver m₀ where
  solves := by
    rw [spares.worker_eq]
    exact h.solves
  left m back := by
    obtain ⟨result, concluded, left⟩ := h.left m (spares.handedBack m back)
    exact ⟨result, spares.log_sub _ concluded, left⟩

/-- When the worker finishes it hands over what its solve has left. -/
theorem workerStep (h : s.HandsOver m₀) (step : s.workerStep = some t) : t.HandsOver m₀ := by
  obtain ⟨⟨c, k⟩, moved, rfl⟩ := Option.map_eq_some_iff.mp step
  refine ⟨Channel.solves_of_workerStep h.solves moved, ?_⟩
  rcases (Channel.moves_of_workerStep moved).concludes_or_not with
    ⟨model_eq, -, -, open_⟩ | ⟨m, result, worker_eq, rfl⟩
  · have silent : announcement s.channel.worker = [] := by
      unfold announcement
      split
      next m result worker_eq => exact absurd worker_eq (open_ m result)
      next => rfl
    rintro m (there | told)
    · obtain ⟨result, concluded, left⟩ := h.left m (.inl (model_eq ▸ there))
      exact ⟨result, List.mem_append_left _ concluded, left⟩
    · rw [silent, List.append_nil] at told
      obtain ⟨result, concluded, left⟩ := h.left m (.inr told)
      exact ⟨result, List.mem_append_left _ concluded, left⟩
  · have closing := h.solves
    rw [worker_eq] at closing ⊢
    rintro m' (⟨⟨⟩⟩ | told)
    · exact ⟨result, by simp [announcement], closing⟩
    · have told' : .responded (.takeModel (some m')) ∈ s.log := by simpa [announcement] using told
      obtain ⟨result', concluded, left⟩ := h.left m' (.inr told')
      exact ⟨result', List.mem_append_left _ concluded, left⟩

/-- Whichever step is taken, all that was handed back is what the solve has left. -/
theorem step (h : s.HandsOver m₀) (step : s.Step t) : t.HandsOver m₀ := by
  cases step with
  | progress progress =>
    cases progress with
    | worker step => exact h.workerStep step
    | controller step => exact h.of_spares (.controllerStep step)
  | call call may => exact h.of_spares (.perform s call)
  | lose => exact h.of_spares (.quiet rfl rfl rfl)

end HandsOver

/-- In any order of steps, a model that was handed back is what the solve has left of the model that
the channel was started with. -/
theorem handsOver_of_steps {id : Nat} {hooks : Hooks} {memory : κ}
    (steps : Relation.ReflTransGen Step (start id m₀ hooks memory) s) : s.HandsOver m₀ := by
  induction steps with
  | refl =>
    refine ⟨rfl, ?_⟩
    rintro m (⟨⟨⟩⟩ | ⟨⟨⟩⟩)
  | tail _ step ih => exact ih.step step

end System
end Milp
