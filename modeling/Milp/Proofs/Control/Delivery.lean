import Milp.Proofs.Control.Calls

/-!
# Failures are delivered once

A solve that fails leaves its error in the cell, and several calls can take it out. What happened on
a channel shows which of them should: `owed` reads off the log which failure is still to be
delivered, and a log is honest (`HonestFrom`) if every call that has to deliver a failure delivers
what was owed to it, and no other call does.

`System.Ledger` ties the log to the cell and is carried over every step (`Ledger.step`).
`System.failure_delivered_once` reads off what the controller is told.
-/

namespace Milp

variable {α κ : Type}

/-! ### What is owed -/

/-- Whether a call that has to deliver a failure came so far: a wait, or a join with or without a
token, that was not refused. -/
def Response.passes : Response α → Bool
  | .wait (.error (.sequencing _)) | .join (.error .foreignToken) => false
  | .wait _ | .join _ | .recover _ => true
  | .resume _ | .isDone _ | .state _ | .takeModel _ | .drop => false

/-- The failure that is owed after an event. A channel that is dropped owes nothing. -/
def Event.settle (owed : Option (SolverError α)) : Event α → Option (SolverError α)
  | .concluded failure => failure
  | .responded .drop => none
  | .responded response => if response.passes then none else owed

/-- What is owed after a response other than that of a channel that is dropped. -/
theorem Event.settle_responded {owed : Option (SolverError α)} {response : Response α}
    (kept : response ≠ .drop) :
    settle owed (.responded response) = if response.passes then none else owed := by
  cases response with
  | drop => exact absurd rfl kept
  | _ => rfl

/-- Whether a response tells what is owed, and tells it only if it is from a call that has to. -/
def Response.Honest (owed : Option (SolverError α)) (response : Response α) : Prop :=
  if response.passes then response.error? = owed.map .solver
  else ∀ e, response.error? ≠ some (.solver e)

/-- A call of another kind is honest if it tells of no failure of the solve. -/
theorem Response.Honest.other {owed : Option (SolverError α)} {response : Response α}
    (refused : response.passes = false) (silent : ∀ e, response.error? ≠ some (.solver e)) :
    response.Honest owed := by
  rw [Response.Honest, refused]
  exact silent

/-- Whether all responses of a log are honest, with what is owed at first. -/
def HonestFrom : Option (SolverError α) → List (Event α) → Prop
  | _, [] => True
  | owed, .concluded failure :: rest => HonestFrom (Event.settle owed (.concluded failure)) rest
  | owed, .responded response :: rest =>
    response.Honest owed ∧ HonestFrom (Event.settle owed (.responded response)) rest

/-- What is owed after a log. -/
def owed (log : List (Event α)) : Option (SolverError α) := log.foldl Event.settle none

/-- A log is honest if its parts are. -/
theorem honestFrom_append {first : Option (SolverError α)} {log log' : List (Event α)} :
    HonestFrom first (log ++ log') ↔
      HonestFrom first log ∧ HonestFrom (log.foldl Event.settle first) log' := by
  induction log generalizing first with
  | nil => simp [HonestFrom]
  | cons event rest ih =>
    cases event with
    | concluded failure => exact ih
    | responded response =>
      rw [List.cons_append, HonestFrom, HonestFrom, ih, and_assoc]
      rfl

/-- Whether one event can come before another: a worker finishes once, and a channel that was
dropped does not respond. -/
def Event.Precedes : Event α → Event α → Prop
  | .concluded _, .concluded _ => False
  | .responded .drop, .responded _ => False
  | _, _ => True

/-! ### Honest logs -/

/-- What is owed stays owed as long as no call that has to deliver it comes and the worker does
not finish. -/
theorem settle_of_none_pass {first : Option (SolverError α)} {log : List (Event α)}
    (open_ : ∀ failure, .concluded failure ∉ log) (kept : .responded .drop ∉ log)
    (refused : ∀ response, .responded response ∈ log → response.passes = false) :
    log.foldl Event.settle first = first := by
  induction log with
  | nil => rfl
  | cons event rest ih =>
    have settled : Event.settle first event = first := by
      cases event with
      | concluded failure => exact absurd List.mem_cons_self (open_ failure)
      | responded response =>
        have kept' : response ≠ .drop := fun dropped => kept (dropped ▸ List.mem_cons_self)
        rw [Event.settle_responded kept', refused response List.mem_cons_self]
        rfl
    rw [List.foldl_cons, settled]
    refine ih (fun failure h => open_ failure (List.mem_cons_of_mem _ h))
      (fun h => kept (List.mem_cons_of_mem _ h))
      (fun response h => refused response (List.mem_cons_of_mem _ h))

/-- As long as nothing is owed, no response delivers a failure. -/
theorem HonestFrom.none_delivered {log : List (Event α)} (h : HonestFrom none log)
    (open_ : ∀ e, .concluded (some e) ∉ log) :
    ∀ response, .responded response ∈ log → ∀ e, response.error? ≠ some (.solver e) := by
  induction log with
  | nil => exact fun _ mem => absurd mem List.not_mem_nil
  | cons event rest ih =>
    have open' : ∀ e, .concluded (some e) ∉ rest := fun e h => open_ e (List.mem_cons_of_mem _ h)
    cases event with
    | concluded failure =>
      intro response mem
      cases failure with
      | some e => exact absurd List.mem_cons_self (open_ e)
      | none =>
        rcases List.mem_cons.mp mem with same | mem
        · cases same
        · exact ih h open' response mem
    | responded response =>
      obtain ⟨honest, rest_honest⟩ := h
      have settled : Event.settle none (.responded response) = none := by
        by_cases dropped : response = .drop
        · rw [dropped]
          rfl
        · rw [Event.settle_responded dropped]
          exact ite_self none
      rw [settled] at rest_honest
      intro response' mem
      rcases List.mem_cons.mp mem with same | mem
      · cases same
        unfold Response.Honest at honest
        split_ifs at honest
        · simp [honest]
        · exact honest
      · exact ih rest_honest open' response' mem

/-- A response in an honest log is honest about what was owed before it. -/
theorem HonestFrom.at_response {first : Option (SolverError α)} {before after : List (Event α)}
    {response : Response α} (h : HonestFrom first (before ++ .responded response :: after)) :
    response.Honest (before.foldl Event.settle first) ∧
      HonestFrom (Event.settle (before.foldl Event.settle first) (.responded response)) after :=
  (honestFrom_append.mp h).2

/-- A call that was refused, or that is of another kind, delivers no failure. -/
theorem HonestFrom.refused {first : Option (SolverError α)} {log : List (Event α)}
    (h : HonestFrom first log) {response : Response α} (mem : .responded response ∈ log)
    (refused : response.passes = false) : ∀ e, response.error? ≠ some (.solver e) := by
  obtain ⟨before, after, rfl⟩ := List.append_of_mem mem
  have honest := h.at_response.1
  unfold Response.Honest at honest
  rw [refused] at honest
  exact honest

/-- The first call that has to deliver a failure delivers it, and then nothing is owed. -/
theorem HonestFrom.first_passes {first : Option (SolverError α)} {before after : List (Event α)}
    {response : Response α} (h : HonestFrom first (before ++ .responded response :: after))
    (open_ : ∀ failure, .concluded failure ∉ before) (kept : .responded .drop ∉ before)
    (refused : ∀ response, .responded response ∈ before → response.passes = false)
    (passes : response.passes = true) :
    response.error? = first.map .solver ∧ HonestFrom none after := by
  obtain ⟨honest, honest_after⟩ := h.at_response
  have kept' : response ≠ .drop := by
    rintro rfl
    cases passes
  rw [settle_of_none_pass open_ kept refused] at honest honest_after
  rw [Event.settle_responded kept', passes] at honest_after
  unfold Response.Honest at honest
  rw [passes] at honest
  exact ⟨honest, honest_after⟩

namespace System

/-! ### The log and the cell -/

/-- What the log of a system says about its cell. -/
structure Ledger (s : System α κ) : Prop where
  honest : HonestFrom none s.log
  owed_eq : owed s.log = s.channel.cell.failure
  open_ : s.channel.cell.finished = false → ∀ failure, .concluded failure ∉ s.log
  ordered : s.log.Pairwise Event.Precedes
  gone : .responded .drop ∈ s.log → s.controller = .gone

/-- A channel that has just been started has nothing in its log. -/
theorem ledger_start (id : Nat) (m : Model α) (hooks : Hooks) (memory : κ) :
    (start id m hooks memory).Ledger where
  honest := trivial
  owed_eq := rfl
  open_ _ _ := List.not_mem_nil
  ordered := .nil
  gone := nofun

namespace Ledger

variable {s t : System α κ} (h : s.Ledger)

include h

/-- A step without an event keeps the ledger if it leaves failure and end of the solve alone. -/
theorem quiet (log_eq : t.log = s.log)
    (failure_eq : t.channel.cell.failure = s.channel.cell.failure)
    (finished_eq : t.channel.cell.finished = s.channel.cell.finished)
    (gone : s.controller = .gone → t.controller = .gone) : t.Ledger where
  honest := log_eq ▸ h.honest
  owed_eq := by rw [log_eq, failure_eq, h.owed_eq]
  open_ unfinished := log_eq ▸ h.open_ (finished_eq ▸ unfinished)
  ordered := log_eq ▸ h.ordered
  gone dropped := gone (h.gone (log_eq ▸ dropped))

/-- A response that is honest keeps the ledger. -/
theorem respond {response : Response α} (log_eq : t.log = s.log ++ [.responded response])
    (honest : response.Honest s.channel.cell.failure)
    (failure_eq : t.channel.cell.failure =
      Event.settle s.channel.cell.failure (.responded response))
    (finished_eq : t.channel.cell.finished = s.channel.cell.finished)
    (controller : s.controller ≠ .gone) (gone : response = .drop → t.controller = .gone) :
    t.Ledger where
  honest := by
    rw [log_eq, honestFrom_append]
    refine ⟨h.honest, ?_, trivial⟩
    show response.Honest (owed s.log)
    rw [h.owed_eq]
    exact honest
  owed_eq := by
    rw [log_eq, owed, List.foldl_append, failure_eq, ← h.owed_eq]
    rfl
  open_ unfinished failure mem := by
    rw [log_eq] at mem
    rcases List.mem_append.mp mem with mem | mem
    · exact h.open_ (finished_eq ▸ unfinished) failure mem
    · cases List.mem_singleton.mp mem
  ordered := by
    rw [log_eq, List.pairwise_append]
    refine ⟨h.ordered, List.pairwise_singleton _ _, fun event mem event' mem' => ?_⟩
    rw [List.mem_singleton.mp mem']
    cases event with
    | concluded failure => trivial
    | responded response' =>
      cases response' with
      | drop => exact absurd (h.gone mem) controller
      | _ => trivial
  gone dropped := by
    rw [log_eq] at dropped
    rcases List.mem_append.mp dropped with dropped | same
    · exact absurd (h.gone dropped) controller
    · exact gone (Event.responded.inj (List.mem_singleton.mp same)).symm

/-! ### Steps of the controller within a call -/

/-- A controller that waits keeps the ledger when it looks for its turn. -/
theorem lookForTurn (controller : s.controller ≠ .gone) : s.lookForTurn.Ledger := by
  unfold System.lookForTurn
  split_ifs
  · unfold Channel.takeTurn
    cases failure : s.channel.cell.failure with
    | some e =>
      refine h.respond rfl ?_ ?_ rfl controller (by simp)
      · simp [Response.Honest, Response.passes, Response.error?, errorOf?, failure]
      · simp [Event.settle, Response.passes, System.respond]
    | none =>
      refine h.respond rfl ?_ ?_ rfl controller (by simp)
      · simp [Response.Honest, Response.passes, Response.error?, errorOf?, failure]
      · simp [Event.settle, Response.passes, System.respond, failure]
  · exact h.quiet rfl rfl rfl fun gone => absurd gone controller

/-- A shutdown keeps the ledger when it looks for its turn. -/
theorem lookToStop (why : Stop) (controller : s.controller ≠ .gone) :
    (s.lookToStop why).Ledger := by
  unfold System.lookToStop
  split_ifs
  · unfold Channel.orderStop
    split_ifs
    · exact h.quiet rfl rfl rfl fun gone => absurd gone controller
    · exact h.quiet rfl rfl rfl fun gone => absurd gone controller
  · exact h.quiet rfl rfl rfl fun gone => absurd gone controller

/-- A shutdown keeps the ledger when it looks for the end of the solve. -/
theorem lookForFinish (why : Stop) (controller : s.controller ≠ .gone) :
    (s.lookForFinish why).Ledger := by
  unfold System.lookForFinish
  split_ifs
  · exact h.quiet rfl rfl rfl fun gone => absurd gone controller
  · exact h.quiet rfl rfl rfl fun gone => absurd gone controller

/-- Joining the worker's thread keeps the ledger. -/
theorem joinThread (coherent : s.channel.Coherent) (why : Stop)
    (controller : s.controller ≠ .gone) : (s.joinThread why).Ledger := by
  rw [joinThread_eq coherent]
  exact h.quiet rfl rfl rfl fun gone => absurd gone controller

/-- Looking for a failure keeps the ledger. -/
theorem collect (why : Stop) (controller : s.controller ≠ .gone) : (s.collect why).Ledger := by
  unfold System.collect Channel.collect
  cases failure : s.channel.cell.failure with
  | some e =>
    refine h.respond rfl ?_ ?_ rfl controller ?_
    · cases why <;>
        simp [Response.Honest, Response.passes, Response.error?, errorOf?, failure, Stop.response]
    · cases why <;> simp [Event.settle, Response.passes, System.respond, finishStop, Stop.response]
    · cases why <;> simp [Stop.response, Stop.after, finishStop, System.respond]
  | none =>
    refine h.respond rfl ?_ ?_ rfl controller ?_
    · cases why <;>
        simp [Response.Honest, Response.passes, Response.error?, errorOf?, failure, Stop.response]
    · cases why <;>
        simp [Event.settle, Response.passes, System.respond, finishStop, Stop.response, failure]
    · cases why <;> simp [Stop.response, Stop.after, finishStop, System.respond]

/-- A step of the controller within a call keeps the ledger. -/
theorem controllerStep (coherent : s.channel.Coherent) (step : s.controllerStep = some t) :
    t.Ledger := by
  unfold System.controllerStep at step
  split at step
  next => cases step
  next => cases step
  next waiting =>
    split_ifs at step
    cases step
    exact h.lookForTurn (by simp [waiting])
  next stopping =>
    split_ifs at step
    cases step
    exact h.lookToStop _ (by simp [stopping])
  next finishing =>
    split_ifs at step
    cases step
    exact h.lookForFinish _ (by simp [finishing])
  next joining =>
    split_ifs at step
    cases step
    exact h.joinThread coherent _ (by simp [joining])
  next collecting =>
    cases step
    exact h.collect _ (by simp [collecting])

/-- The end of a solve keeps the ledger. -/
theorem conclude (log_eq : t.log = s.log ++ [.concluded t.channel.cell.failure])
    (unfinished : s.channel.cell.finished = false) (finished : t.channel.cell.finished = true)
    (controller_eq : t.controller = s.controller) : t.Ledger where
  honest := by
    rw [log_eq, honestFrom_append]
    exact ⟨h.honest, trivial⟩
  owed_eq := by
    rw [log_eq, owed, List.foldl_append]
    rfl
  open_ unfinished' := by cases unfinished'.symm.trans finished
  ordered := by
    rw [log_eq, List.pairwise_append]
    refine ⟨h.ordered, List.pairwise_singleton _ _, fun event mem event' mem' => ?_⟩
    rw [List.mem_singleton.mp mem']
    cases event with
    | concluded failure => exact h.open_ unfinished failure mem
    | responded response => cases response <;> trivial
  gone dropped := by
    rw [log_eq] at dropped
    rcases List.mem_append.mp dropped with dropped | same
    · exact controller_eq.trans (h.gone dropped)
    · cases List.mem_singleton.mp same

end Ledger
end System

/-! ### Resuming -/

namespace Channel

/-- Resuming neither delivers nor loses a failure. -/
theorem failure_resume (c : Channel α κ) (order : Order α κ) (token : Token) :
    (c.resume order token).2.cell.failure = c.cell.failure ∧
      (c.resume order token).2.cell.finished = c.cell.finished := by
  unfold resume
  split_ifs
  · exact ⟨rfl, rfl⟩
  · simp only
    split_ifs <;> exact ⟨rfl, rfl⟩

/-- Resuming reports no failure. -/
theorem resume_ne_solver (c : Channel α κ) (order : Order α κ) (token : Token) (e : SolverError α) :
    errorOf? (c.resume order token).1 ≠ some (.solver e) := by
  unfold resume
  split_ifs
  · simp [errorOf?]
  · simp only
    split_ifs <;> simp [errorOf?]

end Channel

namespace System

/-! ### Steps of the worker and calls -/

variable [Scalar α] {s t : System α κ}

namespace Ledger

/-- A step of the worker keeps the ledger. -/
theorem workerStep (h : s.Ledger) (coherent : s.channel.Coherent)
    (step : s.workerStep = some t) : t.Ledger := by
  unfold System.workerStep at step
  obtain ⟨⟨c, k⟩, moved, rfl⟩ := Option.map_eq_some_iff.mp step
  rcases announcement_of_moves (Channel.moves_of_workerStep moved) with
    ⟨silent, failure_eq, finished_eq⟩ | ⟨announced, busy, finished, -⟩
  · exact h.quiet (by rw [silent, List.append_nil]) failure_eq finished_eq id
  · exact h.conclude (by rw [announced]) (coherent.unfinished_of_busy busy) finished rfl

/-- The first step of any call keeps the ledger. -/
theorem perform (h : s.Ledger) {call : Call α κ} (may : s.MayCall call) :
    (s.perform call).Ledger := by
  have controller : s.controller ≠ .gone := by
    simp [may.free]
  have quiet : ∀ t : System α κ, t.log = s.log → t.channel.cell.failure = s.channel.cell.failure →
      t.channel.cell.finished = s.channel.cell.finished → t.Ledger :=
    fun t log_eq failure_eq finished_eq =>
      h.quiet log_eq failure_eq finished_eq fun gone => absurd gone controller
  cases call with
  | wait =>
    simp only [System.perform]
    split_ifs
    · refine h.respond rfl (.other rfl ?_) rfl rfl controller (by simp)
      simp [Response.error?, errorOf?, Channel.holdingToken]
    · exact (quiet { s with controller := .waiting } rfl rfl rfl).lookForTurn (by simp)
  | resume order token =>
    obtain ⟨failure_eq, finished_eq⟩ := Channel.failure_resume s.channel order token
    have log_eq : (s.perform (.resume order token)).log =
        s.log ++ [.responded (.resume (s.channel.resume order token).1)] := by
      simp [System.perform, System.respond]
    have channel_eq : (s.perform (.resume order token)).channel =
        (s.channel.resume order token).2 := by
      simp [System.perform, System.respond]
    refine h.respond log_eq (.other rfl (Channel.resume_ne_solver s.channel order token)) ?_ ?_
      controller (by simp)
    · rw [channel_eq, failure_eq]
      rfl
    · rw [channel_eq, finished_eq]
  | isDone token =>
    refine h.respond rfl (.other rfl ?_) rfl rfl controller (by simp)
    simp only [Response.error?, Channel.isDone]
    split_ifs <;> simp [errorOf?]
  | state token =>
    refine h.respond rfl (.other rfl ?_) rfl rfl controller (by simp)
    simp only [Response.error?, Channel.state]
    split_ifs <;> simp [errorOf?]
  | join token =>
    simp only [System.perform]
    split_ifs with foreign
    · refine h.respond rfl (.other rfl ?_) rfl rfl controller (by simp)
      simp [Response.error?, errorOf?]
    · refine quiet _ (spend_log _ _) ?_ ?_
      · rw [spend_channel]
        rfl
      · rw [spend_channel]
        rfl
  | takeModel =>
    simp only [System.perform, Channel.takeModel]
    have silent : ∀ m, (Response.takeModel m : Response α).Honest s.channel.cell.failure := fun m =>
      .other rfl (by simp [Response.error?])
    split_ifs
    · exact h.respond rfl (silent _) rfl rfl controller (by simp)
    · exact h.respond rfl (silent _) rfl rfl controller (by simp)
  | recover => exact quiet _ rfl rfl rfl
  | drop => exact quiet _ rfl rfl rfl

/-- A step of any kind keeps the ledger. -/
theorem step (h : s.Ledger) (coherent : s.channel.Coherent) (step : s.Step t) : t.Ledger := by
  cases step with
  | progress progress =>
    cases progress with
    | worker step => exact h.workerStep coherent step
    | controller step => exact h.controllerStep coherent step
  | call call may => exact h.perform may
  | lose => exact h.quiet rfl rfl rfl id

end Ledger

/-- The log and the cell of a system that can come about fit together. -/
theorem Reachable.ledger (h : s.Reachable) : s.Ledger := by
  induction h with
  | start id m hooks memory => exact ledger_start id m hooks memory
  | step reached step ih => exact ih.step reached.inv.coherent step

/-! ### What the controller is told -/

/-- A failure is delivered exactly once. A worker finishes at most once. If it finishes with a
failure, then no response before tells of it; the first wait or join afterwards that is not refused
tells exactly that failure; and nothing that comes later, and no call of another kind, tells of a
failure. If it does not finish with a failure, nothing ever does. And while a token is alive no
failure waits to be delivered. -/
theorem failure_delivered_once (h : s.Reachable) :
    (∀ before failure after, s.log = before ++ .concluded failure :: after →
      ∀ other, .concluded other ∉ before ∧ .concluded other ∉ after) ∧
    (∀ before e after, s.log = before ++ .concluded (some e) :: after →
      (∀ response, .responded response ∈ before → ∀ e', response.error? ≠ some (.solver e')) ∧
      (∀ response, .responded response ∈ after → response.passes = false →
        ∀ e', response.error? ≠ some (.solver e')) ∧
      ∀ refused response later, after = refused ++ .responded response :: later →
        (∀ response', .responded response' ∈ refused → response'.passes = false) →
        response.passes = true →
          response.error? = some (.solver e) ∧
            ∀ response', .responded response' ∈ later → ∀ e', response'.error? ≠ some (.solver e')) ∧
    ((∀ e, .concluded (some e) ∉ s.log) →
      ∀ response, .responded response ∈ s.log → ∀ e, response.error? ≠ some (.solver e)) ∧
    (0 < s.tokens → s.channel.cell.failure = none) := by
  have once : ∀ before failure after, s.log = before ++ .concluded failure :: after →
      ∀ other, .concluded other ∉ before ∧ .concluded other ∉ after := by
    intro before failure after log_eq other
    have ordered := h.ledger.ordered
    rw [log_eq, List.pairwise_append] at ordered
    obtain ⟨-, ordered_after, ordered_before⟩ := ordered
    exact ⟨fun mem => ordered_before _ mem _ List.mem_cons_self,
      fun mem => (List.pairwise_cons.mp ordered_after).1 _ mem⟩
  have undelivered : 0 < s.tokens → s.channel.cell.failure = none := by
    intro alive
    exact h.inv.failure_none (h.inv.tokenOut_of_alive alive)
  refine ⟨once, ?_, h.ledger.honest.none_delivered, undelivered⟩
  intro before e after log_eq
  have once := once before (some e) after log_eq
  have honest := h.ledger.honest
  have ordered := h.ledger.ordered
  rw [log_eq] at honest ordered
  obtain ⟨honest_before, honest_after⟩ := honestFrom_append.mp honest
  replace honest_after : HonestFrom (some e) after := honest_after
  refine ⟨?_, ?_, ?_⟩
  · exact honest_before.none_delivered fun e' => (once _).1
  · intro response mem refused
    exact honest_after.refused mem refused
  rintro refused response later rfl none_passes passes
  have open_ : ∀ failure, .concluded failure ∉ refused := fun failure mem =>
    (once failure).2 (List.mem_append_left _ mem)
  have kept : .responded .drop ∉ refused := fun dropped => by
    -- a channel that was dropped would not have responded
    have ordered_after := (List.pairwise_cons.mp (List.pairwise_append.mp ordered).2.1).2
    exact (List.pairwise_append.mp ordered_after).2.2 _ dropped _ List.mem_cons_self
  obtain ⟨delivered, honest_later⟩ := honest_after.first_passes open_ kept none_passes passes
  refine ⟨delivered, honest_later.none_delivered fun e' mem => ?_⟩
  exact (once _).2 (List.mem_append_right _ (List.mem_cons_of_mem _ mem))

/-- The error of a solve that cannot install its callback comes with the first wait, and not with
the second. -/
theorem installed_delivered : ∃ s : System Rat Unit, s.Reachable ∧
    (∃ first second, s.log = [.concluded (some .callbackInstalled), .responded first,
        .responded second] ∧ first.error? = some (.solver .callbackInstalled) ∧
      ∀ e, second.error? ≠ some (.solver e)) ∧
    s.tokens = 1 ∧ s.channel.cell.failure = none := by
  have started : (start 1 { Model.ofProblem Problem.pair with hooks := some {} } {} () :
      System Rat Unit).Reachable := .start _ _ _ _
  have begun := started.step (.progress (.worker rfl))
  have concluded := begun.step (.progress (.worker rfl))
  have failed := concluded.step (.call .wait (mayCall_wait rfl))
  have waited := failed.step (.call .wait (mayCall_wait rfl))
  obtain ⟨-, delivered, -, undelivered⟩ := failure_delivered_once waited
  obtain ⟨-, -, once⟩ := delivered [] .callbackInstalled _ rfl
  obtain ⟨first, later⟩ := once [] _ _ rfl (fun _ mem => absurd mem List.not_mem_nil) rfl
  exact ⟨_, waited, ⟨_, _, rfl, first, later _ (List.mem_singleton_self _)⟩, rfl,
    undelivered Nat.one_pos⟩

end System
end Milp
