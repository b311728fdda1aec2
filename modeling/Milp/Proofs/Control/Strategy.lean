import Mathlib.Logic.Function.Iterate
import Mathlib.Logic.Relation
import Milp.Control.Interleaving

/-!
# Solving with a strategy

A strategy answers the snapshots that were shown so far with an order. A model can be solved with it
in two ways.

* Directly: the model has a callback that makes a snapshot, asks the strategy, carries its order
  out, and does so again while the order holds (`Strategy.callback`). `Course` is this solve turn by
  turn, where each round of the callback is a turn; `Model.solveWithin_of_course` says that a solve
  with the callback goes where its course goes.
* On a channel: a controller waits for its turn, looks at the snapshot and resumes the worker with
  the order for it, until the worker has finished; then it joins the worker and takes the model
  (`Strategy.next?`, `Strategy.Step`). The worker and the controller go on in any order.

What a controller comes to know on a channel is compared with the direct solve by `System.Mirrors`.
-/

namespace Milp

variable {α κ : Type}

/-- The order for the last of the snapshots that were shown. -/
abbrev Strategy (α κ : Type) : Type := List (Snapshot α) → Order α κ

/-! ### Solving directly -/

namespace Model

/-- A model with a callback for the given decisions. -/
def hooked (m : Model α) (hooks : Hooks) : Model α := { m with hooks := some hooks }

/-- A callback can be installed where there is none. -/
theorem install_of_bare {m : Model α} (bare : m.hooks = none) (hooks : Hooks) :
    m.install hooks = .ok (m.hooked hooks) := by
  rw [install, bare]
  rfl

variable [Scalar α] {μ : Type}

/-- Solves a model with a handler for its decisions, in at most so many turns. -/
def solveWithin (m : Model α) (turns : Nat) (handler : Handler α μ) (memory : μ) :
    SolveReport α μ :=
  match m.opening with
  | .over result => ⟨m, result, memory, #[]⟩
  | .entered plan turn =>
    let (turn, memory) := plan.drive handler turns turn memory
    let (model, result) := m.close turn
    ⟨model, result, memory, turn.journal⟩

/-- A solve is one in no more turns than a search may take. -/
theorem solve_eq_solveWithin (m : Model α) (handler : Handler α μ) (memory : μ) :
    m.solve handler memory = m.solveWithin patience handler memory := rfl

end Model

namespace Strategy

variable [Scalar α] (strategy : Strategy α κ)

/-- One round of the callback: makes a snapshot, asks the strategy and carries its order out. The
snapshots so far are remembered beside what actions remember. -/
def round (plan : Plan α) (d : Decision α) (memory : List (Snapshot α) × κ) :
    Attempt (SolverError α) Resolution × Decision α × (List (Snapshot α) × κ) :=
  let seen := memory.1 ++ [d.snapshot plan]
  match strategy seen with
  | .leave => (.ok (.choose .didNotRun), d, seen, memory.2)
  | .act action =>
    let (reply, d, k) := action plan d memory.2
    (reply, d, seen, k)

/-- The callback that makes rounds until an order does not hold, and gives up after so many. -/
def callback : Nat → Handler α (List (Snapshot α) × κ)
  | 0 => fun _ d memory => (.error (.crash .silent), d, memory)
  | rounds + 1 => fun plan d memory =>
    match strategy.round plan d memory with
    | (.ok (.choose choice), d, memory) => (.ok choice, d, memory)
    | (.ok .hold, d, memory) => callback rounds plan d memory
    | (.error cause, d, memory) => (.error cause, d, memory)

end Strategy

/-- Goes on from a decision point after a round there. An order that holds leaves the search at the
decision point. -/
def Plan.afterRound [Scalar α] (plan : Plan α) (d : Decision α) :
    Attempt (SolverError α) Resolution → Turn α
  | .ok (.choose choice) => plan.answer d choice
  | .ok .hold => .ask d
  | .error cause => .failed cause d.search

/-- Where a direct solve is, with the snapshots so far and what actions remember. -/
inductive Course (α κ : Type) where
  | searching (m : Model α) (plan : Plan α) (turn : Turn α) (memory : List (Snapshot α) × κ)
  | ended (m : Model α) (result : Attempt (SolverError α) SolveStatus)
      (memory : List (Snapshot α) × κ)

namespace Course

variable [Scalar α]

/-- The beginning of a direct solve. -/
def start (m : Model α) (k : κ) : Course α κ :=
  match m.opening with
  | .over result => .ended m result ([], k)
  | .entered plan turn => .searching m plan turn ([], k)

/-- The next turn of a direct solve. At a decision point it is one round of the callback. -/
def next (strategy : Strategy α κ) : Course α κ → Course α κ
  | .searching m plan (.proceed s) memory => .searching m plan (plan.advance s) memory
  | .searching m plan (.ask d) memory =>
    let (reply, d, memory) := strategy.round plan d memory
    .searching m plan (plan.afterRound d reply) memory
  | .searching m _ turn memory => .ended (m.close turn).1 (m.close turn).2 memory
  | .ended m result memory => .ended m result memory

/-- The solve of a model with a strategy after some turns. -/
def after (strategy : Strategy α κ) (m : Model α) (k : κ) (turns : Nat) : Course α κ :=
  (next strategy)^[turns] (start m k)

/-- The snapshots so far and what actions remember. -/
def memory : Course α κ → List (Snapshot α) × κ
  | .searching _ _ _ memory | .ended _ _ memory => memory

/-- Whether a direct solve is over. -/
def IsOver (course : Course α κ) : Prop := ∃ m result memory, course = .ended m result memory

instance : DecidablePred (IsOver : Course α κ → Prop) := fun course =>
  match course with
  | .searching .. => isFalse fun ⟨_, _, _, h⟩ => nomatch h
  | .ended m result memory => isTrue ⟨m, result, memory, rfl⟩

variable {strategy : Strategy α κ} {m m' : Model α} {plan : Plan α} {turn : Turn α}
  {d : Decision α} {k : κ} {memory memory' : List (Snapshot α) × κ}
  {result : Attempt (SolverError α) SolveStatus}

omit [Scalar α] in
/-- A solve that goes on is not over. -/
theorem not_isOver_searching : ¬ (searching m plan turn memory).IsOver :=
  fun ⟨_, _, _, h⟩ => nomatch h

/-- The next turn of a direct solve comes after those so far. -/
theorem after_succ (n : Nat) : after strategy m k (n + 1) = next strategy (after strategy m k n) :=
  Function.iterate_succ_apply' _ _ _

/-- A solve that is over stays as it is. -/
theorem iterate_next_ended (n : Nat) :
    (next strategy)^[n] (.ended m result memory) = .ended m result memory :=
  Function.iterate_fixed rfl n

/-- A solve that is over is the same after any more turns. -/
theorem after_of_ended {n : Nat} (ends : after strategy m k n = .ended m' result memory) {n' : Nat}
    (more : n ≤ n') : after strategy m k n' = .ended m' result memory := by
  obtain ⟨j, rfl⟩ := Nat.exists_eq_add_of_le' more
  rw [after, Function.iterate_add_apply]
  exact (congrArg _ ends).trans (iterate_next_ended j)

/-- A solve that is over after some turns is over after any more of them. -/
theorem IsOver.of_le {n n' : Nat} (ends : (after strategy m k n).IsOver) (more : n ≤ n') :
    (after strategy m k n').IsOver := by
  obtain ⟨m', result, memory, ends⟩ := ends
  exact ⟨m', result, memory, after_of_ended ends more⟩

/-- A course that is over some time from a decision point leaves it after some rounds, and a
callback that may make more rounds than those leaves it in the same way. -/
theorem exists_resolve {n : Nat}
    (ends : (next strategy)^[n] (.searching m plan (.ask d) memory) = .ended m' result memory') :
    ∃ j < n, ∃ reply d' memory₁,
      (∀ rounds > j, strategy.callback rounds plan d memory = (reply, d', memory₁)) ∧
      (next strategy)^[j + 1] (.searching m plan (.ask d) memory) =
        .searching m plan (plan.resolve d' reply) memory₁ := by
  induction n generalizing d memory with
  | zero => cases ends
  | succ n ih =>
    have next_eq : next strategy (.searching m plan (.ask d) memory) = .searching m plan
        (plan.afterRound (strategy.round plan d memory).2.1 (strategy.round plan d memory).1)
        (strategy.round plan d memory).2.2 := rfl
    have callback_eq : ∀ rounds, strategy.callback (rounds + 1) plan d memory =
        match strategy.round plan d memory with
        | (.ok (.choose choice), d, memory) => (.ok choice, d, memory)
        | (.ok .hold, d, memory) => strategy.callback rounds plan d memory
        | (.error cause, d, memory) => (.error cause, d, memory) := fun _ => rfl
    rw [Function.iterate_succ_apply, next_eq] at ends
    -- the round that is made first either holds or settles the decision
    generalize strategy.round plan d memory = made at next_eq callback_eq ends
    obtain ⟨reply, d₁, memory₁⟩ := made
    match reply with
    | .ok (.choose choice) =>
      refine ⟨0, Nat.succ_pos n, .ok choice, d₁, memory₁, fun rounds some_left => ?_, next_eq⟩
      obtain ⟨r, rfl⟩ := Nat.exists_eq_succ_of_ne_zero (Nat.ne_of_gt some_left)
      exact callback_eq r
    | .ok .hold =>
      obtain ⟨j, before, reply, d', memory₂, calls, gets⟩ := ih ends
      refine ⟨j + 1, Nat.succ_lt_succ before, reply, d', memory₂, fun rounds some_left => ?_, ?_⟩
      · obtain ⟨r, rfl⟩ := Nat.exists_eq_succ_of_ne_zero (Nat.ne_zero_of_lt some_left)
        exact (callback_eq r).trans (calls r (Nat.lt_of_succ_lt_succ some_left))
      · rw [Function.iterate_succ_apply, next_eq]
        exact gets
    | .error cause =>
      refine ⟨0, Nat.succ_pos n, .error cause, d₁, memory₁, fun rounds some_left => ?_, next_eq⟩
      obtain ⟨r, rfl⟩ := Nat.exists_eq_succ_of_ne_zero (Nat.ne_of_gt some_left)
      exact callback_eq r

/-- A search that is driven with the callback comes to where its course comes. -/
theorem drive_of_iterate {n : Nat}
    (ends : (next strategy)^[n] (.searching m plan turn memory) = .ended m' result memory')
    {turns rounds : Nat} (enough : n ≤ turns) (enough' : n ≤ rounds) :
    m.close (plan.drive (strategy.callback rounds) turns turn memory).1 = (m', result) ∧
      (plan.drive (strategy.callback rounds) turns turn memory).2 = memory' := by
  induction n using Nat.strongRecOn generalizing turn memory turns with
  | ind n ih =>
    cases n with
    | zero => cases ends
    | succ n =>
      obtain ⟨t, rfl⟩ := Nat.exists_eq_succ_of_ne_zero (Nat.ne_zero_of_lt enough)
      have fewer : n ≤ t := Nat.le_of_succ_le_succ enough
      cases turn with
      | proceed s =>
        rw [Function.iterate_succ_apply] at ends
        exact ih n (Nat.lt_succ_self n) ends fewer (Nat.le_of_succ_le enough')
      | ask d =>
        obtain ⟨j, before, reply, d', memory₁, calls, gets⟩ := exists_resolve ends
        have rest : (next strategy)^[n - j]
            (.searching m plan (plan.resolve d' reply) memory₁) = .ended m' result memory' := by
          rw [← gets, ← Function.iterate_add_apply]
          exact (congrArg (fun i => (next strategy)^[i] _) (by omega)).trans ends
        have driven : plan.drive (strategy.callback rounds) (t + 1) (.ask d) memory =
            plan.drive (strategy.callback rounds) t (plan.resolve d' reply) memory₁ := by
          simp only [Plan.drive, calls rounds (by omega)]
        rw [driven]
        exact ih (n - j) (by omega) rest (by omega) (by omega)
      | ended status dualBound s =>
        rw [Function.iterate_succ_apply] at ends
        cases (iterate_next_ended n).symm.trans ends
        exact ⟨rfl, rfl⟩
      | failed cause s =>
        rw [Function.iterate_succ_apply] at ends
        cases (iterate_next_ended n).symm.trans ends
        exact ⟨rfl, rfl⟩

end Course

/-- A solve with the callback of a strategy comes to where its course comes, if it may take as many
turns and make as many rounds. -/
theorem Model.solveWithin_of_course [Scalar α] {strategy : Strategy α κ} {m m' : Model α} {k : κ}
    {result : Attempt (SolverError α) SolveStatus} {memory : List (Snapshot α) × κ} {n : Nat}
    (ends : Course.after strategy m k n = .ended m' result memory) {turns rounds : Nat}
    (enough : n ≤ turns) (enough' : n ≤ rounds) :
    let report := m.solveWithin turns (strategy.callback rounds) ([], k)
    report.model = m' ∧ report.result = result ∧ report.memory = memory := by
  simp only [Course.after, Course.start] at ends
  simp only [Model.solveWithin]
  split at ends
  next result' opens =>
    cases (Course.iterate_next_ended n).symm.trans ends
    exact ⟨rfl, rfl, rfl⟩
  next plan turn opens =>
    obtain ⟨closes, remembers⟩ := Course.drive_of_iterate ends enough enough'
    simp only [closes, remembers, and_self]

/-! ### Solving on a channel -/

/-- The snapshot that a response shows. -/
def Response.snapshot? : Response α → Option (Snapshot α)
  | .state (.ok snapshot) => some snapshot
  | _ => none

namespace System

variable (s : System α κ)

/-- What the calls so far gave back. -/
def responses : List (Response α) :=
  s.log.filterMap fun
    | .responded response => some response
    | .concluded _ => none

/-- The snapshots that the controller was shown. -/
def shown : List (Snapshot α) := s.responses.filterMap Response.snapshot?

/-- The errors that the controller was told. -/
def told : List (ControlError α) := s.responses.filterMap Response.error?

/-- A response comes after those so far. -/
theorem responses_respond (r : Response α) :
    (s.respond r).responses = s.responses ++ [r] := by
  simp [responses, respond]

/-- Whether the controller has asked for the model in the end. -/
def IsOver : Prop := s.controller = .free ∧ ∃ m, s.responses.getLast? = some (.takeModel m)

/-- Whether the controller has come to know what a direct solve reports: the snapshots, the error,
and the model without its callback. -/
structure Mirrors (report : SolveReport α (List (Snapshot α) × κ)) : Prop where
  shown_eq : s.shown = report.memory.1
  memory_eq : s.memory = report.memory.2
  told_eq : s.told = (SolverError.ofResult? report.result).toList.map .solver
  taken_eq : s.responses.getLast? = some (.takeModel (some report.model.uninstall))

end System

namespace Strategy

/-- What a controller with a strategy calls after a response. After a wait it looks whether the
worker has finished, or waits again if it was told a failure. As long as the worker has not
finished, it looks at the snapshot, resumes the worker and waits. In the end it joins the worker and
takes the model. -/
def reaction? (strategy : Strategy α κ) (token : Token) (shown : List (Snapshot α)) :
    Response α → Option (Call α κ)
  | .wait (.ok _) => some (.isDone token)
  | .isDone (.ok false) => some (.state token)
  | .state _ => some (.resume (strategy shown) token)
  | .resume _ | .wait (.error _) => some .wait
  | .isDone (.ok true) => some (.join token)
  | .join _ => some .takeModel
  | .isDone (.error _) | .takeModel _ | .recover _ | .drop => none

/-- What a controller with a strategy calls next. It begins with a wait. -/
def next? (strategy : Strategy α κ) (s : System α κ) : Option (Call α κ) :=
  s.responses.getLast?.elim (some .wait) (strategy.reaction? ⟨s.channel.id⟩ s.shown)

variable [Scalar α]

/-- A step of a channel with a controller that has a strategy: one of the two threads goes on, or
the controller makes its next call. -/
inductive Step (strategy : Strategy α κ) : System α κ → System α κ → Prop
  | progress {s t : System α κ} : s.Progress t → Step strategy s t
  | call {s : System α κ} {call : Call α κ} : s.controller = .free →
      strategy.next? s = some call → Step strategy s (s.perform call)

/-- Whether a controller with a strategy gets the model in at most so many steps, whichever of the
two threads goes on. -/
inductive Completes (strategy : Strategy α κ) : Nat → System α κ → Prop
  | ended {s : System α κ} (n : Nat) : s.IsOver → Completes strategy n s
  | later {s : System α κ} {n : Nat} : (∃ t, strategy.Step s t) →
      (∀ t, strategy.Step s t → Completes strategy n t) → Completes strategy (n + 1) s

end Strategy
end Milp
