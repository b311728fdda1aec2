import Milp.Proofs.Episode.Forgetting

/-!
# The phases of an environment

An environment holds a session exactly while an action is awaited or the episode has ended
(`Environment.Settled`). Every call that returns leaves it so: one that fails poisons the
environment, one that gives a transition has a session to show (`Environment.Lands.settled`). So it
is so after every run of calls, unless the last of them has crashed, and nothing that went wrong
before keeps a reset from going as on a new environment (`Environment.phase_settled`).
-/

namespace Milp

variable {α δ action β : Type}

namespace Environment

/-- A session is held exactly while an action is awaited or the episode has ended. -/
def Settled (e : Environment α δ) : Prop :=
  e.session.isSome = true ↔ e.phase = .awaitingAction ∨ e.phase = .terminal

variable [Scalar α] [Dynamics α δ action β] {e e₀ : Environment α δ} {call : Call α action}

/-- A call that returns leaves a session exactly where the phase says so. -/
theorem Lands.settled {result : Result α δ β} (lands : e.Lands call result)
    (returned : ∀ c, result.1 ≠ .error (.crash c)) : result.2.Settled := by
  cases lands with
  | fails kept poisoned ended => simp [Settled, poisoned, ended]
  | crashes kept => exact absurd rfl (returned _)
  | arrives kept reached shown done_eq actions_eq phase_eq session_eq =>
    simp only [Settled, phase_eq, session_eq, Option.isSome_some, true_iff]
    split
    · exact .inr rfl
    · exact .inl rfl

/-- After any calls of which the last has returned, a session is held exactly where the phase says
so. -/
theorem Comes.settled {answers : List (Attempt (EpisodeError α) (Transition α β))}
    (comes : e₀.Comes answers e) (settled : e₀.Settled)
    (returned : ∀ c, answers.getLast? ≠ some (.error (.crash c))) : e.Settled := by
  induction comes with
  | begin => exact settled
  | seed _ seed ih => exact ih returned
  | call _ call _ =>
    apply (lands _ call).settled
    simpa using returned

/-- The phases of an environment. After every run of seeds, resets and steps, from a new environment
on, whatever the dynamics, the loading and the solves made of them:

* A session is held exactly while an action is awaited or the episode has ended, if the last call
  has returned.
* The seed moves on by one with every reset that is given a model, and with no other call.
* A call that fails poisons the environment and leaves no session.
* A step gives a transition only while an action is awaited. Every transition shows the session that
  is held then. It is the end of the episode exactly if the dynamics or the termination says so;
  then there are no actions, and the phase tells it.
* If the dynamics is forgetful, a reset agrees with one on the new environment with the same seed. -/
theorem phase_settled (created : e₀.phase = .created) (unheld : e₀.session = none)
    {answers : List (Attempt (EpisodeError α) (Transition α β))} (comes : e₀.Comes answers e) :
    ((∀ c, answers.getLast? ≠ some (.error (.crash c))) →
      (e.session.isSome = true ↔ e.phase = .awaitingAction ∨ e.phase = .terminal)) ∧
    (∀ (call : Call α action) (answer : Attempt (EpisodeError α) (Transition α β))
      (e' : Environment α δ), e.perform call = (answer, e') →
      e'.seed = (match call with
        | .reset (.ok _) => e.seed + 1
        | _ => e.seed) ∧
      (∀ cause, answer = .error (.error cause) → e'.phase = .poisoned ∧ e'.session = none) ∧
      (∀ t, answer = .ok t →
        (∀ a, call = .step a → e.phase = .awaitingAction) ∧
        (∃ outcome session s, e.Reaches call outcome session ∧ session.snapshot = .ok s ∧
          e'.session = some session ∧
          (t.done = true ↔ outcome.done = true ∨ e.extraction.termination.ends s = true)) ∧
        (t.done = true → t.actions = none) ∧
        e'.phase = if t.done then .terminal else .awaitingAction)) ∧
    (∀ (ο : Type) (options : δ → ο), Dynamics.Forgetful α options → ∀ m : Model α,
      Attempt.Agree (e.reset m) ((e₀.reseed e.seed).reset m)) := by
  refine ⟨comes.settled (by simp [Settled, created, unheld]), ?_, ?_⟩
  · intro call answer e' made
    have lands := lands e call
    rw [made] at lands
    refine ⟨lands.kept.seed_eq, ?_, ?_⟩
    · rintro cause rfl
      cases lands with
      | fails kept poisoned ended => exact ⟨poisoned, ended⟩
    · rintro t rfl
      cases lands with
      | arrives kept reached shown done_eq actions_eq phase_eq session_eq =>
        refine ⟨?_, ⟨_, _, _, reached, shown, session_eq, ?_⟩, ?_, phase_eq⟩
        · rintro a rfl
          cases reached with
          | step awaiting => exact awaiting
        · rw [done_eq, Bool.or_eq_true, or_comm]
        · intro done
          rw [actions_eq, if_pos done]
  · intro ο options forgetful m
    have alike := ((comes.alike forgetful).symm.reseed e.seed).symm
    exact reset_agrees forgetful alike rfl m

/-- A new environment of branching. -/
def newBranching (seed : UInt64) : Environment Rat BranchingDynamics := { dynamics := {}, seed }

/-- A new environment after a step, which is not allowed. -/
def misstepped (seed : UInt64) : Result Rat BranchingDynamics (List Var) :=
  (newBranching seed).perform (.step .bySolver)

/-- One step from a new environment to a misstep. -/
theorem misstepped_comes (seed : UInt64) :
    (newBranching seed).Comes ([] ++ [(misstepped seed).1]) (misstepped seed).2 :=
  Comes.begin.call (.step .bySolver)

/-- What comes of a reset on the pair after a misstep. -/
def recovered : Result Rat BranchingDynamics (List Var) :=
  (misstepped 3).2.perform (.reset (.ok (.ofProblem .pair)))

/-- A step of a new environment poisons it. A reset on the pair then goes to the first decision as on
a new environment. -/
theorem pair_phases :
    (misstepped 3).2.phase = .poisoned ∧ (misstepped 3).2.session = none ∧
    (∃ t, recovered.1 = .ok t ∧ t.done = false) ∧ recovered.2.phase = .awaitingAction ∧
    recovered.2.seed = 4 ∧
    Attempt.Agree ((misstepped 3).2.reset (.ofProblem .pair))
      (((newBranching 3).reseed 3).reset (.ofProblem .pair)) := by
  obtain ⟨held_iff, calls, fresh⟩ := phase_settled rfl rfl (misstepped_comes 3)
  have poisoned : (misstepped 3).2.phase = .poisoned := rfl
  have unheld : (misstepped 3).2.session = none := by
    have held_iff := held_iff (by rintro c ⟨⟩)
    simpa [poisoned] using held_iff
  have awaits : (recovered.1.toOption.map (·.done)) = some false := by decide +kernel
  have agree := fresh _ _ BranchingDynamics.forgetful (.ofProblem .pair)
  unfold recovered at awaits ⊢
  rcases made : (misstepped 3).2.perform (.reset (.ok (.ofProblem .pair))) with ⟨cause | t, e'⟩
  · rw [made] at awaits
    cases awaits
  · rw [made] at awaits
    have unfinished : t.done = false := Option.some.inj awaits
    obtain ⟨seed_eq, -, arrives⟩ := calls _ _ _ made
    obtain ⟨-, -, -, phase_eq⟩ := arrives t rfl
    rw [unfinished] at phase_eq
    exact ⟨poisoned, unheld, ⟨t, rfl, unfinished⟩, phase_eq, seed_eq, agree⟩

end Environment
end Milp
