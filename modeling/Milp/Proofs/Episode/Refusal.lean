import Milp.Episode.Dynamics
import Milp.Proofs.Episode.Acceptance

/-!
# Episodes in which nothing is refused

What a dynamics and its session come to in an episode (`Dynamics.Comes`), and how it is shown that
no episode ever reports a refusal (`Dynamics.NeverRefused.of_keeps`): a relation of dynamics and
session that resets lead to and that steps keep.
-/

namespace Milp

open Scalar

/-- Whether something failed in an episode because the solver refused what was decided. -/
def Attempt.ReportsRefusal {α β : Type} (x : Attempt (EpisodeError α) β) : Prop :=
  ∃ e, x = .error (.error e) ∧ e.IsRefusal

section

variable {α δ action β : Type} [Dynamics α δ action β]

/-- Where the episodes of a dynamics on a model come to: it is reset in any state on the idle model,
and then takes any actions. -/
inductive Dynamics.Comes (m : Model α) : δ → EpisodeSession α → Prop
  | reset (b : δ) : Comes m (Dynamics.reset b (Session.idle m)).2.1
      (Dynamics.reset b (Session.idle m)).2.2
  | step {b : δ} {s : EpisodeSession α} (a : action) (comes : Comes m b s) :
      Comes m (Dynamics.step b s a).2.1 (Dynamics.step b s a).2.2

variable (δ) in
/-- Whether no episode of a dynamics on a model ever reports that the solver refused a decision. -/
structure Dynamics.NeverRefused (m : Model α) : Prop where
  reset : ∀ b : δ, ¬(Dynamics.reset b (Session.idle m)).1.ReportsRefusal
  step : ∀ (b : δ) (s : EpisodeSession α), Comes m b s → ∀ a : action,
    ¬(Dynamics.step b s a).1.ReportsRefusal

/-- Whether a reset or a step reports no refusal and leaves dynamics and session in a relation. -/
def DynamicsResult.Keeps (holds : δ → EpisodeSession α → Prop) (r : DynamicsResult δ α β) : Prop :=
  ¬r.1.ReportsRefusal ∧ holds r.2.1 r.2.2

variable {m : Model α} {holds : δ → EpisodeSession α → Prop}

/-- A relation that resets lead to and steps keep holds throughout all episodes. -/
theorem Dynamics.Comes.keeps (reset : ∀ b : δ, (Dynamics.reset b (Session.idle m)).Keeps holds)
    (step : ∀ (b : δ) (s : EpisodeSession α) (a : action), holds b s →
      (Dynamics.step b s a).Keeps holds) {b : δ} {s : EpisodeSession α} (comes : Comes m b s) :
    holds b s := by
  induction comes with
  | reset b => exact (reset b).2
  | step a _ ih => exact (step _ _ a ih).2

/-- Then nothing is ever refused in them. -/
theorem Dynamics.NeverRefused.of_keeps
    (reset : ∀ b : δ, (Dynamics.reset b (Session.idle m)).Keeps holds)
    (step : ∀ (b : δ) (s : EpisodeSession α) (a : action), holds b s →
      (Dynamics.step b s a).Keeps holds) : NeverRefused δ m where
  reset b := (reset b).1
  step b s comes a := (step b s a (comes.keeps reset step)).1

end

namespace Attempt

variable {α β : Type}

/-- What succeeds reports nothing. -/
theorem not_reportsRefusal_ok (b : β) : ¬ReportsRefusal (α := α) (.ok b) := nofun

/-- What fails for another reason reports no refusal. -/
theorem not_reportsRefusal_fail {e : EpisodeError α} (h : ¬e.IsRefusal) :
    ¬ReportsRefusal (β := β) (Attempt.fail e) := by
  rintro ⟨e', eq, refusal⟩
  cases eq
  exact h refusal

/-- A solve that is not refused anything does not report that either. -/
theorem Unrefused.not_reportsRefusal {x : Attempt (SolverError α) β} (h : x.Unrefused) :
    ¬(x.mapError EpisodeError.ofSolver).ReportsRefusal := by
  rintro ⟨e, eq, refusal⟩
  cases x with
  | ok b => cases eq
  | error cause =>
    cases cause with
    | error cause =>
      cases eq
      exact h _ rfl ((EpisodeError.isRefusal_ofSolver cause).mp refusal)
    | crash c => cases eq

/-- What is made of a success does not matter. -/
theorem not_reportsRefusal_map {γ : Type} {x : Attempt (EpisodeError α) β} (h : ¬x.ReportsRefusal)
    (f : β → γ) : ¬ReportsRefusal (x.map f) := by
  rintro ⟨e, eq, refusal⟩
  cases x with
  | ok b => cases eq
  | error cause =>
    cases eq
    exact h ⟨e, rfl, refusal⟩

end Attempt

/-! ### Which decision point it is -/

namespace Decision.Branchable

variable {α : Type} [Scalar α] [Faithful α] {plan : Plan α} {d : Decision α}

/-- Who asks for branchings only is asked at the branching point. -/
theorem point_eq_branching (h : d.Branchable plan)
    (hooks : plan.hooks = some { branching := true }) : d.point = .branching := by
  have asked := h.asked
  rw [Plan.asksAt, hooks] at asked
  cases eq : d.point with
  | branching => rfl
  | heuristic =>
    rw [eq] at asked
    cases asked

/-- Who asks for heuristic decisions only is asked at the heuristic point. -/
theorem point_eq_heuristic (h : d.Branchable plan) {schedule : Schedule}
    (hooks : plan.hooks = some { heuristic := some schedule }) : d.point = .heuristic := by
  have asked := h.asked
  rw [Plan.asksAt, hooks] at asked
  cases eq : d.point with
  | heuristic => rfl
  | branching =>
    rw [eq] at asked
    cases asked

end Decision.Branchable

end Milp
